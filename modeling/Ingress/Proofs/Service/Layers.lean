import Mathlib
import Ingress.Service.Echo
import Ingress.Proofs.Origin.Issued
import Ingress.Proofs.Resolution.Failure
/-!
What a stack of layers hands on to the service inside it. Each layer changes nothing but the origin
of a request, and all layers resolve it or none does, so that the innermost one settles which origin
arrives. Where none resolves, an origin that the request came with arrives as it was, and is not
taken off.
-/
namespace Ingress

variable {σ β χ α ε : Type}

namespace TrustPolicy

theorem value_attach (p : TrustPolicy) (r : Request β χ) :
    (p.attach r).value = { r with origin := (p.resolve r.view).value.toOption.or r.origin } := by
  rw [attach, Logged.value_bind]
  cases (p.resolve r.view).value with
  | ok o => rfl
  | error e => rfl

/-- A request that one policy cannot resolve is resolved by none. -/
theorem toOption_resolve_eq_none (p q : TrustPolicy) {v : View}
    (h : (p.resolve v).value.toOption = none) : (q.resolve v).value.toOption = none := by
  cases hp : (p.resolve v).value with
  | ok o =>
    rw [hp] at h
    cases h
  | error e =>
    rw [q.resolve_error_of_error hp]
    rfl

end TrustPolicy

namespace Request

/-- A request on its way in through layers with these policies, the outermost first. -/
def handOn (r : Request β χ) (ps : List TrustPolicy) : Logged Event (Request β χ) :=
  ps.foldlM (fun r p => p.attach r) r

theorem handOn_cons (r : Request β χ) (p : TrustPolicy) (ps : List TrustPolicy) :
    r.handOn (p :: ps) = p.attach r >>= fun r => r.handOn ps :=
  List.foldlM_cons

/-- The origin that arrives is the one of the innermost layer if that resolves the request, and else
the one that the request came with: the layers further out have then not resolved it either. -/
theorem value_handOn_concat (r : Request β χ) (ps : List TrustPolicy) (p : TrustPolicy) :
    (r.handOn (ps ++ [p])).value =
      { r with origin := (p.resolve r.view).value.toOption.or r.origin } := by
  induction ps generalizing r with
  | nil =>
    rw [List.nil_append, handOn_cons, Logged.value_bind, p.value_attach]
    rfl
  | cons q ps ih =>
    rw [List.cons_append, handOn_cons, Logged.value_bind, ih, q.value_attach]
    -- The outer layer has left the view as it was, so that the inner one resolves what it would
    -- have resolved alone.
    change ({ r with origin := (p.resolve r.view).value.toOption.or _ } : Request β χ) = _
    cases hp : (p.resolve r.view).value.toOption with
    | some o => rfl
    | none => rw [p.toOption_resolve_eq_none q hp, Option.none_or]

end Request

namespace Layers

/-- A stack calls the service inside it once, with the request that it hands on, and keeps its
policies. -/
theorem call_around (s : Service σ (Request β χ) α ε) (ps : List TrustPolicy) (x : σ)
    (r : Request β χ) :
    (service s ps.length).call (around x ps) r = do
      let r ← r.handOn ps
      let (answer, y) ← s.call x r
      return (answer, around y ps) := by
  induction ps generalizing r with
  | nil =>
    change s.call x r = pure r >>= fun r => s.call x r >>= pure
    rw [pure_bind, bind_pure]
  | cons p ps ih =>
    rw [Request.handOn_cons]
    change (do
      let r ← p.attach r
      let (answer, inner) ← (service s ps.length).call (around x ps) r
      return (answer, (⟨p, inner⟩ : Wrapped _))) = _
    simp only [ih, bind_assoc, pure_bind]
    rfl

/-- The service inside a stack is called with the request as it came, but for the origin of the
innermost layer. What it sees is that origin, and none if the request does not resolve, exactly for
requests that resolve or came with none. -/
theorem origin_of_call_around (s : Service σ (Request β χ) α ε) (ps : List TrustPolicy)
    (p : TrustPolicy) (x : σ) (r : Request β χ) :
    let result := (p.resolve r.view).value
    let seen : Request β χ := { r with origin := result.toOption.or r.origin }
    let stack := ps ++ [p]
    ((service s stack.length).call (around x stack) r).value =
        ((s.call x seen).value.1, around (s.call x seen).value.2 stack) ∧
      (seen.origin = result.toOption ↔ r.origin = none ∨ ∃ o, result = .ok o) := by
  intro result seen stack
  constructor
  · rw [call_around, Logged.value_bind, r.value_handOn_concat]
    rfl
  · cases hr : result with
    | ok o => simp [seen, hr, Except.toOption]
    | error e => simp [seen, hr, Except.toOption]

/-- A request without a host arrives with the origin that somebody else has put into it. -/
theorem origin_of_call_unresolved :
    let r : Request String Unit :=
      ⟨"GET", .relative ⟨"/app".toList, none⟩, [], "", some .loopback, ()⟩
    let seen := (Echo.service.wrap.call ⟨.trusting, .start []⟩ r).value.1.map (·.request.origin)
    (TrustPolicy.trusting.resolve r.view).value = .error .noHost ∧ seen = .ok (some .loopback) ∧
      seen ≠ .ok none := by
  intro r seen
  have hr : (TrustPolicy.trusting.resolve r.view).value = .error .noHost := by cbv
  have hs : seen = .ok (some .loopback) := by cbv
  refine ⟨hr, hs, ?_⟩
  rw [hs]
  simp

end Layers
end Ingress
