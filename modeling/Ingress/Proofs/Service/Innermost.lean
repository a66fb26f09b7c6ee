import Mathlib
import Ingress.Proofs.Service.Layers
/-!
A stack of layers acts as its innermost layer alone. The layers of a stack agree on whether a
request resolves, since a layer writes only the origin of a request and no resolution reads that.
-/
namespace Ingress

variable {σ β χ α ε : Type}

theorem TrustPolicy.view_attach (p : TrustPolicy) (r : Request β χ) :
    (p.attach r).value.view = r.view := by
  rw [value_attach]
  rfl

namespace Request

/-- What each layer of a stack makes of the request that reaches it, the outermost first. -/
def results (r : Request β χ) : List TrustPolicy → List (Except RequestError Origin)
  | [] => []
  | p :: ps => (p.resolve r.view).value :: (p.attach r).value.results ps

/-- No layer sees that another one was there before it. -/
theorem results_eq_map (r : Request β χ) (ps : List TrustPolicy) :
    r.results ps = ps.map fun p => (p.resolve r.view).value := by
  induction ps generalizing r with
  | nil => rfl
  | cons p ps ih => rw [results, ih, p.view_attach, List.map_cons]

theorem results_of_ok {r : Request β χ} {p : TrustPolicy} {o : Origin}
    (ho : (p.resolve r.view).value = .ok o) (ps : List TrustPolicy) :
    ∃ os : List Origin, r.results ps = os.map .ok := by
  refine ⟨ps.map fun q => (q.resolve r.view).value.toOption.getD o, ?_⟩
  rw [results_eq_map, List.map_map]
  refine List.map_congr_left fun q _ => ?_
  cases hq : (q.resolve r.view).value with
  | ok o' => simp [hq, Except.toOption]
  | error e => cases ho.symm.trans (p.resolve_error_of_error hq)

theorem results_of_error {r : Request β χ} {p : TrustPolicy} {e : RequestError}
    (he : (p.resolve r.view).value = .error e) (ps : List TrustPolicy) :
    r.results ps = ps.map fun _ => .error e := by
  rw [results_eq_map]
  exact List.map_congr_left fun q _ => q.resolve_error_of_error he

/-- Either all layers resolve a request and the origin of the innermost one arrives, or all fail
with the same error and the request arrives as it came. -/
theorem results_concat (r : Request β χ) (ps : List TrustPolicy) (p : TrustPolicy) :
    (∃ os o, r.results (ps ++ [p]) = (os ++ [o]).map .ok ∧
        (r.handOn (ps ++ [p])).value = { r with origin := some o }) ∨
      ∃ e, r.results (ps ++ [p]) = (ps ++ [p]).map (fun _ => .error e) ∧
        (r.handOn (ps ++ [p])).value = r := by
  rw [value_handOn_concat]
  cases hp : (p.resolve r.view).value with
  | ok o =>
    obtain ⟨os, hos⟩ := results_of_ok hp ps
    rw [results_eq_map] at hos
    refine .inl ⟨os, o, ?_, rfl⟩
    rw [results_eq_map, List.map_append, List.map_append, hos, List.map_singleton, hp,
      List.map_singleton]
  | error e => exact .inr ⟨e, results_of_error hp (ps ++ [p]), rfl⟩

end Request

namespace Layers

/-- A stack calls the service inside it once, as its innermost layer alone does and with the same
request. The request has the origin of that layer where all layers resolve, and else no layer
resolves and it is the one that came. -/
theorem call_around_eq_wrap (s : Service σ (Request β χ) α ε) (ps : List TrustPolicy)
    (p : TrustPolicy) (x : σ) (r : Request β χ) :
    let stack := ps ++ [p]
    let seen := (r.handOn stack).value
    (service s stack.length).call (around x stack) r =
        (r.handOn stack >>= fun r => s.call x r >>= fun (answer, y) =>
          pure (answer, around y stack)) ∧
      s.wrap.call ⟨p, x⟩ r =
        (p.attach r >>= fun r => s.call x r >>= fun (answer, y) => pure (answer, ⟨p, y⟩)) ∧
      (p.attach r).value = seen ∧
      ((∃ os o, r.results stack = (os ++ [o]).map .ok ∧ seen = { r with origin := some o }) ∨
        ∃ e, r.results stack = stack.map (fun _ => .error e) ∧ seen = r) := by
  intro stack seen
  refine ⟨call_around s stack x r, rfl, ?_, r.results_concat ps p⟩
  calc
    (p.attach r).value = { r with origin := (p.resolve r.view).value.toOption.or r.origin } :=
      p.value_attach r
    _ = seen := (r.value_handOn_concat ps p).symm

end Layers
end Ingress
