import Ingress.Proofs.Resolution.Trace
import Ingress.Proofs.Service.Innermost
import Ingress.Proofs.Service.Transparent
/-!
What a stack of layers writes to the log. Of every request each layer writes what its resolution
writes, or one warning where that fails, the outermost layer first; then comes what the service
inside writes. At the other steps of a run the layers write nothing.
-/
namespace Ingress

variable {σ β χ α ε : Type}

theorem Service.events_run_cons {ρ : Type} (s : Service σ ρ α ε) (x : σ) (st : Step ρ)
    (steps : List (Step ρ)) :
    (s.run x (st :: steps)).events =
      (s.step x st).events ++ (s.run (s.step x st).value.2 steps).events := by
  simp only [run, Logged.events_bind, Logged.events_pure, List.append_nil]

namespace TrustPolicy

theorem events_attach (p : TrustPolicy) (r : Request β χ) :
    (p.attach r).events =
      match (p.resolve r.view).value with
      | .ok _ => (p.resolve r.view).events
      | .error e => [.unresolved e r.uri] := by
  rw [attach, Logged.events_bind]
  cases hp : (p.resolve r.view).value with
  | ok o => exact List.append_nil _
  | error e =>
    rw [events_resolve_of_error hp]
    rfl

end TrustPolicy

namespace Request

/-- What is written about a request on its way through layers, the outermost first. -/
inductive Passage (r : Request β χ) : List TrustPolicy → List LogLine → Prop where
  | arrived : Passage r [] []
  | resolved {p : TrustPolicy} {ps : List TrustPolicy} {o : Origin} {front back : List LogLine}
      (ho : (p.resolve r.view).value = .ok o) (hf : p.Account r.view (.ok o) front)
      (hb : Passage r ps back) :
      Passage r (p :: ps) (front ++ back)
  | unresolved {p : TrustPolicy} {ps : List TrustPolicy} {e : RequestError} {back : List LogLine}
      (he : (p.resolve r.view).value = .error e) (hb : Passage r ps back) :
      Passage r (p :: ps)
        (⟨.warn, "unable to resolve external origin",
          [("error", e.message), ("uri", String.ofList r.uri.render)]⟩ :: back)

/-- Layers further in write about a request what they would write about the one that came. -/
theorem events_handOn (r : Request β χ) (ps : List TrustPolicy) :
    (r.handOn ps).events = ps.flatMap fun p => (p.attach r).events := by
  induction ps generalizing r with
  | nil => rfl
  | cons p ps ih =>
    rw [handOn_cons, Logged.events_bind, ih, List.flatMap_cons]
    refine congrArg _ (List.flatMap_congr fun q _ => ?_)
    rw [q.events_attach, q.events_attach, p.view_attach, p.value_attach]

theorem passage_handOn (r : Request β χ) (ps : List TrustPolicy) :
    r.Passage ps ((r.handOn ps).events.map Event.line) := by
  rw [events_handOn]
  induction ps with
  | nil => exact .arrived
  | cons p ps ih =>
    rw [List.flatMap_cons, List.map_append, p.events_attach]
    cases hp : (p.resolve r.view).value with
    | ok o =>
      have hf := p.account_resolve r.view
      rw [hp] at hf
      exact .resolved hp hf ih
    | error e => exact .unresolved hp ih

theorem Passage.unique {r : Request β χ} {ps : List TrustPolicy} {a b : List LogLine}
    (ha : r.Passage ps a) (hb : r.Passage ps b) : a = b := by
  induction ha generalizing b with
  | arrived =>
    cases hb with
    | arrived => rfl
  | resolved ho hf _ ih =>
    cases hb with
    | resolved hx kf kb =>
      cases ho.symm.trans hx
      rw [hf.unique kf, ih kb]
    | unresolved he _ => cases ho.symm.trans he
  | unresolved he _ ih =>
    cases hb with
    | resolved ho _ _ => cases he.symm.trans ho
    | unresolved hx kb =>
      cases he.symm.trans hx
      rw [ih kb]

theorem passage_iff {r : Request β χ} {ps : List TrustPolicy} {lines : List LogLine} :
    r.Passage ps lines ↔ (r.handOn ps).events.map Event.line = lines := by
  constructor
  · intro h
    exact (r.passage_handOn ps).unique h
  · intro h
    subst h
    exact r.passage_handOn ps

end Request

namespace Layers

/-- The log of a run: at a call what the layers write of the request stands in front of what the
service inside writes. -/
inductive Journal (s : Service σ (Request β χ) α ε) (ps : List TrustPolicy) :
    σ → List (Service.Step (Request β χ)) → List LogLine → Prop where
  | done (x : σ) : Journal s ps x [] []
  | poll {x : σ} {steps : List (Service.Step (Request β χ))} {back : List LogLine}
      (hb : Journal s ps (s.poll x).value.2 steps back) :
      Journal s ps x (.poll :: steps) ((s.poll x).events.map Event.line ++ back)
  | call {x : σ} {r : Request β χ} {steps : List (Service.Step (Request β χ))}
      {front back : List LogLine} (hf : r.Passage ps front)
      (hb : Journal s ps (s.call x (r.handOn ps).value).value.2 steps back) :
      Journal s ps x (.call r :: steps)
        (front ++ (s.call x (r.handOn ps).value).events.map Event.line ++ back)
  | clone {x : σ} {steps : List (Service.Step (Request β χ))} {back : List LogLine}
      (hb : Journal s ps (s.clone x) steps back) :
      Journal s ps x (.clone :: steps) back

variable {s : Service σ (Request β χ) α ε} {ps : List TrustPolicy} {x : σ}
  {steps : List (Service.Step (Request β χ))} {lines : List LogLine}

theorem journal_run (s : Service σ (Request β χ) α ε) (ps : List TrustPolicy) (x : σ)
    (steps : List (Service.Step (Request β χ))) :
    Journal s ps x steps
      (((s.before (Request.handOn · ps)).run x steps).events.map Event.line) := by
  induction steps generalizing x with
  | nil => exact .done x
  | cons st steps ih =>
    rw [Service.events_run_cons, List.map_append]
    cases st with
    | poll =>
      rw [Service.step, Logged.events_map]
      exact .poll (ih _)
    | call r =>
      rw [Service.step, Logged.events_map, Service.before, Logged.events_bind, List.map_append]
      exact .call (r.passage_handOn ps) (ih _)
    | clone => exact .clone (ih _)

theorem Journal.unique {a b : List LogLine} (ha : Journal s ps x steps a)
    (hb : Journal s ps x steps b) : a = b := by
  induction ha generalizing b with
  | done =>
    cases hb with
    | done => rfl
  | poll _ ih =>
    cases hb with
    | poll kb => rw [ih kb]
  | call hf _ ih =>
    cases hb with
    | call kf kb => rw [hf.unique kf, ih kb]
  | clone _ ih =>
    cases hb with
    | clone kb => exact ih kb

theorem journal_iff :
    Journal s ps x steps lines ↔
      ((service s ps.length).run (around x ps) steps).events.map Event.line = lines := by
  rw [run_around, Logged.events_map]
  constructor
  · intro h
    exact (journal_run s ps x steps).unique h
  · intro h
    subst h
    exact journal_run s ps x steps

/-- What is written is settled line by line: about a resolution by its outcome and the entries of
the headers, about a call of a stack layer by layer before the service inside writes anything, and
about a run of the stack step by step. -/
theorem lines_iff_journal (p : TrustPolicy) (v : View) (s : Service σ (Request β χ) α ε)
    (ps : List TrustPolicy) (x : σ) (r : Request β χ) (steps : List (Service.Step (Request β χ)))
    (lines : List LogLine) :
    (p.Account v (p.resolve v).value lines ↔ (p.resolve v).events.map Event.line = lines) ∧
      (r.Passage ps lines ↔
        ((service s ps.length).call (around x ps) r).events.map Event.line =
          lines ++ (s.call x (r.handOn ps).value).events.map Event.line) ∧
      (Journal s ps x steps lines ↔
        ((service s ps.length).run (around x ps) steps).events.map Event.line = lines) := by
  refine ⟨TrustPolicy.account_iff, ?_, journal_iff⟩
  have hcall : ((service s ps.length).call (around x ps) r).events =
      (r.handOn ps).events ++ (s.call x (r.handOn ps).value).events := by
    rw [call_around]
    simp only [Logged.events_bind, Logged.events_pure, List.append_nil]
  rw [hcall, List.map_append, List.append_left_inj, Request.passage_iff]

end Layers
end Ingress
