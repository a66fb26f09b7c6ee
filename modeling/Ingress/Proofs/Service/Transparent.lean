import Ingress.Proofs.Service.Layers
/-!
Layers are transparent over whole runs. However a stack is polled, called and copied, the service
inside it goes through the same steps one by one and gives the answers; only the origins of the
requests are rewritten on the way in.
-/
namespace Ingress

namespace Service

variable {σ ρ α ε : Type}

namespace Step

def map (f : ρ → ρ) : Step ρ → Step ρ
  | .poll => .poll
  | .call r => .call (f r)
  | .clone => .clone

end Step

/-- A service that is called with what `f` makes of its requests. -/
def before (s : Service σ ρ α ε) (f : ρ → Logged Event ρ) : Service σ ρ α ε where
  poll := s.poll
  call x r := f r >>= s.call x
  clone := s.clone

theorem value_step_before (s : Service σ ρ α ε) (f : ρ → Logged Event ρ) (x : σ) (st : Step ρ) :
    ((s.before f).step x st).value = (s.step x (st.map fun r => (f r).value)).value := by
  cases st <;> rfl

theorem value_run_before (s : Service σ ρ α ε) (f : ρ → Logged Event ρ) (x : σ)
    (steps : List (Step ρ)) :
    ((s.before f).run x steps).value =
      (s.run x (steps.map (Step.map fun r => (f r).value))).value := by
  induction steps generalizing x with
  | nil => rfl
  | cons st steps ih =>
    simp only [run, List.map_cons, Logged.value_bind, Logged.value_pure]
    rw [value_step_before, ih]

/-- A service that keeps the steps it has gone through, the oldest first. -/
def recording (s : Service σ ρ α ε) : Service (σ × List (Step ρ)) ρ α ε where
  poll x := (fun (r, y) => (r, y, x.2 ++ [.poll])) <$> s.poll x.1
  call x r := (fun (a, y) => (a, y, x.2 ++ [.call r])) <$> s.call x.1 r
  clone x := (s.clone x.1, x.2 ++ [.clone])

theorem value_step_recording (s : Service σ ρ α ε) (x : σ) (past : List (Step ρ)) (st : Step ρ) :
    (s.recording.step (x, past) st).value =
      ((s.step x st).value.1, (s.step x st).value.2, past ++ [st]) := by
  cases st <;> rfl

theorem value_run_recording (s : Service σ ρ α ε) (x : σ) (past steps : List (Step ρ)) :
    (s.recording.run (x, past) steps).value =
      ((s.run x steps).value.1, (s.run x steps).value.2, past ++ steps) := by
  induction steps generalizing x past with
  | nil => simp [run]
  | cons st steps ih =>
    simp only [run, Logged.value_bind, Logged.value_pure]
    rw [value_step_recording, ih, List.append_assoc, List.singleton_append]

end Service

namespace Layers

variable {σ β χ α ε : Type}

theorem poll_around (s : Service σ (Request β χ) α ε) (ps : List TrustPolicy) (x : σ) :
    (service s ps.length).poll (around x ps) = (fun (r, y) => (r, around y ps)) <$> s.poll x := by
  induction ps with
  | nil => exact (id_map (s.poll x)).symm
  | cons p ps ih =>
    change (do
      let (r, inner) ← (service s ps.length).poll (around x ps)
      return (r, (⟨p, inner⟩ : Wrapped _))) = _
    rw [ih, bind_map_left, ← bind_pure_comp]
    rfl

theorem clone_around (s : Service σ (Request β χ) α ε) (ps : List TrustPolicy) (x : σ) :
    (service s ps.length).clone (around x ps) = around (s.clone x) ps := by
  induction ps with
  | nil => rfl
  | cons p ps ih => exact congrArg (Wrapped.mk p) ih

/-- One step of a stack is the same step of the service inside it, which is called with the request
that the stack hands on. -/
theorem step_around (s : Service σ (Request β χ) α ε) (ps : List TrustPolicy) (x : σ)
    (st : Service.Step (Request β χ)) :
    (service s ps.length).step (around x ps) st =
      (fun (answer, y) => (answer, around y ps)) <$>
        (s.before (Request.handOn · ps)).step x st := by
  cases st with
  | poll =>
    simp only [Service.step, Service.before]
    rw [poll_around, Functor.map_map, Functor.map_map]
  | call r =>
    simp only [Service.step, Service.before]
    rw [call_around]
    simp only [map_bind, bind_pure_comp, Functor.map_map]
  | clone =>
    simp only [Service.step, Service.before]
    rw [clone_around, map_pure]

theorem run_around (s : Service σ (Request β χ) α ε) (ps : List TrustPolicy) (x : σ)
    (steps : List (Service.Step (Request β χ))) :
    (service s ps.length).run (around x ps) steps =
      (fun (answers, y) => (answers, around y ps)) <$>
        (s.before (Request.handOn · ps)).run x steps := by
  induction steps generalizing x with
  | nil => simp [Service.run]
  | cons st steps ih =>
    simp only [Service.run, step_around, ih, map_bind, bind_map_left, map_pure]

/-- What a stack answers and where it ends is settled by its innermost layer and the service. -/
theorem value_run_concat (s : Service σ (Request β χ) α ε) (ps : List TrustPolicy) (p : TrustPolicy)
    (x : σ) (steps : List (Service.Step (Request β χ))) :
    ((service s (ps ++ [p]).length).run (around x (ps ++ [p])) steps).value =
      Prod.map id (around · (ps ++ [p]))
        (s.run x (steps.map (.map fun r => (p.attach r).value))).value := by
  have hf : (fun r : Request β χ => (r.handOn (ps ++ [p])).value) =
      fun r => (p.attach r).value := by
    funext r
    rw [r.value_handOn_concat, p.value_attach]
  rw [run_around, Logged.value_map, Service.value_run_before, hf]
  rfl

/-- A layer or a stack of layers answers each step as the service inside alone does, if that is
called with the same requests but for their origins: the innermost layer writes its own where it
resolves the request, and where it does not the origin is left as it came. The service goes through
the steps once each and ends in the same state, and the policies stay. -/
theorem run_stack_eq_run (s : Service σ (Request β χ) α ε) (ps : List TrustPolicy) (p : TrustPolicy)
    (x : σ) (steps : List (Service.Step (Request β χ))) :
    let stack := ps ++ [p]
    let rewritten := steps.map
      (.map fun r => { r with origin := (p.resolve r.view).value.toOption.or r.origin })
    let bare := (s.run x rewritten).value
    let outcome := ((service s stack.length).run (around x stack) steps).value
    let recorded := ((service s.recording stack.length).run (around (x, []) stack) steps).value
    (s.wrap.run ⟨p, x⟩ steps).value = (bare.1, ⟨p, bare.2⟩) ∧
      outcome.1 = bare.1 ∧ innermost stack.length outcome.2 = bare.2 ∧
      policies stack.length outcome.2 = stack ∧
      recorded.1 = bare.1 ∧ innermost stack.length recorded.2 = (bare.2, rewritten) := by
  intro stack rewritten bare outcome recorded
  have hr : steps.map (.map fun r => (p.attach r).value) = rewritten := by
    simp only [rewritten, p.value_attach]
  have hw : (s.wrap.run ⟨p, x⟩ steps).value = (bare.1, ⟨p, bare.2⟩) := by
    have h := value_run_concat s [] p x steps
    rwa [hr] at h
  have ho : outcome = (bare.1, around bare.2 stack) := by
    have h := value_run_concat s ps p x steps
    rwa [hr] at h
  have hc : recorded = (bare.1, around (bare.2, rewritten) stack) := by
    have h := value_run_concat s.recording ps p (x, []) steps
    rwa [hr, s.value_run_recording] at h
  rw [ho, hc, innermost_around, policies_around, innermost_around]
  exact ⟨hw, rfl, rfl, rfl, rfl, rfl⟩

end Layers
end Ingress
