import Ingress.Session.Store
/-!
Runs of a session as uses of its store. Every step is one use, and a run leaves the store in the
state to which these uses lead when they are replayed. A map between stores that respects their uses
respects the runs, events included, so that different stores of one session need not be told apart.
-/
namespace Ingress.Session

variable {σ τ ν : Type}

/-! One use a step -/

/-- The use that a step makes of the store. -/
def Step.use : Step ν → Use ν
  | .get key => .get key
  | .insert key value => .insert key value
  | .erase key => .erase key
  | .clear key => .erase key
  | .update key (.set value) => .insert key value
  | .update key .clear => .erase key

def Use.apply [Session σ ν] (s : σ) : Use ν → σ
  | .get key => (Session.get s key).2
  | .insert key value => Session.insert s key value
  | .erase key => (Session.erase s key).2

def replay [Session σ ν] (s : σ) (uses : List (Use ν)) : σ := uses.foldl Use.apply s

/-- The uses of the first `n` steps. -/
def usesOf (steps : List (Step ν)) (n : Nat) : List (Use ν) := (steps.take n).map Step.use

section

variable [Session σ ν]

theorem clear_eq (s : σ) (key : String) :
    clear s key = ⟨(erase s key).2, if (erase s key).1.isSome then [.cleared key] else []⟩ := by
  unfold clear
  rcases erase s key with ⟨_ | value, s'⟩
  · rfl
  · rfl

theorem store_step (s : σ) (st : Step ν) : (step s st).value.2 = st.use.apply s := by
  cases st with
  | get key => rfl
  | insert key value => rfl
  | erase key => rfl
  | clear key => exact congrArg Logged.value (clear_eq s key)
  | update key u =>
    cases u with
    | set value => rfl
    | clear => exact congrArg Logged.value (clear_eq s key)

theorem events_run_cons (s : σ) (st : Step ν) (steps : List (Step ν)) :
    (run s (st :: steps)).events = (step s st).events ++ (run (st.use.apply s) steps).events := by
  rw [← store_step]
  simp [run]

theorem value_run (s : σ) (steps : List (Step ν)) :
    (run s steps).value = steps.mapIdx fun i st => (step (replay s (usesOf steps i)) st).value := by
  induction steps generalizing s with
  | nil => rfl
  | cons st steps ih =>
    rw [List.mapIdx_cons]
    change (step s st).value :: (run (step s st).value.2 steps).value = _
    rw [ih, store_step]
    rfl

theorem replay_usesOf_succ (s : σ) {steps : List (Step ν)} {i : Nat} (h : i < steps.length) :
    replay s (usesOf steps (i + 1)) = steps[i].use.apply (replay s (usesOf steps i)) := by
  rw [usesOf, List.take_succ_eq_append_getElem h, List.map_append, replay, List.foldl_append]
  rfl

/-- The stores that a run goes through are those to which its uses lead. -/
theorem stores_run (s : σ) (steps : List (Step ν)) :
    (run s steps).value.map Prod.snd = steps.mapIdx fun i _ => replay s (usesOf steps (i + 1)) := by
  rw [value_run]
  refine List.ext_getElem (by simp) fun i h _ => ?_
  have hi : i < steps.length := by simpa using h
  simp only [List.getElem_map, List.getElem_mapIdx]
  rw [replay_usesOf_succ s hi, store_step]

/-- The store as a run leaves it in the end. -/
def after (s : σ) (steps : List (Step ν)) : σ := ((run s steps).value.map Prod.snd).getLast?.getD s

theorem after_cons (s : σ) (st : Step ν) (steps : List (Step ν)) :
    after s (st :: steps) = after (st.use.apply s) steps := by
  rw [← store_step]
  change
    ((step s st).value.2 :: (run (step s st).value.2 steps).value.map Prod.snd).getLast?.getD s = _
  rw [List.getLast?_cons, Option.getD_some]
  rfl

end

/-! Stores that stand for each other -/

/-- A map between stores with which all methods commute. -/
structure Hom [Session σ ν] [Session τ ν] (f : σ → τ) : Prop where
  get (s : σ) (key : String) : Session.get (f s) key = Prod.map id f (Session.get s key)
  insert (s : σ) (key : String) (value : ν) :
    Session.insert (f s) key value = f (Session.insert s key value)
  erase (s : σ) (key : String) : Session.erase (f s) key = Prod.map id f (Session.erase s key)

namespace Hom

variable [Session σ ν] [Session τ ν] {f : σ → τ}

theorem map_clear (hf : Hom f) (s : σ) (key : String) :
    Session.clear (f s) key = f <$> Session.clear s key := by
  unfold Session.clear
  rw [hf.erase]
  rcases Session.erase s key with ⟨_ | value, s'⟩ <;> simp

theorem map_step (hf : Hom f) (s : σ) (st : Step ν) :
    Session.step (f s) st = Prod.map id f <$> Session.step s st := by
  cases st with
  | get key => simp [Session.step, hf.get]
  | insert key value => simp [Session.step, hf.insert]
  | erase key => simp [Session.step, hf.erase]
  | clear key => simp [Session.step, hf.map_clear]
  | update key u =>
    cases u with
    | set value => simp [Session.step, update, hf.insert]
    | clear => simp [Session.step, update, hf.map_clear]

theorem map_run (hf : Hom f) (s : σ) (steps : List (Step ν)) :
    Session.run (f s) steps = List.map (Prod.map id f) <$> Session.run s steps := by
  induction steps generalizing s with
  | nil => rfl
  | cons st steps ih => simp [Session.run, hf.map_step, ih]

end Hom

theorem hom_store [Session σ ν] : Hom (Recording.store : Recording σ ν → σ) where
  get _ _ := rfl
  insert _ _ _ := rfl
  erase _ _ := rfl

theorem hom_object [methods : Session σ ν] : Hom (Object.mk methods) where
  get _ _ := rfl
  insert _ _ _ := rfl
  erase _ _ := rfl

theorem replay_recording [Session σ ν] (r : Recording σ ν) (uses : List (Use ν)) :
    replay r uses = ⟨replay r.store uses, r.uses ++ uses⟩ := by
  induction uses generalizing r with
  | nil => simp [replay]
  | cons u uses ih =>
    have hu : u.apply r = ⟨u.apply r.store, r.uses ++ [u]⟩ := by cases u <;> rfl
    change replay (u.apply r) uses = ⟨replay (u.apply r.store) uses, _⟩
    rw [ih, hu, List.append_assoc, List.singleton_append]

end Ingress.Session
