import Mathlib.Logic.Function.Basic
import Ingress.Proofs.Session.Replay
/-!
What a session holds. Whatever store it has, a run answers and leaves under every key what the last
write to that key says, and what was there at the start under the keys that no step has written.
-/
namespace Ingress.Session

variable {ν : Type}

/-- What is held under each key. -/
abbrev Entries (ν : Type) : Type := String → Option ν

instance : Session (Entries ν) ν where
  get e key := (e key, e)
  insert e key value := Function.update e key (some value)
  erase e key := (e key, Function.update e key none)

/-- What a use leaves under a key, if it writes to it. -/
def Use.write? (key : String) : Use ν → Option (Option ν)
  | .get _ => none
  | .insert k value => if k = key then some (some value) else none
  | .erase k => if k = key then some none else none

/-- The last write to each key, and the initial entry where there is none. -/
def lastWrites (initial : Entries ν) (uses : List (Use ν)) : Entries ν := fun key =>
  (uses.filterMap (Use.write? key)).getLast?.getD (initial key)

def Step.answer (e : Entries ν) : Step ν → Answer ν
  | .get key => .found (e key)
  | .erase key => .found (e key)
  | .insert _ _ => .done
  | .clear _ => .done
  | .update _ _ => .done

theorem update_eq_ite (e : Entries ν) (k : String) (w : Option ν) (key : String) :
    Function.update e k w key = if k = key then w else e key := by
  rw [Function.update_apply]
  exact if_congr eq_comm rfl rfl

theorem update_eq_getD (e : Entries ν) (k : String) (w : Option ν) (key : String) :
    Function.update e k w key = (if k = key then some w else none).getD (e key) := by
  rw [update_eq_ite]
  split <;> rfl

theorem apply_entries (e : Entries ν) (u : Use ν) (key : String) :
    u.apply e key = (u.write? key).getD (e key) := by
  cases u with
  | get k => rfl
  | insert k value => exact update_eq_getD e k (some value) key
  | erase k => exact update_eq_getD e k none key

theorem replay_entries (e : Entries ν) (uses : List (Use ν)) :
    replay e uses = lastWrites e uses := by
  funext key
  induction uses generalizing e with
  | nil => rfl
  | cons u uses ih =>
    change replay (u.apply e) uses key = _
    rw [ih, lastWrites, lastWrites, apply_entries]
    cases h : u.write? key with
    | none => rw [List.filterMap_cons_none h, Option.getD_none]
    | some w =>
      rw [List.filterMap_cons_some h, List.getLast?_cons, Option.getD_some, Option.getD_some]

theorem value_step_entries (e : Entries ν) (st : Step ν) :
    (step e st).value = (st.answer e, st.use.apply e) := by
  refine Prod.ext ?_ (store_step e st)
  cases st <;> rfl

/-- What each step of a run answers, and what is held after it. -/
def story (initial : Entries ν) (steps : List (Step ν)) : List (Answer ν × Entries ν) :=
  steps.mapIdx fun i st =>
    (st.answer (lastWrites initial (usesOf steps i)), lastWrites initial (usesOf steps (i + 1)))

theorem value_run_entries (e : Entries ν) (steps : List (Step ν)) :
    (run e steps).value = story e steps := by
  rw [value_run]
  refine List.mapIdx_eq_mapIdx_iff.2 fun i h => ?_
  rw [value_step_entries, ← replay_usesOf_succ e h, replay_entries, replay_entries]

/-! Stores that hold entries -/

section

variable {σ τ : Type} [Session σ ν] [Session τ ν]

/-- What a store says that it holds. -/
def held (s : σ) : Entries ν := fun key => (Session.get s key).1

/-- What can be seen of a run: its answers, and what is held after each step. -/
def seen (s : σ) (steps : List (Step ν)) : List (Answer ν × Entries ν) :=
  (run s steps).value.map (Prod.map id held)

theorem Hom.held_map {f : σ → τ} (hf : Hom f) (s : σ) : held (f s) = held s := by
  funext key
  exact congrArg Prod.fst (hf.get s key)

theorem Hom.seen_map {f : σ → τ} (hf : Hom f) (s : σ) (steps : List (Step ν)) :
    seen (f s) steps = seen s steps := by
  have hh : held ∘ f = (held : σ → Entries ν) := funext hf.held_map
  rw [seen, hf.map_run, Logged.value_map, List.map_map, Prod.map_comp_map, hh]
  rfl

end

theorem seen_entries (e : Entries ν) (steps : List (Step ν)) : seen e steps = story e steps :=
  (List.map_id _).trans (value_run_entries e steps)

/-- A store that uses change as they change what it says that it holds gives the answers of these
entries. -/
theorem Hom.seen_eq {σ : Type} [Session σ ν] (hf : Hom (held : σ → Entries ν)) (s : σ)
    (steps : List (Step ν)) : seen s steps = story (held s) steps :=
  (hf.seen_map s steps).symm.trans (seen_entries (held s) steps)

theorem hom_hashMap : Hom (held : Std.HashMap String ν → Entries ν) where
  get _ _ := rfl
  insert m k value := by
    funext key
    change Function.update (held m) k (some value) key = (m.insert k value)[key]?
    rw [update_eq_ite, Std.HashMap.getElem?_insert]
    exact if_congr beq_iff_eq.symm rfl rfl
  erase m k := by
    refine Prod.ext rfl (funext fun key => ?_)
    change Function.update (held m) k none key = (m.erase k)[key]?
    rw [update_eq_ite, Std.HashMap.getElem?_erase]
    exact if_congr beq_iff_eq.symm rfl rfl

theorem hom_treeMap : Hom (held : Std.TreeMap String ν → Entries ν) where
  get _ _ := rfl
  insert t k value := by
    funext key
    change Function.update (held t) k (some value) key = (t.insert k value)[key]?
    rw [update_eq_ite, Std.TreeMap.getElem?_insert]
    exact if_congr Std.compare_eq_iff_eq.symm rfl rfl
  erase t k := by
    refine Prod.ext rfl (funext fun key => ?_)
    change Function.update (held t) k none key = (t.erase k)[key]?
    rw [update_eq_ite, Std.TreeMap.getElem?_erase]
    exact if_congr Std.compare_eq_iff_eq.symm rfl rfl

/-- Hash maps, ordered maps, and ordered maps behind methods of their own or with a record of their
uses all answer alike and hold the same entries after each step, which are those of the last writes.
A step is recorded as one use, and the uses recorded so far lead from the initial map to the present
one. -/
theorem seen_eq_story (m : Std.HashMap String ν) (t : Std.TreeMap String ν)
    (h : ∀ key : String, t[key]? = m[key]?) (past : List (Use ν)) (steps : List (Step ν)) :
    let initial : Entries ν := fun key => m[key]?
    let object : Object (Std.TreeMap String ν) ν := ⟨inferInstance, t⟩
    let recording : Recording (Std.TreeMap String ν) ν := ⟨t, past⟩
    seen m steps = story initial steps ∧ seen t steps = story initial steps ∧
      seen object steps = story initial steps ∧ seen recording steps = story initial steps ∧
      ((run recording steps).value.map Prod.snd =
        steps.mapIdx fun i _ => ⟨replay t (usesOf steps (i + 1)), past ++ usesOf steps (i + 1)⟩) ∧
      ∀ key (o : Option ν),
        (Step.update key (.ofOption o)).use = o.elim (.erase key) (.insert key) := by
  intro initial object recording
  have ht : held t = initial := funext h
  have hs : seen t steps = story initial steps := by
    rw [hom_treeMap.seen_eq, ht]
  refine ⟨hom_hashMap.seen_eq m steps, hs, ?_, ?_, ?_, ?_⟩
  · exact (hom_object.seen_map t steps).trans hs
  · exact (hom_store.seen_map recording steps).symm.trans hs
  · simp only [stores_run, replay_recording, recording]
  · intro key o
    cases o <;> rfl

/-- A value that looks like a missing one is held and found, and removing a key that is not there
answers so. -/
theorem seen_eq_story_null :
    let m : Std.HashMap String (Option Nat) :=
      (∅ : Std.HashMap String (Option Nat)).insert "k" (some 1)
    let t : Std.TreeMap String (Option Nat) :=
      (∅ : Std.TreeMap String (Option Nat)).insert "k" (some 1)
    let steps : List (Step (Option Nat)) :=
      [.erase "l", .update "k" (.ofOption (some none)), .get "k", .update "k" .clear, .erase "k"]
    let initial : Entries (Option Nat) := fun key => m[key]?
    let object : Object (Std.TreeMap String (Option Nat)) (Option Nat) := ⟨inferInstance, t⟩
    let recording : Recording (Std.TreeMap String (Option Nat)) (Option Nat) :=
      ⟨t, [.insert "k" (some 1)]⟩
    (∀ key : String, t[key]? = m[key]?) ∧
      seen m steps = story initial steps ∧ seen t steps = story initial steps ∧
      seen object steps = story initial steps ∧ seen recording steps = story initial steps ∧
      (run recording steps).value.map Prod.snd = (steps.mapIdx fun i _ =>
        ⟨replay t (usesOf steps (i + 1)), .insert "k" (some 1) :: usesOf steps (i + 1)⟩) ∧
      (story initial steps).map Prod.fst =
        [.found none, .done, .found (some none), .done, .found none] := by
  intro m t steps initial object recording
  have h : ∀ key : String, t[key]? = m[key]? := by
    intro key
    rw [Std.TreeMap.getElem?_insert, Std.HashMap.getElem?_insert]
    simp
  have ha : (story initial steps).map Prod.fst =
      [.found (initial "l"), .done, .found (some none), .done, .found none] := by
    rfl
  have hl : initial "l" = none := by simp [initial, m]
  obtain ⟨hm, ht, ho, hr, hu, -⟩ := seen_eq_story m t h [.insert "k" (some 1)] steps
  exact ⟨h, hm, ht, ho, hr, hu, hl ▸ ha⟩

end Ingress.Session
