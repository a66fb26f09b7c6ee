import Ingress.Text
/-!
Where a host ends in `host:port`. A host that opens a bracket ends with the first closing one, any
other before the first colon. Nothing is said yet about what the host is made of.
-/
namespace Ingress.Host

/-- The host in front and all that comes behind it. -/
def split : Text → Text × Text
  | '[' :: t =>
    match t.dropWhile (· != ']') with
    | [] => ('[' :: t, [])
    | c :: rest => ('[' :: t.takeWhile (· != ']') ++ [c], rest)
  | t => (t.takeWhile (· != ':'), t.dropWhile (· != ':'))

theorem split_bracketed {t rest : Text} (h : ']' ∉ t) :
    split ('[' :: t ++ ']' :: rest) = ('[' :: t ++ [']'], rest) := by
  obtain ⟨ht, hd⟩ := @Text.takeWhile_ne_append _ _ rest h
  simp only [List.cons_append, split, ht, hd]

theorem split_append (t : Text) : (split t).1 ++ (split t).2 = t := by
  unfold split
  split
  · rename_i t
    have h := List.takeWhile_append_dropWhile (p := fun c : Char => c != ']') (l := t)
    split
    · simp
    · rename_i he
      rw [he] at h
      simpa using h
  · exact List.takeWhile_append_dropWhile

theorem split_unbracketed {t suffix : Text} (hb : t.head? ≠ some '[') (hn : t ≠ []) (hc : ':' ∉ t)
    (hs : ∀ c ∈ suffix.head?, c = ':') : split (t ++ suffix) = (t, suffix) := by
  have hp : ∀ c ∈ t, (c != ':') = true := fun c hm => bne_iff_ne.2 fun he => hc (he ▸ hm)
  have hx : ∀ c ∈ suffix.head?, (c != ':') = false := by simpa using hs
  obtain ⟨c, rest, rfl⟩ := List.exists_cons_of_ne_nil hn
  rw [List.cons_append, split, ← List.cons_append, Text.takeWhile_append_of_head hp hx,
    Text.dropWhile_append_of_head hp hx]
  intro u he
  exact hb (congrArg some (List.cons.inj he).1)

/-- A host that was split off has nothing more to split. -/
theorem split_fst (t : Text) : split (split t).1 = ((split t).1, []) := by
  cases t with
  | nil => rfl
  | cons c t =>
    by_cases hc : c = '['
    · subst hc
      cases hd : t.dropWhile (· != ']') with
      | nil => simp only [split, hd]
      | cons d rest =>
        have hm := Text.not_mem_takeWhile_ne ']' t
        have hl : d = ']' := by simpa [hd] using List.head?_dropWhile_not (· != ']') t
        have hs := @split_bracketed _ [] hm
        simp only [split, hd, hl]
        exact hs
    · by_cases hcolon : c = ':'
      · subst hcolon
        rfl
      · have hm := Text.not_mem_takeWhile_ne ':' (c :: t)
        have hs : (split (c :: t)).1 = (c :: t).takeWhile (· != ':') := by
          rw [split]
          intro u he
          exact hc (List.cons.inj he).1
        rw [hs]
        have hu := @split_unbracketed _ [] (by simp [hcolon, hc]) (by simp [hcolon]) hm (by simp)
        rwa [List.append_nil] at hu

end Ingress.Host
