import Ingress.Text
/-!
Texts split at a separator: how many pieces there are, what they hold, and that splitting each of
many texts splits the text in which the separator joins them.
-/
namespace Ingress.Text

theorem length_splitOn (x : Char) (t : Text) : (t.splitOn x).length = t.count x + 1 := by
  induction t with
  | nil => simp
  | cons c t ih =>
    by_cases hc : c = x
    · simp [List.splitOn_cons_eq_if_modifyHead, hc, ih]
    · simp [List.splitOn_cons_eq_if_modifyHead, hc, ih]

theorem eq_or_mem_of_mem_intercalate {x c : Char} {ts : List Text} (h : c ∈ [x].intercalate ts) :
    c = x ∨ ∃ t ∈ ts, c ∈ t := by
  induction ts with
  | nil => cases h
  | cons t ts ih =>
    cases ts with
    | nil => exact .inr ⟨t, by simp, by simpa using h⟩
    | cons u us =>
      simp only [List.intercalate_cons_cons, List.append_assoc, List.mem_append,
        List.mem_singleton] at h
      obtain ht | hx | hm := h
      · exact .inr ⟨t, by simp, ht⟩
      · exact .inl hx
      · obtain he | ⟨w, hw, hc⟩ := ih hm
        · exact .inl he
        · exact .inr ⟨w, List.mem_cons_of_mem t hw, hc⟩

theorem eq_or_mem_splitOn {x c : Char} {t : Text} (h : c ∈ t) : c = x ∨ ∃ w ∈ t.splitOn x, c ∈ w :=
  eq_or_mem_of_mem_intercalate (by rwa [List.intercalate_splitOn])

theorem flatMap_splitOn {x : Char} {ts : List Text} (h : ts ≠ []) :
    ts.flatMap (·.splitOn x) = ([x].intercalate ts).splitOn x := by
  induction ts with
  | nil => exact absurd rfl h
  | cons t ts ih =>
    cases ts with
    | nil => simp
    | cons u us =>
      rw [List.flatMap_cons, ih (by simp), List.intercalate_cons_cons, List.append_assoc,
        List.singleton_append, List.splitOn_append_cons_self]

theorem infix_intercalate {sep t : Text} {ts : List Text} (h : t ∈ ts) :
    t <:+: sep.intercalate ts := by
  induction ts with
  | nil => cases h
  | cons u us ih =>
    cases us with
    | nil => simp_all
    | cons w ws =>
      rw [List.intercalate_cons_cons, List.append_assoc]
      obtain rfl | hm := List.mem_cons.1 h
      · exact (List.prefix_append _ _).isInfix
      · exact (ih hm).trans ((List.suffix_append _ _).trans (List.suffix_append _ _)).isInfix

/-- Every piece of a text is a slice of it. -/
theorem infix_of_mem_splitOn {x : Char} {t w : Text} (h : w ∈ t.splitOn x) : w <:+: t := by
  have hi := @infix_intercalate [x] _ _ h
  rwa [List.intercalate_splitOn] at hi

theorem not_mem_of_mem_splitOn {x : Char} {t w : Text} (h : w ∈ t.splitOn x) : x ∉ w := by
  induction t generalizing w with
  | nil => simp_all
  | cons c t ih =>
    rw [List.splitOn_cons_eq_if_modifyHead] at h
    by_cases hc : c = x
    · obtain rfl | hm := List.mem_cons.1 (by simpa [hc] using h)
      · exact List.not_mem_nil
      · exact ih hm
    · obtain ⟨u, us, hu⟩ := List.exists_cons_of_ne_nil (List.splitOn_ne_nil x t)
      rw [hu] at h ih
      obtain rfl | hm := List.mem_cons.1 (by simpa [hc] using h)
      · simpa [Ne.symm hc] using ih List.mem_cons_self
      · exact ih (List.mem_cons_of_mem u hm)

/-- A change of characters that spares the separator can be made before or after the split. -/
theorem splitOn_map {x : Char} {f : Char → Char} (hf : ∀ c, f c = x ↔ c = x) (t : Text) :
    (t.map f).splitOn x = (t.splitOn x).map (List.map f) := by
  induction t with
  | nil => simp
  | cons c t ih =>
    rw [List.map_cons, List.splitOn_cons_eq_if_modifyHead, List.splitOn_cons_eq_if_modifyHead, ih]
    obtain ⟨u, us, hu⟩ := List.exists_cons_of_ne_nil (List.splitOn_ne_nil x t)
    by_cases hc : c = x
    · simp [hc, (hf x).2 rfl]
    · simp [hc, hf c, hu]

end Ingress.Text
