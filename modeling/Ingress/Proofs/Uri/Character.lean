import Ingress.Uri.Character
/-!
The characters of registered names are visible ASCII, so that no blank and none of the separators of
a URI is among them. Hexadecimal digits and decimal digits are among them.
-/
namespace Ingress.Uri

theorem ne_of_isNameChar {c x : Char} (hc : isNameChar c = true) (hx : isNameChar x = false) :
    c ≠ x := by
  intro he
  rw [he, hx] at hc
  cases hc

theorem isNameChar_of_isAlphanum {c : Char} (h : c.isAlphanum = true) : isNameChar c = true := by
  simp [isNameChar, isUnreservedChar, h]

theorem isNameChar_of_isDigit {c : Char} (h : c.isDigit = true) : isNameChar c = true :=
  isNameChar_of_isAlphanum (Text.isAlphanum_iff.2 (.inr h))

theorem isAlphanum_of_isHexDigit {c : Char} (h : isHexDigit c = true) : c.isAlphanum = true := by
  simp only [isHexDigit, Bool.or_eq_true, Bool.and_eq_true, decide_eq_true_eq] at h
  rw [Text.isAlphanum_iff, Text.isUpper_iff, Text.isLower_iff]
  obtain (hd | ⟨h1, h2⟩) | ⟨h1, h2⟩ := h
  · exact .inr hd
  · exact .inl (.inr ⟨h1, Nat.le_trans h2 (by decide)⟩)
  · exact .inl (.inl ⟨h1, Nat.le_trans h2 (by decide)⟩)

theorem isNameChar_of_isHexDigit {c : Char} (h : isHexDigit c = true) : isNameChar c = true :=
  isNameChar_of_isAlphanum (isAlphanum_of_isHexDigit h)

theorem toNat_of_isAlphanum {c : Char} (h : c.isAlphanum = true) :
    0x30 ≤ c.toNat ∧ c.toNat ≤ 0x7A := by
  rw [Text.isAlphanum_iff, Text.isUpper_iff, Text.isLower_iff, Char.isDigit_iff_toNat] at h
  have h0 : '0'.toNat = 0x30 := rfl
  have h9 : '9'.toNat = 0x39 := rfl
  omega

theorem isBlank_of_toNat {c : Char} (h1 : 0x21 ≤ c.toNat) (h2 : c.toNat ≤ 0x7E) :
    Text.isBlank c = false := by
  simp only [Text.isBlank, Bool.or_eq_false_iff, Bool.and_eq_false_iff, decide_eq_false_iff_not,
    beq_eq_false_iff_ne]
  omega

theorem isBlank_of_isNameChar {c : Char} (h : isNameChar c = true) : Text.isBlank c = false := by
  by_cases ha : c.isAlphanum = true
  · have hn := toNat_of_isAlphanum ha
    exact isBlank_of_toNat (by omega) (by omega)
  · simp only [isNameChar, isUnreservedChar, isSubDelimiter, Bool.or_eq_true, beq_iff_eq, ha,
      Bool.false_eq_true, false_or, or_assoc] at h
    obtain rfl | rfl | rfl | rfl | rfl | rfl | rfl | rfl | rfl | rfl | rfl | rfl | rfl | rfl |
      rfl := h <;> rfl

theorem isDelimiter_of_isNameChar {c : Char} (h : isNameChar c = true) : isDelimiter c = false := by
  have h1 := ne_of_isNameChar h (x := '/') rfl
  have h2 := ne_of_isNameChar h (x := '?') rfl
  have h3 := ne_of_isNameChar h (x := '#') rfl
  simp [isDelimiter, h1, h2, h3]

end Ingress.Uri
