import Ingress.Proofs.Forwarding.Entry
/-!
The decimal texts of ports. The texts of a number are its digits with any number of zeros in front,
and these are exactly the runs of digits that have it for their value. A port is read from all of
its texts and from nothing else: a run of digits that comes to zero, or to more than 16 bits hold,
is refused however long it is, and never read as the number that would be left of it after a wrap.
-/
namespace Ingress

namespace Port

variable {t u : Text} {n d : Nat} {c : Char}

/-- The digits of a number, perhaps with zeros in front. -/
def Writes (t : Text) (n : Nat) : Prop := ∃ zeros, t = List.replicate zeros '0' ++ Nat.toDigits 10 n

theorem digit_lt_ten (hc : c.isDigit = true) : c.toNat - '0'.toNat < 10 := by
  have h := Char.isDigit_iff_toNat.1 hc
  have h0 : '0'.toNat = 0x30 := rfl
  have h9 : '9'.toNat = 0x39 := rfl
  omega

theorem digitChar_digit (hc : c.isDigit = true) : (c.toNat - '0'.toNat).digitChar = c := by
  have h := Char.isDigit_iff_toNat.1 hc
  have h0 : '0'.toNat = 0x30 := rfl
  have hd := Nat.toNat_digitChar_of_lt_ten (digit_lt_ten hc)
  refine Char.toNat_inj.1 ?_
  omega

theorem toDigits_digit (hc : c.isDigit = true) : Nat.toDigits 10 (c.toNat - '0'.toNat) = [c] := by
  rw [Nat.toDigits_of_lt_base (digit_lt_ten hc), digitChar_digit hc]

theorem Writes.concat (h : Writes t n) (hc : c.isDigit = true) :
    Writes (t ++ [c]) (10 * n + (c.toNat - '0'.toNat)) := by
  obtain ⟨zeros, rfl⟩ := h
  by_cases hn : n = 0
  · -- The digit of zero itself becomes one more zero in front.
    subst hn
    refine ⟨zeros + 1, ?_⟩
    rw [Nat.mul_zero, Nat.zero_add, toDigits_digit hc, Nat.toDigits_zero, List.replicate_succ']
  · refine ⟨zeros, ?_⟩
    rw [← Nat.toDigits_append_toDigits (by decide) (Nat.pos_of_ne_zero hn) (digit_lt_ten hc),
      toDigits_digit hc, List.append_assoc]

theorem Writes.append (h : Writes t n) (hd : ∀ c ∈ u, c.isDigit = true) :
    Writes (t ++ u) (Nat.ofDigitChars 10 u n) := by
  induction u generalizing t n with
  | nil =>
    rw [List.append_nil]
    exact h
  | cons c u ih =>
    rw [List.append_cons, Nat.ofDigitChars_cons]
    exact ih (h.concat (hd c List.mem_cons_self)) fun x hx => hd x (List.mem_cons_of_mem c hx)

theorem writes_iff :
    Writes t n ↔ t ≠ [] ∧ (∀ c ∈ t, c.isDigit = true) ∧ Nat.ofDigitChars 10 t 0 = n := by
  constructor
  · intro h
    obtain ⟨zeros, rfl⟩ := h
    refine ⟨by simp [Nat.toDigits_ne_nil], ?_, ?_⟩
    · intro c hc
      obtain hz | hx := List.mem_append.1 hc
      · rw [List.eq_of_mem_replicate hz]
        rfl
      · exact Nat.isDigit_of_mem_toDigits (by decide) (by decide) hx
    · rw [Nat.ofDigitChars_append, Nat.ofDigitChars_replicate_zero, Nat.mul_zero,
        Nat.ofDigitChars_ten_toDigits]
  · intro h
    obtain ⟨hn, hd, rfl⟩ := h
    cases t with
    | nil => exact absurd rfl hn
    | cons c u =>
      rw [List.forall_mem_cons] at hd
      have hw : Writes [c] (c.toNat - '0'.toNat) := ⟨0, (toDigits_digit hd.1).symm⟩
      rw [Nat.ofDigitChars_cons, Nat.mul_zero, Nat.zero_add]
      exact hw.append hd.2

end Port

namespace Forwarded

theorem map_toNat_readPort?_eq_some_iff {t : Text} {n : Nat} :
    (readPort? t).map UInt16.toNat = some n ↔
      (t ≠ [] ∧ ∀ c ∈ t, c.isDigit = true) ∧ Nat.ofDigitChars 10 t 0 = n ∧ 1 ≤ n ∧ n ≤ 65535 := by
  rw [Option.map_eq_some_iff]
  constructor
  · intro h
    obtain ⟨m, hm, rfl⟩ := h
    obtain ⟨hn, hd, hv, h0⟩ := readPort?_eq_some_iff.1 hm
    have hz : m.toNat ≠ 0 := fun hz => h0 (UInt16.toNat_inj.1 hz)
    have hlt := m.toNat_lt
    exact ⟨⟨hn, hd⟩, hv, by omega, by omega⟩
  · intro h
    obtain ⟨⟨hn, hd⟩, hv, h1, h2⟩ := h
    have hm : (UInt16.ofNatLT n (Nat.lt_succ_of_le h2)).toNat = n := UInt16.toNat_ofNatLT
    refine ⟨_, readPort?_eq_some_iff.2 ⟨hn, hd, hv.trans hm.symm, fun hz => ?_⟩, hm⟩
    rw [hz, UInt16.toNat_zero] at hm
    omega

theorem readPort?_eq_none_iff {t : Text} :
    readPort? t = none ↔
      ¬ (t ≠ [] ∧ ∀ c ∈ t, c.isDigit = true) ∨ Nat.ofDigitChars 10 t 0 = 0 ∨
        65535 < Nat.ofDigitChars 10 t 0 := by
  have hm : readPort? t = none ↔ (readPort? t).map UInt16.toNat = none :=
    Option.map_eq_none_iff.symm
  rw [hm, Option.eq_none_iff_forall_ne_some]
  simp only [ne_eq, map_toNat_readPort?_eq_some_iff]
  constructor
  · intro h
    by_cases hd : t ≠ [] ∧ ∀ c ∈ t, c.isDigit = true
    · have hv : ¬ (1 ≤ Nat.ofDigitChars 10 t 0 ∧ Nat.ofDigitChars 10 t 0 ≤ 65535) :=
        fun hv => h _ ⟨hd, rfl, hv⟩
      exact .inr (by omega)
    · exact .inl hd
  · intro h n hn
    obtain ⟨hd, rfl, hv⟩ := hn
    obtain hx | hx := h
    · exact hx hd
    · omega

/-- A text is read as a port exactly if it is a run of digits with the port for its value, which is
to say the decimal text of the port behind any number of zeros. All else is refused, digits of any
length whose value is zero or too large included. In particular the decimal text of a number is read
as that number if it is a port. -/
theorem readPort?_iff_writes (t : Text) (n : Nat) :
    let digits := t ≠ [] ∧ ∀ c ∈ t, c.isDigit = true
    let value := Nat.ofDigitChars 10 t 0
    ((readPort? t).map UInt16.toNat = some n ↔ digits ∧ value = n ∧ 1 ≤ n ∧ n ≤ 65535) ∧
      ((readPort? t).map UInt16.toNat = some n ↔ Port.Writes t n ∧ 1 ≤ n ∧ n ≤ 65535) ∧
      (readPort? t = none ↔ ¬ digits ∨ value = 0 ∨ 65535 < value) ∧
      (readPort? (Nat.toDigits 10 n)).map UInt16.toNat =
        if 1 ≤ n ∧ n ≤ 65535 then some n else none := by
  intro digits value
  have hwrites : ∀ t, (readPort? t).map UInt16.toNat = some n ↔
      Port.Writes t n ∧ 1 ≤ n ∧ n ≤ 65535 := by
    intro t
    rw [map_toNat_readPort?_eq_some_iff, Port.writes_iff]
    simp only [and_assoc]
  refine ⟨map_toNat_readPort?_eq_some_iff, hwrites t, readPort?_eq_none_iff, ?_⟩
  by_cases hn : 1 ≤ n ∧ n ≤ 65535
  · rw [if_pos hn, hwrites]
    exact ⟨⟨0, rfl⟩, hn⟩
  · rw [if_neg hn, Option.map_eq_none_iff, readPort?_eq_none_iff, Nat.ofDigitChars_ten_toDigits]
    omega

/-- Zeros in front do no harm, a sign does, and 65536 + 80 is not taken for 80. -/
example :
    readPort? "0000065535".toList = some 65535 ∧ readPort? "+80".toList = none ∧
      readPort? "65616".toList = none := by
  decide

end Forwarded
end Ingress
