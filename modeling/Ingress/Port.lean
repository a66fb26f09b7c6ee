import Ingress.Text
/-!
Ports and their decimal texts. A reader takes in one digit at a time and gives up at the first digit
that would take the number beyond 16 bits, however many digits follow.
-/
namespace Ingress

abbrev Port := UInt16

namespace Port

/-- The number that `n` becomes with one more decimal digit behind it. -/
def push? (n : Port) (digit : Char) : Option Port :=
  let m := n.toNat * 10 + (digit.toNat - '0'.toNat)
  if h : m < UInt16.size then some (UInt16.ofNatLT m h) else none

/-- Reads digits behind those that make up `n`. -/
def extend? (n : Port) : Text → Option Port
  | [] => some n
  | c :: rest => if c.isDigit then (n.push? c).bind fun m => extend? m rest else none

/-- The number a non-empty run of decimal digits stands for. -/
def ofDigits? : Text → Option Port
  | [] => none
  | c :: rest => extend? 0 (c :: rest)

/-- Digits, with at most one plus sign in front. -/
def ofSigned? : Text → Option Port
  | '+' :: digits => ofDigits? digits
  | t => ofDigits? t

/-- A port that can be connected to: zero stands for none. -/
def specified? (p : Port) : Option Port := if p = 0 then none else some p

def text (p : Port) : Text := Nat.toDigits 10 p.toNat

theorem toNat_of_push? {n m : Port} {c : Char} (h : n.push? c = some m) :
    m.toNat = n.toNat * 10 + (c.toNat - '0'.toNat) := by
  simp only [push?] at h
  split at h
  · cases h; rfl
  · cases h

theorem push?_eq_none_iff {n : Port} {c : Char} :
    n.push? c = none ↔ UInt16.size ≤ n.toNat * 10 + (c.toNat - '0'.toNat) := by
  simp [push?]

theorem le_ofDigitChars (t : Text) (n : Nat) : n ≤ Nat.ofDigitChars 10 t n := by
  induction t generalizing n with
  | nil => simp
  | cons c rest ih =>
    have h := ih (10 * n + (c.toNat - '0'.toNat))
    rw [Nat.ofDigitChars_cons]
    omega

theorem extend?_eq_some_iff {n m : Port} {t : Text} :
    extend? n t = some m ↔
      (∀ c ∈ t, c.isDigit = true) ∧ Nat.ofDigitChars 10 t n.toNat = m.toNat := by
  induction t generalizing n with
  | nil => simp [extend?, UInt16.toNat_inj]
  | cons c rest ih =>
    by_cases hc : c.isDigit = true
    · cases hp : n.push? c with
      | none =>
        have hb := push?_eq_none_iff.1 hp
        have hl := le_ofDigitChars rest (10 * n.toNat + (c.toNat - '0'.toNat))
        have hm := m.toNat_lt
        rw [Nat.ofDigitChars_cons]
        simp only [extend?, hc, hp, if_true, UInt16.size] at hb ⊢
        constructor
        · intro h
          cases h
        · intro h
          omega
      | some k =>
        have hk := toNat_of_push? hp
        rw [Nat.ofDigitChars_cons, Nat.mul_comm, ← hk]
        simp [extend?, hc, hp, ih]
    · simp [extend?, hc]

theorem ofDigits?_eq_some_iff {t : Text} {n : Port} :
    ofDigits? t = some n ↔
      t ≠ [] ∧ (∀ c ∈ t, c.isDigit = true) ∧ Nat.ofDigitChars 10 t 0 = n.toNat := by
  cases t with
  | nil => simp [ofDigits?]
  | cons c rest =>
    rw [ofDigits?, extend?_eq_some_iff]
    simp

theorem isDigit_of_mem_text {p : Port} {c : Char} (h : c ∈ p.text) : c.isDigit = true :=
  Nat.isDigit_of_mem_toDigits (by decide) (by decide) h

theorem text_ne_nil (p : Port) : p.text ≠ [] := Nat.toDigits_ne_nil

theorem ofDigits?_text (p : Port) : ofDigits? p.text = some p :=
  ofDigits?_eq_some_iff.2
    ⟨p.text_ne_nil, fun _ h => isDigit_of_mem_text h,
      Nat.ofDigitChars_toDigits (by decide) (by decide)⟩

end Port
end Ingress
