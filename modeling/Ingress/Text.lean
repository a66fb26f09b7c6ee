/-!
Text as a list of characters. Limits of the protocols count the bytes of the text in UTF-8, and
letters are folded in ASCII only: no other letter has a case here.
-/
namespace Ingress

abbrev Text := List Char

namespace Text

def byteLength (t : Text) : Nat := t.foldr (fun c n => c.utf8Size + n) 0

theorem byteLength_cons (c : Char) (t : Text) : byteLength (c :: t) = c.utf8Size + byteLength t :=
  rfl

/-- The ASCII letters in lower case, all other characters as they are. -/
def lower (t : Text) : Text := t.map Char.toLower

theorem byteLength_append (s t : Text) : byteLength (s ++ t) = byteLength s + byteLength t := by
  induction s with
  | nil => simp [byteLength]
  | cons c s ih =>
    rw [List.cons_append, byteLength_cons, byteLength_cons, ih]
    omega

/-! Letters and digits by their code points -/

theorem isUpper_iff {c : Char} : c.isUpper = true ↔ 0x41 ≤ c.toNat ∧ c.toNat ≤ 0x5A :=
  decide_eq_true_iff (p := 'A'.val ≤ c.val ∧ c.val ≤ 'Z'.val)

theorem isLower_iff {c : Char} : c.isLower = true ↔ 0x61 ≤ c.toNat ∧ c.toNat ≤ 0x7A := by
  have h : c.isLower = (decide ('a'.val ≤ c.val) && decide (c.val ≤ 'z'.val)) := rfl
  rw [h, Bool.and_eq_true, decide_eq_true_iff, decide_eq_true_iff]
  exact Iff.rfl

theorem isAlphanum_iff {c : Char} :
    c.isAlphanum = true ↔ (c.isUpper = true ∨ c.isLower = true) ∨ c.isDigit = true := by
  have h : c.isAlphanum = (c.isUpper || c.isLower || c.isDigit) := rfl
  rw [h, Bool.or_eq_true, Bool.or_eq_true]

theorem toNat_toLower_of_isUpper {c : Char} (h : c.isUpper = true) :
    c.toLower.toNat = c.toNat + 32 := by
  have hu := isUpper_iff.1 h
  have hc : c.toLower.val = c.val + ('a'.val - 'A'.val) := by
    unfold Char.toLower
    rw [dif_pos (decide_eq_true_iff.1 h)]
  have hn : c.toLower.toNat = (c.toNat + 32) % 2 ^ 32 := congrArg UInt32.toNat hc
  omega

theorem toLower_of_not_isUpper {c : Char} (h : c.isUpper ≠ true) : c.toLower = c := by
  unfold Char.toLower
  rw [dif_neg (mt decide_eq_true_iff.2 h)]

theorem toLower_eq_self_or (c : Char) : c.toLower = c ∨ c.toLower.isLower = true := by
  by_cases h : c.isUpper = true
  · have hu := isUpper_iff.1 h
    rw [isLower_iff, toNat_toLower_of_isUpper h]
    omega
  · exact .inl (toLower_of_not_isUpper h)

theorem toLower_of_isLower {c : Char} (h : c.isLower = true) : c.toLower = c := by
  refine toLower_of_not_isUpper fun hu => ?_
  have hl := isLower_iff.1 h
  have hu := isUpper_iff.1 hu
  omega

theorem toLower_eq_self_iff {c : Char} : c.toLower = c ↔ c.isUpper = false := by
  by_cases hu : c.isUpper = true
  · have hn := toNat_toLower_of_isUpper hu
    refine iff_of_false (fun h => ?_) (by simp [hu])
    rw [h] at hn
    omega
  · exact iff_of_true (toLower_of_not_isUpper hu) (by simpa using hu)

theorem utf8Size_of_ascii {c : Char} (h : c.toNat ≤ 0x7F) : c.utf8Size = 1 := by
  have hc : c.val ≤ 0x7F := h
  simp [Char.utf8Size, hc]

theorem utf8Size_toLower (c : Char) : c.toLower.utf8Size = c.utf8Size := by
  by_cases h : c.isUpper = true
  · have hu := isUpper_iff.1 h
    have hn := toNat_toLower_of_isUpper h
    rw [utf8Size_of_ascii (by omega), utf8Size_of_ascii (by omega)]
  · rw [toLower_of_not_isUpper h]

/-! Folding -/

theorem byteLength_lower (t : Text) : byteLength (lower t) = byteLength t := by
  induction t with
  | nil => rfl
  | cons c t ih =>
    rw [byteLength_cons, ← ih, ← utf8Size_toLower c]
    rfl

theorem lower_lower (t : Text) : lower (lower t) = lower t := by
  simp only [lower, List.map_map, List.map_inj_left, Function.comp_apply]
  intro c _
  rcases toLower_eq_self_or c with h | h
  · rw [h, h]
  · exact toLower_of_isLower h

theorem lower_eq_self_iff {t : Text} : t.lower = t ↔ ∀ c ∈ t, c.isUpper = false := by
  induction t with
  | nil => simp [lower]
  | cons c t ih =>
    rw [List.forall_mem_cons, ← ih, ← toLower_eq_self_iff]
    exact List.cons_eq_cons

/-! Where a class of characters ends -/

theorem takeWhile_append_of_head {p : Char → Bool} {s u : Text} (hs : ∀ c ∈ s, p c = true)
    (hu : ∀ c ∈ u.head?, p c = false) : (s ++ u).takeWhile p = s := by
  rw [List.takeWhile_append_of_pos hs]
  cases u with
  | nil => simp
  | cons c u => simp [hu c (by simp)]

theorem dropWhile_append_of_head {p : Char → Bool} {s u : Text} (hs : ∀ c ∈ s, p c = true)
    (hu : ∀ c ∈ u.head?, p c = false) : (s ++ u).dropWhile p = u := by
  have h := List.takeWhile_append_dropWhile (p := p) (l := s ++ u)
  rw [takeWhile_append_of_head hs hu] at h
  exact List.append_cancel_left h

/-- Two texts that begin inside a class and go on outside it are equal only piece by piece. -/
theorem append_inj_of_forall {p : Char → Bool} {s t u v : Text} (hs : ∀ c ∈ s, p c = true)
    (ht : ∀ c ∈ t, p c = true) (hu : ∀ c ∈ u.head?, p c = false) (hv : ∀ c ∈ v.head?, p c = false)
    (h : s ++ u = t ++ v) : s = t ∧ u = v := by
  have hst : s = t := by
    calc
      s = (s ++ u).takeWhile p := (takeWhile_append_of_head hs hu).symm
      _ = (t ++ v).takeWhile p := by rw [h]
      _ = t := takeWhile_append_of_head ht hv
  subst hst
  exact ⟨rfl, List.append_cancel_left h⟩

theorem not_mem_takeWhile_ne (x : Char) (t : Text) : x ∉ t.takeWhile (· != x) := by
  intro hm
  simpa using List.all_eq_true.1 (@List.all_takeWhile _ (· != x) t) x hm

theorem takeWhile_ne_append {x : Char} {t rest : Text} (h : x ∉ t) :
    (t ++ x :: rest).takeWhile (· != x) = t ∧ (t ++ x :: rest).dropWhile (· != x) = x :: rest := by
  have ht : ∀ c ∈ t, (c != x) = true := fun c hc => bne_iff_ne.2 fun he => h (he ▸ hc)
  exact ⟨takeWhile_append_of_head ht (by simp), dropWhile_append_of_head ht (by simp)⟩

/-- The characters with the Unicode property White_Space. -/
def isBlank (c : Char) : Bool :=
  let n := c.toNat
  (0x9 ≤ n && n ≤ 0xD) || n == 0x20 || n == 0x85 || n == 0xA0 || n == 0x1680
    || (0x2000 ≤ n && n ≤ 0x200A) || n == 0x2028 || n == 0x2029 || n == 0x202F || n ==
      0x205F || n == 0x3000

def trimStart (t : Text) : Text := t.dropWhile isBlank

def trimEnd (t : Text) : Text := (trimStart t.reverse).reverse

def trim (t : Text) : Text := trimEnd (trimStart t)

theorem trimStart_eq_nil_iff {t : Text} : trimStart t = [] ↔ ∀ c ∈ t, isBlank c = true := by
  induction t with
  | nil => simp [trimStart]
  | cons c rest ih =>
    by_cases h : isBlank c = true
    · simp only [trimStart, List.dropWhile_cons, h, if_true, List.forall_mem_cons, true_and]
      exact ih
    · simp [trimStart, h]

theorem not_isBlank_head_trimStart {t rest : Text} {c : Char} (h : trimStart t = c :: rest) :
    isBlank c = false := by
  induction t with
  | nil => cases h
  | cons d t ih =>
    by_cases hd : isBlank d = true
    · simp only [trimStart, List.dropWhile_cons, hd, if_true] at h
      exact ih h
    · simp only [trimStart, List.dropWhile_cons, hd] at h
      cases h
      simpa using hd

theorem trim_eq_nil_iff {t : Text} : trim t = [] ↔ ∀ c ∈ t, isBlank c = true := by
  constructor
  · intro h
    simp only [trim, trimEnd, List.reverse_eq_nil_iff, trimStart_eq_nil_iff, List.mem_reverse] at h
    cases hs : trimStart t with
    | nil => exact trimStart_eq_nil_iff.1 hs
    | cons c rest =>
      have hb := h c (by simp [hs])
      rw [not_isBlank_head_trimStart hs] at hb
      cases hb
  · intro h
    rw [trim, trimStart_eq_nil_iff.2 h]
    rfl

theorem trim_eq_self {t : Text} (h : ∀ c ∈ t, isBlank c = false) : trim t = t := by
  have hs : ∀ u : Text, (∀ c ∈ u, isBlank c = false) → trimStart u = u := by
    intro u hu
    cases u with
    | nil => rfl
    | cons c rest => simp [trimStart, hu c (by simp)]
  rw [trim, hs t h, trimEnd, hs t.reverse (by simpa using h), List.reverse_reverse]

theorem trimStart_eq_self {t : Text} (h : ∀ c ∈ t.head?, isBlank c = false) : trimStart t = t := by
  cases t with
  | nil => rfl
  | cons c rest => simp [trimStart, h c (by simp)]

theorem trimStart_suffix (t : Text) : trimStart t <:+ t := List.dropWhile_suffix _

theorem trimEnd_isPrefix (t : Text) : trimEnd t <+: t := by
  rw [← List.reverse_suffix, trimEnd, List.reverse_reverse]
  exact trimStart_suffix t.reverse

theorem trim_infix (t : Text) : trim t <:+: t :=
  (trimEnd_isPrefix (trimStart t)).isInfix.trans (trimStart_suffix t).isInfix

theorem trimStart_trimStart (t : Text) : trimStart (trimStart t) = trimStart t := by
  refine trimStart_eq_self fun c hc => ?_
  obtain ⟨rest, hr⟩ := List.head?_eq_some_iff.1 hc
  exact not_isBlank_head_trimStart hr

/-- Nothing is left to trim at the start once the end is trimmed. -/
theorem trimStart_trim (t : Text) : trimStart (trim t) = trim t := by
  refine trimStart_eq_self fun c hc => ?_
  obtain ⟨rest, hr⟩ := List.head?_eq_some_iff.1 hc
  obtain ⟨back, hb⟩ := trimEnd_isPrefix (trimStart t)
  rw [← trim, hr, List.cons_append] at hb
  exact not_isBlank_head_trimStart hb.symm

theorem trim_trim (t : Text) : trim (trim t) = trim t := by
  rw [trim, trimStart_trim, trim, trimEnd, trimEnd, List.reverse_reverse, trimStart_trimStart]

end Text
end Ingress
