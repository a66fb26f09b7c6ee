import Ingress.Host.Address
import Ingress.Proofs.Text.Split
/-!
What every IPv6 address is made of: hexadecimal digits, points, and at most eight colons. Eight is
reached by seven groups with `::` at one end.
-/
namespace Ingress.Address

/-- The characters between the colons of an address. -/
def isPieceChar (c : Char) : Bool := Uri.isHexDigit c || c == '.'

def IsPiece (t : Text) : Prop := isGroup t = true ∨ isDotted t = true

theorem isPieceChar_of_isDotted {t : Text} (h : isDotted t = true) {c : Char} (hc : c ∈ t) :
    isPieceChar c = true := by
  simp only [isDotted, Bool.and_eq_true, List.all_eq_true] at h
  obtain he | ⟨w, hw, hcw⟩ := Text.eq_or_mem_splitOn (x := '.') hc
  · simp [isPieceChar, he]
  · have ho := h.2 w hw
    simp only [isOctet, Bool.and_eq_true, List.all_eq_true] at ho
    simp [isPieceChar, Uri.isHexDigit, ho.1.1.2 c hcw]

theorem isPieceChar_of_isPiece {t : Text} (h : IsPiece t) {c : Char} (hc : c ∈ t) :
    isPieceChar c = true := by
  obtain hg | hd := h
  · simp only [isGroup, Bool.and_eq_true, List.all_eq_true] at hg
    simp [isPieceChar, hg.2 c hc]
  · exact isPieceChar_of_isDotted hd hc

/-- Pieces that have a weight are well formed, and each counts for one group or more. -/
theorem pieces_of_weight? {l : List Text} {n : Nat} (h : weight? l = some n) :
    (∀ t ∈ l, IsPiece t) ∧ l.length ≤ n := by
  fun_induction weight? l generalizing n with
  | case1 => simp
  | case2 t hg =>
    cases h
    simp [IsPiece, hg]
  | case3 t _ hd =>
    cases h
    simp [IsPiece, hd]
  | case4 => cases h
  | case5 t rest _ hg ih =>
    obtain ⟨m, hm, rfl⟩ := Option.map_eq_some_iff.1 h
    obtain ⟨hp, hl⟩ := ih hm
    exact ⟨List.forall_mem_cons.2 ⟨.inl hg, hp⟩, Nat.succ_le_succ hl⟩
  | case6 => cases h

theorem eq_of_splitGap {t front back : Text} (h : splitGap t = some (front, back)) :
    t = front ++ ':' :: ':' :: back := by
  fun_induction splitGap t generalizing front with
  | case1 rest =>
    cases h
    rfl
  | case2 c rest _ ih =>
    obtain ⟨⟨f, b⟩, hs, he⟩ := Option.map_eq_some_iff.1 h
    cases he
    rw [ih hs, List.cons_append]
  | case3 => cases h

theorem eq_or_isPieceChar_of_pieces {t : Text} (h : ∀ w ∈ pieces t, IsPiece w) {c : Char}
    (hc : c ∈ t) : c = ':' ∨ isPieceChar c = true := by
  obtain he | ⟨w, hw, hcw⟩ := Text.eq_or_mem_splitOn (x := ':') hc
  · exact .inl he
  · have hp : pieces t = t.splitOn ':' := if_neg (List.ne_nil_of_mem hc)
    exact .inr (isPieceChar_of_isPiece (h w (hp ▸ hw)) hcw)

theorem count_colon_le_pieces (t : Text) : t.count ':' ≤ (pieces t).length - 1 := by
  by_cases ht : t = []
  · simp [ht]
  · rw [pieces, if_neg ht, Text.length_splitOn]
    omega

theorem eq_or_isPieceChar_of_mem {t : Text} (h : isAddress t = true) {c : Char} (hc : c ∈ t) :
    c = ':' ∨ isPieceChar c = true := by
  simp only [isAddress] at h
  split at h
  · exact eq_or_isPieceChar_of_pieces (pieces_of_weight? (beq_iff_eq.1 h)).1 hc
  · rename_i front back hs
    simp only [Bool.and_eq_true, List.all_eq_true] at h
    obtain ⟨hf, hb⟩ := h
    split at hb
    · rename_i n hw
      simp only [eq_of_splitGap hs, List.mem_append, List.mem_cons] at hc
      obtain hc | he | he | hc := hc
      · exact eq_or_isPieceChar_of_pieces (fun w hm => .inl (hf w hm)) hc
      · exact .inl he
      · exact .inl he
      · exact eq_or_isPieceChar_of_pieces (pieces_of_weight? hw).1 hc
    · cases hb

theorem count_colon_le {t : Text} (h : isAddress t = true) : t.count ':' ≤ 8 := by
  simp only [isAddress] at h
  split at h
  · have hl := (pieces_of_weight? (beq_iff_eq.1 h)).2
    have hc := count_colon_le_pieces t
    omega
  · rename_i front back hs
    simp only [Bool.and_eq_true] at h
    obtain ⟨-, hb⟩ := h
    split at hb
    · rename_i n hw
      have hl := (pieces_of_weight? hw).2
      have hf := count_colon_le_pieces front
      have hc := count_colon_le_pieces back
      have hn := of_decide_eq_true hb
      rw [eq_of_splitGap hs]
      simp only [List.count_append, List.count_cons_self]
      omega
    · cases hb

/-- The bound is reached. -/
example : isAddress "1:2:3:4:5:6:7::".toList = true ∧ "1:2:3:4:5:6:7::".toList.count ':' = 8 := by
  decide

end Ingress.Address
