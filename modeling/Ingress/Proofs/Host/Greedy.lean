import Mathlib.Data.List.TakeWhile
import Ingress.Proofs.Host.Grammar
/-!
Hosts read from the front of a text. A reader that takes all that it can, piece by piece and without
ever going back, finds the host of every text that has one, and of no other.
-/
namespace Ingress.Host

/-- The characters that can stand between the brackets of a literal. -/
def isLiteralChar (c : Char) : Bool := c == ':' || Address.isPieceChar c

/-- The literal at the front of a text, and what comes behind it. -/
def takeLiteral? : Text → Option (Text × Text)
  | '[' :: t =>
    match t.dropWhile isLiteralChar with
    | ']' :: rest =>
      if Address.isAddress (t.takeWhile isLiteralChar) then
        some ('[' :: t.takeWhile isLiteralChar ++ [']'], rest)
      else none
    | _ => none
  | _ => none

/-- As many pieces of a name as stand at the front of a text, and what comes behind them. -/
def takePieces : Text → Text × Text
  | [] => ([], [])
  | c :: rest =>
    if c = '%' then
      match rest with
      | a :: b :: t =>
        if Uri.isHexDigit a && Uri.isHexDigit b then
          (c :: a :: b :: (takePieces t).1, (takePieces t).2)
        else ([], c :: rest)
      | _ => ([], c :: rest)
    else if Uri.isNameChar c then (c :: (takePieces rest).1, (takePieces rest).2)
    else ([], c :: rest)

def takeName? (t : Text) : Option (Text × Text) :=
  if (takePieces t).1 = [] then none else some (takePieces t)

/-- Leaves out a colon and the digits behind it. -/
def dropPort : Text → Text
  | ':' :: t => t.dropWhile Char.isDigit
  | t => t

/-- The host at the front of a text, and what comes behind it. -/
def take? (t : Text) : Option (Text × Text) := (takeLiteral? t).or (takeName? t)

/-- The host at the front of a text in which nothing but a port comes behind it. -/
def greedy? (t : Text) : Option Text :=
  (take? t).bind fun x => if dropPort x.2 = [] then some x.1 else none

theorem dropPort_eq_nil_iff {t : Text} : dropPort t = [] ↔ PortSuffix t := by
  constructor
  · intro h
    unfold dropPort at h
    split at h
    · exact .digits (List.dropWhile_eq_nil_iff.1 h)
    · rw [h]
      exact .none
  · intro h
    cases h with
    | none => rfl
    | digits hd => exact List.dropWhile_eq_nil_iff.2 hd

/-! Literals -/

theorem takeLiteral?_append {a : Text} (h : Address.isAddress a = true) (rest : Text) :
    takeLiteral? ('[' :: a ++ [']'] ++ rest) = some ('[' :: a ++ [']'], rest) := by
  have hp : ∀ c ∈ a, isLiteralChar c = true := by
    intro c hc
    obtain rfl | hx := Address.eq_or_isPieceChar_of_mem h hc
    · rfl
    · simp [isLiteralChar, hx]
  have hr : ∀ c ∈ (']' :: rest).head?, isLiteralChar c = false := by
    intro c hc
    cases hc
    rfl
  have ht := Text.takeWhile_append_of_head hp hr
  have hd := Text.dropWhile_append_of_head hp hr
  simp only [List.cons_append, List.append_assoc, List.nil_append, takeLiteral?, ht, hd, h, if_true]

theorem takeLiteral?_sound {t h rest : Text} (ht : takeLiteral? t = some (h, rest)) :
    Proper h ∧ t = h ++ rest := by
  unfold takeLiteral? at ht
  split at ht
  · rename_i t
    split at ht
    · rename_i u hd
      split at ht
      · rename_i ha
        cases ht
        refine ⟨.literal ha, ?_⟩
        have hs := List.takeWhile_append_dropWhile (p := isLiteralChar) (l := t)
        rw [hd] at hs
        simp [hs]
      · cases ht
    · cases ht
  · cases ht

/-! Names -/

theorem takePieces_append {x : Text} (h : NamePiece x) (t : Text) :
    takePieces (x ++ t) = (x ++ (takePieces t).1, (takePieces t).2) := by
  cases h with
  | plain hc =>
    have hp := Uri.ne_of_isNameChar hc (x := '%') rfl
    rw [List.singleton_append, takePieces.eq_def]
    simp [hp, hc]
  | escape ha hb => simp [takePieces, ha, hb]

theorem takePieces_of_head {t : Text} (h : ∀ c ∈ t.head?, c = ':') : takePieces t = ([], t) := by
  cases t with
  | nil => rfl
  | cons c t =>
    obtain rfl : c = ':' := by simpa using h
    have hc : Uri.isNameChar ':' = false := rfl
    rw [takePieces.eq_def]
    simp [hc]

theorem takePieces_flatten {pieces : List Text} (h : ∀ x ∈ pieces, NamePiece x) {rest : Text}
    (hr : ∀ c ∈ rest.head?, c = ':') :
    takePieces (pieces.flatten ++ rest) = (pieces.flatten, rest) := by
  induction pieces with
  | nil => exact takePieces_of_head hr
  | cons x pieces ih =>
    obtain ⟨hx, hp⟩ := List.forall_mem_cons.1 h
    rw [List.flatten_cons, List.append_assoc, takePieces_append hx, ih hp]

theorem takePieces_sound (t : Text) :
    isNameText (takePieces t).1 = true ∧ t = (takePieces t).1 ++ (takePieces t).2 := by
  fun_induction takePieces t with
  | case1 => exact ⟨rfl, rfl⟩
  | case2 a b t hx ih =>
    simp only [Bool.and_eq_true] at hx
    obtain ⟨hn, ht⟩ := ih
    have hp := NamePiece.escape hx.1 hx.2
    exact ⟨(isNameText_append_piece hp _).trans hn, congrArg (['%', a, b] ++ ·) ht⟩
  | case3 => exact ⟨rfl, rfl⟩
  | case4 => exact ⟨rfl, rfl⟩
  | case5 c t _ hc ih =>
    obtain ⟨hn, ht⟩ := ih
    exact ⟨(isNameText_append_piece (.plain hc) _).trans hn, congrArg ([c] ++ ·) ht⟩
  | case6 => exact ⟨rfl, rfl⟩

theorem takeName?_sound {t h rest : Text} (ht : takeName? t = some (h, rest)) :
    Proper h ∧ t = h ++ rest := by
  obtain ⟨hn, he⟩ := takePieces_sound t
  unfold takeName? at ht
  split at ht
  · cases ht
  · rename_i hne
    rw [Option.some.inj ht] at hn he hne
    exact ⟨isHost_iff_proper.1 (by simp [isHost, hn, hne]), he⟩

theorem takeLiteral?_of_name {pieces : List Text} (hn : pieces.flatten ≠ [])
    (hp : ∀ x ∈ pieces, NamePiece x) (rest : Text) :
    takeLiteral? (pieces.flatten ++ rest) = none := by
  obtain ⟨c, t, he⟩ := List.exists_cons_of_ne_nil hn
  have hc : c ≠ '[' := by
    obtain rfl | hx := eq_percent_or_isNameChar hp (he ▸ List.mem_cons_self)
    · decide
    · exact Uri.ne_of_isNameChar hx rfl
  rw [he, List.cons_append, takeLiteral?]
  intro u hu
  exact hc (List.cons.inj hu).1

/-! Hosts -/

theorem take?_sound {t h rest : Text} (ht : take? t = some (h, rest)) :
    Proper h ∧ t = h ++ rest := by
  obtain hl | ⟨-, hn⟩ := Option.or_eq_some_iff.1 ht
  · exact takeLiteral?_sound hl
  · exact takeName?_sound hn

theorem take?_append {h rest : Text} (hh : Proper h) (hr : ∀ c ∈ rest.head?, c = ':') :
    take? (h ++ rest) = some (h, rest) := by
  cases hh with
  | literal ha => rw [take?, takeLiteral?_append ha, Option.some_or]
  | @name pieces hn hp =>
    have hne : pieces.flatten ≠ [] := (Proper.name hn hp).ne_nil
    rw [take?, takeLiteral?_of_name hne hp, Option.none_or, takeName?, takePieces_flatten hp hr,
      if_neg hne]

theorem greedy?_eq_some_iff {t h : Text} :
    greedy? t = some h ↔ Proper h ∧ ∃ suffix, PortSuffix suffix ∧ t = h ++ suffix := by
  constructor
  · intro hg
    obtain ⟨⟨host, rest⟩, ht, hr⟩ := Option.bind_eq_some_iff.1 hg
    obtain ⟨hd, hx⟩ := Option.ite_none_right_eq_some.1 hr
    obtain rfl : host = h := Option.some.inj hx
    obtain ⟨hh, he⟩ := take?_sound ht
    exact ⟨hh, rest, dropPort_eq_nil_iff.1 hd, he⟩
  · rintro ⟨hh, suffix, hs, rfl⟩
    rw [greedy?, take?_append hh hs.head, Option.bind_some, if_pos (dropPort_eq_nil_iff.2 hs)]

/-- What an escape lacks is not made up for by giving back what was taken. -/
example : take? ['a', '%', '4'] = some (['a'], ['%', '4']) ∧ greedy? ['a', '%', '4'] = none := by
  decide

/-! The grammar of a host with a port -/

/-- A host, alone or with a colon and any run of decimal digits behind it. -/
def Spells (t h : Text) : Prop :=
  Proper h ∧ (t = h ∨ ∃ d : Text, (∀ c ∈ d, c.isDigit = true) ∧ t = h ++ ':' :: d)

theorem spells_iff {t h : Text} :
    Spells t h ↔ Proper h ∧ ∃ suffix, PortSuffix suffix ∧ t = h ++ suffix := by
  refine and_congr_right fun _ => ?_
  constructor
  · rintro (rfl | ⟨d, hd, rfl⟩)
    · exact ⟨[], .none, (List.append_nil t).symm⟩
    · exact ⟨':' :: d, .digits hd, rfl⟩
  · rintro ⟨suffix, hs, rfl⟩
    cases hs with
    | none => exact .inl (List.append_nil h)
    | @digits d hd => exact .inr ⟨d, hd, rfl⟩

/-- A text has the host that the grammar gives it, and no text has two. To read it greedily comes to
the same. -/
theorem ofText?_iff_spells (t : Text) :
    (∀ h, ofText? t = some h ↔ Spells t h) ∧
      ((∃ h, ofText? t = some h ∧ ∀ k, Spells t k ↔ k = h) ∨
        (ofText? t = none ∧ ¬ ∃ k, Spells t k)) ∧
      greedy? t = ofText? t := by
  have hs : ∀ h, ofText? t = some h ↔ Spells t h :=
    fun h => ofText?_eq_some_iff.trans spells_iff.symm
  refine ⟨hs, ?_, ?_⟩
  · cases ht : ofText? t with
    | some h =>
      refine .inl ⟨h, rfl, fun k => ?_⟩
      rw [← hs k, ht, Option.some_inj, eq_comm]
    | none =>
      refine .inr ⟨rfl, ?_⟩
      rintro ⟨k, hk⟩
      cases ht.symm.trans ((hs k).2 hk)
  · exact Option.ext fun h => greedy?_eq_some_iff.trans ofText?_eq_some_iff.symm

end Ingress.Host
