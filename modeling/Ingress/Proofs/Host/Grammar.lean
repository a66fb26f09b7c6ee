import Ingress.Host.Name
import Ingress.Proofs.Host.Address
import Ingress.Proofs.Uri.Character
/-!
The grammar of hosts, and that the readers accept exactly its texts: a host is an IPv6 address in
brackets or a registered name, and `host` and `host:digits` are all that `ofText?` reads.
-/
namespace Ingress.Host

/-- A character that stands for itself, or `%` with two hexadecimal digits. -/
inductive NamePiece : Text → Prop where
  | plain {c : Char} (h : Uri.isNameChar c = true) : NamePiece [c]
  | escape {a b : Char} (ha : Uri.isHexDigit a = true) (hb : Uri.isHexDigit b = true) :
      NamePiece ['%', a, b]

inductive Proper : Text → Prop where
  | literal {a : Text} (h : Address.isAddress a = true) : Proper ('[' :: a ++ [']'])
  | name {pieces : List Text} (hn : pieces ≠ []) (h : ∀ x ∈ pieces, NamePiece x) :
      Proper pieces.flatten

/-- Nothing, or a colon with any run of decimal digits. -/
inductive PortSuffix : Text → Prop where
  | none : PortSuffix []
  | digits {d : Text} (h : ∀ c ∈ d, c.isDigit = true) : PortSuffix (':' :: d)

theorem NamePiece.ne_nil {x : Text} (h : NamePiece x) : x ≠ [] := by
  cases h <;> simp

/-! Registered names -/

theorem isNameText_append_piece {x : Text} (h : NamePiece x) (t : Text) :
    isNameText (x ++ t) = isNameText t := by
  cases h with
  | plain hc =>
    have hp := Uri.ne_of_isNameChar hc (x := '%') rfl
    rw [List.singleton_append, isNameText.eq_def]
    simp [hp, hc]
  | escape ha hb => simp [isNameText, ha, hb]

theorem isNameText_flatten {pieces : List Text} (h : ∀ x ∈ pieces, NamePiece x) :
    isNameText pieces.flatten = true := by
  induction pieces with
  | nil => rfl
  | cons x pieces ih =>
    rw [List.flatten_cons, isNameText_append_piece (h x (by simp))]
    exact ih fun y hy => h y (List.mem_cons_of_mem x hy)

theorem exists_pieces_of_isNameText {t : Text} (h : isNameText t = true) :
    ∃ pieces : List Text, (∀ x ∈ pieces, NamePiece x) ∧ pieces.flatten = t := by
  fun_induction isNameText t with
  | case1 => exact ⟨[], by simp, rfl⟩
  | case2 a b rest ih =>
    simp only [Bool.and_eq_true] at h
    obtain ⟨⟨ha, hb⟩, hr⟩ := h
    obtain ⟨pieces, hp, rfl⟩ := ih hr
    exact ⟨['%', a, b] :: pieces, List.forall_mem_cons.2 ⟨.escape ha hb, hp⟩, rfl⟩
  | case3 => cases h
  | case4 c rest _ ih =>
    simp only [Bool.and_eq_true] at h
    obtain ⟨hc, hr⟩ := h
    obtain ⟨pieces, hp, rfl⟩ := ih hr
    exact ⟨[c] :: pieces, List.forall_mem_cons.2 ⟨.plain hc, hp⟩, rfl⟩

theorem eq_percent_or_isNameChar {pieces : List Text} (h : ∀ x ∈ pieces, NamePiece x) {c : Char}
    (hc : c ∈ pieces.flatten) : c = '%' ∨ Uri.isNameChar c = true := by
  obtain ⟨x, hx, hcx⟩ := List.mem_flatten.1 hc
  cases h x hx with
  | plain hp =>
    obtain rfl := List.mem_singleton.1 hcx
    exact .inr hp
  | escape ha hb =>
    simp only [List.mem_cons, List.not_mem_nil, or_false] at hcx
    obtain rfl | rfl | rfl := hcx
    · exact .inl rfl
    · exact .inr (Uri.isNameChar_of_isHexDigit ha)
    · exact .inr (Uri.isNameChar_of_isHexDigit hb)

theorem not_mem_of_isAddress {a : Text} (h : Address.isAddress a = true) {x : Char} (hx : x ≠ ':')
    (hp : Address.isPieceChar x = false) : x ∉ a := by
  intro hm
  obtain he | hc := Address.eq_or_isPieceChar_of_mem h hm
  · exact hx he
  · rw [hp] at hc
    cases hc

theorem isNameChar_of_isPieceChar {c : Char} (h : Address.isPieceChar c = true) :
    Uri.isNameChar c = true := by
  simp only [Address.isPieceChar, Bool.or_eq_true, beq_iff_eq] at h
  obtain hx | rfl := h
  · exact Uri.isNameChar_of_isHexDigit hx
  · rfl

/-- What holds of these four characters and of all characters of names holds of all characters of a
host. -/
theorem Proper.forall_mem {P : Char → Prop} {t : Text} (h : Proper t)
    (hx : ∀ c ∈ ['%', ':', '[', ']'], P c) (hn : ∀ c, Uri.isNameChar c = true → P c) :
    ∀ c ∈ t, P c := by
  intro c hc
  cases h with
  | literal ha =>
    simp only [List.cons_append, List.mem_cons, List.mem_append, List.not_mem_nil, or_false] at hc
    obtain rfl | hc | rfl := hc
    · exact hx '[' (by simp)
    · obtain rfl | hp := Address.eq_or_isPieceChar_of_mem ha hc
      · exact hx ':' (by simp)
      · exact hn c (isNameChar_of_isPieceChar hp)
    · exact hx ']' (by simp)
  | name _ hp =>
    obtain rfl | hc := eq_percent_or_isNameChar hp hc
    · exact hx '%' (by simp)
    · exact hn c hc

theorem PortSuffix.forall_mem {P : Char → Prop} {t : Text} (h : PortSuffix t) (hx : P ':')
    (hn : ∀ c, Uri.isNameChar c = true → P c) : ∀ c ∈ t, P c := by
  intro c hc
  cases h with
  | none => cases hc
  | digits hd =>
    obtain rfl | hc := List.mem_cons.1 hc
    · exact hx
    · exact hn c (Uri.isNameChar_of_isDigit (hd c hc))

theorem forall_mem_append {P : Char → Prop} {h suffix : Text} (hh : Proper h)
    (hs : PortSuffix suffix) (hx : ∀ c ∈ ['%', ':', '[', ']'], P c)
    (hn : ∀ c, Uri.isNameChar c = true → P c) : ∀ c ∈ h ++ suffix, P c := by
  intro c hc
  obtain hc | hc := List.mem_append.1 hc
  · exact hh.forall_mem hx hn c hc
  · exact hs.forall_mem (hx ':' (by simp)) hn c hc

theorem isBlank_of_mem_append {h suffix : Text} (hh : Proper h) (hs : PortSuffix suffix) :
    ∀ c ∈ h ++ suffix, Text.isBlank c = false :=
  forall_mem_append hh hs (by simp [Text.isBlank]) fun _ => Uri.isBlank_of_isNameChar

/-! Hosts -/

theorem isLiteral_bracketed {a : Text} (h : Address.isAddress a = true) :
    isLiteral ('[' :: a ++ [']']) = true := by
  simp [isLiteral, h]

theorem proper_of_isLiteral {t : Text} (h : isLiteral t = true) : Proper t := by
  unfold isLiteral at h
  split at h
  · rename_i t
    simp only [Bool.and_eq_true, beq_iff_eq] at h
    obtain ⟨hl, ha⟩ := h
    obtain ⟨a, rfl⟩ := List.getLast?_eq_some_iff.1 hl
    rw [List.dropLast_concat] at ha
    exact .literal ha
  · cases h

theorem Proper.ne_nil {t : Text} (h : Proper t) : t ≠ [] := by
  cases h with
  | literal => simp
  | @name pieces hn hp =>
    obtain ⟨x, xs, rfl⟩ := List.exists_cons_of_ne_nil hn
    simp [(hp x (by simp)).ne_nil]

theorem isHost_iff_proper {t : Text} : isHost t = true ↔ Proper t := by
  constructor
  · intro h
    simp only [isHost, Bool.or_eq_true, Bool.and_eq_true, bne_iff_ne] at h
    obtain hl | ⟨hn, ht⟩ := h
    · exact proper_of_isLiteral hl
    · obtain ⟨pieces, hp, rfl⟩ := exists_pieces_of_isNameText ht
      exact .name (fun he => hn (he ▸ rfl)) hp
  · intro h
    have hn := h.ne_nil
    cases h with
    | literal ha => rw [isHost, isLiteral_bracketed ha, Bool.true_or]
    | name _ hp => simp [isHost, hn, isNameText_flatten hp]

theorem isPortSuffix_iff {t : Text} : isPortSuffix t = true ↔ PortSuffix t := by
  constructor
  · intro h
    unfold isPortSuffix at h
    split at h
    · exact .none
    · exact .digits (List.all_eq_true.1 h)
    · cases h
  · intro h
    cases h with
    | none => rfl
    | digits hd => exact List.all_eq_true.2 hd

/-- A host is told from what stands behind it, as long as that starts with a colon. -/
theorem split_append_suffix {h suffix : Text} (hh : Proper h) (hs : ∀ c ∈ suffix.head?, c = ':') :
    split (h ++ suffix) = (h, suffix) := by
  have hn := hh.ne_nil
  cases hh with
  | @literal a ha =>
    have hb := @split_bracketed a suffix (not_mem_of_isAddress ha (by decide) rfl)
    simpa using hb
  | @name pieces _ hp =>
    have hx : ∀ x, x ≠ '%' → Uri.isNameChar x = false → x ∉ pieces.flatten := by
      intro x hx hf hm
      obtain he | ht := eq_percent_or_isNameChar hp hm
      · exact hx he
      · rw [hf] at ht
        cases ht
    exact split_unbracketed (fun he => hx '[' (by decide) rfl (List.mem_of_head? he)) hn
      (hx ':' (by decide) rfl) hs

theorem PortSuffix.head {t : Text} (h : PortSuffix t) : ∀ c ∈ t.head?, c = ':' := by
  cases h <;> simp

theorem ofText?_eq_some_iff {t h : Text} :
    ofText? t = some h ↔ Proper h ∧ ∃ suffix, PortSuffix suffix ∧ t = h ++ suffix := by
  constructor
  · intro hr
    simp only [ofText?] at hr
    split at hr
    · rename_i hc
      obtain rfl := Option.some.inj hr
      simp only [Bool.and_eq_true] at hc
      exact ⟨isHost_iff_proper.1 hc.1, _, isPortSuffix_iff.1 hc.2, (split_append t).symm⟩
    · cases hr
  · intro hr
    obtain ⟨hh, suffix, hs, rfl⟩ := hr
    rw [ofText?, split_append_suffix hh hs.head]
    simp [isHost_iff_proper.2 hh, isPortSuffix_iff.2 hs]

theorem ofText?_append {h suffix : Text} (hh : Proper h) (hs : PortSuffix suffix) :
    ofText? (h ++ suffix) = some h :=
  ofText?_eq_some_iff.2 ⟨hh, suffix, hs, rfl⟩

theorem ofText?_split_fst (t : Text) :
    ofText? (split t).1 = if isHost (split t).1 then some (split t).1 else none := by
  rw [ofText?, split_fst]
  simp [isPortSuffix]

end Ingress.Host
