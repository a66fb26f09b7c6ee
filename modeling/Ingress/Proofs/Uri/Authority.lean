import Ingress.Uri.Authority
import Ingress.Proofs.Host.Grammar
/-!
A host with an optional port is an authority exactly if no `%` stands in it, and an authority of
that form gives back the host and the port that it was made of.
-/
namespace Ingress.Authority

namespace Scan

/-- The characters that change no bracket and end no user. -/
def isPlain (c : Char) : Bool := c == ':' || c == '%' || Uri.isNameChar c

/-- The pass behind a text of such characters. -/
def after (s : Scan) (t : Text) : Scan :=
  { s with colons := s.colons + t.count ':', percent := s.percent || t.contains '%' }

theorem after_cons (s : Scan) (c : Char) (t : Text) : (s.after [c]).after t = s.after (c :: t) := by
  simp only [after, List.count_cons, List.count_nil, List.contains_cons, List.contains_nil,
    Bool.or_false, Bool.or_assoc, Scan.mk.injEq, and_true]
  omega

theorem step_plain {s : Scan} {c : Char} (hl : s.atLast = false) (hc : isPlain c = true)
    (hn : s.colons + [c].count ':' ≤ maxColons) : s.step c = .ok (s.after [c]) := by
  simp only [isPlain, Bool.or_eq_true, beq_iff_eq] at hc
  obtain (rfl | rfl) | hc := hc
  · have hlt : s.colons < maxColons := Nat.lt_of_succ_le (by simpa using hn)
    simp [step, after, hlt, hl]
  · simp [step, after, hl]
  · have h1 := Uri.ne_of_isNameChar hc (x := ':') rfl
    have h2 := Uri.ne_of_isNameChar hc (x := '[') rfl
    have h3 := Uri.ne_of_isNameChar hc (x := ']') rfl
    have h4 := Uri.ne_of_isNameChar hc (x := '@') rfl
    have h5 := Uri.ne_of_isNameChar hc (x := '%') rfl
    simp [step, after, h1, h2, h3, h4, h5, h5.symm, hc, hl]

theorem run_plain {s : Scan} {t : Text} (hl : s.atLast = false) (hc : ∀ c ∈ t, isPlain c = true)
    (hn : s.colons + t.count ':' ≤ maxColons) : s.run t = .ok (s.after t) := by
  induction t generalizing s with
  | nil => simp [run, after]
  | cons c t ih =>
    have hcount : (c :: t).count ':' = [c].count ':' + t.count ':' := by
      simp only [List.count_cons, List.count_nil]
      omega
    have hstep := step_plain hl (hc c (by simp)) (by omega)
    have hrest := @ih (s.after [c]) hl (fun d hd => hc d (List.mem_cons_of_mem c hd))
      (by simp only [after]; omega)
    rw [run, hstep]
    exact hrest.trans (congrArg Except.ok (after_cons s c t))

theorem isPlain_of_isAddress {a : Text} (h : Address.isAddress a = true) :
    ∀ c ∈ a, isPlain c = true := by
  intro c hc
  obtain rfl | hp := Address.eq_or_isPieceChar_of_mem h hc
  · rfl
  · simp [isPlain, Host.isNameChar_of_isPieceChar hp]

theorem isPlain_of_portSuffix {t : Text} (h : Host.PortSuffix t) : ∀ c ∈ t, isPlain c = true :=
  h.forall_mem rfl fun c hn => by simp [isPlain, hn]

/-- The address of a literal leaves no trace in the pass but its brackets. -/
theorem run_literal {a : Text} (h : Address.isAddress a = true) :
    start.run ('[' :: a ++ [']']) = .ok ⟨0, false, true, true, false⟩ := by
  have ha : (⟨0, false, true, false, false⟩ : Scan).run a =
      .ok (after ⟨0, false, true, false, false⟩ a) :=
    run_plain rfl (isPlain_of_isAddress h) (by simpa [maxColons] using Address.count_colon_le h)
  have ho : start.step '[' = .ok ⟨0, false, true, false, false⟩ := rfl
  rw [List.cons_append, run, ho]
  simp only
  rw [run_append, ha]
  simp [run, step, after]

end Scan

theorem count_colon_suffix {t : Text} (h : Host.PortSuffix t) : t.count ':' ≤ 1 := by
  cases h with
  | none => simp
  | @digits d hd =>
    have h0 : d.count ':' = 0 := List.count_eq_zero.2 fun hm => by cases hd ':' hm
    simp [h0]

theorem not_percent_mem_suffix {t : Text} (h : Host.PortSuffix t) : '%' ∉ t :=
  fun hm =>
    h.forall_mem (P := (· ≠ '%')) (by decide) (fun _ hn => Uri.ne_of_isNameChar hn rfl) '%' hm rfl

theorem not_percent_mem_literal {a : Text} (h : Address.isAddress a = true) :
    '%' ∉ '[' :: a ++ [']'] := by
  have ha := Host.not_mem_of_isAddress h (x := '%') (by decide) rfl
  simp [ha]

theorem check_literal_append {a suffix : Text} (ha : Address.isAddress a = true)
    (hs : Host.PortSuffix suffix) :
    check ('[' :: a ++ [']'] ++ suffix) = .ok () := by
  have hcount := count_colon_suffix hs
  have hrest : (⟨0, false, true, true, false⟩ : Scan).run suffix =
      .ok (Scan.after ⟨0, false, true, true, false⟩ suffix) :=
    Scan.run_plain rfl (Scan.isPlain_of_portSuffix hs) (by simp only [maxColons]; omega)
  rw [check, Scan.run_append, Scan.run_literal ha]
  simp only
  rw [hrest]
  simp [Scan.isFinal, Scan.after, not_percent_mem_suffix hs, hcount]

theorem check_name_append {pieces : List Text} {suffix : Text} (hp : ∀ x ∈ pieces, Host.NamePiece x)
    (hs : Host.PortSuffix suffix) :
    check (pieces.flatten ++ suffix) =
      if '%' ∈ pieces.flatten then .error .invalidAuthority else .ok () := by
  have hname := fun c => @Host.eq_percent_or_isNameChar pieces hp c
  generalize pieces.flatten = h at hname
  have hplain : ∀ c ∈ h ++ suffix, Scan.isPlain c = true := by
    intro c hm
    obtain hm | hm := List.mem_append.1 hm
    · obtain rfl | hx := hname c hm
      · rfl
      · simp [Scan.isPlain, hx]
    · exact Scan.isPlain_of_portSuffix hs c hm
  have hcolon : h.count ':' = 0 := by
    refine List.count_eq_zero.2 fun hm => ?_
    obtain he | hx := hname ':' hm
    · cases he
    · cases hx
  have hcount := count_colon_suffix hs
  have hrun := @Scan.run_plain Scan.start _ rfl hplain
    (by simp only [List.count_append, hcolon, Scan.start, maxColons]; omega)
  rw [check, hrun]
  by_cases hm : '%' ∈ h
  · simp [Scan.isFinal, Scan.after, Scan.start, hm]
  · simp [Scan.isFinal, Scan.after, Scan.start, hm, not_percent_mem_suffix hs, hcolon, hcount]

theorem check_append {h suffix : Text} (hh : Host.Proper h) (hs : Host.PortSuffix suffix) :
    check (h ++ suffix) = if '%' ∈ h then .error .invalidAuthority else .ok () := by
  cases hh with
  | literal ha => rw [check_literal_append ha hs, if_neg (not_percent_mem_literal ha)]
  | name _ hp => exact check_name_append hp hs

/-! Reading from a longer text -/

theorem isDelimiter_of_mem_append {h suffix : Text} (hh : Host.Proper h)
    (hs : Host.PortSuffix suffix) :
    ∀ c ∈ h ++ suffix, Uri.isDelimiter c = false :=
  Host.forall_mem_append hh hs (by simp [Uri.isDelimiter]) fun _ => Uri.isDelimiter_of_isNameChar

theorem not_at_mem_append {h suffix : Text} (hh : Host.Proper h) (hs : Host.PortSuffix suffix) :
    '@' ∉ h ++ suffix :=
  fun hm =>
    Host.forall_mem_append (P := (· ≠ '@')) hh hs (by simp)
      (fun _ hn => Uri.ne_of_isNameChar hn rfl) '@' hm rfl

theorem take_append {front rest : Text} (hn : front ≠ [])
    (hf : ∀ c ∈ front, Uri.isDelimiter c = false) (hr : ∀ c ∈ rest.head?, Uri.isDelimiter c = true)
    {e : UriError} (he : check front = .error e) : take (front ++ rest) = .error e := by
  have hd : ∀ c ∈ front, (!Uri.isDelimiter c) = true := fun c hc => by simp [hf c hc]
  have ht : (front ++ rest).takeWhile (!Uri.isDelimiter ·) = front :=
    Text.takeWhile_append_of_head hd (by simpa using hr)
  rw [take, if_neg (by simp [hn])]
  dsimp only
  split
  · rename_i hc
    rw [ht, he] at hc
    cases hc
    rfl
  · rename_i hc
    rw [ht, he] at hc
    cases hc

theorem text_of_ofText {t : Text} {a : Authority} (h : ofText t = .ok a) : a.text = t := by
  have hs : take t = .ok (some a, []) := by
    unfold ofText at h
    split at h
    · cases h
    · cases h
      assumption
    · cases h
  unfold take at hs
  split at hs
  · cases hs
  · dsimp only at hs
    split at hs
    · cases hs
    · split at hs
      · cases hs
      · have hj := List.takeWhile_append_dropWhile (p := (!Uri.isDelimiter ·)) (l := t)
        obtain ⟨ha, hr⟩ := Prod.mk.inj (Except.ok.inj hs)
        rw [hr, List.append_nil] at hj
        rw [← Option.some.inj ha]
        exact hj

theorem ofText_eq_ok_iff {t : Text} {a : Authority} : ofText t = .ok a ↔ t = a.text := by
  constructor
  · intro h
    exact (text_of_ofText h).symm
  · intro h
    rw [h]
    exact ofText_text a

/-! Host and port of an authority -/

theorem hostAndPort_of_not_mem {a : Authority} (h : '@' ∉ a.text) : a.hostAndPort = a.text := by
  have hp : ∀ c ∈ a.text.reverse, (c != '@') = true := by
    intro c hc
    exact bne_iff_ne.2 fun he => h (he ▸ List.mem_reverse.1 hc)
  have ht : a.text.reverse.takeWhile (· != '@') = a.text.reverse := by
    simpa using @Text.takeWhile_append_of_head _ _ [] hp (by simp)
  rw [hostAndPort, ht, List.reverse_reverse]

theorem host_of_text {a : Authority} {h suffix : Text} (ht : a.text = h ++ suffix)
    (hh : Host.Proper h) (hs : Host.PortSuffix suffix) : a.host = h := by
  have ha : '@' ∉ a.text := ht ▸ not_at_mem_append hh hs
  rw [host, hostAndPort_of_not_mem ha, ht, Host.split_append_suffix hh hs.head]

theorem portText?_of_text {a : Authority} {t d : Text} (ht : a.text = t ++ ':' :: d)
    (hd : ':' ∉ d) : a.portText? = some d := by
  have hr : a.text.reverse = d.reverse ++ ':' :: t.reverse := by simp [ht]
  have hm : ':' ∈ a.text := by simp [ht]
  rw [portText?, if_pos hm, hr, (Text.takeWhile_ne_append (by simpa using hd)).1,
    List.reverse_reverse]

theorem ofSigned?_of_digits {d : Text} (h : ∀ c ∈ d, c.isDigit = true) :
    Port.ofSigned? d = Port.ofDigits? d := by
  unfold Port.ofSigned?
  split
  · cases h '+' (by simp)
  · rfl

theorem port?_of_text {a : Authority} {t d : Text} (ht : a.text = t ++ ':' :: d)
    (hd : ∀ c ∈ d, c.isDigit = true) : a.port? = Port.ofDigits? d := by
  have hc : ':' ∉ d := fun hm => by cases hd ':' hm
  rw [port?, portText?_of_text ht hc]
  exact ofSigned?_of_digits hd

theorem ofDigits?_eq_none {t : Text} {c : Char} (hm : c ∈ t) (hc : c.isDigit = false) :
    Port.ofDigits? t = none := by
  cases hr : Port.ofDigits? t with
  | none => rfl
  | some n =>
    have hd := (Port.ofDigits?_eq_some_iff.1 hr).2.1 c hm
    rw [hc] at hd
    cases hd

theorem ofSigned?_eq_none {t : Text} {c : Char} (hm : c ∈ t) (hc : c.isDigit = false)
    (hp : c ≠ '+') : Port.ofSigned? t = none := by
  unfold Port.ofSigned?
  split
  · obtain he | hm := List.mem_cons.1 hm
    · exact absurd he hp
    · exact ofDigits?_eq_none hm hc
  · exact ofDigits?_eq_none hm hc

/-- The colons of an address are not taken for that of a port: the closing bracket stands behind
them. -/
theorem port?_of_host {a : Authority} {h : Text} (ht : a.text = h) (hh : Host.Proper h) :
    a.port? = none := by
  cases hh with
  | @literal t _ =>
    have hr : a.text.reverse = ']' :: (t.reverse ++ ['[']) := by simp [ht]
    by_cases hm : ':' ∈ a.text
    · rw [port?, portText?, if_pos hm, hr]
      exact ofSigned?_eq_none (c := ']') (by simp) rfl (by decide)
    · rw [port?, portText?, if_neg hm]
      rfl
  | @name pieces _ hp =>
    have hm : ':' ∉ a.text := by
      intro hm
      obtain he | hn := Host.eq_percent_or_isNameChar hp (ht ▸ hm)
      · cases he
      · cases hn
    rw [port?, portText?, if_neg hm]
    rfl

end Ingress.Authority
