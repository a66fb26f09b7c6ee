import Ingress.Uri.Basic
import Ingress.Proofs.Uri.Authority
/-!
Reading a URI that is put together from a scheme, an authority and the rest. The scheme ends at the
first `://`, the authority at the first delimiter, and nothing behind that delimiter changes where
they end.
-/
namespace Ingress

namespace Scheme

theorem not_isSchemeChar_colon : isSchemeChar ':' = false := rfl

variable {name t : Text}

/-- What stands in front of `://` is the scheme, but for a bare `://`, which has none. -/
theorem splitName_append (hc : ∀ c ∈ name, isSchemeChar c = true) (hn : name ≠ [] ∨ t ≠ []) :
    splitName (name ++ ':' :: '/' :: '/' :: t) = (some name, t) := by
  have hx : ∀ c ∈ (':' :: '/' :: '/' :: t).head?, isSchemeChar c = false := by
    simp [not_isSchemeChar_colon]
  have hd : (name ++ ':' :: '/' :: '/' :: t).dropWhile isSchemeChar = ':' :: '/' :: '/' :: t :=
    Text.dropWhile_append_of_head hc hx
  have hw : (name ++ ':' :: '/' :: '/' :: t).takeWhile isSchemeChar = name :=
    Text.takeWhile_append_of_head hc hx
  have hl : (name ++ ':' :: '/' :: '/' :: t).length ≠ 3 := by
    have hp : 0 < name.length ∨ 0 < t.length := hn.imp List.length_pos_iff.2 List.length_pos_iff.2
    simp only [List.length_append, List.length_cons]
    omega
  rw [splitName, hd]
  simp only [if_neg hl, hw]

theorem take_append (hc : ∀ c ∈ name, isSchemeChar c = true) (hn : name ≠ [] ∨ t ≠ []) :
    take (name ++ ':' :: '/' :: '/' :: t) = (ofText (canonical name)).map fun s => (some s, t) := by
  rw [take, splitName_append hc hn]

theorem head_append_ne_slash (hc : ∀ c ∈ name, isSchemeChar c = true) (t : Text) :
    (name ++ ':' :: t).head? ≠ some '/' := by
  cases name with
  | nil => simp
  | cons c rest =>
    intro he
    obtain rfl : c = '/' := by simpa using he
    cases hc '/' (by simp)

/-- The scheme that is read where this one is written: a standard one in any case is recognised. -/
def reread (s : Scheme) : Scheme :=
  if s.text.lower = http.text ∨ s.text.lower = https.text then s.lower else s

theorem canonical_text (s : Scheme) : canonical s.text = s.reread.text := by
  rw [canonical, reread]
  split <;> rfl

theorem lower_reread (s : Scheme) : s.reread.lower = s.lower := by
  rw [reread]
  split
  · exact s.lower_lower
  · rfl

/-- A scheme in lower case is read as it is. -/
theorem reread_of_lower {s : Scheme} (hs : s.lower = s) : s.reread = s := by
  rw [reread, hs, ite_self]

end Scheme

namespace Uri

/-- What stands behind `://` is read as it is under every scheme in front that reads. -/
theorem ofText_of_chars {name t : Text} (hc : ∀ c ∈ name, Scheme.isSchemeChar c = true)
    (hn : name ≠ [] ∨ t ≠ []) :
    ofText (name ++ ':' :: '/' :: '/' :: t) =
      if maxLength < Text.byteLength (name ++ ':' :: '/' :: '/' :: t) then .error .tooLong
      else (Scheme.ofText (Scheme.canonical name)).bind fun s => ofSchemeText s t := by
  have hlen : 3 < (name ++ ':' :: '/' :: '/' :: t).length := by
    have hp : 0 < name.length ∨ 0 < t.length := hn.imp List.length_pos_iff.2 List.length_pos_iff.2
    simp only [List.length_append, List.length_cons]
    omega
  have hstar : name ++ ':' :: '/' :: '/' :: t ≠ ['*'] := by
    intro he
    rw [he] at hlen
    simp at hlen
  rw [ofText]
  refine ite_congr rfl (fun _ => rfl) fun _ => ?_
  rw [if_neg (not_or.2 ⟨hstar, Scheme.head_append_ne_slash hc _⟩), if_neg (by omega),
    Scheme.take_append hc hn]
  cases Scheme.ofText (Scheme.canonical name) <;> rfl

theorem ofText_scheme_append (s : Scheme) {t : Text} (ht : t ≠ [])
    (hl : ¬ maxLength < Text.byteLength (s.text ++ ':' :: '/' :: '/' :: t)) :
    ofText (s.text ++ ':' :: '/' :: '/' :: t) = ofSchemeText s.reread t := by
  rw [ofText_of_chars (List.all_eq_true.1 s.chars) (.inr ht), if_neg hl, Scheme.canonical_text,
    Scheme.ofText_text]
  rfl

/-- The authority is read whole, and what stands behind it becomes the target. -/
theorem ofSchemeText_append (s : Scheme) (a : Authority) {rest : Text}
    (hr : ∀ c ∈ rest.head?, isDelimiter c = true) :
    ofSchemeText s (a.text ++ rest) = (Target.ofText rest).map (.absolute s a) := by
  rw [ofSchemeText, Authority.take_text_append a hr]

theorem ofSchemeText_percent (s : Scheme) {h suffix rest : Text} (hh : Host.Proper h)
    (hs : Host.PortSuffix suffix) (hp : '%' ∈ h) (hr : ∀ c ∈ rest.head?, isDelimiter c = true) :
    ofSchemeText s (h ++ suffix ++ rest) = .error .invalidAuthority := by
  have hc : Authority.check (h ++ suffix) = .error .invalidAuthority := by
    rw [Authority.check_append hh hs, if_pos hp]
  rw [ofSchemeText, Authority.take_append (by simp [hh.ne_nil])
    (Authority.isDelimiter_of_mem_append hh hs) hr hc]

/-- The absolute form of a request for the root of what a text names. -/
def completion (s : Scheme) (host : Text) : Text := s.text ++ [':', '/', '/'] ++ host ++ ['/']

/-- A text is read as an authority alone exactly as it is in front of a delimiter. -/
theorem take_append_eq_map {t rest : Text} (hn : t ≠ []) (ht : ∀ c ∈ t, isDelimiter c = false)
    (hr : ∀ c ∈ rest.head?, isDelimiter c = true) :
    Authority.take (t ++ rest) = (Authority.ofText t).map fun a => (some a, rest) := by
  cases hc : Authority.check t with
  | error e =>
    have hend := @Authority.take_append t [] hn ht (by simp) e hc
    rw [List.append_nil] at hend
    rw [Authority.take_append hn ht hr hc, Authority.ofText, hend]
    rfl
  | ok =>
    have ha := Authority.take_text_append ⟨t, hn, hc⟩ hr
    have hend := Authority.ofText_text ⟨t, hn, hc⟩
    simp only at ha hend
    rw [ha, hend]
    rfl

/-- What names no authority makes the whole URI fail, and for the same reason. -/
theorem ofText_completion (s : Scheme) {t : Text} (hn : t ≠ [])
    (ht : ∀ c ∈ t, isDelimiter c = false) (hl : Text.byteLength (completion s t) ≤ maxLength) :
    ofText (completion s t) =
      (Authority.ofText t).map fun a => .absolute s.reread a ⟨['/'], none⟩ := by
  have hc : completion s t = s.text ++ ':' :: '/' :: '/' :: (t ++ ['/']) := by simp [completion]
  rw [hc] at hl ⊢
  rw [ofText_scheme_append s (by simp) (Nat.not_lt.2 hl), ofSchemeText,
    take_append_eq_map hn ht (by simp [isDelimiter])]
  cases Authority.ofText t <;> rfl

end Uri
end Ingress
