import Ingress.Port
import Ingress.Uri.Error
import Ingress.Uri.Character
import Ingress.Host.Extent
/-!
Authorities, the `user@host:port` of a URI. One pass over the characters decides which texts are
authorities. It counts the colons since the last `@` or `]` and accepts more than one only inside
brackets, so it is wider than `user@host:port` with a proper host: text behind a closing bracket
passes, and so does a port that is no number.
-/
namespace Ingress

namespace Authority

/-- What the pass has to remember of the characters it has seen. -/
structure Scan where
  colons : Nat
  percent : Bool
  opened : Bool
  closed : Bool
  atLast : Bool
  deriving DecidableEq, Repr

def Scan.start : Scan := ⟨0, false, false, false, false⟩

def maxColons : Nat := 8

namespace Scan

def step (s : Scan) (c : Char) : Except UriError Scan :=
  if c = ':' then
    if s.colons < maxColons then .ok { s with colons := s.colons + 1, atLast := false }
    else .error .invalidAuthority
  else if c = '[' then
    if s.percent || s.opened then .error .invalidAuthority
    else .ok { s with opened := true, atLast := false }
  else if c = ']' then
    if !s.opened || s.closed then .error .invalidAuthority
    else .ok ⟨0, false, s.opened, true, false⟩
  else if c = '@' then .ok ⟨0, false, s.opened, s.closed, true⟩
  else if c = '%' then .ok { s with percent := true, atLast := false }
  else if Uri.isNameChar c then .ok { s with atLast := false }
  else .error .invalidCharacter

def run (s : Scan) : Text → Except UriError Scan
  | [] => .ok s
  | c :: rest =>
    match s.step c with
    | .ok s => run s rest
    | .error e => .error e

/-- Brackets are closed, at most one colon and no percent sign is left, and no `@` comes last. -/
def isFinal (s : Scan) : Bool :=
  s.opened == s.closed && s.colons ≤ 1 && !s.atLast && !s.percent

end Scan

namespace Scan

theorem not_isDelimiter_of_step {s u : Scan} {c : Char} (h : s.step c = .ok u) :
    Uri.isDelimiter c = false := by
  by_cases hd : Uri.isDelimiter c = true
  · simp only [Uri.isDelimiter, Bool.or_eq_true, beq_iff_eq] at hd
    rcases hd with (rfl | rfl) | rfl <;> cases h
  · simpa using hd

theorem run_append (s : Scan) (t u : Text) :
    s.run (t ++ u) = match s.run t with
      | .ok s => s.run u
      | .error e => .error e := by
  induction t generalizing s with
  | nil => rfl
  | cons c rest ih =>
    simp only [List.cons_append, run]
    cases s.step c with
    | ok s => exact ih s
    | error e => rfl

theorem run_append_eq_ok {s u : Scan} {t v : Text} (h : s.run (t ++ v) = .ok u) :
    ∃ m, s.run t = .ok m ∧ m.run v = .ok u := by
  rw [run_append] at h
  cases hm : s.run t with
  | error e =>
    rw [hm] at h
    cases h
  | ok m =>
    rw [hm] at h
    exact ⟨m, rfl, h⟩

theorem run_cons_eq_ok {s u : Scan} {c : Char} {t : Text} (h : s.run (c :: t) = .ok u) :
    ∃ m, s.step c = .ok m ∧ m.run t = .ok u := by
  rw [run] at h
  cases hm : s.step c with
  | error e =>
    rw [hm] at h
    cases h
  | ok m =>
    rw [hm] at h
    exact ⟨m, rfl, h⟩

theorem not_isDelimiter_of_run {s u : Scan} {t : Text} (h : s.run t = .ok u) {c : Char}
    (hc : c ∈ t) : Uri.isDelimiter c = false := by
  induction t generalizing s with
  | nil => cases hc
  | cons d rest ih =>
    obtain ⟨m, hs, hm⟩ := run_cons_eq_ok h
    rcases List.mem_cons.1 hc with rfl | hr
    · exact not_isDelimiter_of_step hs
    · exact ih hm hr

end Scan

def check (t : Text) : Except UriError Unit :=
  match Scan.start.run t with
  | .ok s => if s.isFinal then .ok () else .error .invalidAuthority
  | .error e => .error e

end Authority

structure Authority where
  text : Text
  ne_nil : text ≠ []
  checked : Authority.check text = .ok ()
  deriving DecidableEq

namespace Authority

/-- Reads the authority that a text starts with, up to the first delimiter. There is none if the
text starts with a delimiter; an empty text is refused. -/
def take (t : Text) : Except UriError (Option Authority × Text) :=
  if t = [] then .error .empty
  else
    let front := t.takeWhile (!Uri.isDelimiter ·)
    let rest := t.dropWhile (!Uri.isDelimiter ·)
    match checked : check front with
    | .error e => .error e
    | .ok () =>
      if ne_nil : front = [] then .ok (none, rest) else .ok (some ⟨front, ne_nil, checked⟩, rest)

theorem run_of_checked (a : Authority) : ∃ s, Scan.start.run a.text = .ok s ∧ s.isFinal = true := by
  have h := a.checked
  rw [check] at h
  cases hr : Scan.start.run a.text with
  | error e =>
    rw [hr] at h
    cases h
  | ok s =>
    rw [hr] at h
    by_cases hf : s.isFinal = true
    · exact ⟨s, rfl, hf⟩
    · simp [hf] at h

theorem not_isDelimiter_of_mem (a : Authority) {c : Char} (hc : c ∈ a.text) :
    Uri.isDelimiter c = false := by
  obtain ⟨s, hs, -⟩ := a.run_of_checked
  exact Scan.not_isDelimiter_of_run hs hc

/-- An authority in front of a delimiter, or of nothing, is read as a whole. -/
theorem take_text_append (a : Authority) {rest : Text}
    (hr : ∀ c ∈ rest.head?, Uri.isDelimiter c = true) :
    take (a.text ++ rest) = .ok (some a, rest) := by
  have hd : ∀ c ∈ a.text, (!Uri.isDelimiter c) = true := by
    intro c hc
    simp [not_isDelimiter_of_mem a hc]
  have hn : ∀ c ∈ rest.head?, (!Uri.isDelimiter c) = false := by simpa using hr
  have hf : (a.text ++ rest).takeWhile (!Uri.isDelimiter ·) = a.text :=
    Text.takeWhile_append_of_head hd hn
  have hb : (a.text ++ rest).dropWhile (!Uri.isDelimiter ·) = rest :=
    Text.dropWhile_append_of_head hd hn
  rw [take, if_neg (by simp [a.ne_nil])]
  dsimp only
  split
  · rename_i he
    rw [hf, a.checked] at he
    cases he
  · rw [dif_neg (by rw [hf]; exact a.ne_nil)]
    cases a
    simp_all

def ofText (t : Text) : Except UriError Authority :=
  match take t with
  | .error e => .error e
  | .ok (some a, []) => .ok a
  | .ok _ => .error .invalidCharacter

theorem ofText_text (a : Authority) : ofText a.text = .ok a := by
  have h := @take_text_append a [] (by simp)
  rw [List.append_nil] at h
  simp [ofText, h]

/-- The part behind the last `@`. -/
def hostAndPort (a : Authority) : Text := (a.text.reverse.takeWhile (· != '@')).reverse

def host (a : Authority) : Text := (Host.split a.hostAndPort).1

/-- The text behind the last colon, wherever in the authority that stands. -/
def portText? (a : Authority) : Option Text :=
  if ':' ∈ a.text then some (a.text.reverse.takeWhile (· != ':')).reverse else none

def port? (a : Authority) : Option Port := a.portText?.bind Port.ofSigned?

end Authority
end Ingress
