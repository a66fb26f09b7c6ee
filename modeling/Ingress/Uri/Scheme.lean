import Ingress.Text
import Ingress.Port
import Ingress.Uri.Error
/-!
Schemes. The two standard ones, `http` and `https`, are exactly those texts; any other scheme keeps
its text as written, so `HTTP` is not standard. Lowering a scheme always gives a scheme.
-/
namespace Ingress

namespace Scheme

def isSchemeChar (c : Char) : Bool :=
  c.isAlphanum || c == '+' || c == '-' || c == '.' || c == '~'

def maxLength : Nat := 64

end Scheme

structure Scheme where
  text : Text
  chars : text.all Scheme.isSchemeChar = true
  short : Text.byteLength text ≤ Scheme.maxLength
  deriving DecidableEq

namespace Scheme

def http : Scheme := ⟨['h', 't', 't', 'p'], rfl, by decide⟩

def https : Scheme := ⟨['h', 't', 't', 'p', 's'], rfl, by decide⟩

def isStandard (s : Scheme) : Bool := s == http || s == https

def ofText (t : Text) : Except UriError Scheme :=
  if short : t.byteLength ≤ maxLength then
    if chars : t.all isSchemeChar = true then .ok ⟨t, chars, short⟩
    else .error .invalidScheme
  else .error .schemeTooLong

theorem isSchemeChar_toLower {c : Char} (h : isSchemeChar c = true) :
    isSchemeChar c.toLower = true := by
  rcases Text.toLower_eq_self_or c with he | hl
  · rwa [he]
  · simp [isSchemeChar, Text.isAlphanum_iff, hl]

def lower (s : Scheme) : Scheme where
  text := s.text.lower
  chars := by
    have h := s.chars
    simp only [List.all_eq_true] at h
    simp only [Text.lower, List.all_map, List.all_eq_true]
    exact fun c hc => isSchemeChar_toLower (h c hc)
  short := s.text.byteLength_lower ▸ s.short

/-- Whether two schemes count as equal: the case of letters matters only in the standard ones. -/
def same (a b : Scheme) : Bool :=
  a == b || (!a.isStandard && !b.isStandard && a.lower == b.lower)

def usualPort (s : Scheme) : Port := if s = https then 443 else 80

/-- The text in front of `://`, if it can be a scheme, and what comes behind. A bare `://` has
none. -/
def splitName (t : Text) : Option Text × Text :=
  match t.dropWhile isSchemeChar with
  | ':' :: '/' :: '/' :: rest =>
    if t.length = 3 then (none, t) else (some (t.takeWhile isSchemeChar), rest)
  | _ => (none, t)

/-- A standard scheme is recognised in any case, every other one stays as written. -/
def canonical (name : Text) : Text :=
  if name.lower = http.text ∨ name.lower = https.text then name.lower else name

def take (t : Text) : Except UriError (Option Scheme × Text) :=
  match splitName t with
  | (some name, rest) => (ofText (canonical name)).map fun s => (some s, rest)
  | (none, rest) => .ok (none, rest)

theorem text_inj {s u : Scheme} (h : s.text = u.text) : s = u := by
  cases s
  cases u
  cases h
  rfl

theorem ofText_text (s : Scheme) : ofText s.text = .ok s := by
  simp [ofText, s.short, s.chars]

theorem text_of_ofText {t : Text} {s : Scheme} (h : ofText t = .ok s) : s.text = t := by
  simp only [ofText] at h
  split at h
  · split at h
    · cases h; rfl
    · cases h
  · cases h

theorem lower_lower (s : Scheme) : s.lower.lower = s.lower := by
  simp [lower, Text.lower_lower]

end Scheme
end Ingress
