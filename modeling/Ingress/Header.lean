import Ingress.Text
/-!
Header fields of a request, in the order received. Names are kept in lower case; values are bytes,
of which only visible ASCII can be read as text.
-/
namespace Ingress

inductive HeaderError where
  | name
  | value
  deriving DecidableEq, Repr

def HeaderError.message : HeaderError → String
  | .name => "invalid HTTP header name"
  | .value => "failed to parse header value"

namespace FieldName

def isTokenChar (c : Char) : Bool :=
  c.isAlphanum ||
    ['!', '#', '$', '%', '&', '\'', '*', '+', '-', '.', '^', '_', '\x60', '|', '~'].contains c

def maxLength : Nat := 65535

def isToken (t : Text) : Bool := t != [] && t.byteLength ≤ maxLength && t.all isTokenChar

end FieldName

structure FieldName where
  text : Text
  token : FieldName.isToken text = true
  lowered : text.lower = text
  deriving DecidableEq

namespace FieldName

theorem isTokenChar_toLower {c : Char} (h : isTokenChar c = true) :
    isTokenChar c.toLower = true := by
  rcases Text.toLower_eq_self_or c with he | hl
  · rwa [he]
  · simp [isTokenChar, Text.isAlphanum_iff, hl]

theorem isToken_lower {t : Text} (h : isToken t = true) : isToken t.lower = true := by
  simp only [isToken, Bool.and_eq_true, List.all_eq_true] at h
  obtain ⟨⟨hn, hs⟩, hc⟩ := h
  simp only [isToken, Bool.and_eq_true, Text.byteLength_lower, List.all_eq_true]
  refine ⟨⟨?_, hs⟩, ?_⟩
  · cases t with
    | nil => cases hn
    | cons c rest => rfl
  · intro c hm
    obtain ⟨d, hd, rfl⟩ := List.mem_map.1 hm
    exact isTokenChar_toLower (hc d hd)

def ofText (t : Text) : Except HeaderError FieldName :=
  if h : isToken t = true then .ok ⟨t.lower, isToken_lower h, t.lower_lower⟩ else .error .name

def host : FieldName := ⟨['h', 'o', 's', 't'], by decide, by decide⟩

end FieldName

namespace FieldValue

/-- Any byte but a control character; a tab is allowed. -/
def isValueByte (b : UInt8) : Bool := b == 9 || (32 ≤ b && b != 127)

def isVisible (b : UInt8) : Bool := b == 9 || (32 ≤ b && b < 127)

end FieldValue

structure FieldValue where
  bytes : List UInt8
  valid : bytes.all FieldValue.isValueByte = true
  deriving DecidableEq

namespace FieldValue

def ofBytes (bytes : List UInt8) : Except HeaderError FieldValue :=
  if valid : bytes.all isValueByte = true then .ok ⟨bytes, valid⟩ else .error .value

/-- The value as text, if all of it is visible ASCII. -/
def text? (v : FieldValue) : Option Text :=
  if v.bytes.all isVisible then some (v.bytes.map fun b => Char.ofNat b.toNat) else none

end FieldValue

abbrev Headers := List (FieldName × FieldValue)

namespace Headers

/-- Reads fields one after the other, each name before its value, up to the first fault. -/
def ofFields : List (Text × List UInt8) → Except HeaderError Headers
  | [] => .ok []
  | (name, value) :: rest => do
    let name ← FieldName.ofText name
    let value ← FieldValue.ofBytes value
    return (name, value) :: (← ofFields rest)

def valuesOf (h : Headers) (name : FieldName) : List FieldValue :=
  (h.filter (·.1 == name)).map Prod.snd

def textsOf (h : Headers) (name : FieldName) : List Text :=
  (h.valuesOf name).filterMap FieldValue.text?

/-- The fields in the order of their names, those of one name in the order received. -/
def sorted (h : Headers) : Headers :=
  h.mergeSort fun a b => !List.lex b.1.text a.1.text fun c d => c.toNat < d.toNat

end Headers
end Ingress
