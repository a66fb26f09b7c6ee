import Ingress.Uri.Character
/-!
The texts of IPv6 addresses: eight groups of hexadecimal digits, of which `::` can stand once for
one group or more of zeros. An IPv4 address can take the place of the last two groups.
-/
namespace Ingress.Address

def isGroup (t : Text) : Bool := t != [] && t.length ≤ 4 && t.all Uri.isHexDigit

/-- The decimal numbers below 256, without leading zeros. -/
def isOctet (t : Text) : Bool :=
  t != [] && t.length ≤ 3 && t.all Char.isDigit && (t.length == 1 || t.head? != some '0')
    && Nat.ofDigitChars 10 t 0 < 256

def isDotted (t : Text) : Bool :=
  let octets := t.splitOn '.'
  octets.length == 4 && octets.all isOctet

/-- How many groups the pieces between colons amount to, the last of which can be an IPv4
address. -/
def weight? : List Text → Option Nat
  | [] => some 0
  | [t] => if isGroup t then some 1 else if isDotted t then some 2 else none
  | t :: rest => if isGroup t then (weight? rest).map (· + 1) else none

/-- The pieces on one side of `::`, which may be bare. -/
def pieces (t : Text) : List Text := if t = [] then [] else t.splitOn ':'

def splitGap : Text → Option (Text × Text)
  | ':' :: ':' :: rest => some ([], rest)
  | c :: rest => (splitGap rest).map fun (front, back) => (c :: front, back)
  | [] => none

def isAddress (t : Text) : Bool :=
  match splitGap t with
  | none => weight? (pieces t) == some 8
  | some (front, back) =>
    (pieces front).all isGroup &&
      match weight? (pieces back) with
      | some n => (pieces front).length + n ≤ 7
      | none => false

end Ingress.Address
