import Ingress.Host.Address
import Ingress.Host.Extent
/-!
Hosts as the URI standard has them: an IPv6 address in brackets, or a registered name, in which `%`
and two hexadecimal digits may stand for a byte. `ofText?` reads `host` or `host:digits` and keeps
the host.
-/
namespace Ingress.Host

/-- Registered names, and the empty text. -/
def isNameText : Text → Bool
  | [] => true
  | c :: rest =>
    if c = '%' then
      match rest with
      | a :: b :: rest => Uri.isHexDigit a && Uri.isHexDigit b && isNameText rest
      | _ => false
    else Uri.isNameChar c && isNameText rest

def isLiteral : Text → Bool
  | '[' :: t => t.getLast? == some ']' && Address.isAddress t.dropLast
  | _ => false

def isHost (t : Text) : Bool := isLiteral t || (t != [] && isNameText t)

/-- Nothing, or a colon with any run of digits. -/
def isPortSuffix : Text → Bool
  | [] => true
  | ':' :: digits => digits.all Char.isDigit
  | _ => false

/-- The host of `host` or `host:digits`. -/
def ofText? (t : Text) : Option Text :=
  let (host, suffix) := split t
  if isHost host && isPortSuffix suffix then some host else none

end Ingress.Host
