import Ingress.Uri.Error
import Ingress.Uri.Character
/-!
The path and query of a URI. A fragment may follow, is dropped, and is not looked at: any characters
may stand in it.
-/
namespace Ingress

structure Target where
  path : Text
  query : Option Text
  deriving DecidableEq, Repr

namespace Target

def isPathChar (c : Char) : Bool :=
  let n := c.toNat
  n == 0x21 || n == 0x22 || (0x24 ≤ n && n ≤ 0x3B) || n == 0x3D || (0x40 ≤ n && n ≤ 0x5F)
    || (0x61 ≤ n && n ≤ 0x7E) || 0x80 ≤ n

def isQueryChar (c : Char) : Bool :=
  let n := c.toNat
  n == 0x21 || (0x24 ≤ n && n ≤ 0x3B) || n == 0x3D || (0x3F ≤ n && n ≤ 0x7E) || 0x80 ≤ n

def readQuery (t : Text) : Except UriError Text :=
  match t.dropWhile isQueryChar with
  | [] | '#' :: _ => .ok (t.takeWhile isQueryChar)
  | _ => .error .invalidCharacter

/-- An empty path stands for the root. -/
def ofPath (path : Text) (query : Option Text) : Target :=
  ⟨if path = [] then ['/'] else path, query⟩

def ofText (t : Text) : Except UriError Target :=
  match t with
  | [] => .ok (ofPath [] none)
  | ['*'] => .ok (ofPath t none)
  | c :: _ =>
    if Uri.isDelimiter c then
      match t.dropWhile isPathChar with
      | [] | '#' :: _ => .ok (ofPath (t.takeWhile isPathChar) none)
      | '?' :: rest =>
        (readQuery rest).map fun query => ofPath (t.takeWhile isPathChar) (some query)
      | _ => .error .invalidCharacter
    else .error .invalidCharacter

def render (t : Target) : Text :=
  match t.query with
  | none => t.path
  | some query => t.path ++ '?' :: query

end Target
end Ingress
