import Ingress.Uri.Scheme
import Ingress.Uri.Authority
import Ingress.Uri.Target
/-!
The three forms of a URI that a request can carry: the target on this server alone, an authority
alone, or both under a scheme. `ofText` reads any text as one of them or says why it is none.
-/
namespace Ingress

inductive Uri where
  | relative (target : Target)
  | authority (authority : Authority)
  | absolute (scheme : Scheme) (authority : Authority) (target : Target)
  deriving DecidableEq

namespace Uri

def scheme? : Uri → Option Scheme
  | absolute s _ _ => some s
  | _ => none

def authority? : Uri → Option Authority
  | relative _ => none
  | authority a | absolute _ a _ => some a

def target? : Uri → Option Target
  | authority _ => none
  | relative t | absolute _ _ t => some t

def path (u : Uri) : Text :=
  match u.target? with
  | some t => t.path
  | none => []

def query? (u : Uri) : Option Text := u.target?.bind Target.query

def render : Uri → Text
  | relative t => t.render
  | authority a => a.text
  | absolute s a t => s.text ++ ':' :: '/' :: '/' :: a.text ++ t.render

def maxLength : Nat := 65534

/-- Reads a text with no scheme, which can only be an authority. -/
def ofAuthorityText (t : Text) : Except UriError Uri :=
  match Authority.take t with
  | .error e => .error e
  | .ok (some a, []) => .ok (.authority a)
  | .ok _ => .error .invalidFormat

/-- Reads what stands behind the `://` of a scheme. -/
def ofSchemeText (s : Scheme) (t : Text) : Except UriError Uri :=
  match Authority.take t with
  | .error e => .error e
  | .ok (none, _) => .error .invalidFormat
  | .ok (some a, rest) => (Target.ofText rest).map (.absolute s a)

/-- Reads any text. A single character is no scheme and must be an authority. -/
def ofText (t : Text) : Except UriError Uri :=
  if maxLength < t.byteLength then .error .tooLong
  else if t = ['*'] ∨ t.head? = some '/' then (Target.ofText t).map .relative
  else if t.length ≤ 1 then (Authority.ofText t).map .authority
  else
    match Scheme.take t with
    | .error e => .error e
    | .ok (none, rest) => ofAuthorityText rest
    | .ok (some s, rest) => ofSchemeText s rest

end Uri
end Ingress
