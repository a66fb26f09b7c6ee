import Ingress.View
import Ingress.Host.Name
/-! The scheme, host and port under which a client reaches a service, and the URLs made from
them. -/
namespace Ingress

structure Origin where
  scheme : Scheme
  host : Text
  port : Port
  deriving DecidableEq

namespace Origin

/-- An origin with its scheme in lower case and no port behind its host. -/
def ofParts (scheme : Scheme) (host : Text) (port : Port) : Except RequestError Origin :=
  match Host.ofText? host with
  | some host => .ok ⟨scheme.lower, host, port⟩
  | none => .error .noHost

/-- Whether the port is the one that clients of a standard scheme assume. -/
def hasUsualPort (o : Origin) : Bool := o.scheme.isStandard && o.port == o.scheme.usualPort

/-- The origin as text; a default port is left out. -/
def render (o : Origin) : Text :=
  let bare := o.scheme.text ++ ':' :: '/' :: '/' :: o.host
  if o.hasUsualPort then bare else bare ++ ':' :: o.port.text

/-- A target path with the slash that it may lack. -/
def rooted : Text → Text
  | '/' :: t => '/' :: t
  | t => '/' :: t

def url (o : Origin) (path : Text) : Text := o.render ++ rooted path

/-- Equal origins, with schemes compared as schemes. -/
def same (a b : Origin) : Bool := a.scheme.same b.scheme && a.host == b.host && a.port == b.port

/-- How many origins a set of these two has. -/
def distinct (a b : Origin) : Nat := if a.same b then 1 else 2

end Origin
end Ingress
