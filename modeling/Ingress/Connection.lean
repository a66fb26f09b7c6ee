import Ingress.View
import Ingress.Host.Name
/-!
What a connection says about itself. The URI of the request comes first, and a `Host` header stands
in for the authority that it may lack. This is the only part of a resolution that can fail.
-/
namespace Ingress

structure Connection where
  scheme : Scheme
  host : Text
  port : Option Port
  deriving DecidableEq

namespace Connection

def hostAuthority (lookup : Lookup) : Except RequestError Authority :=
  match (lookup .host).head? with
  | none => .error .noHost
  | some value =>
    if value.trim = [] then .error .noHost else (Authority.ofText value.trim).mapError .malformed

def authorityOf (uri : Uri) (lookup : Lookup) : Except RequestError Authority :=
  match uri.authority? with
  | some a => .ok a
  | none => hostAuthority lookup

/-- The connection under a scheme, if the host of the authority is one. A port that does not read
counts as none. -/
def ofAuthority (scheme : Scheme) (a : Authority) : Except RequestError Connection :=
  match Host.ofText? a.host with
  | some host => .ok ⟨scheme.lower, host, a.port?.bind Port.specified?⟩
  | none => .error .noHost

def ofView (fallback : Scheme) (v : View) : Except RequestError Connection := do
  let uri ← v.uri
  let a ← authorityOf uri v.lookup
  ofAuthority (uri.scheme?.getD fallback) a

end Connection
end Ingress
