import Ingress.Connection
import Ingress.Forwarding
/-!
Resolution of the origin that the client of a request used. The connection comes first; headers of
trusted proxies then replace its scheme, host and port one by one. A port of the connection survives
only while neither scheme nor host is replaced.
-/
namespace Ingress

/-- Which headers are believed, and the scheme of requests that do not carry one. -/
structure TrustPolicy where
  proto : Bool
  host : Bool
  port : Bool
  fallbackScheme : Scheme
  deriving DecidableEq

/-- The origin of a connection with its parts replaced. -/
def Connection.override (c : Connection) (o : Overrides) : Origin :=
  let scheme := o.proto.getD c.scheme
  let port := if o.relocates then none else c.port
  ⟨scheme, o.host.getD c.host, (o.port.or port).getD scheme.usualPort⟩

namespace TrustPolicy

def trusting : TrustPolicy := ⟨true, true, true, .http⟩

def untrusting : TrustPolicy := ⟨false, false, false, .http⟩

/-- Leaves out what is not believed. -/
def mask (p : TrustPolicy) (o : Overrides) : Overrides where
  proto := if p.proto then o.proto else none
  host := if p.host then o.host else none
  port := if p.port then o.port else none

/-- The overrides that are believed. No header is read if none is. -/
def overrides (p : TrustPolicy) (lookup : Lookup) : Logged Event Overrides :=
  if p.proto || p.host || p.port then p.mask <$> Overrides.read lookup else pure .empty

def resolve (p : TrustPolicy) (v : View) : Logged Event (Except RequestError Origin) :=
  match Connection.ofView p.fallbackScheme v with
  | .error e => pure (.error e)
  | .ok c => do
    let origin := c.override (← p.overrides v.lookup)
    Logged.emit (.resolved origin)
    return .ok origin

def url (p : TrustPolicy) (v : View) (path : Text) : Logged Event (Except RequestError Text) :=
  Except.map (·.url path) <$> p.resolve v

def same (a b : TrustPolicy) : Bool :=
  a.proto == b.proto && a.host == b.host && a.port ==
    b.port && a.fallbackScheme.same b.fallbackScheme

end TrustPolicy

/-- The URL of a path for a request with an absolute URI, with all headers believed. -/
def externalUrl (uri : Text) (headers : Headers) (path : Text) :
    Logged Event (Except RequestError Text) :=
  match View.readAbsolute uri with
  | .ok uri => TrustPolicy.trusting.url (.ofHeaders uri headers) path
  | .error e => pure (.error e)

end Ingress
