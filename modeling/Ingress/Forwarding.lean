import Ingress.Event
/-!
The headers in which proxies report the scheme, host and port that the client used. Of each header
the first entry that is not blank counts. An entry that does not read is passed over with an event,
as if it were absent; the entries behind it are not tried.
-/
namespace Ingress

namespace Forwarded

/-- The elements of all values taken together as one list with commas, without the blanks around
them. -/
def elements (values : List Text) : List Text := (values.flatMap (·.splitOn ',')).map Text.trim

def first? (values : List Text) : Option Text := (elements values).find? (· != [])

def readProto? (entry : Text) : Option Scheme := (Scheme.ofText entry.lower).toOption

def readHost? (entry : Text) : Option Text := Host.ofText? entry

def readPort? (entry : Text) : Option Port := (Port.ofDigits? entry).bind Port.specified?

/-- What the entry of a header says, if there is one and it can be read. -/
def read {α : Type} (header : Forwarded) (read? : Text → Option α) (lookup : Lookup) :
    Logged Event (Option α) :=
  match first? (lookup header.name) with
  | none => pure none
  | some entry =>
    match read? entry with
    | some a => pure (some a)
    | none => do
      Logged.emit (.ignored header entry)
      return none

end Forwarded

/-- What replaces the scheme, host and port of the connection. -/
structure Overrides where
  proto : Option Scheme
  host : Option Text
  port : Option Port
  deriving DecidableEq

namespace Overrides

def empty : Overrides := ⟨none, none, none⟩

def read (lookup : Lookup) : Logged Event Overrides := do
  let proto ← Forwarded.proto.read Forwarded.readProto? lookup
  let host ← Forwarded.host.read Forwarded.readHost? lookup
  let port ← Forwarded.port.read Forwarded.readPort? lookup
  return ⟨proto, host, port⟩

/-- Whether the client used another scheme or host than the connection, whose port then says
nothing. -/
def relocates (o : Overrides) : Bool := o.proto.isSome || o.host.isSome

def same (a b : Overrides) : Bool :=
  (match a.proto, b.proto with
    | some s, some t => s.same t
    | none, none => true
    | _, _ => false)
  && a.host == b.host && a.port == b.port

end Overrides
end Ingress
