import Ingress.Log
import Ingress.Origin
/-! The events of a resolution and the lines that they write to a log. -/
namespace Ingress

/-- The headers in which proxies report what the client asked for. -/
inductive Forwarded where
  | proto
  | host
  | port
  deriving DecidableEq, Repr

namespace Forwarded

def stem : Text := ['x', '-', 'f', 'o', 'r', 'w', 'a', 'r', 'd', 'e', 'd', '-']

/-- `x-forwarded-proto`, `x-forwarded-host` and `x-forwarded-port`. -/
def name : Forwarded → FieldName
  | proto => ⟨stem ++ ['p', 'r', 'o', 't', 'o'], by decide, by decide⟩
  | host => ⟨stem ++ ['h', 'o', 's', 't'], by decide, by decide⟩
  | port => ⟨stem ++ ['p', 'o', 'r', 't'], by decide, by decide⟩

theorem name_ne_host (f : Forwarded) : f.name ≠ .host := by
  cases f <;> decide

end Forwarded

inductive Event where
  | ignored (header : Forwarded) (entry : Text)
  | resolved (origin : Origin)
  | unresolved (error : RequestError) (uri : Uri)
  deriving DecidableEq

def Event.line : Event → LogLine
  | .ignored header entry =>
    ⟨.debug, "ignoring invalid " ++ String.ofList header.name.text ++ " header",
      [("value", String.ofList entry)]⟩
  | .resolved origin =>
    ⟨.trace, "resolved external origin", [("origin", String.ofList origin.render)]⟩
  | .unresolved error uri =>
    ⟨.warn, "unable to resolve external origin",
      [("error", error.message), ("uri", String.ofList uri.render)]⟩

end Ingress
