import Ingress.Service.Basic
/-! A service that answers each request with the request it received, and counts how often it is
asked. -/
namespace Ingress

/-- The polls and calls so far, and the answers to the polls to come; after those every poll is
ready. -/
structure Echo where
  polls : Nat
  calls : Nat
  readiness : List (Readiness String)

namespace Echo

def start (readiness : List (Readiness String)) : Echo := ⟨0, 0, readiness⟩

structure Reply where
  call : Nat
  request : Request String Unit

def poll (e : Echo) : Readiness String × Echo :=
  (e.readiness.headD .ready, { e with polls := e.polls + 1, readiness := e.readiness.tail })

/-- Answers with the request, unless its body asks for a failure. -/
def call (e : Echo) (r : Request String Unit) : Except String Reply × Echo :=
  let n := e.calls + 1
  let answer :=
    if r.body = "fail" then .error ("inner call " ++ toString n ++ " failed") else .ok ⟨n, r⟩
  (answer, { e with calls := n })

def service : Service Echo (Request String Unit) Reply String where
  poll e := pure e.poll
  call e r := pure (e.call r)

end Echo
end Ingress
