import Ingress.Log
/-!
Attributes of a session. An update says whether it sets an attribute or clears it; no value stands
for clearing. Only what changes is an event: clearing an attribute that is not there goes unseen.
-/
namespace Ingress

/-- A store of values under keys. Looking a value up may leave a trace in the store. -/
class Session (σ : Type) (ν : outParam Type) where
  get : σ → String → Option ν × σ
  insert : σ → String → ν → σ
  erase : σ → String → Option ν × σ

namespace Session

inductive Event where
  | set (key : String)
  | cleared (key : String)
  deriving DecidableEq, Repr

def Event.line : Event → LogLine
  | .set key => ⟨.trace, "setting session attribute", [("key", key)]⟩
  | .cleared key => ⟨.trace, "cleared session attribute", [("key", key)]⟩

inductive Update (ν : Type) where
  | set (value : ν)
  | clear
  deriving DecidableEq, Repr

/-- A missing value clears. -/
def Update.ofOption {ν : Type} : Option ν → Update ν
  | some v => .set v
  | none => .clear

variable {σ ν : Type} [Session σ ν]

def clear (s : σ) (key : String) : Logged Event σ :=
  match erase s key with
  | (some _, s) => do
    Logged.emit (.cleared key)
    return s
  | (none, s) => pure s

def update (s : σ) (key : String) : Update ν → Logged Event σ
  | .set value => do
    Logged.emit (.set key)
    return insert s key value
  | .clear => clear s key

inductive Step (ν : Type) where
  | get (key : String)
  | insert (key : String) (value : ν)
  | erase (key : String)
  | clear (key : String)
  | update (key : String) (u : Update ν)

inductive Answer (ν : Type) where
  | done
  | found (value : Option ν)
  deriving DecidableEq

def step (s : σ) : Step ν → Logged Event (Answer ν × σ)
  | .get key =>
    let (value, s) := get s key
    pure (.found value, s)
  | .insert key value => pure (.done, insert s key value)
  | .erase key =>
    let (value, s) := erase s key
    pure (.found value, s)
  | .clear key => (.done, ·) <$> clear s key
  | .update key u => (.done, ·) <$> update s key u

/-- The answer to each step of a run, with the store as it is after the step. -/
def run (s : σ) : List (Step ν) → Logged Event (List (Answer ν × σ))
  | [] => pure []
  | st :: rest => do
    let (answer, s) ← step s st
    let later ← run s rest
    return (answer, s) :: later

end Session
end Ingress
