import Ingress.Proofs.Session.Entries
/-!
What the events of a session tell. As long as nobody writes past the helpers, the events about a key
follow its being held or not step by step: it is cleared only when it was held, and what the last
event says is so in the end.
-/
namespace Ingress.Session

variable {ν : Type}

def Event.key : Event → String
  | .set key => key
  | .cleared key => key

/-- Events about a key that lead from its being held or not to its being held or not. -/
inductive Leads (key : String) : Bool → List Event → Bool → Prop where
  | nil {b : Bool} : Leads key b [] b
  | set {b c : Bool} {log : List Event} (h : Leads key true log c) : Leads key b (.set key :: log) c
  | cleared {c : Bool} {log : List Event} (h : Leads key false log c) :
      Leads key true (.cleared key :: log) c

namespace Leads

variable {key : String} {b c d : Bool} {l k : List Event}

theorem append (hl : Leads key b l c) (hk : Leads key c k d) : Leads key b (l ++ k) d := by
  induction hl with
  | nil => exact hk
  | set _ ih => exact .set (ih hk)
  | cleared _ ih => exact .cleared (ih hk)

end Leads

/-! Events of steps and runs -/

end Ingress.Session
