import Std.Data.HashMap
import Std.Data.TreeMap
import Ingress.Session.Basic
/-!
Stores for sessions: hash maps, ordered maps, any store behind the methods that it brings along, and
any store with a record of how it is used.
-/
namespace Ingress

variable {σ ν : Type}

instance : Session (Std.HashMap String ν) ν where
  get s key := (s[key]?, s)
  insert s key value := s.insert key value
  erase s key := (s[key]?, s.erase key)

instance : Session (Std.TreeMap String ν) ν where
  get s key := (s[key]?, s)
  insert s key value := s.insert key value
  erase s key := (s[key]?, s.erase key)

namespace Session

/-- A store that is used only through methods of its own. -/
structure Object (σ ν : Type) where
  methods : Session σ ν
  store : σ

instance : Session (Object σ ν) ν where
  get o key :=
    let (value, store) := o.methods.get o.store key
    (value, { o with store })
  insert o key value := { o with store := o.methods.insert o.store key value }
  erase o key :=
    let (value, store) := o.methods.erase o.store key
    (value, { o with store })

inductive Use (ν : Type) where
  | get (key : String)
  | insert (key : String) (value : ν)
  | erase (key : String)
  deriving DecidableEq

/-- A store and the uses made of it, oldest first. -/
structure Recording (σ ν : Type) where
  store : σ
  uses : List (Use ν)

instance [Session σ ν] : Session (Recording σ ν) ν where
  get r key :=
    let (value, store) := get r.store key
    (value, ⟨store, r.uses ++ [.get key]⟩)
  insert r key value := ⟨insert r.store key value, r.uses ++ [.insert key value]⟩
  erase r key :=
    let (value, store) := erase r.store key
    (value, ⟨store, r.uses ++ [.erase key]⟩)

def Recording.usesSince (r earlier : Recording σ ν) : List (Use ν) :=
  r.uses.drop earlier.uses.length

end Session
end Ingress
