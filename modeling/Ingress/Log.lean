/-!
Results that come with the events written on the way, oldest first, and the form in which an event
reaches a log.
-/
namespace Ingress

structure Logged (ω α : Type) where
  value : α
  events : List ω

namespace Logged

variable {ω α β : Type}

instance : Monad (Logged ω) where
  pure a := ⟨a, []⟩
  bind x f := ⟨(f x.value).value, x.events ++ (f x.value).events⟩

def emit (e : ω) : Logged ω Unit := ⟨(), [e]⟩

@[ext] theorem ext {x y : Logged ω α} (hv : x.value = y.value) (he : x.events = y.events) :
    x = y := by
  cases x
  cases y
  simp_all

@[simp] theorem value_pure (a : α) : (pure a : Logged ω α).value = a := rfl

@[simp] theorem events_pure (a : α) : (pure a : Logged ω α).events = [] := rfl

@[simp] theorem value_bind (x : Logged ω α) (f : α → Logged ω β) :
    (x >>= f).value = (f x.value).value := rfl

@[simp] theorem events_bind (x : Logged ω α) (f : α → Logged ω β) :
    (x >>= f).events = x.events ++ (f x.value).events := rfl

@[simp] theorem value_map (f : α → β) (x : Logged ω α) : (f <$> x).value = f x.value := rfl

@[simp] theorem events_map (f : α → β) (x : Logged ω α) : (f <$> x).events = x.events := by
  simp [Functor.map]

@[simp] theorem events_emit (e : ω) : (emit e).events = [e] := rfl

instance : LawfulMonad (Logged ω) := LawfulMonad.mk' (Logged ω)
  (fun x => by ext1 <;> simp)
  (fun a f => by ext1 <;> simp)
  (fun x f g => by ext1 <;> simp [List.append_assoc])

end Logged

inductive Level where
  | trace
  | debug
  | warn
  deriving DecidableEq, Repr

def Level.name : Level → String
  | .trace => "TRACE"
  | .debug => "DEBUG"
  | .warn => "WARN"

structure LogLine where
  level : Level
  message : String
  fields : List (String × String)
  deriving DecidableEq, Repr

end Ingress
