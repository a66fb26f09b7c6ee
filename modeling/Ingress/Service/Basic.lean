import Ingress.Resolution
/-!
Services as state machines, and the layer that resolves the origin of every request on its way in.
The layer hands on a request whose origin does not resolve as it came, with the origin that it may
already carry.
-/
namespace Ingress

structure Request (β χ : Type) where
  method : String
  uri : Uri
  headers : Headers
  body : β
  /-- The origin that a layer further out has attached. -/
  origin : Option Origin
  extensions : χ

def Request.view {β χ : Type} (r : Request β χ) : View := .ofHeaders r.uri r.headers

def TrustPolicy.attach {β χ : Type} (p : TrustPolicy) (r : Request β χ) :
    Logged Event (Request β χ) := do
  match ← p.resolve r.view with
  | .ok origin => return { r with origin := some origin }
  | .error e =>
    Logged.emit (.unresolved e r.uri)
    return r

inductive Readiness (ε : Type) where
  | ready
  | pending
  | failed (error : ε)
  deriving DecidableEq, Repr

/-- A machine with states `σ` that answers requests `ρ` with `α` or fails with `ε`. -/
structure Service (σ ρ α ε : Type) where
  poll : σ → Logged Event (Readiness ε × σ)
  call : σ → ρ → Logged Event (Except ε α × σ)
  /-- The state of a copy, which need not be that of what was copied. -/
  clone : σ → σ := id

structure Wrapped (σ : Type) where
  policy : TrustPolicy
  inner : σ

namespace Service

variable {σ β χ ρ α ε : Type}

def wrap (s : Service σ (Request β χ) α ε) : Service (Wrapped σ) (Request β χ) α ε where
  poll w := do
    let (readiness, inner) ← s.poll w.inner
    return (readiness, { w with inner })
  call w r := do
    let r ← w.policy.attach r
    let (answer, inner) ← s.call w.inner r
    return (answer, { w with inner })
  clone w := { w with inner := s.clone w.inner }

inductive Step (ρ : Type) where
  | poll
  | call (request : ρ)
  | clone

inductive Answer (α ε : Type) where
  | readiness (r : Readiness ε)
  | response (r : Except ε α)
  | cloned

/-- One step of a run, which goes on with the copy once it has made one. -/
def step (s : Service σ ρ α ε) (x : σ) : Step ρ → Logged Event (Answer α ε × σ)
  | .poll => (fun (r, x) => (.readiness r, x)) <$> s.poll x
  | .call request => (fun (r, x) => (.response r, x)) <$> s.call x request
  | .clone => pure (.cloned, s.clone x)

def run (s : Service σ ρ α ε) (x : σ) : List (Step ρ) → Logged Event (List (Answer α ε) × σ)
  | [] => pure ([], x)
  | st :: rest => do
    let (answer, x) ← s.step x st
    let (answers, x) ← s.run x rest
    return (answer :: answers, x)

end Service

/-- The state of `n` layers around a service, one inside the other. -/
def Layers (σ : Type) : Nat → Type
  | 0 => σ
  | n + 1 => Wrapped (Layers σ n)

namespace Layers

variable {σ β χ α ε : Type}

/-- Layers with these policies, the outermost first. -/
def around (x : σ) : (policies : List TrustPolicy) → Layers σ policies.length
  | [] => x
  | p :: rest => ⟨p, around x rest⟩

def policies : (n : Nat) → Layers σ n → List TrustPolicy
  | 0, _ => []
  | n + 1, x => x.policy :: policies n x.inner

def innermost : (n : Nat) → Layers σ n → σ
  | 0, x => x
  | n + 1, x => innermost n x.inner

def service (s : Service σ (Request β χ) α ε) : (n : Nat) → Service (Layers σ n) (Request β χ) α ε
  | 0 => s
  | n + 1 => (service s n).wrap

theorem policies_around (x : σ) (ps : List TrustPolicy) :
    policies ps.length (around x ps) = ps := by
  induction ps with
  | nil => rfl
  | cons p rest ih => exact congrArg (p :: ·) ih

theorem innermost_around (x : σ) (ps : List TrustPolicy) :
    innermost ps.length (around x ps) = x := by
  induction ps with
  | nil => rfl
  | cons p rest ih => exact ih

end Layers
end Ingress
