import SignalTemporalLogic.Encoding.Group

/-!
A session of encoding: the solver model together with the context. A fault stops the computation,
but both stay as they are at that point.
-/

namespace SignalTemporalLogic

structure Session (α V σ : Type) [Scalar α] where
  solver : σ
  context : EncodingContext α V

/-- A computation in a session. -/
abbrev Encode (α V σ β : Type) [Scalar α] := ExceptT (Fault α) (StateM (Session α V σ)) β

namespace Encode

variable {α V σ β : Type} [Scalar α]

/-- Emits into the model of the session. -/
def emit (act : Emit α σ β) : Encode α V σ β := fun s =>
  match act ⟨s.solver, s.context.stats⟩ with
  | (result, e) => (result, { solver := e.solver, context := { s.context with stats := e.stats } })

def context : Encode α V σ (EncodingContext α V) := return (← get).context

def modifyContext (f : EncodingContext α V → EncodingContext α V) : Encode α V σ Unit :=
  modify fun s => { s with context := f s.context }

def takeLabel (role : VariableRole) (anchor : Nat) : Encode α V σ String :=
  modifyGet fun s =>
    let (label, context) := s.context.takeLabel role anchor
    (label, { s with context })

/-- Encodes a node at an index by `encode`, unless that has been done before. A node is remembered
only after its encoding is complete. -/
def memoized (f : Formula α) (t : Nat) (encode : Encode α V σ (Encoded α V)) :
    Encode α V σ (Encoded α V) := do
  match (← context).encoded? f t with
  | some hit =>
    modifyContext .countHit
    return hit
  | none =>
    let encoded ← encode
    modifyContext (·.remember f t encoded)
    return encoded

/-- The window of an interval at an index of the session's horizon. -/
def window (interval : TimeInterval α) (t : Nat) : Encode α V σ Window := do
  let settings := (← context).settings
  settings.policy.window interval settings.spacing t settings.horizon

/-- The window of the next sample. -/
def nextWindow (t : Nat) : Encode α V σ Window := do
  let settings := (← context).settings
  (settings.policy.offsets t 1 1 settings.horizon : Except (Fault α) Window)

/-- A query at `t` has to be inside the horizon. -/
def checkIndex (t : Nat) : Encode α V σ Unit := do
  let horizon := (← context).settings.horizon
  if horizon ≤ t then throw (.outOfRange t horizon)

end Encode

end SignalTemporalLogic
