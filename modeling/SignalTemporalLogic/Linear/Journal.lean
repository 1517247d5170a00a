import SignalTemporalLogic.Linear.Solver

/-!
A solver model that only writes down what it is told. Variables are known by their names. It can be
made to refuse every call after a given number of them.
-/

namespace SignalTemporalLogic

/-- A call on a solver model, with its arguments as they were passed. -/
inductive SolverEvent (α V : Type) where
  | added (name : String) (kind : VarKind) (bounds : Bounds α)
  | constrained (lhs : LinearExpr α V) (relation : Relation) (rhs : LinearExpr α V)
  | started (var : V) (value : α)

/-- What a journal writes down and when it refuses. -/
structure JournalOptions where
  /-- Write down start values too; otherwise they are ignored. -/
  starts : Bool
  /-- The number of calls that are accepted. -/
  capacity : Option Nat
  /-- The error that is given as the reason of a refusal. -/
  source : Option String

/-- The accepted calls, in order. -/
abbrev Journal (α : Type) := Array (SolverEvent α String)

namespace Journal

variable {α : Type}

/-- Writes down a call, unless the journal is full. -/
def record (options : JournalOptions) (event : SolverEvent α String) :
    SolverCall α (Journal α) Unit := do
  let journal : Journal α ← get
  let count := journal.size
  if options.capacity.any (· ≤ count) then
    throw (.external s!"call {count} refused" options.source)
  set (journal.push event)

/-- The model that keeps a journal. -/
def solver (options : JournalOptions) : SolverModel α String (Journal α) where
  addVariable name kind bounds := do
    record options (.added name kind bounds)
    return name
  addConstraint lhs relation rhs := record options (.constrained lhs relation rhs)
  setStart var value := if options.starts then record options (.started var value) else pure ()

end Journal

end SignalTemporalLogic
