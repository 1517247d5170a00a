import SignalTemporalLogic.Bounds
import SignalTemporalLogic.Fault
import SignalTemporalLogic.Linear.Expr

/-!
The interface of a mixed-integer linear model. A model is only ever added to: the encoder never
reads anything back but the handles of new variables.
-/

namespace SignalTemporalLogic

inductive VarKind where
  | continuous
  | binary
deriving DecidableEq

/-- A call on a model with state `σ`. The state stays when the call is refused. -/
abbrev SolverCall (α σ β : Type) := ExceptT (Refusal α) (StateM σ) β

/-- A model with variable handles `V` and state `σ`. -/
structure SolverModel (α V σ : Type) where
  addVariable : String → VarKind → Bounds α → SolverCall α σ V
  addConstraint : LinearExpr α V → Relation → LinearExpr α V → SolverCall α σ Unit
  /-- A hint where to start the search. A model may ignore it. -/
  setStart : V → α → SolverCall α σ Unit := fun _ _ => pure ()

end SignalTemporalLogic
