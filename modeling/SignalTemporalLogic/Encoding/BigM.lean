import SignalTemporalLogic.Bounds
import SignalTemporalLogic.Fault

/-!
The big-M constant of a group of constraints of which all but one are switched off. A constant
smaller than the spread of the operands cuts off solutions.
-/

namespace SignalTemporalLogic

inductive BigM (α : Type) where
  /-- The same constant for every group. -/
  | constant (value : α)
  /-- For each group the spread of its operands' bounds. -/
  | fromBounds

namespace BigM

variable {α : Type} [Scalar α]

/-- The constant of a group whose operands have the given bounds. -/
def resolve (bounds : List (Bounds α)) : BigM α → Except (Fault α) α
  | constant value => .ok value
  | fromBounds =>
    let upper := Scalar.greatest (bounds.map Bounds.upper)
    let lower := Scalar.least (bounds.map Bounds.lower)
    let spread := upper - lower
    if Scalar.IsFinite spread then .ok spread else .error (.bigM (.unbounded lower upper))

/-- A chosen constant has to be positive and finite. -/
def validate : BigM α → Except (Fault α) Unit
  | constant value =>
    if Scalar.IsPositiveFinite value then .ok () else .error (.bigM (.constant value))
  | fromBounds => .ok ()

end BigM

end SignalTemporalLogic
