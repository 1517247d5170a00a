import SignalTemporalLogic.Feasibility.Model

/-!
Whether an assignment of all variables satisfies a stored model, up to its tolerance.
-/

namespace SignalTemporalLogic

variable {α : Type} [Scalar α]

/-- Bounds and integrality. -/
def Variable.admits (tolerance : α) (var : Variable α) (x : α) : Bool :=
  var.bounds.lower - tolerance ≤ x && x ≤ var.bounds.upper + tolerance &&
    (var.kind = .continuous || Scalar.abs (x - Scalar.round x) ≤ tolerance)

namespace Constraint

/-- The value of the left side, summed from left to right. -/
def sumAt (c : Constraint α) (values : Array α) : α :=
  c.terms.foldl (fun sum (a, v) => sum + a * values.getD v.index 0) 0

/-- The tolerance grows with the right side. -/
def holdsAt (tolerance : α) (c : Constraint α) (values : Array α) : Bool :=
  let lhs := c.sumAt values
  let slack := tolerance * (1 + Scalar.abs c.rhs)
  match c.relation with
  | .lessEqual => lhs ≤ c.rhs + slack
  | .greaterEqual => c.rhs - slack ≤ lhs
  | .equal => Scalar.abs (lhs - c.rhs) ≤ slack

end Constraint

/-- True if the values satisfy all bounds, integrality requirements and constraints. -/
def StoredModel.check (m : StoredModel α) (values : Array α) : Bool :=
  values.size = m.vars.size &&
    (m.vars.zip values).all (fun (var, x) => var.admits m.tolerance x) &&
    m.constraints.all (·.holdsAt m.tolerance values)

end SignalTemporalLogic
