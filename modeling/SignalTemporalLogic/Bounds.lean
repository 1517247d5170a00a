import SignalTemporalLogic.Scalar.Basic

/-!
A range of values, with the rules by which ranges follow negation, minimum and maximum.
-/

namespace SignalTemporalLogic

structure Bounds (α : Type) where
  lower : α
  upper : α

namespace Bounds

variable {α : Type} [Scalar α]

def unbounded : Bounds α := ⟨Scalar.negInf, Scalar.posInf⟩

instance : Inhabited (Bounds α) := ⟨unbounded⟩

/-- The range of a single value. -/
def point (value : α) : Bounds α := ⟨value, value⟩

/-- The range of `-x` for `x` in the given range. -/
def negate (b : Bounds α) : Bounds α := ⟨-b.upper, -b.lower⟩

/-- The range of a minimum with one operand from each of the given ranges. -/
def minOf (bounds : List (Bounds α)) : Bounds α :=
  ⟨Scalar.least (bounds.map lower), Scalar.least (bounds.map upper)⟩

/-- The range of a maximum with one operand from each of the given ranges. -/
def maxOf (bounds : List (Bounds α)) : Bounds α :=
  ⟨Scalar.greatest (bounds.map lower), Scalar.greatest (bounds.map upper)⟩

/-- Both ends agree as numbers; NaN agrees with nothing. -/
def Agrees (a b : Bounds α) : Prop :=
  (a.lower ≤ b.lower ∧ b.lower ≤ a.lower) ∧ (a.upper ≤ b.upper ∧ b.upper ≤ a.upper)

instance (a b : Bounds α) : Decidable (Agrees a b) :=
  inferInstanceAs (Decidable ((_ ∧ _) ∧ (_ ∧ _)))

end Bounds

end SignalTemporalLogic
