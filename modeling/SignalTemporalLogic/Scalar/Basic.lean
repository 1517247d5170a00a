/-!
The numbers that signals, scores and linear models are made of. A `Scalar` has exact or rounded
arithmetic, an order with two infinite ends, and possibly values outside the order (NaN). Scoring,
encoding and search are written once over this class, so that they run on binary64 numbers and
can be reasoned about on exact ones.
-/

namespace SignalTemporalLogic

/-- Arithmetic with infinities. An operation without a meaningful result gives a value that is not
below or equal to itself. -/
class Scalar (α : Type) extends
    Zero α, One α, Add α, Sub α, Mul α, Div α, Neg α, LT α, LE α where
  decLt : DecidableLT α
  decLe : DecidableLE α
  posInf : α
  negInf : α
  /-- The number closest to a natural number. -/
  ofNat : Nat → α
  /-- The nearest whole number, a half going away from zero. -/
  round : α → α
  floor : α → α
  ceil : α → α
  /-- The whole part as a 64-bit index: zero for negative numbers and for NaN, the largest index
  for numbers past it. -/
  toIndex : α → Nat

namespace Scalar

attribute [reducible, instance] decLt decLe

variable {α : Type} [Scalar α]

/-- NaN is the only value that is not comparable with itself. -/
def IsNaN (a : α) : Prop := ¬ a ≤ a

instance (a : α) : Decidable (IsNaN a) := inferInstanceAs (Decidable (¬ a ≤ a))

def IsFinite (a : α) : Prop := negInf < a ∧ a < posInf

instance (a : α) : Decidable (IsFinite a) := inferInstanceAs (Decidable (negInf < a ∧ a < posInf))

/-- Zero of either sign. -/
def IsZero (a : α) : Prop := a ≤ 0 ∧ 0 ≤ a

instance (a : α) : Decidable (IsZero a) := inferInstanceAs (Decidable (a ≤ 0 ∧ 0 ≤ a))

/-- What a sampling interval and a big-M constant have to be. -/
def IsPositiveFinite (a : α) : Prop := IsFinite a ∧ 0 < a

instance (a : α) : Decidable (IsPositiveFinite a) := inferInstanceAs (Decidable (IsFinite a ∧ 0 < a))

/-- The smaller operand; a NaN operand is dropped, and of two equal operands the first stays. -/
def min (a b : α) : α :=
  if IsNaN a then b else if IsNaN b then a else if b < a then b else a

/-- The larger operand; a NaN operand is dropped, and of two equal operands the first stays. -/
def max (a b : α) : α :=
  if IsNaN a then b else if IsNaN b then a else if a < b then b else a

def abs (a : α) : α := if a < 0 then -a else a

def half : α := 1 / ofNat 2

def midpoint (a b : α) : α := (a + b) / ofNat 2

/-- The smallest member of a list, `posInf` if there is none. -/
def least (values : List α) : α := values.foldl min posInf

/-- The largest member of a list, `negInf` if there is none. -/
def greatest (values : List α) : α := values.foldl max negInf

end Scalar

end SignalTemporalLogic
