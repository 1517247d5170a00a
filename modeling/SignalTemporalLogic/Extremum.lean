import SignalTemporalLogic.Scalar.Basic

/-!
The two extremes of a list of numbers, and where in the list they are first attained.
-/

namespace SignalTemporalLogic

inductive Extremum where
  | min
  | max
deriving DecidableEq

namespace Extremum

variable {α : Type} [Scalar α]

/-- Strictly closer to the extreme. -/
def Better : Extremum → α → α → Prop
  | min, a, b => a < b
  | max, a, b => b < a

instance (e : Extremum) : DecidableRel (e.Better (α := α)) := fun a b =>
  match e with
  | min => inferInstanceAs (Decidable (a < b))
  | max => inferInstanceAs (Decidable (b < a))

/-- The extreme of no numbers. -/
def identity : Extremum → α
  | min => Scalar.posInf
  | max => Scalar.negInf

/-- Goes on with the numbers from position `i` on, given the best so far with its position. -/
def improve (e : Extremum) (best : Nat × α) (i : Nat) : List α → Nat × α
  | [] => best
  | v :: rest => e.improve (if e.Better v best.2 then (i, v) else best) (i + 1) rest

/-- The position and the value of the first extreme. -/
def first (e : Extremum) : List α → Nat × α
  | [] => (0, e.identity)
  | v :: rest => e.improve (0, v) 1 rest

end Extremum

end SignalTemporalLogic
