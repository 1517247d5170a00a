import SignalTemporalLogic.Formula.Basic

/-!
How far past its anchor a formula looks. A horizon is a sum of offsets and may lie past the last
index. It is kept as a natural number all the same: that the sum of two horizons does not fit into a
64-bit word is left out, where the sums of two indices say what happens.
-/

namespace SignalTemporalLogic

variable {α : Type} [Scalar α]

mutual

/-- The number of samples past the anchor that the formula may read, predicates being read at their
query time. The left operand of an until is only read before the last candidate. -/
def Formula.horizon (spacing : α) : Formula α → Except (Fault α) Nat
  | .predicate _ _ => return 0
  | .not _ arg => arg.horizon spacing
  | .next _ arg => return 1 + (← arg.horizon spacing)
  | .and _ args | .or _ args => args.horizon spacing
  | .always _ interval arg | .eventually _ interval arg => do
    let (_, hi) ← interval.discretize spacing
    return hi + (← arg.horizon spacing)
  | .holdsUntil _ interval left right => do
    let (_, hi) ← interval.discretize spacing
    let leftReach ← if hi = 0 then pure 0 else (hi - 1 + ·) <$> left.horizon spacing
    return max leftReach (hi + (← right.horizon spacing))

/-- The largest horizon of the operands. -/
def Operands.horizon (spacing : α) : Operands α → Except (Fault α) Nat
  | .pair first second => return max (← first.horizon spacing) (← second.horizon spacing)
  | .cons first rest => return max (← first.horizon spacing) (← rest.horizon spacing)

end

end SignalTemporalLogic
