import SignalTemporalLogic.Formula.Basic

/-!
Formulas in compact notation, as in `G[0, 2](x > 3)` and `(x > 0) U[0, 5] (¬(y > 2))`.
-/

namespace SignalTemporalLogic

variable {α : Type} [Scalar α] [ScalarText α]

mutual

def Formula.text : Formula α → String
  | .predicate _ signal => signal.text
  | .not _ arg => "¬(" ++ arg.text ++ ")"
  | .and _ args => args.joined " ∧ "
  | .or _ args => args.joined " v "
  | .always _ interval arg => "G" ++ interval.text ++ "(" ++ arg.text ++ ")"
  | .eventually _ interval arg => "F" ++ interval.text ++ "(" ++ arg.text ++ ")"
  | .holdsUntil _ interval left right =>
    "(" ++ left.text ++ ") U" ++ interval.text ++ " (" ++ right.text ++ ")"
  | .next _ arg => "X(" ++ arg.text ++ ")"

/-- The operands in parentheses, with a separator between them. -/
def Operands.joined (separator : String) : Operands α → String
  | .pair first second => "(" ++ first.text ++ ")" ++ separator ++ "(" ++ second.text ++ ")"
  | .cons first rest => "(" ++ first.text ++ ")" ++ separator ++ rest.joined separator

end

end SignalTemporalLogic
