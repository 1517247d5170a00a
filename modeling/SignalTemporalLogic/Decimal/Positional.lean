import SignalTemporalLogic.Decimal.Shortest
import SignalTemporalLogic.Scalar.Exact

/-!
Numbers in messages and descriptions are written out in full: the shortest digits that read back, a
point only before a fraction, and no exponent however large or small the number is.
-/

namespace SignalTemporalLogic

/-- Numbers that can stand in a message. -/
class ScalarText (α : Type) where
  text : α → String

namespace Decimal

/-- Writes `digits * 10 ^ exponent` without an exponent and without trailing zeros of a fraction. -/
def positional (d : Decimal) : String :=
  if 0 ≤ d.exponent then toString (d.digits * Nat.pow 10 d.exponent.toNat)
  else
    let places := (-d.exponent).toNat
    let whole := d.digits / Nat.pow 10 places
    let fraction := Nat.toDigits 10 (d.digits % Nat.pow 10 places)
    let padded := List.leftpad places '0' fraction
    let shown := (padded.reverse.dropWhile (· = '0')).reverse
    if shown.isEmpty then toString whole else toString whole ++ "." ++ String.ofList shown

end Decimal

namespace Binary64

open Float.Model (UnpackedFloat)

def signText : UnpackedFloat.Sign → String
  | .positive => ""
  | .negative => "-"

def text (x : Float) : String :=
  match x.toModel.unpack with
  | .notANumber => "NaN"
  | .infinity sign => signText sign ++ "inf"
  | .zero sign => signText sign ++ "0"
  | .finite sign mantissa exponent _ =>
    signText sign ++ (Decimal.shortest mantissa exponent).positional

end Binary64

instance : ScalarText Float := ⟨Binary64.text⟩

-- No point after a whole number, and the sign of zero is kept.
example : Binary64.text 3 = "3" ∧ Binary64.text (-0.25) = "-0.25" ∧ Binary64.text (-0) = "-0" := by
  decide +kernel

-- No exponent on either side of one.
example : Binary64.text 1e21 = "1000000000000000000000" ∧ Binary64.text 1e-7 = "0.0000001" := by
  decide +kernel

-- As many digits as it takes to read back.
example : Binary64.text (0.1 + 0.2) = "0.30000000000000004" := by decide +kernel

example : Binary64.text (-1 / 0) = "-inf" ∧ Binary64.text (0 / 0) = "NaN" := by decide +kernel

/-- Exact numbers are written as fractions. -/
def Exact.text : Exact → String
  | .nan => "NaN"
  | .posInf => "inf"
  | .negInf => "-inf"
  | .fin a => if a.den = 1 then toString a.num else toString a.num ++ "/" ++ toString a.den

instance : ScalarText Exact := ⟨Exact.text⟩

end SignalTemporalLogic
