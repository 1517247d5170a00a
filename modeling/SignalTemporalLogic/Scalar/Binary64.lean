import SignalTemporalLogic.Index
import SignalTemporalLogic.Scalar.Basic

/-!
Binary64 numbers as scalars. Sums, products and comparisons are those of `Float`; rounding to whole
numbers and to indices is read off the value `± mantissa * 2 ^ exponent`, so that it can be
computed with and reasoned about in `Nat`.
-/

namespace SignalTemporalLogic.Binary64

open Float.Model (UnpackedFloat)

def signed (sign : UnpackedFloat.Sign) (magnitude : Nat) : Float :=
  match sign with
  | .positive => Float.ofNat magnitude
  | .negative => -Float.ofNat magnitude

/-- The whole part of `mantissa * 2 ^ exponent`. -/
def wholeBelow (mantissa : Nat) (exponent : Int) : Nat :=
  if 0 ≤ exponent then mantissa <<< exponent.toNat else mantissa >>> (-exponent).toNat

/-- The least whole number that is not below `mantissa * 2 ^ exponent`. -/
def wholeAbove (mantissa : Nat) (exponent : Int) : Nat :=
  if 0 ≤ exponent then mantissa <<< exponent.toNat
  else (mantissa + (1 <<< (-exponent).toNat - 1)) >>> (-exponent).toNat

/-- The whole number nearest to `mantissa * 2 ^ exponent`, the greater one of two. -/
def wholeNearest (mantissa : Nat) (exponent : Int) : Nat :=
  if 0 ≤ exponent then mantissa <<< exponent.toNat
  else (mantissa + 1 <<< ((-exponent).toNat - 1)) >>> (-exponent).toNat

/-- Half goes away from zero; a whole number, an infinity and NaN stay what they are. -/
def round (x : Float) : Float :=
  match x.toModel.unpack with
  | .finite sign mantissa exponent _ =>
    if 0 ≤ exponent then x else signed sign (wholeNearest mantissa exponent)
  | _ => x

def floor (x : Float) : Float :=
  match x.toModel.unpack with
  | .finite sign mantissa exponent _ =>
    if 0 ≤ exponent then x
    else match sign with
      | .positive => signed .positive (wholeBelow mantissa exponent)
      | .negative => signed .negative (wholeAbove mantissa exponent)
  | _ => x

def ceil (x : Float) : Float :=
  match x.toModel.unpack with
  | .finite sign mantissa exponent _ =>
    if 0 ≤ exponent then x
    else match sign with
      | .positive => signed .positive (wholeAbove mantissa exponent)
      | .negative => signed .negative (wholeBelow mantissa exponent)
  | _ => x

def toIndex (x : Float) : Nat :=
  match x.toModel.unpack with
  | .finite .positive mantissa exponent _ => min (wholeBelow mantissa exponent) Index.last
  | .infinity .positive => Index.last
  | _ => 0

example : round 2.5 = 3 ∧ round (-2.5) = -3 ∧ round 0.49999999999999994 = 0 := by decide +kernel

example : floor (-0.5) = -1 ∧ ceil 0.5 = 1 := by decide +kernel

example : toIndex (-1) = 0 ∧ toIndex 1e300 = Index.last := by decide +kernel

end Binary64

instance : Scalar Float where
  zero := 0
  one := 1
  decLt := inferInstance
  decLe := inferInstance
  posInf := 1 / 0
  negInf := -1 / 0
  ofNat := Float.ofNat
  round := Binary64.round
  floor := Binary64.floor
  ceil := Binary64.ceil
  toIndex := Binary64.toIndex

end SignalTemporalLogic
