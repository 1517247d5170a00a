import SignalTemporalLogic.Index
import SignalTemporalLogic.Scalar.Basic

/-!
Exact numbers: rationals with two infinities and a NaN. Finite arithmetic is that of the rationals,
and operations with an infinite operand follow the same rules as on binary64 numbers. There is one
zero, which counts as positive in a division.
-/

namespace SignalTemporalLogic

inductive Exact where
  | nan
  | negInf
  | fin (value : Rat)
  | posInf
deriving DecidableEq

namespace Exact

/-- The infinity with the sign of `direction`, NaN for a direction of zero. -/
def infinity (direction : Rat) : Exact :=
  if 0 < direction then posInf else if direction < 0 then negInf else nan

def neg : Exact → Exact
  | nan => nan
  | negInf => posInf
  | fin a => fin (-a)
  | posInf => negInf

def add : Exact → Exact → Exact
  | fin a, fin b => fin (a + b)
  | nan, _ | _, nan | posInf, negInf | negInf, posInf => nan
  | posInf, _ | _, posInf => posInf
  | negInf, _ | _, negInf => negInf

/-- A number with the sign of the argument; zero is its own sign, and NaN has none. -/
def direction : Exact → Option Rat
  | nan => none
  | negInf => some (-1)
  | fin a => some a
  | posInf => some 1

def mul : Exact → Exact → Exact
  | fin a, fin b => fin (a * b)
  | a, b =>
    match a.direction, b.direction with
    | some s, some t => infinity (s * t)
    | _, _ => nan

def div : Exact → Exact → Exact
  | fin a, fin b => if b = 0 then infinity a else fin (a / b)
  | fin _, negInf | fin _, posInf => fin 0
  | posInf, fin b => if b < 0 then negInf else posInf
  | negInf, fin b => if b < 0 then posInf else negInf
  | _, _ => nan

def Below : Exact → Exact → Prop
  | nan, _ | _, nan => False
  | fin a, fin b => a < b
  | negInf, fin _ | negInf, posInf | fin _, posInf => True
  | _, _ => False

def AtMost : Exact → Exact → Prop
  | nan, _ | _, nan => False
  | negInf, _ | _, posInf => True
  | fin a, fin b => a ≤ b
  | _, _ => False

instance : DecidableRel Below
  | nan, _ | negInf, nan | fin _, nan | posInf, nan | negInf, negInf | fin _, negInf
  | posInf, negInf | posInf, fin _ | posInf, posInf => isFalse not_false
  | fin a, fin b => inferInstanceAs (Decidable (a < b))
  | negInf, fin _ | negInf, posInf | fin _, posInf => isTrue trivial

instance : DecidableRel AtMost
  | nan, _ | negInf, nan | fin _, nan | posInf, nan | fin _, negInf
  | posInf, negInf | posInf, fin _ => isFalse not_false
  | fin a, fin b => inferInstanceAs (Decidable (a ≤ b))
  | negInf, negInf | negInf, fin _ | negInf, posInf | fin _, posInf | posInf, posInf =>
    isTrue trivial

/-- Applies a rounding of rationals to whole numbers; infinities and NaN stay what they are. -/
def roundBy (whole : Rat → Int) : Exact → Exact
  | fin a => fin (whole a)
  | a => a

/-- The nearest whole number, a half going away from zero. -/
def nearest (a : Rat) : Int :=
  if 0 ≤ a then (a + 1 / 2).floor else (a - 1 / 2).ceil

def toIndex : Exact → Nat
  | fin a => min a.floor.toNat Index.last
  | posInf => Index.last
  | _ => 0

end Exact

instance : Scalar Exact where
  zero := .fin 0
  one := .fin 1
  add := Exact.add
  sub a b := a.add b.neg
  mul := Exact.mul
  div := Exact.div
  neg := Exact.neg
  lt := Exact.Below
  le := Exact.AtMost
  decLt := inferInstanceAs (DecidableRel Exact.Below)
  decLe := inferInstanceAs (DecidableRel Exact.AtMost)
  posInf := .posInf
  negInf := .negInf
  ofNat n := .fin n
  round := Exact.roundBy Exact.nearest
  floor := Exact.roundBy Rat.floor
  ceil := Exact.roundBy Rat.ceil
  toIndex := Exact.toIndex

end SignalTemporalLogic
