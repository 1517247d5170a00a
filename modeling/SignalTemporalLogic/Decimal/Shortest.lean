/-!
The shortest decimal that reads back as a given binary64 number. A number `mantissa * 2 ^ exponent`
is what every real close enough to it reads as; of the decimals in that interval the one with the
fewest digits is taken, and of those the nearest, a tie going away from zero. All comparisons are
made on natural numbers.
-/

namespace SignalTemporalLogic

/-- The number `digits * 10 ^ exponent`. -/
structure Decimal where
  digits : Nat
  exponent : Int
deriving DecidableEq

namespace Decimal

/-- Compares the decimal with `n * 2 ^ e`, both sides scaled up to natural numbers. -/
def compareBinary (d : Decimal) (n : Nat) (e : Int) : Ordering :=
  compare ((d.digits * Nat.pow 10 d.exponent.toNat) <<< (-e).toNat)
    ((n <<< e.toNat) * Nat.pow 10 (-d.exponent).toNat)

/-- The reals that read as `mantissa * 2 ^ exponent`: from `lower` to `upper` in units of
`2 ^ (exponent - 2)`, the ends included if the mantissa is even. -/
structure ReadingInterval where
  lower : Nat
  upper : Nat
  unit : Int
  closed : Bool

/-- Halfway to both neighbours. Below a power of two the neighbour is only half as far away. -/
def readingInterval (mantissa : Nat) (exponent : Int) : ReadingInterval where
  lower := if mantissa = 1 <<< 52 ∧ -1074 < exponent then 4 * mantissa - 1 else 4 * mantissa - 2
  upper := 4 * mantissa + 2
  unit := exponent - 2
  closed := mantissa % 2 = 0

def ReadingInterval.contains (i : ReadingInterval) (d : Decimal) : Bool :=
  match d.compareBinary i.lower i.unit, d.compareBinary i.upper i.unit with
  | .gt, .lt => true
  | .eq, _ | _, .eq => i.closed
  | _, _ => false

/-- The whole part of `n * 2 ^ e / 10 ^ p`. -/
def wholeQuotient (n : Nat) (e p : Int) : Nat :=
  ((n <<< e.toNat) * Nat.pow 10 (-p).toNat) / ((Nat.pow 10 p.toNat) <<< (-e).toNat)

/-- The exponent of the leading decimal digit of a positive binary64 number: the number is scaled by
`10 ^ 324`, which makes all of them at least one, and the digits of its whole part are counted. -/
def leadingExponent (mantissa : Nat) (exponent : Int) : Int :=
  (Nat.toDigits 10 (wholeQuotient mantissa exponent (-324))).length - 1 - 324

/-- The better one of the two multiples of `10 ^ p` around the number that reads back as it. -/
def onGrid? (mantissa : Nat) (exponent p : Int) : Option Decimal :=
  let interval := readingInterval mantissa exponent
  let below : Decimal := ⟨wholeQuotient mantissa exponent p, p⟩
  let above : Decimal := ⟨below.digits + 1, p⟩
  match interval.contains below, interval.contains above with
  | true, true =>
    -- Twice the number lies between `below + above` or not.
    if Decimal.compareBinary ⟨below.digits + above.digits, p⟩ mantissa (exponent + 1) = .gt
    then some below else some above
  | true, false => some below
  | false, true => some above
  | false, false => none

/-- Seventeen digits are always enough, so the last grid of the search has a point. -/
def shortest (mantissa : Nat) (exponent : Int) : Decimal :=
  let leading := leadingExponent mantissa exponent
  let found := (List.range 17).findSome? fun (n : Nat) => onGrid? mantissa exponent (leading - n)
  found.getD ⟨wholeQuotient mantissa exponent (leading - 16), leading - 16⟩

end Decimal

end SignalTemporalLogic
