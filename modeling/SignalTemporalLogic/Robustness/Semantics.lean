import SignalTemporalLogic.Scalar.Basic

/-!
What a formula evaluates to: how predicates are read, and how the connectives combine values.
-/

namespace SignalTemporalLogic

structure Semantics (α Y : Type) where
  and : Y → Y → Y
  or : Y → Y → Y
  not : Y → Y
  /-- The conjunction of nothing. -/
  always : Y
  /-- The disjunction of nothing. -/
  eventually : Y
  /-- Reads the value of a signal. -/
  atomic : α → Y

namespace Semantics

variable {α Y : Type}

def all (S : Semantics α Y) (values : List Y) : Y := values.foldl S.and S.always

def any (S : Semantics α Y) (values : List Y) : Y := values.foldl S.or S.eventually

variable [Scalar α]

/-- The margin by which a formula holds, negative if it does not. -/
def quantitative : Semantics α α where
  and := Scalar.min
  or := Scalar.max
  not a := -a
  always := Scalar.posInf
  eventually := Scalar.negInf
  atomic a := a

/-- Whether a formula holds. A predicate does where its signal is positive. -/
def qualitative : Semantics α Bool where
  and := Bool.and
  or := Bool.or
  not := Bool.not
  always := true
  eventually := false
  atomic a := 0 < a

end Semantics

end SignalTemporalLogic
