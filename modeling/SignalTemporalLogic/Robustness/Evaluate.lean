import SignalTemporalLogic.Formula.Basic
import SignalTemporalLogic.Robustness.Semantics
import SignalTemporalLogic.Time.Window
import SignalTemporalLogic.Trajectory.Basic

/-!
Evaluation of a formula over a trajectory. Operands are evaluated in order and all of them are, so
the first fault decides the outcome and no value can hide a later one.
-/

namespace SignalTemporalLogic

variable {α Y : Type} [Scalar α]

/-- The window of an interval at a sample of the trajectory. -/
def Trajectory.window (x : Trajectory α) (policy : WindowPolicy) (interval : TimeInterval α)
    (anchor : Nat) : Except (Fault α) Window :=
  policy.window interval x.spacing anchor x.length

/-- The window of the next sample. -/
def Trajectory.nextWindow (x : Trajectory α) (policy : WindowPolicy) (anchor : Nat) :
    Except (Fault α) Window :=
  policy.offsets anchor 1 1 x.length

/-- Goes through the candidates of an until, `more` of them after the first. `before` holds the
conjunction of the left operand up to the candidate, `result` the disjunction of the candidates
before it. -/
def Semantics.untilFrom (S : Semantics α Y) (left right : Nat → Except (Fault α) Y)
    (before result : Y) (candidate : Nat) : Nat → Except (Fault α) Y
  | 0 => return S.or result (S.and (← right candidate) before)
  | more + 1 => do
    let result := S.or result (S.and (← right candidate) before)
    let before := S.and before (← left candidate)
    S.untilFrom left right before result (candidate + 1) more

mutual

/-- The value of the formula at time `t`. -/
def Formula.valueAt (S : Semantics α Y) (policy : WindowPolicy) (x : Trajectory α) :
    Formula α → Nat → Except (Fault α) Y
  | .predicate _ signal, t => return S.atomic (← x.signalValue signal t)
  | .not _ arg, t => return S.not (← arg.valueAt S policy x t)
  | .and _ args, t => return S.all (← args.valuesAt S policy x t)
  | .or _ args, t => return S.any (← args.valuesAt S policy x t)
  | .always _ interval arg, t => do
    let w ← x.window policy interval t
    return S.all (← w.mapM fun u => arg.valueAt S policy x u)
  | .eventually _ interval arg, t => do
    let w ← x.window policy interval t
    return S.any (← w.mapM fun u => arg.valueAt S policy x u)
  | .holdsUntil _ interval left right, t => do
    let w ← x.window policy interval t
    let before ← Index.mapRangeM (fun u => left.valueAt S policy x u) t (w.first - t)
    S.untilFrom (fun u => left.valueAt S policy x u) (fun u => right.valueAt S policy x u)
      (S.all before) S.eventually w.first (w.last - w.first)
  | .next _ arg, t => do
    let w ← x.nextWindow policy t
    arg.valueAt S policy x w.first

/-- The values of the operands at time `t`, in order. -/
def Operands.valuesAt (S : Semantics α Y) (policy : WindowPolicy) (x : Trajectory α) :
    Operands α → Nat → Except (Fault α) (List Y)
  | .pair first second, t =>
    return [← first.valueAt S policy x t, ← second.valueAt S policy x t]
  | .cons first rest, t =>
    return (← first.valueAt S policy x t) :: (← rest.valuesAt S policy x t)

end

namespace Formula

/-- The value of the formula at an anchor inside the trajectory. -/
def evaluate (S : Semantics α Y) (policy : WindowPolicy) (f : Formula α) (x : Trajectory α)
    (anchor : Nat) : Except (Fault α) Y := do
  x.checkIndex anchor
  f.valueAt S policy x anchor

/-- The margin by which the formula holds at the anchor. -/
def robustness (policy : WindowPolicy) (f : Formula α) (x : Trajectory α) (anchor : Nat) :
    Except (Fault α) α :=
  f.evaluate .quantitative policy x anchor

/-- Whether the formula holds at the anchor. -/
def satisfied (policy : WindowPolicy) (f : Formula α) (x : Trajectory α) (anchor : Nat) :
    Except (Fault α) Bool :=
  f.evaluate .qualitative policy x anchor

end Formula

end SignalTemporalLogic
