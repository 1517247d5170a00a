import SignalTemporalLogic.Signal.Basic

/-!
Trajectories as the evaluator sees them: something that knows its sampling interval and its length
and gives a value to some of the samples.
-/

namespace SignalTemporalLogic

/-- A read-only view of sampled signals over the indices `[0, length)`. -/
structure Trajectory (α : Type) where
  value : Sample → Except (Fault α) α
  spacing : α
  length : Nat

namespace Trajectory

variable {α : Type}

/-- A query at `t` has to be inside the domain. -/
def checkIndex (x : Trajectory α) (t : Nat) : Except (Fault α) Unit :=
  if x.length ≤ t then .error (.outOfRange t x.length) else .ok ()

/-- The value of a signal at time `t`. Every argument is named and read before the next one. -/
def signalValue [Scalar α] (x : Trajectory α) (signal : Signal α) (t : Nat) :
    Except (Fault α) α := do
  x.checkIndex t
  let arguments ← signal.form.labels.mapM fun label => do x.value (← Signal.sampleAt label t)
  return signal.form.apply arguments

end Trajectory

end SignalTemporalLogic
