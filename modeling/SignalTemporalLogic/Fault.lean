import SignalTemporalLogic.Decimal.Positional
import SignalTemporalLogic.Signal.Sample

/-!
Why an operation is refused. A fault keeps the values at fault; its wording is in `Fault.message`
alone.
-/

namespace SignalTemporalLogic

/-- What is wrong with a temporal interval, or with the window it stands for. -/
inductive BoundsFault where
  | notFinite
  | negativeLower
  | lowerExceedsUpper
  | samplingInterval
  | discretizedInverted
  | offsetsInverted
  | clippedEmpty
deriving DecidableEq

/-- Operators over a list of operands. -/
inductive GroupOperator where
  | and
  | or
  | min
  | max
deriving DecidableEq

inductive SignalFault (α : Type) where
  | labelCount (labels coefficients : Nat)
  | notFinite
  | valueBounds (lower upper : α)
  | noSample (label : SampleLabel) (time : Nat)
deriving DecidableEq

inductive TrajectoryFault (α : Type) where
  | samplingInterval (interval : α)
  | sampleCount (name : String) (found expected : Nat)
  | componentCount (state found expected : Nat)
  | noHorizon
deriving DecidableEq

inductive BigMFault (α : Type) where
  | missing
  | constant (value : α)
  | unbounded (lower upper : α)
deriving DecidableEq

/-- Why a solver model turns a call down. -/
inductive Refusal (α : Type) where
  | variableLimit (limit : Nat) (name : String)
  | invalidBounds (name : String) (lower upper : α)
  | nonFiniteCoefficient (coefficient : α) (var : Nat)
  | nonFiniteConstant (constant : α)
  | unknownTerm (var : Nat)
  | unknownVariable (var : Nat)
  | notFixable (value : α)
  /-- The words of another solver, with the error that made it refuse. -/
  | external (message : String) (source : Option String)
deriving DecidableEq

inductive Fault (α : Type) where
  /-- A temporal interval is malformed, or its window is empty. -/
  | bounds (start stop : α) (reason : BoundsFault)
  /-- A list of operands is too short. -/
  | arity (operator : GroupOperator) (expected found : Nat)
  /-- A time or a window is outside `[0, length)`. -/
  | outOfRange (index length : Nat)
  /-- A sample has no value, or no variable. -/
  | unbound (sample : Sample)
  | signal (reason : SignalFault α)
  | trajectory (reason : TrajectoryFault α)
  /-- A predicate over the named nonlinear function has no linear encoding. -/
  | notAffine (function : String)
  | bigM (reason : BigMFault α)
  | refused (refusal : Refusal α)
deriving DecidableEq

def BoundsFault.message : BoundsFault → String
  | notFinite => "bounds must be finite"
  | negativeLower => "lower bound is negative"
  | lowerExceedsUpper => "lower bound exceeds upper bound"
  | samplingInterval => "sampling interval must be positive and finite"
  | discretizedInverted => "discretized window is inverted"
  | offsetsInverted => "sample offsets are inverted"
  | clippedEmpty => "window is empty once clipped to the trajectory"

def GroupOperator.name : GroupOperator → String
  | and => "and"
  | or => "or"
  | min => "min"
  | max => "max"

section Messages

variable {α : Type} [ScalarText α]

open ScalarText (text)

def SignalFault.message : SignalFault α → String
  | labelCount labels coefficients =>
    s!"{labels} label generators but {coefficients} coefficients"
  | notFinite => "affine coefficients must be finite"
  | valueBounds lower upper => s!"invalid value bounds [{text lower}, {text upper}]"
  | noSample label time => s!"`{label.text}` has no sample at time {time}"

def TrajectoryFault.message : TrajectoryFault α → String
  | samplingInterval interval => s!"sampling interval {text interval} is not positive"
  | sampleCount name found expected =>
    s!"signal `{name}` has {found} samples, expected {expected}"
  | componentCount state found expected =>
    s!"state {state} has {found} components, expected {expected}"
  | noHorizon => "no encoding horizon configured"

def BigMFault.message : BigMFault α → String
  | missing => "no big-M policy configured"
  | constant value => s!"constant {text value} must be positive and finite"
  | unbounded lower upper =>
    s!"cannot derive a constant from unbounded operands [{text lower}, {text upper}]"

def Refusal.reason : Refusal α → String
  | variableLimit limit name => s!"variable limit of {limit} reached while adding `{name}`"
  | invalidBounds name lower upper =>
    s!"variable `{name}` has invalid bounds [{text lower}, {text upper}]"
  | nonFiniteCoefficient coefficient var =>
    s!"non-finite coefficient {text coefficient} on variable {var}"
  | nonFiniteConstant constant => s!"non-finite constant {text constant}"
  | unknownTerm var => s!"constraint refers to unknown variable {var}"
  | unknownVariable var => s!"unknown variable {var}"
  | notFixable value => s!"cannot fix a variable to {text value}"
  | external message _ => message

def Refusal.message (r : Refusal α) : String :=
  "solver model rejected the operation: " ++ r.reason

/-- The text of the error behind a refusal. -/
def Refusal.source? : Refusal α → Option String
  | external _ source => source
  | _ => none

def Fault.message : Fault α → String
  | bounds start stop reason =>
    s!"invalid temporal bounds [{text start}, {text stop}]: {reason.message}"
  | arity operator expected found =>
    s!"`{operator.name}` takes at least {expected} arguments, {found} given"
  | outOfRange index length => s!"index {index} is outside the trajectory domain [0, {length})"
  | unbound sample => s!"no value bound to signal `{sample.text}`"
  | signal reason => "invalid signal: " ++ reason.message
  | trajectory reason => "invalid trajectory: " ++ reason.message
  | notAffine function =>
    s!"operator `predicate` is not supported: signal `{function}(..) > 0` is not affine in its arguments"
  | bigM reason => "invalid big-M: " ++ reason.message
  | refused refusal => refusal.message

end Messages

end SignalTemporalLogic
