import SignalTemporalLogic.Fault

/-!
Time intervals and the sample offsets that they stand for.
-/

namespace SignalTemporalLogic

open Scalar (IsFinite IsPositiveFinite)

/-- A closed interval of non-negative finite times. -/
structure TimeInterval (α : Type) [Scalar α] where
  start : α
  stop : α
  finite_start : IsFinite start
  finite_stop : IsFinite stop
  start_nonneg : ¬ start < 0
  start_le_stop : ¬ stop < start

namespace TimeInterval

variable {α : Type} [Scalar α]

/-- The interval between two times. The bounds are never exchanged. -/
def of? (start stop : α) : Except (Fault α) (TimeInterval α) :=
  if finite : IsFinite start ∧ IsFinite stop then
    if nonneg : start < 0 then .error (.bounds start stop .negativeLower)
    else if ordered : stop < start then .error (.bounds start stop .lowerExceedsUpper)
    else .ok ⟨start, stop, finite.1, finite.2, nonneg, ordered⟩
  else .error (.bounds start stop .notFinite)

/-- The fault of an interval that has no samples to stand for. -/
def fault (interval : TimeInterval α) (reason : BoundsFault) : Fault α :=
  .bounds interval.start interval.stop reason

/-- The first and the last sample offset of the interval: each bound goes to the nearest sample. -/
def discretize (interval : TimeInterval α) (spacing : α) : Except (Fault α) (Nat × Nat) :=
  if IsPositiveFinite spacing then
    let first := Scalar.round (interval.start / spacing)
    let last := Scalar.round (interval.stop / spacing)
    if last < first then .error (interval.fault .discretizedInverted)
    else .ok (Scalar.toIndex first, Scalar.toIndex last)
  else .error (interval.fault .samplingInterval)

/-- The bounds in brackets. -/
def text [ScalarText α] (interval : TimeInterval α) : String :=
  s!"[{ScalarText.text interval.start}, {ScalarText.text interval.stop}]"

end TimeInterval

end SignalTemporalLogic
