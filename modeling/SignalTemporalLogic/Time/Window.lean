import SignalTemporalLogic.Time.Interval

/-!
Windows of sample indices: what a time interval covers when it is anchored at a sample of a
trajectory. A window that runs past the last sample is refused or clipped.
-/

namespace SignalTemporalLogic

/-- The indices from `first` to `last`, both included. -/
structure Window where
  first : Nat
  last : Nat
  first_le_last : first ≤ last

namespace Window

def size (w : Window) : Nat := w.last - w.first + 1

instance : Membership Nat Window := ⟨fun w t => w.first ≤ t ∧ t ≤ w.last⟩

/-- Runs `visit` on every index of the window, in order. -/
def mapM {m : Type → Type} [Monad m] {β : Type} (w : Window) (visit : Nat → m β) : m (List β) :=
  Index.mapRangeM visit w.first w.size

end Window

/-- What to do with a window that runs past the last sample. -/
inductive WindowPolicy where
  | strict
  | clamp
deriving DecidableEq

inductive WindowFault where
  | inverted
  | clippedEmpty
  | outOfRange (index length : Nat)
deriving DecidableEq

/-- The fault of a window between two bounds, given in samples or in units of time. -/
def WindowFault.fault {α : Type} (start stop : α) : WindowFault → Fault α
  | inverted => .bounds start stop .offsetsInverted
  | clippedEmpty => .bounds start stop .clippedEmpty
  | outOfRange index length => .outOfRange index length

namespace WindowPolicy

/-- The window from offset `lo` to offset `hi` at `anchor`, in a domain of `length` samples. -/
def resolve (policy : WindowPolicy) (anchor lo hi length : Nat) : Except WindowFault Window :=
  if ordered : lo ≤ hi then
    let first := Index.saturatingAdd anchor lo
    let last := Index.saturatingAdd anchor hi
    have h : first ≤ last := Index.saturatingAdd_mono (Nat.le_refl _) ordered
    match policy with
    | strict => if length ≤ last then .error (.outOfRange last length) else .ok ⟨first, last, h⟩
    | clamp =>
      if inside : length ≤ first then .error .clippedEmpty
      else .ok ⟨first, min last (length - 1), by omega⟩
  else .error .inverted

variable {α : Type} [Scalar α]

/-- The window of two sample offsets. A fault reports the offsets. -/
def offsets (policy : WindowPolicy) (anchor lo hi length : Nat) : Except (Fault α) Window :=
  (policy.resolve anchor lo hi length).mapError (·.fault (Scalar.ofNat lo) (Scalar.ofNat hi))

/-- The window of a time interval. A fault reports the times. -/
def window (policy : WindowPolicy) (interval : TimeInterval α) (spacing : α)
    (anchor length : Nat) : Except (Fault α) Window := do
  let (lo, hi) ← interval.discretize spacing
  (policy.resolve anchor lo hi length).mapError (·.fault interval.start interval.stop)

end WindowPolicy

end SignalTemporalLogic
