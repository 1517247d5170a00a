import Std.Data.TreeMap
import SignalTemporalLogic.Index

/-!
Names of sampled variables: a signal name with a sample index, absolute or relative to a query time.
-/

namespace SignalTemporalLogic

/-- One sampled variable: the signal `name` at sample `index`. -/
structure Sample where
  name : String
  index : Nat
deriving DecidableEq

namespace Sample

def text (s : Sample) : String := s!"{s.name}[{s.index}]"

/-- Samples are ordered by index, those of one index by name. -/
def order : Sample → Sample → Ordering := compareLex (compareOn index) (compareOn name)

instance : Ord Sample := ⟨order⟩

instance : Std.TransOrd Sample :=
  inferInstanceAs (Std.TransCmp (compareLex (compareOn index) (compareOn name)))

theorem compare_eq_eq_iff {a b : Sample} : compare a b = .eq ↔ a = b := by
  change (compare a.index b.index).then (compare a.name b.name) = .eq ↔ a = b
  rw [Ordering.then_eq_eq, Std.compare_eq_iff_eq, Std.compare_eq_iff_eq]
  cases a; cases b; simp [and_comm]

instance : Std.LawfulEqOrd Sample where
  compare_self := compare_eq_eq_iff.2 rfl
  eq_of_compare := compare_eq_eq_iff.1

end Sample

/-- The signal `name` read `offset` samples away from the query time. -/
structure SampleLabel where
  name : String
  offset : Int
deriving DecidableEq

namespace SampleLabel

/-- Reads the signal at the query time itself. -/
def current (name : String) : SampleLabel := ⟨name, 0⟩

/-- The sample named at query time `t`, unless it lies outside the index range. -/
def at? (label : SampleLabel) (t : Nat) : Option Sample :=
  (Index.shift? t label.offset).map fun index => ⟨label.name, index⟩

/-- The query time is called `t`, as in `y[t-1]`. -/
def text (label : SampleLabel) : String :=
  let distance := label.offset.natAbs
  if label.offset = 0 then label.name
  else if 0 < label.offset then s!"{label.name}[t+{distance}]"
  else s!"{label.name}[t-{distance}]"

end SampleLabel

end SignalTemporalLogic
