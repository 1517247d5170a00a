import Std.Data.TreeMap
import SignalTemporalLogic.Formula.Basic

/-!
Sites: the places at which a formula is encoded.
-/

namespace SignalTemporalLogic

/-- A formula node at a sample index. -/
structure Site where
  node : NodeId
  index : Nat
deriving DecidableEq

namespace Site

/-- Sites are ordered by index, those of one index by node. -/
def order : Site → Site → Ordering :=
  compareLex (compareOn index) (compareOn fun site => site.node.index)

instance : Ord Site := ⟨order⟩

instance : Std.TransOrd Site :=
  inferInstanceAs (Std.TransCmp (compareLex (compareOn index)
    (compareOn fun site => site.node.index)))

theorem compare_eq_eq_iff {a b : Site} : compare a b = .eq ↔ a = b := by
  change (compare a.index b.index).then (compare a.node.index b.node.index) = .eq ↔ a = b
  rw [Ordering.then_eq_eq, Std.compare_eq_iff_eq, Std.compare_eq_iff_eq]
  obtain ⟨⟨i⟩, s⟩ := a
  obtain ⟨⟨j⟩, t⟩ := b
  simp [and_comm]

instance : Std.LawfulEqOrd Site where
  compare_self := compare_eq_eq_iff.2 rfl
  eq_of_compare := compare_eq_eq_iff.1

end Site

/-- The site of a formula at an index. -/
def Formula.site {α : Type} [Scalar α] (f : Formula α) (t : Nat) : Site := ⟨f.id, t⟩

end SignalTemporalLogic
