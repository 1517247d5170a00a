import SignalTemporalLogic.Proofs.ExactArithmetic
import SignalTemporalLogic.Proofs.Gathering
import SignalTemporalLogic.Proofs.Origins
import SignalTemporalLogic.Feasibility.Check

/-!
The whole numbers from zero to one. Without a tolerance a number passes for whole if nothing is left
of it when its rounding is taken away, and in that range only zero and one do.
-/

namespace SignalTemporalLogic

/-- The laws by which a check without a tolerance is exact: zeros of either sign do not change a
number, only equal numbers cancel, and a number from zero to one is rounded to one of them. -/
class WholeScalar (α : Type) [Scalar α] : Prop extends SignedScalar α, InvolutiveScalar α where
  zero_le_one : (0 : α) ≤ 1
  sub_zero {a z : α} : Scalar.IsZero z → a ≤ a → OrderEq (a - z) a
  add_zero {a z : α} : Scalar.IsZero z → a ≤ a → OrderEq (a + z) a
  eq_of_sub_eq_zero {a b : α} : Scalar.IsZero (a - b) → OrderEq a b
  round_unit {a : α} : 0 ≤ a → a ≤ 1 → OrderEq (Scalar.round a) 0 ∨ OrderEq (Scalar.round a) 1

instance : WholeScalar Exact where
  zero_le_one := by decide
  sub_zero {a z} hz ha := by
    obtain rfl : z = .fin 0 := Exact.le_antisymm hz.1 hz.2
    cases a with
    | nan => exact absurd ha id
    | fin q => simp [OrderEq]
    | negInf | posInf => exact ⟨trivial, trivial⟩
  add_zero {a z} hz ha := by
    obtain rfl : z = .fin 0 := Exact.le_antisymm hz.1 hz.2
    cases a with
    | nan => exact absurd ha id
    | fin q => simp [OrderEq]
    | negInf | posInf => exact ⟨trivial, trivial⟩
  eq_of_sub_eq_zero {a b} h := by
    cases a <;> cases b
    case fin.fin p q =>
      rw [Exact.fin_sub_fin, Exact.isZero_fin, sub_eq_zero] at h
      simp [OrderEq, h]
    all_goals first | exact h.1.elim | exact h.2.elim
  round_unit {a} h0 h1 := by
    cases a with
    | fin q =>
      have hlower : 0 ≤ q := Exact.fin_le_fin.mp h0
      have hupper : q ≤ 1 := Exact.fin_le_fin.mp h1
      have hnearest : Exact.nearest q = 0 ∨ Exact.nearest q = 1 := by
        have hge : 0 ≤ (q + 1 / 2).floor := Rat.le_floor_iff.mpr (by push_cast; linarith)
        have hlt : (q + 1 / 2).floor < 2 := Rat.floor_lt_iff.mpr (by push_cast; linarith)
        rw [Exact.nearest, if_pos hlower]
        omega
      rw [Exact.round_fin]
      exact hnearest.imp (fun h => by simp [h, OrderEq]) (fun h => by simp [h, OrderEq])
    | nan | negInf => exact absurd h0 id
    | posInf => exact absurd h1 id

variable {α : Type} [Scalar α] [WholeScalar α] {a b z : α}

theorem OrderEq.trans {c : α} (h : OrderEq a b) (k : OrderEq b c) : OrderEq a c :=
  ⟨OrderedScalar.le_trans h.1 k.1, OrderedScalar.le_trans k.2 h.2⟩

theorem Scalar.isZero_of_abs_le (hz : Scalar.IsZero z) (h : Scalar.abs a ≤ z) : Scalar.IsZero a := by
  have habs : Scalar.abs a ≤ 0 := OrderedScalar.le_trans h hz.1
  unfold Scalar.abs at habs
  split at habs
  · rename_i hneg
    have hge : -0 ≤ - -a := OrderedScalar.neg_le_neg habs
    rw [InvolutiveScalar.neg_neg] at hge
    exact absurd (OrderedScalar.le_trans SignedScalar.zero_le_neg_zero hge)
      (OrderedScalar.lt_iff.mp hneg).2
  · rename_i hneg
    exact ⟨habs, by_contra fun hlt => hneg (OrderedScalar.lt_iff.mpr ⟨habs, hlt⟩)⟩

/-- Zero or one, as a number. -/
def Scalar.IsSwitch (a : α) : Prop := Scalar.IsZero a ∨ OrderEq a 1

instance (a : α) : Decidable (Scalar.IsSwitch a) :=
  inferInstanceAs (Decidable (_ ∨ (_ ∧ _)))

theorem Scalar.isSwitch_of_unit (h0 : 0 ≤ a) (h1 : a ≤ 1) (hz : Scalar.IsZero z)
    (hwhole : Scalar.abs (a - Scalar.round a) ≤ z) : Scalar.IsSwitch a := by
  have hround := WholeScalar.eq_of_sub_eq_zero (Scalar.isZero_of_abs_le hz hwhole)
  exact (WholeScalar.round_unit h0 h1).imp hround.trans hround.trans

/-- Without a tolerance a binary variable with bounds from zero to one admits nothing else. -/
theorem Variable.isSwitch_of_admits {var : Variable α} {tolerance x : α}
    (hz : Scalar.IsZero tolerance) (hkind : var.kind = .binary) (hlower : 0 ≤ var.bounds.lower)
    (hupper : var.bounds.upper ≤ 1) (h : var.admits tolerance x = true) : Scalar.IsSwitch x := by
  simp only [Variable.admits, hkind, Bool.and_eq_true, decide_eq_true_eq, Bool.or_eq_true] at h
  obtain ⟨⟨hlow, hhigh⟩, hwhole⟩ := h
  have hsub := WholeScalar.sub_zero hz (OrderedScalar.le_right hlower)
  have hadd := WholeScalar.add_zero hz (OrderedScalar.le_left hupper)
  refine Scalar.isSwitch_of_unit ?_ ?_ hz (hwhole.resolve_left nofun)
  · exact OrderedScalar.le_trans (OrderedScalar.le_trans hlower hsub.2) hlow
  · exact OrderedScalar.le_trans hhigh (OrderedScalar.le_trans hadd.1 hupper)

end SignalTemporalLogic
