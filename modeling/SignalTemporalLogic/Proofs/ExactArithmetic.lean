import Mathlib.Algebra.Order.Ring.Rat
import Mathlib.Tactic.Linarith
import SignalTemporalLogic.Encoding.Group
import SignalTemporalLogic.Proofs.Outcomes
import SignalTemporalLogic.Proofs.ScalarOrder

/-!
Exact numbers as rationals. Finite numbers compute and compare as the rationals they carry, and a
range of exact numbers is a set of rationals. Under negation, minimum and maximum the ranges of the
operands contain enough.
-/

namespace SignalTemporalLogic

namespace Exact

/-- The rational that a finite number carries; the other numbers count as zero. -/
def toRat : Exact → Rat
  | fin a => a
  | _ => 0

variable {a b : Rat}

@[simp] theorem toRat_fin : (fin a).toRat = a := rfl

@[simp] theorem fin_le_fin : fin a ≤ fin b ↔ a ≤ b := Iff.rfl

@[simp] theorem fin_lt_fin : fin a < fin b ↔ a < b := Iff.rfl

@[simp] theorem fin_add_fin : fin a + fin b = fin (a + b) := rfl

@[simp] theorem neg_fin : -fin a = fin (-a) := rfl

@[simp] theorem fin_sub_fin : fin a - fin b = fin (a - b) :=
  congrArg fin (Rat.sub_eq_add_neg a b).symm

@[simp] theorem fin_mul_fin : fin a * fin b = fin (a * b) := rfl

theorem fin_div_fin (h : b ≠ 0) : fin a / fin b = fin (a / b) := if_neg h

theorem isFinite_iff {x : Exact} : Scalar.IsFinite x ↔ ∃ q, x = fin q := by
  cases x <;> simp [Scalar.IsFinite, lt_def, Below]

@[simp] theorem isFinite_fin : Scalar.IsFinite (fin a) := isFinite_iff.mpr ⟨a, rfl⟩

theorem add_fin_zero (x : Exact) : x + fin 0 = x := by
  cases x with
  | fin q => rw [fin_add_fin, add_zero]
  | nan | negInf | posInf => rfl

theorem sub_fin_zero (x : Exact) : x - fin 0 = x := by
  cases x with
  | fin q => rw [fin_sub_fin, sub_zero]
  | nan | negInf | posInf => rfl

@[simp] theorem isZero_fin : Scalar.IsZero (fin a) ↔ a = 0 :=
  (le_antisymm_iff (a := a) (b := 0)).symm

@[simp] theorem abs_fin : Scalar.abs (fin a) = fin |a| := by
  unfold Scalar.abs
  split
  · next h => rw [abs_of_neg (fin_lt_fin.mp h), neg_fin]
  · next h => rw [abs_of_nonneg (not_lt.mp fun k => h (fin_lt_fin.mpr k))]

theorem min_fin : Scalar.min (fin a) (fin b) = fin (min a b) := by
  have hmin : Scalar.min (fin a) (fin b) = if fin b < fin a then fin b else fin a := by
    simp [Scalar.min, Scalar.IsNaN]
  rw [hmin, min_comm, min_def_lt, apply_ite fin]
  rfl

theorem max_fin : Scalar.max (fin a) (fin b) = fin (max a b) := by
  have hmax : Scalar.max (fin a) (fin b) = if fin a < fin b then fin b else fin a := by
    simp [Scalar.max, Scalar.IsNaN]
  rw [hmax, max_def_lt, apply_ite fin]
  rfl

theorem round_fin : Scalar.round (fin a) = fin (nearest a) := rfl

theorem nearest_intCast (n : Int) : nearest n = n := by
  unfold nearest
  split
  · refine Int.le_antisymm (Int.lt_add_one_iff.mp (Rat.floor_lt_iff.mpr ?_))
      (Rat.le_floor_iff.mpr ?_) <;> push_cast <;> linarith
  · refine Int.le_antisymm (Rat.ceil_le_iff.mpr ?_)
      (Int.sub_one_lt_iff.mp (Rat.lt_ceil_iff.mpr ?_)) <;> push_cast <;> linarith

end Exact

/-! ## Ranges -/

namespace Bounds

/-- The rational lies in the range. -/
def Contains (b : Bounds Exact) (q : Rat) : Prop := b.lower ≤ .fin q ∧ .fin q ≤ b.upper

@[simp] theorem contains_unbounded (q : Rat) : (unbounded : Bounds Exact).Contains q :=
  ⟨trivial, trivial⟩

@[simp] theorem contains_fin {lo hi q : Rat} :
    (⟨.fin lo, .fin hi⟩ : Bounds Exact).Contains q ↔ lo ≤ q ∧ q ≤ hi := Iff.rfl

theorem Contains.negate {b : Bounds Exact} {q : Rat} (h : b.Contains q) :
    b.negate.Contains (-q) :=
  ⟨OrderedScalar.neg_le_neg h.2, OrderedScalar.neg_le_neg h.1⟩

/-- A range with a member has ends that are numbers. -/
theorem Contains.lower_le_upper {b : Bounds Exact} {q : Rat} (h : b.Contains q) :
    b.lower ≤ b.upper :=
  OrderedScalar.le_trans h.1 h.2

end Bounds

/-! ## Extremes -/

namespace Extremum

/-- One for a minimum and minus one for a maximum, so that an extreme is what has the least product
with its sign. -/
def sign : Extremum → Rat
  | min => 1
  | max => -1

/-- The value is the extreme of the list. -/
def Picks (e : Extremum) (values : List Rat) (r : Rat) : Prop :=
  r ∈ values ∧ ∀ x ∈ values, e.sign * r ≤ e.sign * x

theorem sign_mul_injective {e : Extremum} {a b : Rat} (h : e.sign * a = e.sign * b) : a = b := by
  cases e <;> simpa [sign] using h

theorem Picks.unique {e : Extremum} {values : List Rat} {r s : Rat} (hr : e.Picks values r)
    (hs : e.Picks values s) : r = s :=
  sign_mul_injective (le_antisymm (hr.2 s hs.1) (hs.2 r hr.1))

/-- The extreme of a list; that of an empty list plays no part. -/
def pick (e : Extremum) : List Rat → Rat
  | [] => 0
  | [v] => v
  | v :: w :: rest =>
    if e.sign * v ≤ e.sign * e.pick (w :: rest) then v else e.pick (w :: rest)

theorem pick_picks (e : Extremum) (values : List Rat) (h : values ≠ []) :
    e.Picks values (e.pick values) := by
  fun_induction pick e values with
  | case1 => exact absurd rfl h
  | case2 v => simp [Picks]
  | case3 v w rest hle ih =>
    obtain ⟨-, hrest⟩ := ih (by simp)
    refine ⟨by simp, fun x hx => ?_⟩
    rcases List.mem_cons.mp hx with rfl | hx
    · exact le_refl _
    · exact hle.trans (hrest x hx)
  | case4 v w rest hgt ih =>
    obtain ⟨hmem, hrest⟩ := ih (by simp)
    refine ⟨List.mem_cons_of_mem _ hmem, fun x hx => ?_⟩
    rcases List.mem_cons.mp hx with rfl | hx
    · exact (not_le.mp hgt).le
    · exact hrest x hx

theorem Picks.eq_pick {e : Extremum} {values : List Rat} {r : Rat} (h : e.Picks values r) :
    r = e.pick values :=
  h.unique (e.pick_picks values (List.ne_nil_of_mem h.1))

/-- An extreme may be taken of a part of the list first. -/
theorem pick_append_pick (e : Extremum) (values : List Rat) (h : values ≠ [])
    (before after : List Rat) :
    e.pick (before ++ e.pick values :: after) = e.pick (before ++ values ++ after) := by
  obtain ⟨hmem, hle⟩ := e.pick_picks values h
  obtain ⟨hall, hbest⟩ := e.pick_picks (before ++ e.pick values :: after) (by simp)
  refine Picks.eq_pick ⟨?_, fun x hx => ?_⟩
  · simp only [List.mem_append, List.mem_cons] at hall ⊢
    rcases hall with h | h | h
    · exact .inl (.inl h)
    · rw [h]
      exact .inl (.inr hmem)
    · exact .inr h
  · simp only [List.mem_append] at hx
    rcases hx with (hx | hx) | hx
    · exact hbest x (by simp [hx])
    · exact (hbest (e.pick values) (by simp)).trans (hle x hx)
    · exact hbest x (by simp [hx])

theorem picks_min_iff {values : List Rat} {r : Rat} :
    min.Picks values r ↔ r ∈ values ∧ ∀ x ∈ values, r ≤ x := by
  simp [Picks, sign]

theorem picks_max_iff {values : List Rat} {r : Rat} :
    max.Picks values r ↔ r ∈ values ∧ ∀ x ∈ values, x ≤ r := by
  simp [Picks, sign]

end Extremum

/-! ## Ranges of extremes -/

section Folds

variable {values : List Exact}

theorem isLeast_least (hne : values ≠ []) (hnumber : ∀ v ∈ values, v ≤ v) :
    IsLeast {v | v ∈ values} (Scalar.least values) :=
  quantitative_ordered.all_isLeast hne hnumber

theorem isGreatest_greatest (hne : values ≠ []) (hnumber : ∀ v ∈ values, v ≤ v) :
    IsGreatest {v | v ∈ values} (Scalar.greatest values) :=
  quantitative_ordered.any_isGreatest hne hnumber

end Folds

namespace Extremum

variable {e : Extremum} {bounds : List (Bounds Exact)}

/-- The least of the lower ends is below all of them, and so on for the other three folds. -/
theorem folds_of_ordered (hne : bounds ≠ []) (h : ∀ b ∈ bounds, b.lower ≤ b.upper) :
    IsLeast {v | v ∈ bounds.map Bounds.lower} (Scalar.least (bounds.map Bounds.lower)) ∧
    IsLeast {v | v ∈ bounds.map Bounds.upper} (Scalar.least (bounds.map Bounds.upper)) ∧
    IsGreatest {v | v ∈ bounds.map Bounds.lower} (Scalar.greatest (bounds.map Bounds.lower)) ∧
    IsGreatest {v | v ∈ bounds.map Bounds.upper} (Scalar.greatest (bounds.map Bounds.upper)) := by
  have hlower : ∀ v ∈ bounds.map Bounds.lower, v ≤ v := by
    intro v hv
    obtain ⟨b, hb, rfl⟩ := List.mem_map.mp hv
    exact OrderedScalar.le_left (h b hb)
  have hupper : ∀ v ∈ bounds.map Bounds.upper, v ≤ v := by
    intro v hv
    obtain ⟨b, hb, rfl⟩ := List.mem_map.mp hv
    exact OrderedScalar.le_right (h b hb)
  exact ⟨isLeast_least (by simpa using hne) hlower, isLeast_least (by simpa using hne) hupper,
    isGreatest_greatest (by simpa using hne) hlower, isGreatest_greatest (by simpa using hne) hupper⟩

/-- The range of an extreme is ordered if those of the operands are. -/
theorem boundsOf_ordered (hne : bounds ≠ []) (h : ∀ b ∈ bounds, b.lower ≤ b.upper) :
    (e.boundsOf bounds).lower ≤ (e.boundsOf bounds).upper := by
  obtain ⟨hll, hlu, hgl, hgu⟩ := folds_of_ordered hne h
  cases e with
  | min =>
    obtain ⟨b, hb, hbu⟩ := List.mem_map.mp hlu.1
    have hupper : (min.boundsOf bounds).upper = b.upper := hbu.symm
    exact hupper ▸ OrderedScalar.le_trans (hll.2 (List.mem_map_of_mem hb)) (h b hb)
  | max =>
    obtain ⟨b, hb, hbl⟩ := List.mem_map.mp hgl.1
    have hlower : (max.boundsOf bounds).lower = b.lower := hbl.symm
    exact hlower ▸ OrderedScalar.le_trans (h b hb) (hgu.2 (List.mem_map_of_mem hb))

/-- **The range of an extreme is wide enough**: it contains the extreme of any operands from the
ranges of the operands. -/
theorem boundsOf_contains {values : List Rat} {r : Rat}
    (h : List.Forall₂ Bounds.Contains bounds values) (hr : e.Picks values r) :
    (e.boundsOf bounds).Contains r := by
  obtain ⟨hvalue, hbound⟩ := exists_of_forall₂ h
  obtain ⟨own, hown, hcontains⟩ := hbound r hr.1
  obtain ⟨hll, hlu, hgl, hgu⟩ := folds_of_ordered (List.ne_nil_of_mem hown) fun b hb => by
    obtain ⟨x, -, hx⟩ := hvalue b hb
    exact hx.lower_le_upper
  cases e with
  | min =>
    obtain ⟨b, hb, hbu⟩ := List.mem_map.mp hlu.1
    obtain ⟨x, hx, hbx⟩ := hvalue b hb
    have hle : Exact.fin r ≤ .fin x := (picks_min_iff.mp hr).2 x hx
    have hupper : (min.boundsOf bounds).upper = b.upper := hbu.symm
    exact ⟨OrderedScalar.le_trans (hll.2 (List.mem_map_of_mem hown)) hcontains.1,
      hupper ▸ OrderedScalar.le_trans hle hbx.2⟩
  | max =>
    obtain ⟨b, hb, hbl⟩ := List.mem_map.mp hgl.1
    obtain ⟨x, hx, hbx⟩ := hvalue b hb
    have hle : Exact.fin x ≤ .fin r := (picks_max_iff.mp hr).2 x hx
    have hlower : (max.boundsOf bounds).lower = b.lower := hbl.symm
    exact ⟨hlower ▸ OrderedScalar.le_trans hbx.1 hle,
      OrderedScalar.le_trans hcontains.2 (hgu.2 (List.mem_map_of_mem hown))⟩

end Extremum

end SignalTemporalLogic
