import Mathlib.Algebra.Order.Field.Basic
import Mathlib.Tactic.Positivity
import SignalTemporalLogic.Feasibility.Propagation
import SignalTemporalLogic.Proofs.LinearForms

/-!
How propagation cuts one range. A cut by `a * x ≤ l` keeps the members of the range that satisfy it,
of a binary variable at least the whole ones, and a range with a member is not given up. A tolerance
only makes cuts weaker. Without one nothing else is kept, a cut always takes a member away, and a
range is given up exactly if it has become empty.
-/

namespace SignalTemporalLogic

namespace Bounds

/-- The lower end is not above all rationals, and the upper end not below all of them. -/
structure RealEnds (b : Bounds Exact) : Prop where
  lower : b.lower = .negInf ∨ ∃ l, b.lower = .fin l
  upper : b.upper = .posInf ∨ ∃ u, b.upper = .fin u

/-- The ends are whole numbers. -/
def IntegralEnds (b : Bounds Exact) : Prop := ∃ i j : Int, b = ⟨.fin i, .fin j⟩

variable {b : Bounds Exact} {q : Rat}

theorem Contains.realEnds (h : b.Contains q) : b.RealEnds := by
  obtain ⟨lower, upper⟩ := b
  obtain ⟨hlower, hupper⟩ := h
  constructor
  · cases lower with
    | nan => cases hlower
    | negInf => exact .inl rfl
    | fin l => exact .inr ⟨l, rfl⟩
    | posInf => cases hlower
  · cases upper with
    | nan => cases hupper
    | negInf => cases hupper
    | fin u => exact .inr ⟨u, rfl⟩
    | posInf => exact .inl rfl

/-- The range without what is above the bound. -/
def capAt (b : Bounds Exact) (bound : Rat) : Bounds Exact :=
  if .fin bound < b.upper then { b with upper := .fin bound } else b

/-- The range without what is below the bound. -/
def raiseTo (b : Bounds Exact) (bound : Rat) : Bounds Exact :=
  if b.lower < .fin bound then { b with lower := .fin bound } else b

theorem capAt_contains (h : b.RealEnds) {bound x : Rat} :
    (b.capAt bound).Contains x ↔ b.Contains x ∧ x ≤ bound := by
  unfold capAt
  obtain ⟨lower, upper⟩ := b
  by_cases hcut : .fin bound < upper
  · rw [if_pos hcut]
    refine ⟨fun hx => ⟨⟨hx.1, ?_⟩, hx.2⟩, fun hx => ⟨hx.1.1, hx.2⟩⟩
    exact OrderedScalar.le_trans hx.2 ((OrderedScalar.lt_iff.mp hcut).1)
  · rw [if_neg hcut]
    refine ⟨fun hx => ⟨hx, ?_⟩, And.left⟩
    obtain rfl | ⟨u, rfl⟩ : upper = .posInf ∨ ∃ u, upper = .fin u := h.upper
    · exact absurd trivial hcut
    · exact (Exact.fin_le_fin.mp hx.2).trans (not_lt.mp fun hlt => hcut (Exact.fin_lt_fin.mpr hlt))

theorem raiseTo_contains (h : b.RealEnds) {bound x : Rat} :
    (b.raiseTo bound).Contains x ↔ b.Contains x ∧ bound ≤ x := by
  unfold raiseTo
  obtain ⟨lower, upper⟩ := b
  by_cases hcut : lower < .fin bound
  · rw [if_pos hcut]
    refine ⟨fun hx => ⟨⟨?_, hx.2⟩, hx.1⟩, fun hx => ⟨hx.2, hx.1.2⟩⟩
    exact OrderedScalar.le_trans ((OrderedScalar.lt_iff.mp hcut).1) hx.1
  · rw [if_neg hcut]
    refine ⟨fun hx => ⟨hx, ?_⟩, And.left⟩
    obtain rfl | ⟨l, rfl⟩ : lower = .negInf ∨ ∃ l, lower = .fin l := h.lower
    · exact absurd trivial hcut
    · exact (not_lt.mp fun hlt => hcut (Exact.fin_lt_fin.mpr hlt)).trans (Exact.fin_le_fin.mp hx.1)

theorem RealEnds.capAt (h : b.RealEnds) (bound : Rat) : (b.capAt bound).RealEnds := by
  unfold Bounds.capAt
  split
  · exact ⟨h.lower, .inr ⟨bound, rfl⟩⟩
  · exact h

theorem RealEnds.raiseTo (h : b.RealEnds) (bound : Rat) : (b.raiseTo bound).RealEnds := by
  unfold Bounds.raiseTo
  split
  · exact ⟨.inr ⟨bound, rfl⟩, h.upper⟩
  · exact h

theorem IntegralEnds.capAt (h : b.IntegralEnds) (n : Int) : (b.capAt n).IntegralEnds := by
  obtain ⟨i, j, rfl⟩ := h
  unfold Bounds.capAt
  split
  · exact ⟨i, n, rfl⟩
  · exact ⟨i, j, rfl⟩

theorem IntegralEnds.raiseTo (h : b.IntegralEnds) (n : Int) : (b.raiseTo n).IntegralEnds := by
  obtain ⟨i, j, rfl⟩ := h
  unfold Bounds.raiseTo
  split
  · exact ⟨n, j, rfl⟩
  · exact ⟨i, j, rfl⟩

/-- Without an upper end at or below the bound there are members above it. -/
theorem Contains.exists_above (h : b.Contains q) {bound : Rat} (hlt : .fin bound < b.upper) :
    ∃ x, b.Contains x ∧ bound < x := by
  obtain ⟨lower, upper⟩ := b
  obtain rfl | ⟨u, rfl⟩ : upper = .posInf ∨ ∃ u, upper = .fin u := h.realEnds.upper
  · refine ⟨max q (bound + 1), ⟨?_, trivial⟩, (lt_add_one bound).trans_le (le_max_right _ _)⟩
    exact OrderedScalar.le_trans h.1 (Exact.fin_le_fin.mpr (le_max_left _ _))
  · exact ⟨u, ⟨OrderedScalar.le_trans h.1 h.2, le_refl u⟩, hlt⟩

theorem Contains.exists_below (h : b.Contains q) {bound : Rat} (hlt : b.lower < .fin bound) :
    ∃ x, b.Contains x ∧ x < bound := by
  obtain ⟨lower, upper⟩ := b
  obtain rfl | ⟨l, rfl⟩ : lower = .negInf ∨ ∃ l, lower = .fin l := h.realEnds.lower
  · refine ⟨min q (bound - 1), ⟨trivial, ?_⟩, (min_le_right _ _).trans_lt (sub_one_lt bound)⟩
    exact OrderedScalar.le_trans (Exact.fin_le_fin.mpr (min_le_left _ _)) h.2
  · exact ⟨l, ⟨le_refl l, OrderedScalar.le_trans h.1 h.2⟩, hlt⟩

/-- A range with such ends is empty only if they are numbers in the wrong order. -/
theorem RealEnds.contains_or_inverted (h : b.RealEnds) :
    (∃ x, b.Contains x) ∨ ∃ l u, b = ⟨.fin l, .fin u⟩ ∧ u < l := by
  obtain ⟨lower, upper⟩ := b
  obtain rfl | ⟨l, rfl⟩ : lower = .negInf ∨ ∃ l, lower = .fin l := h.lower
  · obtain rfl | ⟨u, rfl⟩ : upper = .posInf ∨ ∃ u, upper = .fin u := h.upper
    · exact .inl ⟨0, trivial, trivial⟩
    · exact .inl ⟨u, trivial, le_refl u⟩
  · obtain rfl | ⟨u, rfl⟩ : upper = .posInf ∨ ∃ u, upper = .fin u := h.upper
    · exact .inl ⟨l, le_refl l, trivial⟩
    · rcases le_or_gt l u with hle | hlt
      · exact .inl ⟨l, le_refl l, hle⟩
      · exact .inr ⟨l, u, rfl, hlt⟩

end Bounds

/-! ## Any tolerance -/

namespace StoredModel

variable {m : StoredModel Exact} {range : Bounds Exact} {a l : Rat}

theorem not_lt_negInf (a : Exact) : ¬ a < .negInf := by cases a <;> exact not_false

theorem tolerance_cases (htolerance : 0 ≤ m.tolerance) :
    m.tolerance = .posInf ∨ ∃ t, 0 ≤ t ∧ m.tolerance = .fin t := by
  cases hcase : m.tolerance with
  | nan | negInf => rw [hcase] at htolerance; exact htolerance.elim
  | fin t => rw [hcase] at htolerance; exact .inr ⟨t, htolerance, rfl⟩
  | posInf => exact .inl rfl

/-- What a comparison with `a` may be missed by. -/
theorem slack_cases (htolerance : 0 ≤ m.tolerance) (a : Rat) :
    m.tolerance * (1 + Scalar.abs (.fin a)) = .posInf ∨
      ∃ c, 0 ≤ c ∧ m.tolerance * (1 + Scalar.abs (.fin a)) = .fin c := by
  have hpos : 0 < 1 + |a| := by positivity
  rw [Exact.abs_fin, Exact.one_def, Exact.fin_add_fin]
  rcases tolerance_cases htolerance with heq | ⟨t, ht, heq⟩ <;> rw [heq]
  · refine .inl ?_
    show Exact.infinity (1 * (1 + |a|)) = .posInf
    rw [one_mul, Exact.infinity, if_pos hpos]
  · exact .inr ⟨t * (1 + |a|), mul_nonneg ht hpos.le, rfl⟩

/-- A range with a member stays as it is. -/
theorem settle?_of_contains (htolerance : 0 ≤ m.tolerance) {x : Rat} (h : range.Contains x) :
    m.settle? range = some range := by
  obtain ⟨lower, upper⟩ := range
  have hends := h.realEnds
  unfold settle?
  obtain rfl | ⟨lo, rfl⟩ : lower = .negInf ∨ ∃ lo, lower = .fin lo := hends.lower
  · obtain rfl | ⟨up, rfl⟩ : upper = .posInf ∨ ∃ up, upper = .fin up := hends.upper <;>
      exact (if_neg (not_lt_negInf _)).trans (if_neg (not_lt_negInf _))
  · obtain rfl | ⟨up, rfl⟩ : upper = .posInf ∨ ∃ up, upper = .fin up := hends.upper
    · exact (if_neg (not_lt_negInf _)).trans (if_neg (not_lt_negInf _))
    · obtain ⟨hlower, hupper⟩ := Bounds.contains_fin.mp h
      have hgap : lo - up ≤ 0 := sub_nonpos.mpr (hlower.trans hupper)
      have hslack : ¬ m.tolerance * (1 + Scalar.abs (.fin lo)) < .fin (lo - up) := by
        rcases slack_cases htolerance lo with heq | ⟨c, hc, heq⟩ <;> rw [heq]
        · exact not_false
        · exact not_lt.mpr (hgap.trans hc)
      simp only [Exact.fin_sub_fin, Exact.zero_def, Exact.fin_lt_fin]
      rw [if_neg hslack, if_neg (not_lt.mpr hgap)]

/-- A member of the range is at most any bound that it satisfies, with the rounding of a binary
variable if it is whole. -/
theorem le_upperBound (htolerance : 0 ≤ m.tolerance) {binary : Bool} (bound : Rat) {x : Rat}
    (hle : x ≤ bound) (hwhole : binary = true → ∃ n : Int, x = n) :
    .fin x ≤ if binary then Scalar.floor (Exact.fin bound + m.tolerance) else .fin bound := by
  cases binary with
  | false => exact hle
  | true =>
    obtain ⟨n, rfl⟩ := hwhole rfl
    rcases tolerance_cases htolerance with heq | ⟨t, ht, heq⟩ <;> rw [heq]
    · exact trivial
    · have hsum : (n : Rat) ≤ bound + t := hle.trans (le_add_of_nonneg_right ht)
      exact Rat.intCast_le_intCast.mpr (Rat.le_floor_iff.mpr hsum)

theorem lowerBound_le (htolerance : 0 ≤ m.tolerance) {binary : Bool} (bound : Rat) {x : Rat}
    (hle : bound ≤ x) (hwhole : binary = true → ∃ n : Int, x = n) :
    (if binary then Scalar.ceil (Exact.fin bound - m.tolerance) else .fin bound) ≤ .fin x := by
  cases binary with
  | false => exact hle
  | true =>
    obtain ⟨n, rfl⟩ := hwhole rfl
    rcases tolerance_cases htolerance with heq | ⟨t, ht, heq⟩ <;> rw [heq]
    · exact trivial
    · have hsum : bound - t ≤ (n : Rat) := (sub_le_self _ ht).trans hle
      rw [Exact.fin_sub_fin]
      exact Rat.intCast_le_intCast.mpr (Rat.ceil_le_iff.mpr hsum)

/-- **A cut keeps what satisfies the limit.** -/
theorem cut_keeps (htolerance : 0 ≤ m.tolerance) (ha : a ≠ 0) {binary : Bool} {x : Rat}
    (hx : range.Contains x) (hle : a * x ≤ l) (hwhole : binary = true → ∃ n : Int, x = n) :
    ((m.cut (.fin a) (.fin (l / a)) binary range).getD range).Contains x := by
  unfold cut
  simp only [Exact.zero_def, Exact.fin_lt_fin]
  rcases lt_or_gt_of_ne ha with hneg | hpos
  · have hbound := lowerBound_le htolerance (l / a)
      ((div_le_iff_of_neg hneg).mpr (by linarith)) hwhole
    rw [if_neg (not_lt.mpr hneg.le)]
    generalize (if binary = true then Scalar.ceil _ else _ : Exact) = bound at hbound ⊢
    split
    · exact ⟨hbound, hx.2⟩
    · exact hx
  · have hbound := le_upperBound htolerance (l / a)
      ((le_div_iff₀ hpos).mpr (by linarith)) hwhole
    rw [if_pos hpos]
    generalize (if binary = true then Scalar.floor _ else _ : Exact) = bound at hbound ⊢
    split
    · exact ⟨hx.1, hbound⟩
    · exact hx

end StoredModel

/-! ## No tolerance -/

/-- What a cut by `a * x ≤ l` leaves of a range, and whether it takes anything away. -/
structure CutsTo (binary : Bool) (a l : Rat) (range range' : Bounds Exact) (cuts : Bool) : Prop where
  real : range'.RealEnds
  shrinks : ∀ x, range'.Contains x → range.Contains x ∧ a * x ≤ l
  integral : binary = true → range.IntegralEnds → range'.IntegralEnds
  same : cuts = false → range' = range
  loses : cuts = true → ∃ x, range.Contains x ∧ ¬ range'.Contains x

namespace StoredModel

variable {m : StoredModel Exact} {range : Bounds Exact} {a l : Rat}

/-- Only what is not empty is settled. -/
theorem settle?_eq_some (htolerance : m.tolerance = .fin 0) (hends : range.RealEnds)
    {range' : Bounds Exact} (h : m.settle? range = some range') :
    range' = range ∧ ∃ x, range.Contains x := by
  rcases hends.contains_or_inverted with ⟨x, hx⟩ | ⟨lo, up, rfl, hlt⟩
  · have hle : 0 ≤ m.tolerance := htolerance ▸ Exact.fin_le_fin.mpr (le_refl 0)
    rw [settle?_of_contains hle hx] at h
    exact ⟨(Option.some.inj h).symm, x, hx⟩
  · have hslack : m.tolerance * (1 + Scalar.abs (Exact.fin lo)) = .fin 0 := by
      rw [htolerance, Exact.abs_fin, Exact.one_def, Exact.fin_add_fin, Exact.fin_mul_fin, zero_mul]
    have hgap : 0 < lo - up := sub_pos.mpr hlt
    unfold settle? at h
    simp only [hslack, Exact.fin_sub_fin, Exact.fin_lt_fin, if_pos hgap] at h
    cases h

/-- Without a tolerance a range is cut at the bound, of a binary variable at a whole number. -/
theorem cut_eq (htolerance : m.tolerance = .fin 0) (binary : Bool) (bound : Rat) :
    m.cut (.fin a) (.fin bound) binary range =
      if 0 < a then
        if .fin (if binary then (bound.floor : Rat) else bound) < range.upper then
          some (range.capAt (if binary then bound.floor else bound))
        else none
      else
        if range.lower < .fin (if binary then (bound.ceil : Rat) else bound) then
          some (range.raiseTo (if binary then bound.ceil else bound))
        else none := by
  have hfloor : (if binary then Scalar.floor (Exact.fin bound) else .fin bound) =
      .fin (if binary then (bound.floor : Rat) else bound) := by cases binary <;> rfl
  have hceil : (if binary then Scalar.ceil (Exact.fin bound) else .fin bound) =
      .fin (if binary then (bound.ceil : Rat) else bound) := by cases binary <;> rfl
  unfold cut Bounds.capAt Bounds.raiseTo
  simp only [htolerance, Exact.sub_fin_zero, Exact.add_fin_zero, hfloor, hceil, Exact.zero_def,
    Exact.fin_lt_fin]
  split <;> split <;> simp_all

theorem cutsTo_of_cap (h : range.RealEnds) {y : Rat} (hy : range.Contains y) (hpos : 0 < a)
    {binary : Bool} {bound : Rat} (hbound : bound ≤ l / a)
    (hwhole : binary = true → ∃ n : Int, bound = n) (hlt : .fin bound < range.upper) :
    CutsTo binary a l range (range.capAt bound) true := by
  refine ⟨h.capAt _, fun x hx => ?_, fun hbinary hends => ?_, nofun, fun _ => ?_⟩
  · obtain ⟨hmem, hle⟩ := (Bounds.capAt_contains h).mp hx
    exact ⟨hmem, by have := (le_div_iff₀ hpos).mp (hle.trans hbound); linarith⟩
  · obtain ⟨n, rfl⟩ := hwhole hbinary
    exact hends.capAt n
  · obtain ⟨x, hx, hlt⟩ := hy.exists_above hlt
    exact ⟨x, hx, fun hcap => not_lt.mpr ((Bounds.capAt_contains h).mp hcap).2 hlt⟩

theorem cutsTo_of_raise (h : range.RealEnds) {y : Rat} (hy : range.Contains y) (hneg : a < 0)
    {binary : Bool} {bound : Rat} (hbound : l / a ≤ bound)
    (hwhole : binary = true → ∃ n : Int, bound = n) (hlt : range.lower < .fin bound) :
    CutsTo binary a l range (range.raiseTo bound) true := by
  refine ⟨h.raiseTo _, fun x hx => ?_, fun hbinary hends => ?_, nofun, fun _ => ?_⟩
  · obtain ⟨hmem, hle⟩ := (Bounds.raiseTo_contains h).mp hx
    exact ⟨hmem, by have := (div_le_iff_of_neg hneg).mp (hbound.trans hle); linarith⟩
  · obtain ⟨n, rfl⟩ := hwhole hbinary
    exact hends.raiseTo n
  · obtain ⟨x, hx, hlt⟩ := hy.exists_below hlt
    exact ⟨x, hx, fun hraise => not_lt.mpr ((Bounds.raiseTo_contains h).mp hraise).2 hlt⟩

theorem cutsTo_of_le (h : range.RealEnds) (hle : ∀ x, range.Contains x → a * x ≤ l)
    (binary : Bool) : CutsTo binary a l range range false :=
  ⟨h, fun x hx => ⟨hx, hle x hx⟩, fun _ hends => hends, fun _ => rfl, nofun⟩

/-- **Without a tolerance a cut leaves nothing else.** -/
theorem cut_cutsTo (htolerance : m.tolerance = .fin 0) {y : Rat} (hy : range.Contains y)
    (ha : a ≠ 0) (binary : Bool) :
    CutsTo binary a l range ((m.cut (.fin a) (.fin (l / a)) binary range).getD range)
      (m.cut (.fin a) (.fin (l / a)) binary range).isSome := by
  have h := hy.realEnds
  rw [cut_eq htolerance]
  rcases lt_or_gt_of_ne ha with hneg | hpos
  · have hbound : l / a ≤ if binary = true then ((l / a).ceil : Rat) else l / a := by
      cases binary with
      | false => exact le_refl _
      | true => exact Rat.le_ceil
    have hwhole : binary = true →
        ∃ n : Int, (if binary = true then ((l / a).ceil : Rat) else l / a) = n :=
      fun hbinary => ⟨_, if_pos hbinary⟩
    rw [if_neg (not_lt.mpr hneg.le)]
    generalize (if binary = true then ((l / a).ceil : Rat) else l / a) = bound at hbound hwhole ⊢
    split
    · next hlt => exact cutsTo_of_raise h hy hneg hbound hwhole hlt
    · next hge =>
      refine cutsTo_of_le h (fun x hx => ?_) binary
      have hraise : range.raiseTo bound = range := if_neg hge
      have hle := ((Bounds.raiseTo_contains h).mp (hraise.symm ▸ hx)).2
      have := (div_le_iff_of_neg hneg).mp (hbound.trans hle)
      linarith
  · have hbound : (if binary = true then ((l / a).floor : Rat) else l / a) ≤ l / a := by
      cases binary with
      | false => exact le_refl _
      | true => exact Rat.floor_le _
    have hwhole : binary = true →
        ∃ n : Int, (if binary = true then ((l / a).floor : Rat) else l / a) = n :=
      fun hbinary => ⟨_, if_pos hbinary⟩
    rw [if_pos hpos]
    generalize (if binary = true then ((l / a).floor : Rat) else l / a) = bound at hbound hwhole ⊢
    split
    · next hlt => exact cutsTo_of_cap h hy hpos hbound hwhole hlt
    · next hge =>
      refine cutsTo_of_le h (fun x hx => ?_) binary
      have hcap : range.capAt bound = range := if_neg hge
      have hle := ((Bounds.capAt_contains h).mp (hcap.symm ▸ hx)).2
      have := (le_div_iff₀ hpos).mp (hle.trans hbound)
      linarith

end StoredModel

end SignalTemporalLogic
