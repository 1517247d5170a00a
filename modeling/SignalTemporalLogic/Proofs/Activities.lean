import Mathlib.Data.List.Induction
import SignalTemporalLogic.Proofs.Cutting

/-!
The least value of a sum over a box. A sum has one exactly if each of its terms has, and any value
of one variable goes together with values of the others that bring the rest of the sum down to its
least value, or as far down as one likes.
-/

namespace SignalTemporalLogic

theorem fin_mul_posInf {a : Rat} (h : a < 0) : Exact.fin a * .posInf = .negInf := by
  show Exact.infinity (a * 1) = .negInf
  unfold Exact.infinity
  rw [mul_one, if_neg (not_lt.mpr h.le), if_pos h]

theorem fin_mul_negInf {a : Rat} (h : 0 < a) : Exact.fin a * .negInf = .negInf := by
  show Exact.infinity (a * -1) = .negInf
  unfold Exact.infinity
  rw [if_neg (by linarith), if_pos (by linarith)]

/-- A term has a least value that is attained, or takes values as low as one likes. -/
theorem leastTerm_cases {a : Rat} {range : Bounds Exact} (ha : a ≠ 0)
    (hmember : ∃ x, range.Contains x) :
    (∃ q, leastTerm (.fin a) range = .fin q ∧ (∀ x, range.Contains x → q ≤ a * x) ∧
      ∃ x, range.Contains x ∧ a * x = q) ∨
    leastTerm (.fin a) range = .negInf ∧ ∀ bound, ∃ x, range.Contains x ∧ a * x ≤ bound := by
  obtain ⟨y, hy⟩ := hmember
  obtain ⟨hlower, hupper⟩ := hy.realEnds
  obtain ⟨lower, upper⟩ := range
  unfold leastTerm
  simp only [Exact.zero_def, Exact.fin_lt_fin]
  rcases lt_or_gt_of_ne ha with hneg | hpos
  · rw [if_neg (not_lt.mpr hneg.le)]
    obtain rfl | ⟨u, rfl⟩ : upper = .posInf ∨ ∃ u, upper = .fin u := hupper
    · refine .inr ⟨fin_mul_posInf hneg, fun bound => ⟨Max.max y (bound / a), ?_, ?_⟩⟩
      · exact ⟨OrderedScalar.le_trans hy.1 (Exact.fin_le_fin.mpr (le_max_left _ _)), trivial⟩
      · have hle := mul_le_mul_of_nonpos_left (le_max_right y (bound / a)) hneg.le
        rwa [mul_div_cancel₀ _ ha] at hle
    · refine .inl ⟨a * u, rfl, fun x hx => ?_, u, ⟨OrderedScalar.le_trans hy.1 hy.2, le_refl u⟩, rfl⟩
      exact mul_le_mul_of_nonpos_left (Exact.fin_le_fin.mp hx.2) hneg.le
  · rw [if_pos hpos]
    obtain rfl | ⟨l, rfl⟩ : lower = .negInf ∨ ∃ l, lower = .fin l := hlower
    · refine .inr ⟨fin_mul_negInf hpos, fun bound => ⟨Min.min y (bound / a), ?_, ?_⟩⟩
      · exact ⟨trivial, OrderedScalar.le_trans (Exact.fin_le_fin.mpr (min_le_left _ _)) hy.2⟩
      · have hle := mul_le_mul_of_nonneg_left (min_le_right y (bound / a)) hpos.le
        rwa [mul_div_cancel₀ _ ha] at hle
    · refine .inl ⟨a * l, rfl, fun x hx => ?_, l, ⟨le_refl l, OrderedScalar.le_trans hy.1 hy.2⟩, rfl⟩
      exact mul_le_mul_of_nonneg_left (Exact.fin_le_fin.mp hx.1) hpos.le

namespace Box

/-- The assignment is in the box. -/
def Has (box : Box Exact) (p : Assignment) : Prop := ∀ v, (box.range v).Contains (p v)

/-- No range is empty. -/
def Populated (box : Box Exact) : Prop := ∀ v, ∃ x, (box.range v).Contains x

/-- The least value of a term, if it has one. -/
def least (box : Box Exact) (t : Exact × VarId) : Exact := leastTerm t.1 (box.range t.2)

/-- Every term has a least value. -/
def Limits (box : Box Exact) (terms : List (Exact × VarId)) : Prop :=
  ∀ t ∈ terms, Scalar.IsFinite (box.least t)

/-- The sum of the least values of the terms that have one. -/
def leastSum (box : Box Exact) (terms : List (Exact × VarId)) : Rat :=
  (terms.map fun t => (box.least t).toRat).sum

variable {box : Box Exact} {terms before after : List (Exact × VarId)} {t : Exact × VarId}
  {p : Assignment}

@[simp] theorem leastSum_nil : box.leastSum [] = 0 := rfl

@[simp] theorem leastSum_cons : box.leastSum (t :: terms) = (box.least t).toRat + box.leastSum terms :=
  List.sum_cons

@[simp] theorem leastSum_append :
    box.leastSum (before ++ after) = box.leastSum before + box.leastSum after := by
  simp [leastSum]

theorem toRat_of_not_isFinite {a : Exact} (h : ¬ Scalar.IsFinite a) : a.toRat = 0 := by
  cases a with
  | fin q => exact absurd Exact.isFinite_fin h
  | nan | negInf | posInf => rfl

theorem least_cases (hfinite : Scalar.IsFinite t.1) (hnonzero : t.1.toRat ≠ 0)
    (hmember : ∃ x, (box.range t.2).Contains x) :
    (∃ q, box.least t = .fin q ∧ (∀ x, (box.range t.2).Contains x → q ≤ t.1.toRat * x) ∧
      ∃ x, (box.range t.2).Contains x ∧ t.1.toRat * x = q) ∨
    box.least t = .negInf ∧ ∀ bound, ∃ x, (box.range t.2).Contains x ∧ t.1.toRat * x ≤ bound := by
  obtain ⟨c, v⟩ := t
  obtain ⟨a, rfl⟩ := Exact.isFinite_iff.mp hfinite
  exact leastTerm_cases hnonzero hmember

/-! ## Sums -/

/-- The terms have different variables, and coefficients other than zero. -/
structure Separate (terms : List (Exact × VarId)) : Prop where
  finite : ∀ t ∈ terms, Scalar.IsFinite t.1
  nonzero : ∀ t ∈ terms, t.1.toRat ≠ 0
  distinct : terms.Pairwise fun s t => s.2 ≠ t.2

theorem Separate.cons_iff : Separate (t :: terms) ↔
    Scalar.IsFinite t.1 ∧ t.1.toRat ≠ 0 ∧ (∀ s ∈ terms, t.2 ≠ s.2) ∧ Separate terms := by
  constructor
  · intro h
    obtain ⟨hfinite, hnonzero, hdistinct⟩ := h
    rw [List.forall_mem_cons] at hfinite hnonzero
    rw [List.pairwise_cons] at hdistinct
    exact ⟨hfinite.1, hnonzero.1, hdistinct.1, hfinite.2, hnonzero.2, hdistinct.2⟩
  · intro h
    obtain ⟨hfinite, hnonzero, hdistinct, hrest⟩ := h
    exact ⟨List.forall_mem_cons.mpr ⟨hfinite, hrest.finite⟩,
      List.forall_mem_cons.mpr ⟨hnonzero, hrest.nonzero⟩,
      List.pairwise_cons.mpr ⟨hdistinct, hrest.distinct⟩⟩

/-- No assignment in the box brings a sum below its least value. -/
theorem leastSum_le_weigh (hterms : Separate terms) (hlimits : box.Limits terms) {p : Assignment}
    (hp : box.Has p) : box.leastSum terms ≤ weigh p terms := by
  induction terms with
  | nil => simp
  | cons t rest ih =>
    obtain ⟨hfinite, hnonzero, -, hrest⟩ := Separate.cons_iff.mp hterms
    obtain ⟨ht, hlimits⟩ := List.forall_mem_cons.mp hlimits
    rw [leastSum_cons, show weigh p (t :: rest) = t.1.toRat * p t.2 + weigh p rest from weigh_cons]
    rcases least_cases hfinite hnonzero ⟨_, hp t.2⟩ with ⟨q, hleast, hle, -⟩ | ⟨hleast, -⟩
    · rw [hleast, Exact.toRat_fin]
      exact add_le_add (hle _ (hp t.2)) (ih hrest hlimits)
    · rw [hleast] at ht
      exact absurd ht (by simp [Exact.isFinite_iff])

theorem Has.update (hp : box.Has p) (v : VarId) {x : Rat} (hx : (box.range v).Contains x) :
    box.Has (Function.update p v x) := by
  intro u
  by_cases hu : u = v
  · rw [hu, Function.update_self]
    exact hx
  · rw [Function.update_of_ne hu]
    exact hp u

/-- **A value of one variable goes together with values of the others that bring their sum down to
its least value**, or as far as one likes if it has none. -/
theorem exists_weigh_le (hpopulated : box.Populated) (hterms : Separate terms) {v : VarId} {x : Rat}
    (hx : (box.range v).Contains x) (hv : ∀ t ∈ terms, t.2 ≠ v) {bound : Rat}
    (hbound : box.Limits terms → box.leastSum terms ≤ bound) :
    ∃ p, box.Has p ∧ p v = x ∧ weigh p terms ≤ bound := by
  induction terms generalizing bound with
  | nil =>
    choose p hp using hpopulated
    refine ⟨Function.update p v x, Has.update hp v hx, Function.update_self .., ?_⟩
    exact hbound (by simp [Limits])
  | cons t rest ih =>
    obtain ⟨hfinite, hnonzero, hdistinct, hrest⟩ := Separate.cons_iff.mp hterms
    obtain ⟨htv, hv⟩ := List.forall_mem_cons.mp hv
    -- a value of `t` that leaves at least `rest` to the other terms
    have hextend : ∀ {low : Rat} {y : Rat}, (box.Limits rest → box.leastSum rest ≤ low) →
        (box.range t.2).Contains y → t.1.toRat * y + low ≤ bound →
        ∃ p, box.Has p ∧ p v = x ∧ weigh p (t :: rest) ≤ bound := by
      intro low y hlow hy hle
      obtain ⟨p, hp, hpv, hweigh⟩ := ih hrest hv hlow
      refine ⟨Function.update p t.2 y, Has.update hp t.2 hy, ?_, ?_⟩
      · rw [Function.update_of_ne htv.symm, hpv]
      · have hsame : weigh (Function.update p t.2 y) rest = weigh p rest :=
          weigh_congr fun s hs => Function.update_of_ne (hdistinct s hs).symm _ _
        rw [show weigh (Function.update p t.2 y) (t :: rest) =
          t.1.toRat * Function.update p t.2 y t.2 + weigh (Function.update p t.2 y) rest from
          weigh_cons, Function.update_self, hsame]
        linarith
    rcases least_cases hfinite hnonzero (hpopulated t.2) with
      ⟨q, hleast, -, y, hy, hq⟩ | ⟨-, hlow⟩
    · refine @hextend (bound - q) y (fun hlimits => ?_) hy (by linarith)
      have hsum := hbound (List.forall_mem_cons.mpr ⟨hleast ▸ Exact.isFinite_fin, hlimits⟩)
      rw [leastSum_cons, hleast, Exact.toRat_fin] at hsum
      linarith
    · obtain ⟨y, hy, hle⟩ := hlow (bound - box.leastSum rest)
      exact @hextend (box.leastSum rest) y (fun _ => le_refl _) hy (by linarith)

end Box

/-! ## Activities -/

namespace LeastActivity

variable {box : Box Exact} {terms before after : List (Exact × VarId)} {t : Exact × VarId}

/-- The activity sums up the terms that have a least value, counts the others, and knows the position
of one of them. -/
structure Of (activity : LeastActivity Exact) (box : Box Exact) (terms : List (Exact × VarId)) :
    Prop where
  finite : activity.finite = .fin (box.leastSum terms)
  unbounded : activity.unbounded = terms.countP fun t => ¬ Scalar.IsFinite (box.least t)
  unboundedAt : activity.unbounded ≠ 0 →
    ∃ t, terms[activity.unboundedAt]? = some t ∧ ¬ Scalar.IsFinite (box.least t)

/-- One more term. -/
theorem Of.add {activity : LeastActivity Exact} (h : activity.Of box terms) :
    (activity.add terms.length (box.least t)).Of box (terms ++ [t]) := by
  obtain ⟨hfinite, hunbounded, hat⟩ := h
  unfold LeastActivity.add
  by_cases hleast : Scalar.IsFinite (box.least t)
  · obtain ⟨q, hq⟩ := Exact.isFinite_iff.mp hleast
    rw [if_pos hleast]
    refine ⟨?_, ?_, fun hne => ?_⟩
    · rw [hfinite, hq, Exact.fin_add_fin, Box.leastSum_append, Box.leastSum_cons,
        Box.leastSum_nil, hq, Exact.toRat_fin, add_zero]
    · simpa [List.countP_append, hleast] using hunbounded
    · obtain ⟨s, hs, hsleast⟩ := hat hne
      have hlt := (List.getElem?_eq_some_iff.mp hs).1
      exact ⟨s, (List.getElem?_append_left hlt).trans hs, hsleast⟩
  · rw [if_neg hleast]
    refine ⟨?_, ?_, fun _ => ⟨t, by simp, hleast⟩⟩
    · rw [hfinite, Box.leastSum_append, Box.leastSum_cons, Box.leastSum_nil,
        Box.toRat_of_not_isFinite hleast, add_zero, add_zero]
    · simp [List.countP_append, hleast, hunbounded]

theorem ofTerms_of (box : Box Exact) (terms : List (Exact × VarId)) :
    (ofTerms box terms).Of box terms := by
  induction terms using List.reverseRecOn with
  | nil => exact ⟨rfl, rfl, fun h => absurd rfl h⟩
  | append_singleton terms t ih =>
    have hadd : ofTerms box (terms ++ [t]) =
        (ofTerms box terms).add terms.length (box.least t) := by
      simp [ofTerms, List.zipIdx_append, Box.least]
    exact hadd ▸ ih.add

theorem Of.limits_iff {activity : LeastActivity Exact} (h : activity.Of box terms) :
    activity.unbounded = 0 ↔ box.Limits terms := by
  rw [h.unbounded, List.countP_eq_zero]
  exact forall₂_congr fun t _ => by simp

/-- What the other terms add up to at least is known exactly if each of them has a least value. -/
theorem without?_cases {activity : LeastActivity Exact}
    (h : activity.Of box (before ++ t :: after)) :
    (activity.without? before.length (box.least t) = some (.fin (box.leastSum (before ++ after))) ∧
      box.Limits (before ++ after)) ∨
    activity.without? before.length (box.least t) = none ∧ ¬ box.Limits (before ++ after) := by
  obtain ⟨hfinite, hunbounded, hat⟩ := h
  have hlimits : box.Limits (before ++ after) ↔
      (before ++ after).countP (fun t => ¬ Scalar.IsFinite (box.least t)) = 0 := by
    unfold Box.Limits
    rw [List.countP_eq_zero]
    exact forall₂_congr fun t _ => by simp
  unfold without?
  by_cases hleast : Scalar.IsFinite (box.least t)
  · obtain ⟨q, hq⟩ := Exact.isFinite_iff.mp hleast
    have hcount : activity.unbounded =
        (before ++ after).countP fun t => ¬ Scalar.IsFinite (box.least t) := by
      simpa [List.countP_append, List.countP_cons, hleast] using hunbounded
    by_cases hzero : activity.unbounded = 0
    · rw [if_pos hzero]
      refine .inl ⟨?_, hlimits.mpr (hcount ▸ hzero)⟩
      rw [hfinite, hq, Exact.fin_sub_fin, Box.leastSum_append, Box.leastSum_append,
        Box.leastSum_cons, hq, Exact.toRat_fin]
      exact congrArg (fun r => some (Exact.fin r)) (by ring)
    · rw [if_neg hzero, if_neg]
      · exact .inr ⟨rfl, fun hall => hzero (hcount.trans (hlimits.mp hall))⟩
      · rintro ⟨-, hposition⟩
        obtain ⟨s, hs, hsleast⟩ := hat hzero
        rw [hposition] at hs
        obtain rfl : t = s := by simpa using hs
        exact hsleast hleast
  · have hcount : activity.unbounded =
        (before ++ after).countP (fun t => ¬ Scalar.IsFinite (box.least t)) + 1 := by
      simp only [hunbounded, List.countP_append, List.countP_cons, hleast, not_false_iff,
        decide_true, if_true]
      omega
    rw [if_neg (by omega)]
    by_cases hall : box.Limits (before ++ after)
    · have hone : activity.unbounded = 1 := by rw [hcount, hlimits.mp hall]
      have hposition : activity.unboundedAt = before.length := by
        obtain ⟨s, hs, hsleast⟩ := hat (by omega)
        by_contra hne
        refine hsleast (hall s (List.mem_append.mpr ?_))
        rcases lt_or_gt_of_ne hne with hlt | hgt
        · rw [List.getElem?_append_left hlt] at hs
          exact .inl (List.mem_of_getElem? hs)
        · rw [List.getElem?_append_right hgt.le,
            show activity.unboundedAt - before.length =
              activity.unboundedAt - before.length - 1 + 1 by omega,
            List.getElem?_cons_succ] at hs
          exact .inr (List.mem_of_getElem? hs)
      rw [if_pos ⟨hone, hposition⟩]
      refine .inl ⟨?_, hall⟩
      rw [hfinite, Box.leastSum_append, Box.leastSum_append, Box.leastSum_cons,
        Box.toRat_of_not_isFinite hleast, zero_add]
    · rw [if_neg]
      · exact .inr ⟨rfl, hall⟩
      · exact fun h => hall (hlimits.mpr (by omega))

end LeastActivity

end SignalTemporalLogic
