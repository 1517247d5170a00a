import Mathlib.Data.List.Pairwise
import Mathlib.Tactic.Ring
import SignalTemporalLogic.Feasibility.Check
import SignalTemporalLogic.Proofs.ExactArithmetic

/-!
What constraints say of a rational assignment. The normal form in which a model stores a constraint
says the same as the two sides that were given, and without a tolerance a check of the stored form
is a comparison of rationals.
-/

namespace SignalTemporalLogic

/-- A rational for every variable. -/
abbrev Assignment := VarId → Rat

/-- The sum of `coefficient * variable` over the terms. -/
def weigh (p : Assignment) (terms : List (Exact × VarId)) : Rat :=
  (terms.map fun (c, v) => c.toRat * p v).sum

section Weigh

variable {p q : Assignment} {terms others : List (Exact × VarId)}

@[simp] theorem weigh_nil : weigh p [] = 0 := rfl

@[simp] theorem weigh_cons {c : Exact} {v : VarId} :
    weigh p ((c, v) :: terms) = c.toRat * p v + weigh p terms := by
  simp [weigh]

@[simp] theorem weigh_append : weigh p (terms ++ others) = weigh p terms + weigh p others := by
  simp [weigh]

theorem weigh_congr (h : ∀ t ∈ terms, p t.2 = q t.2) : weigh p terms = weigh q terms := by
  refine congrArg List.sum (List.map_congr_left fun t ht => ?_)
  show t.1.toRat * p t.2 = t.1.toRat * q t.2
  rw [h t ht]

end Weigh

/-- The value of a linear expression. -/
def LinearExpr.valueAt (e : LinearExpr Exact VarId) (p : Assignment) : Rat :=
  weigh p e.terms + e.constant.toRat

namespace LinearExpr

variable {p : Assignment}

@[simp] theorem valueAt_ofVar {v : VarId} : (ofVar v : LinearExpr Exact VarId).valueAt p = p v := by
  simp [valueAt, ofVar, term]

@[simp] theorem valueAt_term {c : Rat} {v : VarId} :
    (term (.fin c) v : LinearExpr Exact VarId).valueAt p = c * p v := by
  simp [valueAt, term]

@[simp] theorem valueAt_plus {e : LinearExpr Exact VarId} {c : Rat} {v : VarId} :
    (e.plus (.fin c) v).valueAt p = e.valueAt p + c * p v := by
  simp [valueAt, plus]
  ring

@[simp] theorem valueAt_ofConstant {c : Rat} :
    (ofConstant (.fin c) : LinearExpr Exact VarId).valueAt p = c := by
  simp [valueAt, ofConstant]

@[simp] theorem valueAt_sum {vars : List VarId} :
    (sum vars : LinearExpr Exact VarId).valueAt p = (vars.map p).sum := by
  simp [valueAt, sum, weigh, Function.comp_def]

end LinearExpr

/-- The relation between two rationals. -/
def Relation.Holds : Relation → Rat → Rat → Prop
  | lessEqual, a, b => a ≤ b
  | greaterEqual, a, b => b ≤ a
  | equal, a, b => a = b

theorem Relation.holds_of_sub {r : Relation} {a b c d : Rat} (h : a - b = c - d) :
    r.Holds a b ↔ r.Holds c d := by
  cases r <;> simp only [Holds] <;> constructor <;> intro k <;> linarith

/-- The assignment satisfies the stored constraint. -/
def Constraint.Holds (c : Constraint Exact) (p : Assignment) : Prop :=
  c.relation.Holds (weigh p c.terms) c.rhs.toRat

/-! ## Normal form -/

/-- A sum whose variables are known and in order, each with a finite coefficient. -/
structure NormalTerms (count : Nat) (terms : List (Exact × VarId)) : Prop where
  finite : ∀ t ∈ terms, Scalar.IsFinite t.1
  known : ∀ t ∈ terms, t.2.index < count
  sorted : terms.Pairwise fun s t => s.2.index < t.2.index

theorem NormalTerms.cons_iff {count : Nat} {c : Exact} {v : VarId} {rest : List (Exact × VarId)} :
    NormalTerms count ((c, v) :: rest) ↔ Scalar.IsFinite c ∧ v.index < count ∧
      (∀ t ∈ rest, v.index < t.2.index) ∧ NormalTerms count rest := by
  constructor
  · rintro ⟨hfinite, hknown, hsorted⟩
    simp only [List.forall_mem_cons, List.pairwise_cons] at hfinite hknown hsorted
    exact ⟨hfinite.1, hknown.1, hsorted.1, hfinite.2, hknown.2, hsorted.2⟩
  · rintro ⟨hc, hv, hhead, hfinite, hknown, hsorted⟩
    exact ⟨List.forall_mem_cons.mpr ⟨hc, hfinite⟩, List.forall_mem_cons.mpr ⟨hv, hknown⟩,
      List.pairwise_cons.mpr ⟨hhead, hsorted⟩⟩

/-- A variable occurs once. -/
theorem NormalTerms.ne_of_append {count : Nat} {c : Exact} {v : VarId}
    {before after : List (Exact × VarId)} (h : NormalTerms count (before ++ (c, v) :: after)) :
    ∀ t ∈ before ++ after, t.2 ≠ v := by
  obtain ⟨-, hafter, hbefore⟩ := List.pairwise_append.mp h.sorted
  rintro t ht rfl
  rcases List.mem_append.mp ht with ht | ht
  · exact Nat.lt_irrefl _ (hbefore t ht (c, t.2) List.mem_cons_self)
  · exact Nat.lt_irrefl _ ((List.pairwise_cons.mp hafter).1 t ht)

/-- A constraint that a model with `count` variables may store. -/
structure Constraint.Normal (count : Nat) (c : Constraint Exact) : Prop extends
    NormalTerms count c.terms where
  nonzero : ∀ t ∈ c.terms, t.1.toRat ≠ 0
  finite_rhs : Scalar.IsFinite c.rhs

namespace StoredModel

section Merge

variable {c : Exact} {v : VarId} {sum terms : List (Exact × VarId)} {count : Nat}

theorem mem_mergeTerm {t : Exact × VarId} (h : t ∈ mergeTerm c v sum) :
    t.2 = v ∨ ∃ s ∈ sum, s.2 = t.2 := by
  induction sum with
  | nil => exact .inl (by simp [mergeTerm] at h; simp [h])
  | cons head rest ih =>
    obtain ⟨a, w⟩ := head
    rw [mergeTerm] at h
    split at h
    · rcases List.mem_cons.mp h with rfl | h
      · exact .inl rfl
      · exact .inr ⟨t, h, rfl⟩
    · split at h
      · rcases List.mem_cons.mp h with rfl | h
        · exact .inr ⟨(a, w), by simp, rfl⟩
        · exact .inr ⟨t, List.mem_cons_of_mem _ h, rfl⟩
      · rcases List.mem_cons.mp h with rfl | h
        · exact .inr ⟨(a, w), by simp, rfl⟩
        · rcases ih h with h | ⟨s, hs, he⟩
          · exact .inl h
          · exact .inr ⟨s, List.mem_cons_of_mem _ hs, he⟩

/-- Adding a finite term to a sum adds its value. -/
theorem weigh_mergeTerm {p : Assignment} (hc : Scalar.IsFinite c)
    (hsum : ∀ t ∈ sum, Scalar.IsFinite t.1) :
    weigh p (mergeTerm c v sum) = weigh p sum + c.toRat * p v := by
  obtain ⟨q, rfl⟩ := Exact.isFinite_iff.mp hc
  induction sum with
  | nil => simp [mergeTerm]
  | cons head rest ih =>
    obtain ⟨a, w⟩ := head
    obtain ⟨r, rfl⟩ := Exact.isFinite_iff.mp (hsum (a, w) (by simp))
    rw [mergeTerm]
    split
    · simp
      ring
    · split
      · next hv => subst hv; simp; ring
      · rw [weigh_cons, ih fun t ht => hsum t (List.mem_cons_of_mem _ ht), weigh_cons]
        ring

/-- Adding a finite term of a known variable keeps a sum in order. -/
theorem normalTerms_mergeTerm (hc : Scalar.IsFinite c) (hv : v.index < count)
    (h : NormalTerms count sum) : NormalTerms count (mergeTerm c v sum) := by
  obtain ⟨q, rfl⟩ := Exact.isFinite_iff.mp hc
  induction sum with
  | nil => exact NormalTerms.cons_iff.mpr ⟨by simp, hv, by simp, h⟩
  | cons head rest ih =>
    obtain ⟨a, w⟩ := head
    obtain ⟨ha, hw, hhead, hrest⟩ := NormalTerms.cons_iff.mp h
    obtain ⟨r, rfl⟩ := Exact.isFinite_iff.mp ha
    rw [mergeTerm]
    split
    · next hlt =>
      refine NormalTerms.cons_iff.mpr ⟨by simp, hv, ?_, h⟩
      rintro t ht
      rcases List.mem_cons.mp ht with rfl | ht
      · exact hlt
      · exact hlt.trans (hhead t ht)
    · next hge =>
      split
      · next he =>
        exact NormalTerms.cons_iff.mpr ⟨by simp, hw, hhead, hrest⟩
      · next hne =>
        have hgt : w.index < v.index := by
          obtain ⟨i⟩ := v
          obtain ⟨j⟩ := w
          simp only [VarId.mk.injEq] at hne hge ⊢
          omega
        refine NormalTerms.cons_iff.mpr ⟨ha, hw, fun t ht => ?_, ih hrest⟩
        rcases mem_mergeTerm ht with he | ⟨s, hs, he⟩
        · exact he ▸ hgt
        · exact he ▸ hhead s hs

/-- Collecting terms succeeds if they are finite and known. The sum that it gives is in order, and
worth what the terms are worth together. -/
theorem mergeTerms_eq_ok {result : List (Exact × VarId)} (hsum : NormalTerms count sum) :
    mergeTerms count sum terms = .ok result →
      (∀ t ∈ terms, Scalar.IsFinite t.1 ∧ t.2.index < count) ∧ NormalTerms count result ∧
        (∀ t ∈ result, ∃ s ∈ sum ++ terms, s.2 = t.2) ∧
        ∀ p, weigh p result = weigh p sum + weigh p terms := by
  induction terms generalizing sum with
  | nil =>
    rintro ⟨⟩
    exact ⟨by simp, hsum, fun t ht => ⟨t, by simpa using ht, rfl⟩, fun p => by simp⟩
  | cons head rest ih =>
    obtain ⟨a, w⟩ := head
    intro h
    rw [mergeTerms] at h
    split at h
    · cases h
    · next hfinite =>
      replace hfinite := not_not.mp hfinite
      split at h
      · cases h
      · next hknown =>
        have hw : w.index < count := not_le.mp hknown
        obtain ⟨hrest, hnormal, hmem, hweigh⟩ := ih (normalTerms_mergeTerm hfinite hw hsum) h
        refine ⟨List.forall_mem_cons.mpr ⟨⟨hfinite, hw⟩, hrest⟩, hnormal, fun t ht => ?_,
          fun p => ?_⟩
        · obtain ⟨s, hs, hst⟩ := hmem t ht
          rcases List.mem_append.mp hs with hs | hs
          · rcases mem_mergeTerm hs with hsw | ⟨r, hr, hrs⟩
            · exact ⟨(a, w), by simp, hsw.symm.trans hst⟩
            · exact ⟨r, by simp [hr], hrs.trans hst⟩
          · exact ⟨s, by simp [hs], hst⟩
        · rw [hweigh, weigh_mergeTerm hfinite hsum.finite, weigh_cons]
          ring

theorem exists_mergeTerms_eq_ok (h : ∀ t ∈ terms, Scalar.IsFinite t.1 ∧ t.2.index < count) :
    ∀ sum, ∃ result, mergeTerms count sum terms = .ok result := by
  intro sum
  induction terms generalizing sum with
  | nil => exact ⟨sum, rfl⟩
  | cons head rest ih =>
    obtain ⟨a, w⟩ := head
    obtain ⟨hfinite, hknown⟩ := h (a, w) (by simp)
    rw [mergeTerms, if_neg (not_not.mpr hfinite), if_neg (not_le.mpr hknown)]
    exact ih (fun t ht => h t (List.mem_cons_of_mem _ ht)) _

end Merge

section Normalize

variable {count : Nat} {lhs rhs : LinearExpr Exact VarId} {relation : Relation}
  {c : Constraint Exact}

theorem weigh_negated {p : Assignment} {terms : List (Exact × VarId)}
    (h : ∀ t ∈ terms, Scalar.IsFinite t.1) :
    weigh p (terms.map fun (c, v) => (-c, v)) = -weigh p terms := by
  induction terms with
  | nil => simp
  | cons head rest ih =>
    obtain ⟨a, w⟩ := head
    obtain ⟨q, rfl⟩ := Exact.isFinite_iff.mp (h (a, w) (by simp))
    rw [List.map_cons, weigh_cons, weigh_cons, ih fun t ht => h t (List.mem_cons_of_mem _ ht)]
    simp
    ring

theorem isFinite_neg {a : Exact} : Scalar.IsFinite (-a) ↔ Scalar.IsFinite a := by
  cases a <;> simp [Scalar.IsFinite, Exact.lt_def, Exact.neg_def, Exact.Below, Exact.neg]

/-- Zero terms weigh nothing. -/
theorem weigh_filter {p : Assignment} {terms : List (Exact × VarId)}
    (h : ∀ t ∈ terms, Scalar.IsFinite t.1) :
    weigh p (terms.filter fun (c, _) => ¬ Scalar.IsZero c) = weigh p terms := by
  induction terms with
  | nil => rfl
  | cons head rest ih =>
    obtain ⟨a, w⟩ := head
    obtain ⟨q, rfl⟩ := Exact.isFinite_iff.mp (h (a, w) (by simp))
    have ih := ih fun t ht => h t (List.mem_cons_of_mem _ ht)
    by_cases hq : q = 0
    · subst hq
      simpa using ih
    · simp [hq] at ih ⊢
      exact ih

/-- The two sides with all terms on the left. -/
theorem normalize_eq {count : Nat} :
    normalize count lhs relation rhs = (do
      let sum ← mergeTerms count [] (lhs.terms ++ rhs.terms.map fun (c, v) => (-c, v))
      if Scalar.IsFinite (rhs.constant - lhs.constant) then
        return ⟨sum.filter fun (c, _) => ¬ Scalar.IsZero c, relation, rhs.constant - lhs.constant⟩
      else throw (.nonFiniteConstant (rhs.constant - lhs.constant))) := rfl

theorem isFinite_of_sub {a b : Exact} (h : Scalar.IsFinite (a - b)) :
    Scalar.IsFinite a ∧ Scalar.IsFinite b := by
  obtain ⟨q, hq⟩ := Exact.isFinite_iff.mp h
  cases a <;> cases b <;> first | exact ⟨Exact.isFinite_fin, Exact.isFinite_fin⟩ | cases hq

/-- What is accepted has finite coefficients and constants, and known variables. -/
theorem finite_of_normalize (h : normalize count lhs relation rhs = .ok c) :
    (∀ t ∈ lhs.terms ++ rhs.terms, Scalar.IsFinite t.1 ∧ t.2.index < count) ∧
      Scalar.IsFinite lhs.constant ∧ Scalar.IsFinite rhs.constant := by
  rw [normalize_eq] at h
  obtain ⟨sum, hsum, h⟩ := Except.bind_eq_ok.mp h
  obtain ⟨hterms, -⟩ := mergeTerms_eq_ok ⟨by simp, by simp, by simp⟩ hsum
  split at h
  · next hfinite =>
    obtain ⟨hrhs, hlhs⟩ := isFinite_of_sub hfinite
    refine ⟨fun t ht => ?_, hlhs, hrhs⟩
    rcases List.mem_append.mp ht with ht | ht
    · exact hterms t (List.mem_append_left _ ht)
    · obtain ⟨hneg, hknown⟩ := hterms (-t.1, t.2)
        (List.mem_append_right _ (List.mem_map.mpr ⟨t, ht, rfl⟩))
      exact ⟨isFinite_neg.mp hneg, hknown⟩
  · cases h

/-- **The normal form of a constraint says what the constraint says**, and of no other variables. -/
theorem normalize_eq_ok (h : normalize count lhs relation rhs = .ok c) :
    c.Normal count ∧ c.relation = relation ∧
      (∀ t ∈ c.terms, ∃ s ∈ lhs.terms ++ rhs.terms, s.2 = t.2) ∧
      ∀ p, weigh p c.terms - c.rhs.toRat = lhs.valueAt p - rhs.valueAt p := by
  obtain ⟨hfinite, hlhs, hrhs⟩ := finite_of_normalize h
  rw [normalize_eq] at h
  obtain ⟨sum, hsum, h⟩ := Except.bind_eq_ok.mp h
  obtain ⟨-, hnormal, hvariables, hweigh⟩ := mergeTerms_eq_ok ⟨by simp, by simp, by simp⟩ hsum
  split at h
  · next hconstant =>
    cases h
    refine ⟨⟨⟨fun t ht => hnormal.finite t (List.mem_of_mem_filter ht),
      fun t ht => hnormal.known t (List.mem_of_mem_filter ht), hnormal.sorted.filter _⟩, ?_,
      hconstant⟩, rfl, fun t ht => ?_, fun p => ?_⟩
    · intro t ht
      obtain ⟨hmem, hzero⟩ := List.mem_filter.mp ht
      obtain ⟨q, hq⟩ := Exact.isFinite_iff.mp (hnormal.finite t hmem)
      simpa [hq] using hzero
    · obtain ⟨s, hs, hst⟩ := hvariables t (List.mem_of_mem_filter ht)
      rw [List.nil_append] at hs
      rcases List.mem_append.mp hs with hs | hs
      · exact ⟨s, List.mem_append_left _ hs, hst⟩
      · obtain ⟨r, hr, rfl⟩ := List.mem_map.mp hs
        exact ⟨r, List.mem_append_right _ hr, hst⟩
    · have hmoved : ∀ t ∈ rhs.terms, Scalar.IsFinite t.1 := fun t ht =>
        (hfinite t (List.mem_append_right _ ht)).1
      rw [weigh_filter hnormal.finite, hweigh, weigh_append, weigh_negated hmoved]
      obtain ⟨a, ha⟩ := Exact.isFinite_iff.mp hlhs
      obtain ⟨b, hb⟩ := Exact.isFinite_iff.mp hrhs
      simp only [LinearExpr.valueAt, ha, hb, weigh_nil, Exact.fin_sub_fin, Exact.toRat_fin]
      ring
  · cases h

/-- Finite coefficients and constants on known variables are accepted. -/
theorem exists_normalize_eq_ok (relation : Relation)
    (hterms : ∀ t ∈ lhs.terms ++ rhs.terms, Scalar.IsFinite t.1 ∧ t.2.index < count)
    (hlhs : Scalar.IsFinite lhs.constant) (hrhs : Scalar.IsFinite rhs.constant) :
    ∃ c, normalize count lhs relation rhs = .ok c := by
  have hmoved : ∀ t ∈ lhs.terms ++ rhs.terms.map fun (c, v) => (-c, v),
      Scalar.IsFinite t.1 ∧ t.2.index < count := by
    intro t ht
    rcases List.mem_append.mp ht with ht | ht
    · exact hterms t (List.mem_append_left _ ht)
    · obtain ⟨s, hs, rfl⟩ := List.mem_map.mp ht
      obtain ⟨hfinite, hknown⟩ := hterms s (List.mem_append_right _ hs)
      exact ⟨isFinite_neg.mpr hfinite, hknown⟩
  obtain ⟨sum, hsum⟩ := exists_mergeTerms_eq_ok hmoved []
  obtain ⟨a, ha⟩ := Exact.isFinite_iff.mp hlhs
  obtain ⟨b, hb⟩ := Exact.isFinite_iff.mp hrhs
  have hfinite : Scalar.IsFinite (rhs.constant - lhs.constant) := by simp [ha, hb]
  rw [normalize_eq, hsum]
  exact ⟨_, if_pos hfinite⟩

end Normalize

end StoredModel

/-! ## Checking without a tolerance -/

/-- The values of an array, zero past its end. -/
def assignmentOf (values : Array Rat) : Assignment := fun v => values.getD v.index 0

theorem getD_map_fin (values : Array Rat) (v : VarId) :
    (values.map Exact.fin).getD v.index 0 = .fin (assignmentOf values v) := by
  simp only [assignmentOf, Array.getD_eq_getD_getElem?, Array.getElem?_map]
  cases values[v.index]? <;> rfl

theorem Constraint.sumAt_map_fin {c : Constraint Exact} (values : Array Rat)
    (h : ∀ t ∈ c.terms, Scalar.IsFinite t.1) :
    c.sumAt (values.map .fin) = .fin (weigh (assignmentOf values) c.terms) := by
  have hfold (terms : List (Exact × VarId)) (first : Rat)
      (hterms : ∀ t ∈ terms, Scalar.IsFinite t.1) :
      terms.foldl (fun sum (a, v) => sum + a * (values.map Exact.fin).getD v.index 0) (.fin first) =
        .fin (first + weigh (assignmentOf values) terms) := by
    induction terms generalizing first with
    | nil => simp
    | cons head rest ih =>
      obtain ⟨a, w⟩ := head
      obtain ⟨q, rfl⟩ := Exact.isFinite_iff.mp (hterms (a, w) (by simp))
      rw [List.foldl_cons]
      dsimp only
      rw [getD_map_fin, Exact.fin_mul_fin, Exact.fin_add_fin,
        ih _ fun t ht => hterms t (List.mem_cons_of_mem _ ht), weigh_cons, Exact.toRat_fin,
        add_assoc]
  have h := hfold c.terms 0 h
  rwa [zero_add] at h

theorem Constraint.Normal.holdsAt_iff {count : Nat} {c : Constraint Exact} (h : c.Normal count)
    (values : Array Rat) :
    c.holdsAt (.fin 0) (values.map .fin) = true ↔ c.Holds (assignmentOf values) := by
  obtain ⟨q, hq⟩ := Exact.isFinite_iff.mp h.finite_rhs
  have hsum := c.sumAt_map_fin values h.finite
  unfold Constraint.holdsAt Constraint.Holds
  rw [hsum, hq]
  cases c.relation <;> simp [Relation.Holds, sub_eq_zero]

/-- The variable may take the value if there is no tolerance. -/
structure Variable.Allows (var : Variable Exact) (x : Rat) : Prop where
  contains : var.bounds.Contains x
  integral : var.kind = .binary → ∃ n : Int, x = n

theorem Variable.admits_iff {var : Variable Exact} {x : Rat} :
    var.admits (.fin 0) (.fin x) = true ↔ var.Allows x := by
  have hround : Scalar.abs (.fin x - Scalar.round (.fin x)) ≤ Exact.fin 0 ↔ ∃ n : Int, x = n := by
    simp only [Exact.round_fin, Exact.fin_sub_fin, Exact.abs_fin, Exact.fin_le_fin, abs_nonpos_iff,
      sub_eq_zero]
    constructor
    · exact fun h => ⟨_, h⟩
    · rintro ⟨n, rfl⟩
      rw [Exact.nearest_intCast]
  simp only [Variable.admits, Bool.and_eq_true, Bool.or_eq_true, decide_eq_true_eq,
    Exact.sub_fin_zero, Exact.add_fin_zero, hround]
  constructor
  · rintro ⟨⟨hl, hu⟩, hkind⟩
    exact ⟨⟨hl, hu⟩, fun hb => hkind.resolve_left (by simp [hb])⟩
  · rintro ⟨⟨hl, hu⟩, hint⟩
    refine ⟨⟨hl, hu⟩, ?_⟩
    cases hk : var.kind
    · exact .inl rfl
    · exact .inr (hint hk)

namespace StoredModel

/-- The assignment satisfies all bounds, integrality requirements and constraints. -/
structure Satisfies (m : StoredModel Exact) (p : Assignment) : Prop where
  allows : ∀ i (h : i < m.vars.size), m.vars[i].Allows (p ⟨i⟩)
  holds : ∀ c ∈ m.constraints, c.Holds p

/-- What a check has found of every value and of every constraint. -/
theorem check_eq_true {m : StoredModel Exact} {values : Array Exact} (h : m.check values = true) :
    values.size = m.vars.size ∧
      (∀ i (hi : i < m.vars.size), m.vars[i].admits m.tolerance (values.getD i 0) = true) ∧
      ∀ c ∈ m.constraints, c.holdsAt m.tolerance values = true := by
  simp only [check, Bool.and_eq_true, decide_eq_true_eq] at h
  obtain ⟨⟨hsize, hadmits⟩, hholds⟩ := h
  refine ⟨hsize, fun i hi => ?_, Array.all_eq_true_iff_forall_mem.mp hholds⟩
  have hadmit := Array.all_eq_true.mp hadmits i (by simp [hsize, hi])
  simpa [hsize, hi] using hadmit

/-- Finite values are rationals. -/
theorem exists_map_fin {values : Array Exact}
    (h : ∀ i < values.size, Scalar.IsFinite (values.getD i 0)) :
    ∃ rationals : Array Rat, values = rationals.map .fin := by
  refine ⟨values.map Exact.toRat, Array.ext (by simp) fun i hi _ => ?_⟩
  obtain ⟨q, hq⟩ := Exact.isFinite_iff.mp (h i hi)
  have hvalue : values[i] = .fin q := by simpa [hi] using hq
  simp [hvalue]

/-- **Without a tolerance a check accepts what satisfies the model.** -/
theorem check_iff {m : StoredModel Exact} (htolerance : m.tolerance = .fin 0)
    (hnormal : ∀ c ∈ m.constraints, c.Normal m.vars.size) (values : Array Rat) :
    m.check (values.map .fin) = true ↔
      values.size = m.vars.size ∧ m.Satisfies (assignmentOf values) := by
  have hvars (hsize : values.size = m.vars.size) :
      ((m.vars.zip (values.map Exact.fin)).all fun (var, x) => var.admits (.fin 0) x) = true ↔
        ∀ i (h : i < m.vars.size), m.vars[i].Allows (assignmentOf values ⟨i⟩) := by
    rw [Array.all_eq_true]
    simp only [Array.size_zip, Array.size_map, hsize, min_self, Array.getElem_zip,
      Array.getElem_map]
    refine forall_congr' fun i => forall_congr' fun h => ?_
    rw [Variable.admits_iff]
    simp [assignmentOf, hsize, h]
  have hconstraints : (m.constraints.all (·.holdsAt (.fin 0) (values.map .fin))) = true ↔
      ∀ c ∈ m.constraints, c.Holds (assignmentOf values) := by
    rw [Array.all_eq_true_iff_forall_mem]
    exact forall_congr' fun c => forall_congr' fun hc => (hnormal c hc).holdsAt_iff values
  simp only [check, htolerance, Bool.and_eq_true, decide_eq_true_eq, Array.size_map, hconstraints]
  constructor
  · rintro ⟨⟨hsize, hall⟩, hholds⟩
    exact ⟨hsize, (hvars hsize).mp hall, hholds⟩
  · rintro ⟨hsize, hallows, hholds⟩
    exact ⟨⟨hsize, (hvars hsize).mpr hallows⟩, hholds⟩

/-- What satisfies a model is a vector that the model accepts. -/
theorem check_ofFn {m : StoredModel Exact} (htolerance : m.tolerance = .fin 0)
    (hnormal : ∀ c ∈ m.constraints, c.Normal m.vars.size) {p : Assignment} (h : m.Satisfies p) :
    m.check ((Array.ofFn fun i : Fin m.vars.size => p ⟨i⟩).map .fin) = true := by
  have hsame : ∀ v : VarId, v.index < m.vars.size →
      assignmentOf (Array.ofFn fun i : Fin m.vars.size => p ⟨i⟩) v = p v := by
    intro v hv
    simp [assignmentOf, hv]
  refine (check_iff htolerance hnormal _).mpr ⟨by simp, fun i hi => ?_, fun c hc => ?_⟩
  · rw [hsame ⟨i⟩ hi]
    exact h.allows i hi
  · rw [Constraint.Holds, weigh_congr fun t ht => hsame t.2 ((hnormal c hc).known t ht)]
    exact h.holds c hc

end StoredModel

end SignalTemporalLogic
