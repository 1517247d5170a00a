import SignalTemporalLogic.Proofs.Relations
import SignalTemporalLogic.Proofs.Trees

/-!
What an extreme is taken of. A conjunction, a disjunction and a temporal operator over a window all
take one extreme of the values of some evaluations, and have a value exactly if all of those have one.
Which evaluations these are is the only thing that matters: their order and number do not, and one of
them can be replaced by those that it takes the same extreme of.
-/

namespace SignalTemporalLogic

variable {α Y : Type}

/-! ## Outcomes that agree -/

/-- Equal in the order, as the two zeros are. -/
def OrderEq [LE Y] (a b : Y) : Prop := a ≤ b ∧ b ≤ a

theorem OrderEq.symm [LE Y] {a b : Y} (h : OrderEq a b) : OrderEq b a := And.symm h

theorem Semantics.Ordered.orderEq_refl [LE Y] {S : Semantics α Y} {valid : Y → Prop}
    (hS : S.Ordered valid) {a : Y} (ha : valid a) : OrderEq a a :=
  ⟨hS.refl ha, hS.refl ha⟩

section Agreement

variable [Scalar α] {policy : WindowPolicy} {x : Trajectory α} {anchor : Nat}

/-- The two formulas have the same outcome at the anchor: scores that are equal in the order and
the same verdict, or faults that are related by `E`. -/
structure Formula.AgreeAt (E : Fault α → Fault α → Prop) (policy : WindowPolicy)
    (x : Trajectory α) (anchor : Nat) (f g : Formula α) : Prop where
  robustness : EndAlike E OrderEq (f.robustness policy x anchor) (g.robustness policy x anchor)
  satisfied : EndAlike E Eq (f.satisfied policy x anchor) (g.satisfied policy x anchor)

/-- None of the predicate values that the formula asks for at the anchor is NaN. -/
def Formula.AsksNumbers (policy : WindowPolicy) (x : Trajectory α) (f : Formula α)
    (anchor : Nat) : Prop :=
  ∀ signal u a, f.Asks policy x anchor signal u → x.signalValue signal u = .ok a → ¬ Scalar.IsNaN a

theorem Formula.AsksNumbers.quantitative {f : Formula α} (h : f.AsksNumbers policy x anchor) :
    f.AsksValid .quantitative (fun a => a ≤ a) policy x anchor :=
  fun signal u a hasks ha => not_not.mp (h signal u a hasks ha)

theorem Formula.asksValid_qualitative (f : Formula α) :
    f.AsksValid .qualitative (fun _ => True) policy x anchor :=
  fun _ _ _ _ _ => trivial

/-- Formulas with values that are equal in the order, in both readings, agree. -/
theorem Formula.AgreeAt.of_valueAt {E : Fault α → Fault α → Prop} (hE : ∀ e, E e e) {f g : Formula α}
    (hquantitative : anchor < x.length → EndAlike E OrderEq
      (f.valueAt .quantitative policy x anchor) (g.valueAt .quantitative policy x anchor))
    (hqualitative : anchor < x.length → EndAlike E OrderEq
      (f.valueAt .qualitative policy x anchor) (g.valueAt .qualitative policy x anchor)) :
    f.AgreeAt E policy x anchor g where
  robustness := EndAlike.bind_same hE _ fun _ hcheck =>
    hquantitative (Trajectory.checkIndex_eq_ok.mp hcheck)
  satisfied := EndAlike.bind_same hE _ fun _ hcheck =>
    (hqualitative (Trajectory.checkIndex_eq_ok.mp hcheck)).imp fun _ _ h =>
      Bool.le_antisymm h.1 h.2

/-- What is computed of comparable values is comparable. -/
theorem Formula.valid_of_valueAt [LE Y] {S : Semantics α Y} {valid : Y → Prop} (hS : S.Ordered valid)
    (hlen : x.length ≤ Index.last) {f : Formula α} {t : Nat} {y : Y}
    (hasks : f.AsksValid S valid policy x t) (h : f.valueAt S policy x t = .ok y) : valid y := by
  obtain ⟨z, hz, hvalid, -⟩ :=
    Formula.exists_valueAt hS hlen f t (Formula.defined_of_valueAt hlen f t y h) hasks
  rwa [Except.ok.inj (h.symm.trans hz)]

end Agreement

/-! ## Gathering -/

/-- The value is the extreme of the set. -/
def Extremum.IsBest [LE Y] : Extremum → Set Y → Y → Prop
  | .min => IsLeast
  | .max => IsGreatest

/-- The fold that takes the extreme. -/
def Semantics.fold (S : Semantics α Y) : Extremum → List Y → Y
  | .min => S.all
  | .max => S.any

section Best

variable [LE Y] {S : Semantics α Y} {valid : Y → Prop} {e : Extremum}

/-- At least as extreme, in any order. -/
def Extremum.NoWorse : Extremum → Y → Y → Prop
  | .min, a, b => a ≤ b
  | .max, a, b => b ≤ a

theorem Extremum.isBest_iff {A : Set Y} {y : Y} :
    e.IsBest A y ↔ y ∈ A ∧ ∀ v ∈ A, e.NoWorse y v := by
  cases e <;> rfl

theorem Extremum.orderEq_of_isBest {A : Set Y} {y z : Y} (hy : e.IsBest A y) (hz : e.IsBest A z) :
    OrderEq y z := by
  cases e with
  | min => exact ⟨hy.2 hz.1, hz.2 hy.1⟩
  | max => exact ⟨hz.2 hy.1, hy.2 hz.1⟩

theorem Semantics.Ordered.noWorse_refl (hS : S.Ordered valid) {a : Y} (ha : valid a) :
    e.NoWorse a a := by
  cases e <;> exact hS.refl ha

theorem Semantics.Ordered.noWorse_trans (hS : S.Ordered valid) {a b c : Y} (hab : e.NoWorse a b)
    (hbc : e.NoWorse b c) : e.NoWorse a c := by
  cases e with
  | min => exact hS.trans hab hbc
  | max => exact hS.trans hbc hab

theorem Semantics.Ordered.fold_isBest (hS : S.Ordered valid) {values : List Y} (hne : values ≠ [])
    (hvalues : ∀ v ∈ values, valid v) : e.IsBest {v | v ∈ values} (S.fold e values) := by
  cases e with
  | min => exact hS.all_isLeast hne hvalues
  | max => exact hS.any_isGreatest hne hvalues

end Best

variable [Scalar α] [LE Y] {S : Semantics α Y} {valid : Y → Prop} {policy : WindowPolicy}
  {x : Trajectory α} {e : Extremum}

/-- The values that the evaluations have. -/
def valuesOf (S : Semantics α Y) (policy : WindowPolicy) (x : Trajectory α)
    (es : Set (Formula α × Nat)) : Set Y :=
  {v | ∃ p ∈ es, p.1.valueAt S policy x p.2 = .ok v}

/-- The formula at `t` has a value exactly if all of the evaluations have one, and it is the extreme
of theirs. -/
structure Formula.Gathers (S : Semantics α Y) (policy : WindowPolicy) (x : Trajectory α)
    (e : Extremum) (f : Formula α) (t : Nat) (es : Set (Formula α × Nat)) : Prop where
  ok_iff : (∃ y, f.valueAt S policy x t = .ok y) ↔
    ∀ p ∈ es, ∃ y, p.1.valueAt S policy x p.2 = .ok y
  isBest {y : Y} : f.valueAt S policy x t = .ok y → e.IsBest (valuesOf S policy x es) y

namespace Formula.Gathers

variable {f g : Formula α} {t u : Nat} {es es' : Set (Formula α × Nat)}

/-- Formulas that gather the same evaluations are equal in the order. -/
theorem alike (hf : f.Gathers S policy x e t es) (hg : g.Gathers S policy x e u es) :
    EndAlike (fun _ _ => True) OrderEq (f.valueAt S policy x t) (g.valueAt S policy x u) :=
  .of_ok_iff (hf.ok_iff.trans hg.ok_iff.symm) fun _ _ hy hz =>
    Extremum.orderEq_of_isBest (hf.isBest hy) (hg.isBest hz)

/-- What is gathered depends on the value only. -/
theorem congr (hg : g.Gathers S policy x e u es)
    (h : ∀ y, f.valueAt S policy x t = .ok y ↔ g.valueAt S policy x u = .ok y) :
    f.Gathers S policy x e t es where
  ok_iff := (exists_congr h).trans hg.ok_iff
  isBest hy := hg.isBest ((h _).mp hy)

/-- An evaluation gathers itself. -/
theorem single (hS : S.Ordered valid) (hlen : x.length ≤ Index.last)
    (hasks : f.AsksValid S valid policy x t) : f.Gathers S policy x e t {(f, t)} where
  ok_iff := by simp
  isBest {y} hy := by
    refine Extremum.isBest_iff.mpr ⟨⟨(f, t), rfl, hy⟩, ?_⟩
    rintro v ⟨_, rfl, hv⟩
    obtain rfl : y = v := Except.ok.inj (hy.symm.trans hv)
    exact hS.noWorse_refl (Formula.valid_of_valueAt hS hlen hasks hy)

/-- What is gathered can be replaced by what it gathers itself. -/
theorem refine (hS : S.Ordered valid) (h : f.Gathers S policy x e t es)
    (hparts : ∀ p ∈ es, ∃ fs ⊆ es', p.1.Gathers S policy x e p.2 fs)
    (hcover : ∀ q ∈ es', ∃ p ∈ es, ∃ fs, q ∈ fs ∧ p.1.Gathers S policy x e p.2 fs) :
    f.Gathers S policy x e t es' where
  ok_iff := by
    rw [h.ok_iff]
    constructor
    · intro hall q hq
      obtain ⟨p, hp, fs, hqfs, hfs⟩ := hcover q hq
      exact hfs.ok_iff.mp (hall p hp) q hqfs
    · intro hall p hp
      obtain ⟨fs, hsub, hfs⟩ := hparts p hp
      exact hfs.ok_iff.mpr fun q hq => hall q (hsub hq)
  isBest {y} hy := by
    obtain ⟨⟨p, hp, hpy⟩, hbest⟩ := Extremum.isBest_iff.mp (h.isBest hy)
    refine Extremum.isBest_iff.mpr ⟨?_, fun v ⟨q, hq, hqv⟩ => ?_⟩
    · obtain ⟨fs, hsub, hfs⟩ := hparts p hp
      obtain ⟨⟨q, hq, hqy⟩, -⟩ := Extremum.isBest_iff.mp (hfs.isBest hpy)
      exact ⟨q, hsub hq, hqy⟩
    · obtain ⟨p, hp, fs, hqfs, hfs⟩ := hcover q hq
      obtain ⟨w, hw⟩ := h.ok_iff.mp ⟨y, hy⟩ p hp
      have hpart := (Extremum.isBest_iff.mp (hfs.isBest hw)).2 v ⟨q, hqfs, hqv⟩
      exact hS.noWorse_trans (hbest w ⟨p, hp, hw⟩) hpart

end Formula.Gathers

/-! ## What formulas gather -/

omit [LE Y] in
/-- A formula that takes an extreme evaluates all that it uses and folds the values. -/
theorem Formula.valueAt_eq_fold {f : Formula α} (he : f.extreme? = some e) (t : Nat) :
    f.valueAt S policy x t = (do
      let es ← f.uses policy x.spacing x.length t
      let values ← es.mapM fun p => p.1.valueAt S policy x p.2
      return S.fold e values) := by
  cases f with
  | and _ args | or _ args =>
    cases he
    simp only [Formula.valueAt, Formula.uses, Operands.valuesAt_eq_mapM, pure_bind, List.mapM_map]
    rfl
  | always _ interval arg | eventually _ interval arg =>
    cases he
    simp only [Formula.valueAt, Formula.uses, Trajectory.window, Window.mapM,
      Index.mapRangeM_eq_mapM, bind_assoc, pure_bind, List.mapM_map]
    rfl
  | predicate | not | holdsUntil | next => cases he

omit [LE Y] in
theorem Formula.values_ne_nil {f : Formula α} {t : Nat} (he : f.extreme? = some e)
    {es : List (Formula α × Nat)} (hes : f.uses policy x.spacing x.length t = .ok es)
    {values : List Y}
    (hvalues : (es.mapM fun p => p.1.valueAt S policy x p.2) = .ok values) : values ≠ [] := by
  intro hnil
  have hlength := (Except.mapM_eq_ok.mp hvalues).length_eq
  rw [hnil, List.length_nil, List.length_eq_zero_iff] at hlength
  exact Formula.uses_ne_nil he hes hlength

/-- A formula that takes an extreme gathers what it uses. -/
theorem Formula.gathers_uses (hS : S.Ordered valid) (hlen : x.length ≤ Index.last) {f : Formula α}
    {t : Nat} (he : f.extreme? = some e) {es : List (Formula α × Nat)}
    (hes : f.uses policy x.spacing x.length t = .ok es) (hasks : f.AsksValid S valid policy x t) :
    f.Gathers S policy x e t {p | p ∈ es} := by
  have hvalue : f.valueAt S policy x t = (do
      let values ← es.mapM fun p => p.1.valueAt S policy x p.2
      return S.fold e values) := by
    rw [Formula.valueAt_eq_fold he, hes]
    rfl
  refine ⟨?_, fun {y} hy => ?_⟩
  · rw [hvalue]
    refine Iff.trans ?_ Except.exists_mapM_eq_ok_iff
    simp only [Except.bind_eq_ok, Except.pure_eq_ok]
    constructor
    · intro h
      obtain ⟨-, values, hvalues, -⟩ := h
      exact ⟨values, hvalues⟩
    · intro h
      obtain ⟨values, hvalues⟩ := h
      exact ⟨_, values, hvalues, rfl⟩
  · obtain ⟨values, hvalues, hy⟩ := Except.bind_eq_ok.mp (hvalue.symm.trans hy)
    cases hy
    have hvisits := exists_of_forall₂ (Except.mapM_eq_ok.mp hvalues)
    have hset : valuesOf S policy x {p | p ∈ es} = {v | v ∈ values} := by
      ext v
      constructor
      · intro hv
        obtain ⟨p, hp, hv⟩ := hv
        obtain ⟨w, hw, hpw⟩ := hvisits.1 p hp
        rwa [Except.ok.inj (hv.symm.trans hpw)]
      · intro hv
        exact hvisits.2 v hv
    rw [hset]
    refine hS.fold_isBest (Formula.values_ne_nil he hes hvalues) fun v hv => ?_
    obtain ⟨p, hp, hpv⟩ := hvisits.2 v hv
    exact Formula.valid_of_valueAt hS hlen
      (fun signal u a h => hasks signal u a (Formula.asks_of_uses hlen hes hp h)) hpv

end SignalTemporalLogic
