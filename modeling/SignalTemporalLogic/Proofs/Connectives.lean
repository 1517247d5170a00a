import SignalTemporalLogic.Proofs.Binary64Order
import SignalTemporalLogic.Proofs.Gathering

/-!
The equational laws of the connectives. A negation passes through every connective but the until and
turns one extreme into the other; what it passes through visits the same indices in the same order, so
the faults are the same too. Conjunctions and disjunctions depend on the set of their operands only,
and nested ones can be flattened; there the first fault may be another one, but not whether there is
a fault.
-/

namespace SignalTemporalLogic

variable {α : Type} [Scalar α]

/-! ## The laws -/

/-- The second formula is a negation of the first one, by a node of its own. -/
def Formula.IsNegation (f g : Formula α) : Prop := ∃ id, g = .not id f

/-- The two sides of a law that moves a negation. -/
inductive Formula.NegationLaw : Formula α → Formula α → Prop
  | not (i j : NodeId) (f : Formula α) : NegationLaw (.not i (.not j f)) f
  | and (i j k : NodeId) {args negated : Operands α}
    (h : List.Forall₂ Formula.IsNegation args.toList negated.toList) :
    NegationLaw (.not i (.and j args)) (.or k negated)
  | or (i j k : NodeId) {args negated : Operands α}
    (h : List.Forall₂ Formula.IsNegation args.toList negated.toList) :
    NegationLaw (.not i (.or j args)) (.and k negated)
  | always (i j k l : NodeId) (interval : TimeInterval α) (f : Formula α) :
    NegationLaw (.not i (.always j interval f)) (.eventually k interval (.not l f))
  | eventually (i j k l : NodeId) (interval : TimeInterval α) (f : Formula α) :
    NegationLaw (.not i (.eventually j interval f)) (.always k interval (.not l f))
  | next (i j k l : NodeId) (f : Formula α) :
    NegationLaw (.not i (.next j f)) (.next k (.not l f))

/-- The two sides of a law that rearranges operands: the same ones in another order and number, or
those of an operand of the same kind in its place. -/
inductive Formula.OperandLaw : Formula α → Formula α → Prop
  | and (i j : NodeId) {args others : Operands α} (h : ∀ f, f ∈ args.toList ↔ f ∈ others.toList) :
    OperandLaw (.and i args) (.and j others)
  | or (i j : NodeId) {args others : Operands α} (h : ∀ f, f ∈ args.toList ↔ f ∈ others.toList) :
    OperandLaw (.or i args) (.or j others)
  | and_nested (i j k : NodeId) {args inner flat : Operands α} {before after : List (Formula α)}
    (hargs : args.toList = before ++ .and k inner :: after)
    (hflat : flat.toList = before ++ inner.toList ++ after) : OperandLaw (.and i args) (.and j flat)
  | or_nested (i j k : NodeId) {args inner flat : Operands α} {before after : List (Formula α)}
    (hargs : args.toList = before ++ .or k inner :: after)
    (hflat : flat.toList = before ++ inner.toList ++ after) : OperandLaw (.or i args) (.or j flat)

/-! ## Negations -/

section Negations

variable {Y : Type} [LE Y] {S : Semantics α Y} {valid : Y → Prop} {policy : WindowPolicy}
  {x : Trajectory α}

/-- The other extreme. -/
def Extremum.dual : Extremum → Extremum
  | .min => .max
  | .max => .min

omit [Scalar α] in
/-- A negation turns an extreme into the other one of the negations. -/
theorem Semantics.Ordered.not_fold (hS : S.Ordered valid) (e : Extremum) {values : List Y}
    (hne : values ≠ []) (hvalues : ∀ v ∈ values, valid v) :
    OrderEq (S.not (S.fold e values)) (S.fold e.dual (values.map S.not)) := by
  have hnots : ∀ v ∈ values.map S.not, valid v := by
    intro v hv
    obtain ⟨w, hw, rfl⟩ := List.mem_map.mp hv
    exact hS.valid_not (hvalues w hw)
  have hbest : e.IsBest {v | v ∈ values} (S.fold e values) := hS.fold_isBest hne hvalues
  have hdual : e.dual.IsBest {v | v ∈ values.map S.not} (S.fold e.dual (values.map S.not)) :=
    hS.fold_isBest (by simpa using hne) hnots
  refine Extremum.orderEq_of_isBest ?_ hdual
  obtain ⟨hmem, hall⟩ := Extremum.isBest_iff.mp hbest
  refine Extremum.isBest_iff.mpr ⟨List.mem_map_of_mem hmem, fun v hv => ?_⟩
  obtain ⟨w, hw, rfl⟩ := List.mem_map.mp hv
  cases e with
  | min => exact hS.not_le_not (hall w hw)
  | max => exact hS.not_le_not (hall w hw)

/-- The second value is the negation of the first one, which is comparable. -/
def Semantics.Negates (S : Semantics α Y) (valid : Y → Prop) (v w : Y) : Prop :=
  w = S.not v ∧ valid v

theorem Formula.alike_self (hS : S.Ordered valid) (hlen : x.length ≤ Index.last) (f : Formula α)
    {t : Nat} (hasks : f.AsksValid S valid policy x t) :
    EndAlike Eq OrderEq (f.valueAt S policy x t) (f.valueAt S policy x t) := by
  cases h : f.valueAt S policy x t with
  | error fault => rfl
  | ok y => exact hS.orderEq_refl (Formula.valid_of_valueAt hS hlen hasks h)

theorem Formula.not_alike (hS : S.Ordered valid) (hlen : x.length ≤ Index.last) (id : NodeId)
    {f : Formula α} {t : Nat} (hasks : f.AsksValid S valid policy x t) :
    EndAlike Eq (S.Negates valid) (f.valueAt S policy x t)
      ((Formula.not id f).valueAt S policy x t) := by
  simp only [Formula.valueAt]
  cases h : f.valueAt S policy x t with
  | error e => rfl
  | ok y => exact ⟨rfl, Formula.valid_of_valueAt hS hlen hasks h⟩

/-- One evaluation is at the same time and of the negation of the formula of the other one. -/
def IsNegationAt (p q : Formula α × Nat) : Prop := p.1.IsNegation q.1 ∧ p.2 = q.2

/-- The negation of a formula that takes an extreme is equal to one that takes the other extreme of
the negations. -/
theorem Formula.not_extreme_alike (hS : S.Ordered valid) (hlen : x.length ≤ Index.last) (id : NodeId)
    {e : Extremum} {f g : Formula α} {t : Nat} (hf : f.extreme? = some e)
    (hg : g.extreme? = some e.dual)
    (huses : EndAlike Eq (List.Forall₂ IsNegationAt) (f.uses policy x.spacing x.length t)
      (g.uses policy x.spacing x.length t))
    (hasks : f.AsksValid S valid policy x t) :
    EndAlike Eq OrderEq ((Formula.not id f).valueAt S policy x t) (g.valueAt S policy x t) := by
  rw [Formula.valueAt, Formula.valueAt_eq_fold hf, Formula.valueAt_eq_fold hg]
  simp only [bind_assoc, pure_bind]
  refine huses.with_results.bind fun es es' ⟨hes, huse, _⟩ => ?_
  have hvalues : EndAlike Eq (List.Forall₂ (S.Negates valid))
      (es.mapM fun p => p.1.valueAt S policy x p.2)
      (es'.mapM fun p => p.1.valueAt S policy x p.2) := by
    refine EndAlike.mapM (forall₂_imp_of_mem hes ?_)
    rintro ⟨p, u⟩ hp ⟨_, _⟩ ⟨⟨id, rfl⟩, rfl⟩
    exact Formula.not_alike hS hlen id fun signal v a h =>
      hasks signal v a (Formula.asks_of_uses hlen huse hp h)
  refine hvalues.with_results.bind fun values values' ⟨hnegates, hvisit, _⟩ => ?_
  obtain rfl : values' = values.map S.not := by
    rw [← List.forall₂_eq_eq_eq, List.forall₂_map_right_iff]
    exact hnegates.flip.imp fun _ _ h => h.1
  exact hS.not_fold e (Formula.values_ne_nil hf huse hvisit) fun v hv =>
    ((exists_of_forall₂ hnegates).1 v hv).elim fun _ h => h.2.2

/-- **Moving a negation** keeps the value and the fault. -/
theorem Formula.NegationLaw.alike (hS : S.Ordered valid) (hnot : ∀ a, S.not (S.not a) = a)
    (hlen : x.length ≤ Index.last) {f g : Formula α} (h : f.NegationLaw g) {t : Nat}
    (hasks : f.AsksValid S valid policy x t) :
    EndAlike Eq OrderEq (f.valueAt S policy x t) (g.valueAt S policy x t) := by
  have hargs {args negated : Operands α}
      (h : List.Forall₂ Formula.IsNegation args.toList negated.toList) :
      List.Forall₂ IsNegationAt (args.toList.map (·, t)) (negated.toList.map (·, t)) := by
    rw [List.forall₂_map_left_iff, List.forall₂_map_right_iff]
    exact h.imp fun _ _ h => ⟨h, rfl⟩
  have hwindow (interval : TimeInterval α) (id : NodeId) (f : Formula α) :
      EndAlike Eq (List.Forall₂ IsNegationAt)
        (do
          let w ← policy.window interval x.spacing t x.length
          return (List.range' w.first w.size).map (f, ·) : Except (Fault α) _)
        (do
          let w ← policy.window interval x.spacing t x.length
          return (List.range' w.first w.size).map (Formula.not id f, ·)) := by
    refine EndAlike.bind_same (fun _ => rfl) _ fun w _ => ?_
    refine EndAlike.pure ?_
    rw [List.forall₂_map_left_iff, List.forall₂_map_right_iff]
    exact List.forall₂_same.mpr fun u _ => ⟨⟨id, rfl⟩, rfl⟩
  cases h with
  | not i j =>
    simp only [Formula.valueAt, bind_assoc, pure_bind, hnot, bind_pure]
    exact g.alike_self hS hlen hasks
  | and i j k h => exact Formula.not_extreme_alike hS hlen i rfl rfl (hargs h) hasks
  | or i j k h => exact Formula.not_extreme_alike hS hlen i rfl rfl (hargs h) hasks
  | always i j k l interval f =>
    exact Formula.not_extreme_alike hS hlen i rfl rfl (hwindow interval l f) hasks
  | eventually i j k l interval f =>
    exact Formula.not_extreme_alike hS hlen i rfl rfl (hwindow interval l f) hasks
  | next i j k l f =>
    simp only [Formula.valueAt, bind_assoc]
    refine EndAlike.bind_same (fun _ => rfl) _ fun w hw => ?_
    obtain ⟨hlt, hfirst, -⟩ := (WindowPolicy.offsets_one_eq_ok hlen).mp hw
    exact (Formula.not l f).alike_self hS hlen fun signal u a h =>
      hasks signal u a ⟨hlt, hfirst ▸ h⟩

end Negations

/-! ## Operands -/

section Grouping

variable {Y : Type} [LE Y] {S : Semantics α Y} {valid : Y → Prop} {policy : WindowPolicy}
  {x : Trajectory α}

/-- The connective that takes the extreme of its operands. -/
def Extremum.connect : Extremum → NodeId → Operands α → Formula α
  | .min => .and
  | .max => .or

/-- Operands at one time. -/
def operandsAt (args : List (Formula α)) (t : Nat) : Set (Formula α × Nat) :=
  {p | p.1 ∈ args ∧ p.2 = t}

theorem Extremum.connect_gathers (hS : S.Ordered valid) (hlen : x.length ≤ Index.last) (e : Extremum)
    (id : NodeId) {args : Operands α} {t : Nat} (hasks : args.AsksValid S valid policy x t) :
    (e.connect id args).Gathers S policy x e t (operandsAt args.toList t) := by
  have hset : operandsAt args.toList t = {p | p ∈ args.toList.map (·, t)} := by
    ext ⟨f, u⟩
    simp [operandsAt, eq_comm]
  rw [hset]
  cases e with
  | min => exact Formula.gathers_uses hS hlen rfl rfl hasks
  | max => exact Formula.gathers_uses hS hlen rfl rfl hasks

/-- Operands in another order and number. -/
theorem Extremum.connect_alike (hS : S.Ordered valid) (hlen : x.length ≤ Index.last) (e : Extremum)
    (i j : NodeId) {args others : Operands α} (h : ∀ f, f ∈ args.toList ↔ f ∈ others.toList) {t : Nat}
    (hasks : args.AsksValid S valid policy x t) :
    EndAlike (fun _ _ => True) OrderEq ((e.connect i args).valueAt S policy x t)
      ((e.connect j others).valueAt S policy x t) := by
  have hsame : operandsAt args.toList t = operandsAt others.toList t := by
    simp only [operandsAt, h]
  have hothers : others.AsksValid S valid policy x t := by
    intro signal u a hask
    obtain ⟨f, hf, hask⟩ := others.asks_iff.mp hask
    exact hasks signal u a (args.asks_iff.mpr ⟨f, (h f).mpr hf, hask⟩)
  exact (e.connect_gathers hS hlen i hasks).alike (hsame ▸ e.connect_gathers hS hlen j hothers)

/-- An operand of the same kind is replaced by its own operands. -/
theorem Extremum.connect_flat_alike (hS : S.Ordered valid) (hlen : x.length ≤ Index.last)
    (e : Extremum) (i j k : NodeId) {args inner flat : Operands α} {before after : List (Formula α)}
    (hargs : args.toList = before ++ e.connect k inner :: after)
    (hflat : flat.toList = before ++ inner.toList ++ after) {t : Nat}
    (hasks : args.AsksValid S valid policy x t) :
    EndAlike (fun _ _ => True) OrderEq ((e.connect i args).valueAt S policy x t)
      ((e.connect j flat).valueAt S policy x t) := by
  have hmember : ∀ f ∈ args.toList, f.AsksValid S valid policy x t :=
    fun f hf signal u a hask => hasks signal u a (args.asks_iff.mpr ⟨f, hf, hask⟩)
  have hinner : inner.AsksValid S valid policy x t := by
    have := hmember (e.connect k inner) (by simp [hargs])
    cases e <;> exact this
  have hflatAsks : flat.AsksValid S valid policy x t := by
    intro signal u a hask
    obtain ⟨f, hf, hask⟩ := flat.asks_iff.mp hask
    simp only [hflat, List.mem_append] at hf
    rcases hf with (hf | hf) | hf
    · exact hmember f (by simp [hargs, hf]) signal u a hask
    · exact hinner signal u a (inner.asks_iff.mpr ⟨f, hf, hask⟩)
    · exact hmember f (by simp [hargs, hf]) signal u a hask
  have hnested := e.connect_gathers hS hlen k hinner
  have hsingle (f : Formula α) (hf : f ∈ args.toList) : f.Gathers S policy x e t {(f, t)} :=
    .single hS hlen (hmember f hf)
  refine Formula.Gathers.alike ?_ (e.connect_gathers hS hlen j hflatAsks)
  refine (e.connect_gathers hS hlen i hasks).refine hS ?_ ?_
  · rintro ⟨f, u⟩ ⟨hf, rfl⟩
    have hown := hsingle f hf
    simp only [hargs, List.mem_append, List.mem_cons] at hf
    rcases hf with hf | rfl | hf
    · exact ⟨_, by simp [operandsAt, hflat, hf], hown⟩
    · refine ⟨operandsAt inner.toList u, fun q hq => ?_, hnested⟩
      exact ⟨by simp [hflat, hq.1], hq.2⟩
    · exact ⟨_, by simp [operandsAt, hflat, hf], hown⟩
  · rintro ⟨f, u⟩ ⟨hf, rfl⟩
    have hkept (hf : f ∈ args.toList) : ∃ p ∈ operandsAt args.toList u, ∃ fs, (f, u) ∈ fs ∧
        p.1.Gathers S policy x e p.2 fs := ⟨(f, u), ⟨hf, rfl⟩, {(f, u)}, rfl, hsingle f hf⟩
    simp only [hflat, List.mem_append] at hf
    rcases hf with (hf | hf) | hf
    · exact hkept (by simp [hargs, hf])
    · exact ⟨(e.connect k inner, u), ⟨by simp [hargs], rfl⟩, operandsAt inner.toList u, ⟨hf, rfl⟩,
        hnested⟩
    · exact hkept (by simp [hargs, hf])

/-- **Rearranging operands** keeps the value, and whether there is one. -/
theorem Formula.OperandLaw.alike (hS : S.Ordered valid) (hlen : x.length ≤ Index.last)
    {f g : Formula α} (h : f.OperandLaw g) {t : Nat} (hasks : f.AsksValid S valid policy x t) :
    EndAlike (fun _ _ => True) OrderEq (f.valueAt S policy x t) (g.valueAt S policy x t) := by
  cases h with
  | and i j h => exact Extremum.min.connect_alike hS hlen i j h hasks
  | or i j h => exact Extremum.max.connect_alike hS hlen i j h hasks
  | and_nested i j k hargs hflat =>
    exact Extremum.min.connect_flat_alike hS hlen i j k hargs hflat hasks
  | or_nested i j k hargs hflat =>
    exact Extremum.max.connect_flat_alike hS hlen i j k hargs hflat hasks

end Grouping

/-! ## Both readings -/

/-- **The equational laws of the connectives.** If no predicate value that is asked for is NaN, moving
a negation leaves the score, up to the sign of zero, the verdict, and the fault as they are;
rearranging operands leaves the score and the verdict, and whether there is a fault. -/
theorem connective_laws [InvolutiveScalar α] (policy : WindowPolicy) (x : Trajectory α) (anchor : Nat)
    (hlen : x.length ≤ Index.last) (f g : Formula α) (hnumber : f.AsksNumbers policy x anchor) :
    (f.NegationLaw g → f.AgreeAt Eq policy x anchor g) ∧
    (f.OperandLaw g → f.AgreeAt (fun _ _ => True) policy x anchor g) := by
  have hquantitative := hnumber.quantitative
  have hqualitative : f.AsksValid .qualitative (fun _ => True) policy x anchor :=
    f.asksValid_qualitative
  constructor
  · intro h
    exact .of_valueAt (fun _ => rfl)
      (fun _ => h.alike quantitative_ordered InvolutiveScalar.neg_neg hlen hquantitative)
      (fun _ => h.alike qualitative_ordered Bool.not_not hlen hqualitative)
  · intro h
    exact .of_valueAt (fun _ => trivial)
      (fun _ => h.alike quantitative_ordered hlen hquantitative)
      (fun _ => h.alike qualitative_ordered hlen hqualitative)

/-- `x > 0` and `x > 2`. -/
def twoThresholds : Operands Exact :=
  .pair (.predicate ⟨0⟩ (.greaterThan "x" (.fin 0))) (.predicate ⟨1⟩ (.greaterThan "x" (.fin 2)))

/-- Not both hold, or one of them does not; and together with the first of them they hold if all three
operands do. -/
theorem connective_laws_of_twoThresholds :
    (Formula.not ⟨3⟩ (.and ⟨2⟩ twoThresholds)).AgreeAt Eq .strict fourSamples 1
        (.or ⟨6⟩ (.pair (.not ⟨4⟩ (.predicate ⟨0⟩ (.greaterThan "x" (.fin 0))))
          (.not ⟨5⟩ (.predicate ⟨1⟩ (.greaterThan "x" (.fin 2)))))) ∧
      (Formula.and ⟨3⟩ (.pair (.predicate ⟨0⟩ (.greaterThan "x" (.fin 0)))
          (.and ⟨2⟩ twoThresholds))).AgreeAt (fun _ _ => True) .strict fourSamples 1
        (.and ⟨4⟩ (.cons (.predicate ⟨0⟩ (.greaterThan "x" (.fin 0))) twoThresholds)) := by
  have hnumber (c : Rat) (signal : Signal Exact) (u : Nat) (a : Exact)
      (hasks : signal = .greaterThan "x" (.fin c) ∧ u = 1)
      (ha : fourSamples.signalValue signal u = .ok a) : ¬ Scalar.IsNaN a := by
    rw [hasks.1] at ha
    exact fourSamples_value_number ha
  constructor
  · refine (connective_laws .strict fourSamples 1 (by decide) _ _ ?_).1
      (.and _ _ _ (.cons ⟨_, rfl⟩ (.cons ⟨_, rfl⟩ .nil)))
    intro signal u a hasks
    exact hasks.elim (hnumber 0 signal u a) (hnumber 2 signal u a)
  · refine (connective_laws .strict fourSamples 1 (by decide) _ _ ?_).2
      (.and_nested _ _ ⟨2⟩
        (show _ = [Formula.predicate ⟨0⟩ (.greaterThan "x" (.fin 0))] ++ .and ⟨2⟩ twoThresholds :: []
          from rfl) rfl)
    intro signal u a hasks
    rcases hasks with hasks | hasks | hasks
    · exact hnumber 0 signal u a hasks
    · exact hnumber 0 signal u a hasks
    · exact hnumber 2 signal u a hasks

/-- A sample of each sign of zero. -/
def bothZeros : Trajectory Float where
  value s := .ok (if s.name = "x" then 0 else -0)
  spacing := 1
  length := 1

/-- The order of the operands decides the sign of a zero. -/
example :
    let positive (name : String) : Formula Float := .predicate ⟨0⟩ (.greaterThan name 0)
    (Formula.and ⟨1⟩ (.pair (positive "x") (positive "y"))).robustness .strict bothZeros 0 = .ok 0 ∧
      (Formula.and ⟨1⟩ (.pair (positive "y") (positive "x"))).robustness .strict bothZeros 0 =
        .ok (-0) := by
  decide +kernel

end SignalTemporalLogic
