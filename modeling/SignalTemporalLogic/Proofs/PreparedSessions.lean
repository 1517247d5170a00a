import SignalTemporalLogic.Proofs.WarmStarts
import SignalTemporalLogic.Proofs.Completeness
import SignalTemporalLogic.Proofs.Tables

/-!
Encodings from the tree of an evaluation in new sessions. The model has the variables of the samples
and nothing else, and the ranges contain the samples. Then the start values are the scores, and they
can be completed to a solution.
-/

namespace SignalTemporalLogic

open RunLogic

/-! ## Big-M constants of bounded groups -/

/-- Both ends are finite. -/
def Bounds.Finite (b : Bounds Exact) : Prop := Scalar.IsFinite b.lower ∧ Scalar.IsFinite b.upper

/-- The least and the greatest ends of finite ranges are finite, if each range contains a value. -/
theorem Bounds.finite_folds {bounds : List (Bounds Exact)} {values : List Rat} (hne : bounds ≠ [])
    (h : List.Forall₂ (fun b q => b.Contains q ∧ b.Finite) bounds values) :
    (minOf bounds).Finite ∧ (maxOf bounds).Finite := by
  have hrange := (exists_of_forall₂ h).1
  obtain ⟨hll, hlu, hgl, hgu⟩ := Extremum.folds_of_ordered hne
    fun b hb => (hrange b hb).elim fun _ h => h.2.1.lower_le_upper
  have hlower : ∀ a ∈ bounds.map Bounds.lower, Scalar.IsFinite a := by
    intro a ha
    obtain ⟨b, hb, rfl⟩ := List.mem_map.mp ha
    exact (hrange b hb).elim fun _ h => h.2.2.1
  have hupper : ∀ a ∈ bounds.map Bounds.upper, Scalar.IsFinite a := by
    intro a ha
    obtain ⟨b, hb, rfl⟩ := List.mem_map.mp ha
    exact (hrange b hb).elim fun _ h => h.2.2.2
  exact ⟨⟨hlower _ hll.1, hupper _ hlu.1⟩, ⟨hlower _ hgl.1, hupper _ hgu.1⟩⟩

namespace BigM

theorem finite_of_resolve {bounds : List (Bounds Exact)} {m : Exact}
    (h : fromBounds.resolve bounds = .ok m) : Scalar.IsFinite m := by
  simp only [resolve] at h
  split at h
  · next hspread => exact Except.ok.inj h ▸ hspread
  · cases h

theorem serves_constant {m limit : Rat} (h : 2 * limit ≤ m) :
    (constant (.fin m)).Serves (fun b q => b.Contains q ∧ |q| ≤ limit) False where
  toSuits := suits_constant h
  finite hresolve := Except.ok.inj hresolve ▸ Exact.isFinite_fin
  resolves := .inr fun _ _ _ _ => ⟨_, rfl⟩

theorem serves_fromBounds : fromBounds.Serves Bounds.Contains True where
  toSuits := suits_fromBounds
  finite := finite_of_resolve
  resolves := .inl trivial

/-- Where all ranges have finite ends, their spread is a constant for every group. -/
theorem serves_fromBounds_finite :
    fromBounds.Serves (fun b q => b.Contains q ∧ b.Finite) False where
  contains h := h.1
  negate h := ⟨h.1.negate, StoredModel.isFinite_neg.mpr h.2.2, StoredModel.isFinite_neg.mpr h.2.1⟩
  extreme {e bounds values r} h hr := by
    have hne : bounds ≠ [] := by
      rintro rfl
      cases h
      cases hr.1
    obtain ⟨hmin, hmax⟩ := Bounds.finite_folds hne h
    refine ⟨Extremum.boundsOf_contains (h.imp fun _ _ h => h.1) hr, ?_⟩
    cases e with
    | min => exact hmin
    | max => exact hmax
  spans hresolve hm h := suits_fromBounds.spans hresolve hm (h.imp fun _ _ h => h.1)
  finite := finite_of_resolve
  resolves := by
    refine .inr fun bounds values hne h => ?_
    obtain ⟨⟨hlower, -⟩, -, hupper⟩ := Bounds.finite_folds hne h
    obtain ⟨l, hl⟩ := Exact.isFinite_iff.mp hlower
    obtain ⟨u, hu⟩ := Exact.isFinite_iff.mp hupper
    refine ⟨.fin (u - l), ?_⟩
    have hspread : Scalar.greatest (bounds.map Bounds.upper) -
        Scalar.least (bounds.map Bounds.lower) = .fin (u - l) :=
      (congrArg₂ HSub.hSub hu hl).trans Exact.fin_sub_fin
    simp only [resolve, hspread, Exact.isFinite_fin, if_true]

end BigM

/-! ## Prepared sessions -/

/-- A new session for a trajectory with rational samples: variables stand for the samples, and their
ranges contain them. There is nothing else in the model, and nothing is encoded. -/
structure Session.Prepared (s : StoredSession) (policy : WindowPolicy) (x : Trajectory Exact) :
    Prop where
  serves : s.context.Serves policy x
  memo_eq : s.context.memo = ∅
  limit_eq : s.solver.variableLimit = none
  constraints_eq : s.solver.constraints = #[]
  known (sample : Sample) (v : VarId) : s.context.bindings[sample]? = some v →
    v.index < s.solver.vars.size
  alone (sample sample' : Sample) (v : VarId) : s.context.bindings[sample]? = some v →
    s.context.bindings[sample']? = some v → sample = sample'
  stands (v : VarId) (var : Variable Exact) : s.solver.lookup? v = some var →
    var.kind = .continuous ∧ var.start = none ∧ ∃ (sample : Sample) (q : Rat),
      s.context.bindings[sample]? = some v ∧ x.value sample = .ok (.fin q) ∧ var.bounds.Contains q

namespace Session.Prepared

variable {s : StoredSession} {policy : WindowPolicy} {x : Trajectory Exact}

/-- Every variable has the value of its sample. -/
theorem exists_value (h : s.Prepared policy x) : ∃ p : Assignment, ∀ (sample : Sample) (v : VarId),
    s.context.bindings[sample]? = some v → x.value sample = .ok (.fin (p v)) := by
  have hvalue (v : VarId) : ∃ q : Rat, ∀ sample : Sample, s.context.bindings[sample]? = some v →
      x.value sample = .ok (.fin q) := by
    by_cases hv : v.index < s.solver.vars.size
    · obtain ⟨-, -, sample, q, hbound, hsample, -⟩ := h.stands v _ (Array.getElem?_eq_getElem hv)
      exact ⟨q, fun other hother => h.alone sample other v hbound hother ▸ hsample⟩
    · exact ⟨0, fun sample hbound => absurd (h.known sample v hbound) hv⟩
  choose p hp using hvalue
  exact ⟨p, fun sample v => hp v sample⟩

/-- A prepared session is a warm one. -/
theorem exists_warm (h : s.Prepared policy x) (lib : FormulaLibrary Exact)
    (R : Bounds Exact → Rat → Prop) :
    ∃ w : WarmSession lib policy x s.context.settings.bigM R, w.session = s := by
  obtain ⟨p, hp⟩ := h.exists_value
  have hallows : ∀ i (shape : Shape), s.solver.shapes[i]? = some shape → shape.Allows (p ⟨i⟩) := by
    intro i shape hi
    simp only [StoredModel.shapes, List.getElem?_map, Array.getElem?_toList] at hi
    obtain ⟨var, hvar, rfl⟩ := Option.map_eq_some_iff.mp hi
    obtain ⟨hkind, -, sample, q, hbound, hsample, hcontains⟩ := h.stands ⟨i⟩ var hvar
    obtain rfl := Exact.fin.inj (Except.ok.inj (hsample.symm.trans (hp sample ⟨i⟩ hbound)))
    refine ⟨hcontains, fun hbinary => ?_⟩
    cases hkind.symm.trans hbinary
  refine ⟨{
    session := s
    value := p
    serves := h.serves
    bigM_eq := rfl
    limit_eq := h.limit_eq
    bound := fun sample v hbound => ⟨h.known sample v hbound, hp sample v hbound⟩
    primed := ⟨?_, StoredModel.satisfies_iff.mpr ⟨hallows, ?_⟩, ?_⟩
    remembered := ?_
    accounted := ?_ }, rfl⟩
  · simp [h.constraints_eq]
  · simp [h.constraints_eq]
  · intro v var a hvar ha
    rw [(h.stands v var hvar).2.1] at ha
    cases ha
  · intro site entry hentry
    simp [h.memo_eq] at hentry
  · intro v var hvar _
    obtain ⟨-, -, sample, -, hbound, -⟩ := h.stands v var hvar
    exact .inl ⟨sample, hbound⟩

end Session.Prepared

/-! ## What warm sessions have in common -/

/-- The variable is that of the formula at `t`. -/
def Session.StandsFor (s : StoredSession) (v : VarId) (f : Formula Exact) (t : Nat) : Prop :=
  ∃ y, s.context.encoded? f t = some y ∧ y.var = v

namespace WarmSession

variable {lib : FormulaLibrary Exact} {policy : WindowPolicy} {x : Trajectory Exact}
  {bigM : BigM Exact} {R : Bounds Exact → Rat → Prop}

/-- A variable of a node starts from the robustness of all formulas that it stands for. -/
theorem start_eq_robustness (w : WarmSession lib policy x bigM R) {v : VarId}
    {var : Variable Exact} (hvar : w.model.lookup? v = some var) {a : Exact}
    (hstart : var.start = some a) {f : Formula Exact} {t : Nat} (h : w.session.StandsFor v f t) :
    f ∈ lib.formulas → f.robustness policy x t = .ok a := by
  intro hf
  obtain ⟨y, hy, rfl⟩ := h
  obtain ⟨entry, hentry, rfl⟩ := Option.map_eq_some_iff.mp hy
  obtain ⟨hlib, hid, tree, q, htree, hq, hcarries⟩ := w.remembered _ entry hentry
  obtain rfl := lib.unique entry.formula hlib f hf hid
  rw [w.primed.starts _ var a hvar hstart, hcarries.value_eq, ← hq]
  exact htree.score_eq

/-- A continuous variable that is not bound, and not that of an operand within an until, stands for
a formula. -/
theorem exists_standsFor (w : WarmSession lib policy x bigM R) {v : VarId} {var : Variable Exact}
    (hvar : w.model.lookup? v = some var) (hkind : var.kind = .continuous)
    (hfree : ∀ sample : Sample, w.context.bindings[sample]? ≠ some v)
    (hname : ¬ UntilOperand w.context.settings.labelStem var.name) :
    (∃ a, var.start = some a) ∧ ∃ f ∈ lib.formulas, ∃ t, w.session.StandsFor v f t := by
  rcases w.accounted v var hvar hkind with ⟨sample, hsample⟩ | hoperand | ⟨hstart, site, entry, h⟩
  · exact absurd hsample (hfree sample)
  · exact absurd hoperand hname
  · obtain ⟨hentry, hv⟩ := h
    obtain ⟨hlib, hid, -⟩ := w.remembered site entry hentry
    have hsite : entry.formula.site site.index = site := congrArg (Site.mk · site.index) hid
    refine ⟨hstart, entry.formula, hlib, site.index, entry.encoded, ?_, hv⟩
    rw [EncodingContext.encoded?, hsite, hentry, Option.map_some]

/-- The start values can be completed to a solution that has the samples. -/
theorem exists_solution (w : WarmSession lib policy x bigM R) :
    ∃ values : Array Rat, (w.model.withTolerance (.fin 0)).check (values.map .fin) = true ∧
      (∀ (sample : Sample) (v : VarId), w.context.bindings[sample]? = some v →
        ∃ q, x.value sample = .ok (.fin q) ∧ values[v.index]? = some q) ∧
      ∀ (v : VarId) (var : Variable Exact) (a : Exact), w.model.lookup? v = some var →
        var.start = some a → ∃ q, a = .fin q ∧ values[v.index]? = some q := by
  have hsatisfies : (w.model.withTolerance (.fin 0)).Satisfies w.value :=
    ⟨w.primed.satisfies.allows, w.primed.satisfies.holds⟩
  have hvalue : ∀ v : VarId, v.index < w.model.vars.size →
      (Array.ofFn fun i : Fin w.model.vars.size => w.value ⟨i⟩)[v.index]? = some (w.value v) := by
    intro v hv
    simp [hv]
  refine ⟨_, @StoredModel.check_ofFn (w.model.withTolerance (.fin 0)) rfl w.primed.normal _
    hsatisfies, fun sample v hbound => ?_, fun v var a hvar ha => ?_⟩
  · obtain ⟨hknown, hsample⟩ := w.bound sample v hbound
    exact ⟨_, hsample, hvalue v hknown⟩
  · exact ⟨_, w.primed.starts v var a hvar ha, hvalue v (StoredModel.lt_of_lookup? hvar)⟩

end WarmSession

/-! ## Consistency -/

section Consistency

variable {lib : FormulaLibrary Exact} {policy : WindowPolicy} {x : Trajectory Exact}
  {s s' : StoredSession} {f : Formula Exact} {anchor : Nat} {tree : ScoreTree Exact}
  {result : Except (Fault Exact) VarId}

/-- An encoding from the tree of an evaluation leaves a warm session behind. -/
theorem Session.Prepared.exists_warm_after (hs : s.Prepared policy x)
    (hlen : x.length ≤ Index.last) {R : Bounds Exact → Rat → Prop} {fails : Prop}
    (hserves : s.context.settings.bigM.Serves R fails) (hf : f ∈ lib.formulas)
    (hasks : f.AsksWithin R policy x anchor) (htree : f.robustnessTree policy x anchor = .ok tree)
    (hrun : f.encodeAt StoredModel.solver anchor (some tree) s = (result, s')) :
    (¬ fails → ∃ v, result = .ok v) ∧
      ∃ w : WarmSession lib policy x s.context.settings.bigM R, w.session = s' ∧
        w.context.bindings = s.context.bindings ∧ w.context.settings = s.context.settings := by
  obtain ⟨w, hw⟩ := hs.exists_warm lib R
  have hleads := w.leads_encodeAt_warm hserves hlen (Nat.lt_succ_self (sizeOf f)) hf hasks htree
  have hrun' : f.encodeAt StoredModel.solver anchor (some tree) w.session = (result, s') := by
    rw [hw]
    exact hrun
  constructor
  · intro hfails
    obtain ⟨v, hv⟩ := hleads.exists_ok hfails
    exact ⟨v, (congrArg Prod.fst hrun').symm.trans hv⟩
  · obtain ⟨w', hw', htidy⟩ := hleads.exists_later
    refine ⟨w', hw'.trans (congrArg Prod.snd hrun'), ?_, ?_⟩
    · exact htidy.bindings_eq.trans (congrArg (fun s => s.context.bindings) hw)
    · exact htidy.settings_eq.trans (congrArg (fun s => s.context.settings) hw)

/-- All continuous variables that a run has added, except those for operands within an until, stand
for formulas and start from the robustness of each of them. -/
def Session.StartsFromRobustness (lib : FormulaLibrary Exact) (policy : WindowPolicy)
    (x : Trajectory Exact) (s s' : StoredSession) : Prop :=
  ∀ (v : VarId) (var : Variable Exact), s'.solver.lookup? v = some var →
    s.solver.vars.size ≤ v.index → var.kind = .continuous →
    ¬ UntilOperand s.context.settings.labelStem var.name →
      (∃ g ∈ lib.formulas, ∃ t, s'.StandsFor v g t) ∧
        ∀ g ∈ lib.formulas, ∀ t, s'.StandsFor v g t →
          ∃ r, g.robustness policy x t = .ok r ∧ var.start = some r

/-- The model has a solution with the samples and with all start values. -/
def Session.StartsFromSolution (x : Trajectory Exact) (s s' : StoredSession) : Prop :=
  ∃ values : Array Rat, (s'.solver.withTolerance (.fin 0)).check (values.map .fin) = true ∧
    (∀ (sample : Sample) (v : VarId), s.context.bindings[sample]? = some v →
      ∃ q, x.value sample = .ok (.fin q) ∧ values[v.index]? = some q) ∧
    ∀ (v : VarId) (var : Variable Exact) (a : Exact), s'.solver.lookup? v = some var →
      var.start = some a → ∃ q, a = .fin q ∧ values[v.index]? = some q

theorem WarmSession.starts {bigM : BigM Exact} {R : Bounds Exact → Rat → Prop}
    (hs : s.Prepared policy x) (w : WarmSession lib policy x bigM R) (hw : w.session = s')
    (hbindings : w.context.bindings = s.context.bindings)
    (hsettings : w.context.settings = s.context.settings) :
    s.StartsFromRobustness lib policy x s' ∧ s.StartsFromSolution x s' := by
  subst hw
  constructor
  · intro v var hvar hnew hkind hname
    have hfree : ∀ sample : Sample, w.context.bindings[sample]? ≠ some v := by
      intro sample hsample
      rw [hbindings] at hsample
      exact absurd (hs.known sample v hsample) (Nat.not_lt.mpr hnew)
    obtain ⟨⟨a, ha⟩, hstands⟩ :=
      w.exists_standsFor hvar hkind hfree (hsettings.symm ▸ hname)
    exact ⟨hstands, fun g hg t h => ⟨a, w.start_eq_robustness hvar ha h hg, ha⟩⟩
  · obtain ⟨values, hcheck, hsamples, hstarts⟩ := w.exists_solution
    exact ⟨values, hcheck, fun sample v h => hsamples sample v (hbindings.symm ▸ h), hstarts⟩

/-- **Warm starts are consistent.** In a session with a variable for each sample of a trajectory and
nothing else, let a formula over affine signals be encoded from the tree of its evaluation. The
values of the predicates that are evaluated lie in the ranges of their signals, and big-M constants
come from bounds, or the constant is at least twice as large as all those values. Then all variables
for formulas start from the robustness of these formulas, and the model has a solution with the
samples and with all start values. The encoding only fails for want of a finite big-M constant. -/
theorem warm_starts_consistent (hs : s.Prepared policy x) (hlen : x.length ≤ Index.last)
    (hf : f ∈ lib.formulas)
    (haffine : ∀ source t, f.Asks policy x anchor source t → source.form.Rational)
    (hranges : ∀ source t q, f.Asks policy x anchor source t →
      x.signalValue source t = .ok (.fin q) → source.bounds.Contains q)
    (hbigM : s.context.settings.bigM = .fromBounds ∨ ∃ m limit,
      s.context.settings.bigM = .constant (.fin m) ∧ 2 * limit ≤ m ∧
      ∀ source t q, f.Asks policy x anchor source t →
        x.signalValue source t = .ok (.fin q) → |q| ≤ limit)
    (htree : f.robustnessTree policy x anchor = .ok tree)
    (hrun : f.encodeAt StoredModel.solver anchor (some tree) s = (result, s')) :
    s.StartsFromRobustness lib policy x s' ∧ s.StartsFromSolution x s' ∧
      ((∃ m, s.context.settings.bigM = .constant m) ∨
        (∀ source t, f.Asks policy x anchor source t → source.bounds.Finite) →
          ∃ v, result = .ok v) := by
  have hstarts : ∀ {R : Bounds Exact → Rat → Prop} {fails : Prop},
      s.context.settings.bigM.Serves R fails →
      (∀ source t q, f.Asks policy x anchor source t →
        x.signalValue source t = .ok (.fin q) → R source.bounds q) →
      s.StartsFromRobustness lib policy x s' ∧ s.StartsFromSolution x s' ∧
        (¬ fails → ∃ v, result = .ok v) := by
    intro R fails hserves hvalues
    have hasks : f.AsksWithin R policy x anchor := fun source t h =>
      ⟨haffine source t h, fun q => hvalues source t q h⟩
    obtain ⟨hreturns, w, hw, hbindings, hsettings⟩ :=
      hs.exists_warm_after hlen hserves hf hasks htree hrun
    obtain ⟨hrobustness, hsolution⟩ := w.starts hs hw hbindings hsettings
    exact ⟨hrobustness, hsolution, hreturns⟩
  rcases hbigM with hbigM | ⟨m, limit, hbigM, hle, hlimit⟩
  · rw [hbigM] at hstarts ⊢
    by_cases hfinite : ∀ source t, f.Asks policy x anchor source t → source.bounds.Finite
    · obtain ⟨hrobustness, hsolution, hreturns⟩ := hstarts BigM.serves_fromBounds_finite
        fun source t q h hq => ⟨hranges source t q h hq, hfinite source t h⟩
      exact ⟨hrobustness, hsolution, fun _ => hreturns id⟩
    · obtain ⟨hrobustness, hsolution, -⟩ := hstarts BigM.serves_fromBounds hranges
      refine ⟨hrobustness, hsolution, fun h => ?_⟩
      rcases h with ⟨m, hm⟩ | hbounded
      · cases hm
      · exact absurd hbounded hfinite
  · rw [hbigM] at hstarts
    obtain ⟨hrobustness, hsolution, hreturns⟩ := hstarts (BigM.serves_constant hle)
      fun source t q h hq => ⟨hranges source t q h hq, hlimit source t q h hq⟩
    exact ⟨hrobustness, hsolution, fun _ => hreturns id⟩

end Consistency

/-- A table of two samples. -/
def twoSamples : SampledTrajectory Exact :=
  ⟨.fin 1, some 2, (∅ : Std.TreeMap String (Array Exact)).insert "x" #[.fin 3, .fin (-2)]⟩

theorem twoSamples_built : twoSamples.Built := by
  have hadd : (SampledTrajectory.empty (.fin 1)).withSignal? "x" #[.fin 3, .fin (-2)] =
      .ok twoSamples := SampledTrajectory.withSignal?_eq_ok.mpr
    ⟨by decide, by simp [SampledTrajectory.empty], rfl⟩
  exact .withSignal (.empty (.fin 1)) hadd

/-- A session with a variable between -10 and 10 for each sample of the table. -/
def twoSampleSession : StoredSession where
  solver :=
    ⟨#[⟨"x[0]", .continuous, bounded.bounds, none⟩, ⟨"x[1]", .continuous, bounded.bounds, none⟩],
      #[], none, .fin 0, 100⟩
  context := (sometimeContext.bind ⟨"x", 0⟩ ⟨0⟩).bind ⟨"x", 1⟩ ⟨1⟩

theorem twoSampleSession_bindings {sample : Sample} {v : VarId} :
    twoSampleSession.context.bindings[sample]? = some v ↔
      (sample = ⟨"x", 0⟩ ∧ v = ⟨0⟩) ∨ (sample = ⟨"x", 1⟩ ∧ v = ⟨1⟩) := by
  obtain ⟨name, i⟩ := sample
  simp only [twoSampleSession, sometimeContext, EncodingContext.getElem?_bind,
    Std.TreeMap.getElem?_emptyc, Sample.mk.injEq]
  grind

theorem twoSamples_value {sample : Sample} : (∃ a, twoSamples.value sample = .ok a) ↔
    sample = ⟨"x", 0⟩ ∨ sample = ⟨"x", 1⟩ := by
  obtain ⟨name, i⟩ := sample
  have hcolumn : (∃ column, twoSamples.column? name = some column) ↔ name = "x" := by
    simp [twoSamples, SampledTrajectory.column?, SampledTrajectory.column?_withColumn, eq_comm]
  rw [twoSamples_built.value_iff, hcolumn, Sample.mk.injEq, Sample.mk.injEq, ← and_or_left]
  refine and_congr_right fun _ => ?_
  show i < 2 ↔ _
  omega

theorem twoSampleSession_prepared :
    twoSampleSession.Prepared .strict twoSamples.toTrajectory where
  serves := {
    horizon_eq := rfl
    spacing_eq := rfl
    policy_eq := rfl
    inside := fun sample a h => ((twoSamples_built.value_iff sample).mp ⟨a, h⟩).2
    bound_iff := fun sample => by
      refine Iff.trans ?_ twoSamples_value.symm
      simp [twoSampleSession_bindings, exists_or] }
  memo_eq := rfl
  limit_eq := rfl
  constraints_eq := rfl
  known sample v h := by
    rcases twoSampleSession_bindings.mp h with ⟨-, rfl⟩ | ⟨-, rfl⟩ <;> decide
  alone sample sample' v h h' := by
    rcases twoSampleSession_bindings.mp h with ⟨rfl, rfl⟩ | ⟨rfl, rfl⟩ <;>
      rcases twoSampleSession_bindings.mp h' with ⟨rfl, h⟩ | ⟨rfl, h⟩ <;>
      first | rfl | cases h
  stands v var h := by
    have hv : v.index < 2 := StoredModel.lt_of_lookup? h
    obtain ⟨i⟩ := v
    replace hv : i = 0 ∨ i = 1 := by simp only at hv; omega
    rcases hv with rfl | rfl
    · cases h
      exact ⟨rfl, rfl, ⟨"x", 0⟩, 3, twoSampleSession_bindings.mpr (.inl ⟨rfl, rfl⟩),
        by decide +kernel, dropped_contains ⟨"x", 0⟩⟩
    · cases h
      exact ⟨rfl, rfl, ⟨"x", 1⟩, -2, twoSampleSession_bindings.mpr (.inr ⟨rfl, rfl⟩),
        by decide +kernel, dropped_contains ⟨"x", 1⟩⟩

def twoSampleTree : ScoreTree Exact := ⟨.fin 3, some 0, [.leaf (.fin 3), .leaf (.fin (-2))]⟩

theorem robustnessTree_twoSamples :
    sometime.robustnessTree .strict twoSamples.toTrajectory 0 = .ok twoSampleTree := by
  have hrun : ((sometime.robustnessTree .strict twoSamples.toTrajectory 0).toOption.map fun tree =>
      (tree.score, tree.chosen, tree.children.map fun child =>
        (child.score, child.chosen, child.children.length))) =
      some (.fin 3, some 0, [(.fin 3, none, 0), (.fin (-2), none, 0)]) := by decide +kernel
  cases htree : sometime.robustnessTree .strict twoSamples.toTrajectory 0 with
  | error e => rw [htree] at hrun; cases hrun
  | ok tree =>
    obtain ⟨score, chosen, children⟩ := tree
    rw [htree] at hrun
    injection hrun with hrun
    injection hrun with hscore hrun
    injection hrun with hchosen hchildren
    match children, hchildren with
    | [⟨_, _, []⟩, ⟨_, _, []⟩], h =>
      cases hscore
      cases hchosen
      cases h
      rfl

/-- The session after `x > 0` at one of the two samples is encoded from its tree. -/
def twoSampleStart : StoredSession :=
  (sometime.encodeAt StoredModel.solver 0 (some twoSampleTree) twoSampleSession).2

/-- The maximum is 3, from the first sample, so that the first selector is the one that is zero. -/
theorem warm_starts_consistent_of_twoSamples :
    (∃ r, sometime.robustness .strict twoSamples.toTrajectory 0 = .ok r ∧
      (twoSampleStart.solver.lookup? ⟨4⟩).bind Variable.start = some r) ∧
    ∃ values : Array Rat,
      (twoSampleStart.solver.withTolerance (.fin 0)).check (values.map .fin) = true ∧
        values[0]? = some 3 ∧ values[1]? = some (-2 : Rat) ∧ values[4]? = some 3 ∧
        values[5]? = some 0 ∧ values[6]? = some 1 := by
  have hasks {source : Signal Exact} {t : Nat}
      (h : sometime.Asks .strict twoSamples.toTrajectory 0 source t) : source = bounded :=
    h.elim fun _ ⟨_, _, _, hsource, _⟩ => hsource
  obtain ⟨hrobustness, ⟨values, hcheck, hsamples, hstarts⟩, -⟩ :=
    @warm_starts_consistent sometimeLibrary .strict twoSamples.toTrajectory twoSampleSession
      twoSampleStart sometime 0 twoSampleTree _ twoSampleSession_prepared (by decide) (.inl rfl)
      (fun source t h => by
        obtain rfl := hasks h
        exact ⟨[(.fin 1, ⟨"x", 0⟩)], .fin 0, by decide +kernel, by decide +kernel,
          by decide +kernel⟩)
      (fun source t q h hq => by
        obtain rfl := hasks h
        have ht : t < 2 := Trajectory.lt_of_signalValue hq
        have hvalue : ∀ u < 2, twoSamples.toTrajectory.signalValue bounded u =
            .ok (.fin (dropped ⟨"x", u⟩)) := by decide +kernel
        obtain rfl := Exact.fin.inj (Except.ok.inj ((hvalue t ht).symm.trans hq))
        exact dropped_contains _)
      (.inl rfl) robustnessTree_twoSamples rfl
  constructor
  · have hroot : (twoSampleStart.solver.lookup? ⟨4⟩).map (fun var => (var.name, var.kind)) =
        some (EncodingContext.labelText "stl" .eventually 2 0, .continuous) := by decide +kernel
    obtain ⟨var, hvar, hroot⟩ := Option.map_eq_some_iff.mp hroot
    obtain ⟨hname, hkind⟩ := Prod.mk.inj hroot
    have hstands : (twoSampleStart.context.encoded? sometime 0).map Encoded.var = some ⟨4⟩ := by
      decide +kernel
    obtain ⟨r, hr, hstart⟩ := (hrobustness ⟨4⟩ var hvar (by decide) hkind (fun h => by
      have hrole := untilOperand_labelText_iff.mp (hname ▸ h)
      cases hrole <;> contradiction)).2 sometime (.inl rfl) 0 (Option.map_eq_some_iff.mp hstands)
    exact ⟨r, hr, by rw [hvar, Option.bind_some, hstart]⟩
  · have hsample (i : Nat) (q : Rat)
        (hbound : twoSampleSession.context.bindings[(⟨"x", i⟩ : Sample)]? = some ⟨i⟩)
        (h : twoSamples.value ⟨"x", i⟩ = .ok (.fin q)) : values[i]? = some q := by
      obtain ⟨q', hq', hvalue⟩ := hsamples _ _ hbound
      obtain rfl := Exact.fin.inj (Except.ok.inj (h.symm.trans hq'))
      exact hvalue
    have hvalue (i : Nat) (q : Rat) (h : (twoSampleStart.solver.lookup? ⟨i⟩).bind Variable.start =
        some (.fin q)) : values[i]? = some q := by
      obtain ⟨var, hvar, hstart⟩ := Option.bind_eq_some_iff.mp h
      obtain ⟨q', hq', hvalue⟩ := hstarts ⟨i⟩ var _ hvar hstart
      obtain rfl := Exact.fin.inj hq'
      exact hvalue
    exact ⟨values, hcheck, hsample 0 3 (by decide +kernel) (by decide +kernel),
      hsample 1 (-2) (by decide +kernel) (by decide +kernel), hvalue 4 3 (by decide +kernel),
      hvalue 5 0 (by decide +kernel), hvalue 6 1 (by decide +kernel)⟩

end SignalTemporalLogic
