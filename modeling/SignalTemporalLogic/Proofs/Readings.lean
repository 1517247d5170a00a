import SignalTemporalLogic.Proofs.Plans
import SignalTemporalLogic.Proofs.Sessions

/-!
What an assignment of a model says about a trajectory. Where an assignment gives every bound variable
the value of its sample and satisfies the model, every variable that stands for a formula has the
robustness of the formula.
-/

namespace SignalTemporalLogic

/-- The assignment gives every bound variable the value of its sample. -/
structure EncodingContext.Follows (ctx : EncodingContext Exact VarId) (x : Trajectory Exact)
    (p : Assignment) : Prop where
  length_eq : x.length = ctx.settings.horizon
  spacing_eq : x.spacing = ctx.settings.spacing
  value_eq : ∀ (sample : Sample) (v : VarId), ctx.bindings[sample]? = some v →
    sample.index < ctx.settings.horizon → x.value sample = .ok (.fin (p v))

/-! ## Signals -/

/-- The value of a signal as a rational, zero where it has none. -/
def Trajectory.reading (x : Trajectory Exact) (source : Signal Exact) (t : Nat) : Rat :=
  match x.signalValue source t with
  | .ok a => a.toRat
  | .error _ => 0

section Signals

theorem mapM_bind_eq_ok {ε β γ δ : Type} {first : β → Except ε γ} {next : γ → Except ε δ}
    {value : γ → δ} {bs : List β} {cs : List γ} (h : bs.mapM first = .ok cs)
    (hnext : ∀ c ∈ cs, next c = .ok (value c)) :
    bs.mapM (fun b => first b >>= next) = .ok (cs.map value) := by
  induction bs generalizing cs with
  | nil =>
    obtain rfl := Except.pure_eq_ok.mp h
    rfl
  | cons b rest ih =>
    rw [List.mapM_cons] at h
    obtain ⟨c, hc, h⟩ := Except.bind_eq_ok.mp h
    obtain ⟨others, hothers, h⟩ := Except.bind_eq_ok.mp h
    obtain rfl := Except.pure_eq_ok.mp h
    have hrest := ih hothers fun c hc => hnext c (List.mem_cons_of_mem _ hc)
    rw [List.mapM_cons, hc, hrest]
    simp [hnext c (by simp), bind, Except.bind, pure, Except.pure]

variable {ctx : EncodingContext Exact VarId} {x : Trajectory Exact} {p : Assignment}

theorem foldl_resolved {inputs : List (Exact × Sample)} {terms : List (Exact × VarId)}
    {value : Sample → Rat} (h : List.Forall₂ ctx.Resolves inputs terms)
    (hfinite : ∀ t ∈ terms, Scalar.IsFinite t.1)
    (hvalue : ∀ sample v, ctx.bindings[sample]? = some v → value sample = p v) (first : Rat) :
    inputs.foldl (fun sum input => sum + input.1 * .fin (value input.2)) (.fin first) =
      .fin (first + weigh p terms) := by
  induction h generalizing first with
  | nil => simp
  | @cons input term _ rest hresolves _ ih =>
    obtain ⟨c, v⟩ := term
    obtain ⟨q, rfl⟩ := Exact.isFinite_iff.mp (hfinite (c, v) (by simp))
    obtain ⟨hcoefficient, -, hbound⟩ := hresolves
    rw [List.foldl_cons, ← hcoefficient, hvalue _ _ hbound, Exact.fin_mul_fin, Exact.fin_add_fin,
      ih fun t ht => hfinite t (List.mem_cons_of_mem _ ht), weigh_cons, Exact.toRat_fin, add_assoc]

/-- The value of a signal that is read as a sum over variables is that sum. -/
theorem EncodingContext.Reads.signalValue_eq {source : Signal Exact} {t : Nat}
    {terms : List (Exact × VarId)} {constant : Exact} (h : ctx.Reads source t terms constant)
    (hfollows : ctx.Follows x p) (hterms : ∀ t ∈ terms, Scalar.IsFinite t.1)
    (hconstant : Scalar.IsFinite constant) :
    x.signalValue source t = .ok (.fin (weigh p terms + constant.toRat)) := by
  obtain ⟨hinside, labelled, samples, haffine, hsamples, hresolves⟩ := h
  obtain ⟨hlabels, happly⟩ := SignalForm.affinePart_eq_ok haffine
  obtain ⟨c, rfl⟩ := Exact.isFinite_iff.mp hconstant
  let value (sample : Sample) : Rat := (ctx.bindings[sample]?.map p).getD 0
  have hvalue : ∀ sample v, ctx.bindings[sample]? = some v → value sample = p v :=
    fun sample v hv => by simp [value, hv]
  have hlength : samples.length = labelled.length := by
    rw [← (Except.mapM_eq_ok.mp hsamples).length_eq, hlabels, List.length_map]
  have hread : ∀ sample ∈ samples, x.value sample = .ok (.fin (value sample)) := by
    intro sample hmem
    rw [← @List.map_snd_zip _ _ (labelled.map Prod.fst) samples (by simp [hlength])] at hmem
    obtain ⟨input, hinput, rfl⟩ := List.mem_map.mp hmem
    obtain ⟨term, -, -, hindex, hbound⟩ := (exists_of_forall₂ hresolves).1 input hinput
    rw [hvalue _ _ hbound]
    exact hfollows.value_eq _ _ hbound hindex
  have hcheck : x.checkIndex t = .ok () :=
    Trajectory.checkIndex_eq_ok.mpr (hfollows.length_eq ▸ hinside)
  have harguments : (source.form.labels.mapM fun label => do
      x.value (← Signal.sampleAt label t)) = .ok (samples.map fun s => Exact.fin (value s)) :=
    mapM_bind_eq_ok hsamples hread
  have hfold : SignalForm.affineValue (labelled.map Prod.fst) (.fin c)
      (samples.map fun s => Exact.fin (value s)) = .fin (weigh p terms + c) := by
    rw [SignalForm.affineValue, List.zip_map_right, List.foldl_map, add_comm]
    exact foldl_resolved hresolves hterms hvalue c
  exact Except.bind_eq_ok.mpr ⟨(), hcheck, Except.bind_eq_ok.mpr ⟨_, harguments,
    congrArg Except.ok ((happly _).trans hfold)⟩⟩

end Signals

/-! ## Satisfied models -/

namespace Ledger

variable {lib : FormulaLibrary Exact} {l : Ledger lib} {p : Assignment} {x : Trajectory Exact}

/-- Selectors of a satisfied model are zero or one. -/
theorem decided (hsat : l.model.Satisfies p) {g : Gate} (hg : g ∈ l.gates) : g.Decided p := by
  obtain ⟨hformed, -, -, -, hplaced⟩ := l.recorded g hg
  cases g with
  | signal => trivial
  | negation => trivial
  | extreme e m inputs r selectors =>
    intro d hd
    obtain ⟨-, hselectors, -⟩ := hformed
    rw [hselectors] at hd
    obtain ⟨i, hi, rfl⟩ := List.mem_map.mp hd
    obtain ⟨j, hj, rfl⟩ := List.mem_range'.mp hi
    have hshape := hplaced (1 + j) .selector (by
      simp [Gate.shapes, Nat.add_comm 1 j, hselectors, hj])
    refine Shape.selector_allows_iff.mp ((StoredModel.satisfies_iff.mp hsat).1 _ _ ?_)
    simpa [Gate.output, Nat.add_assoc] using hshape

/-- All gates of a satisfied model compute their results. -/
theorem computes (hsat : l.model.Satisfies p) : ∀ g ∈ l.gates, g.Computes p := by
  intro g hg
  refine Gate.computes_of_holds (l.recorded g hg).formed (fun st hst => ?_) (l.decided hsat hg)
  obtain ⟨c, hc, hstores⟩ := (l.recorded g hg).stored st hst
  exact (hstores.holds_iff p).mp (hsat.holds c hc)

/-- The gate of a signal computes what the signal is on the trajectory. -/
theorem signalValue_of_mem (hfollows : l.context.Follows x p) {source : Signal Exact} {t : Nat}
    {terms : List (Exact × VarId)} {constant : Exact} {y : VarId}
    (h : .signal source t terms constant y ∈ l.gates) :
    x.signalValue source t = .ok (.fin (weigh p terms + constant.toRat)) := by
  obtain ⟨-, -, hreads, hstored, -⟩ := l.recorded _ h
  obtain ⟨c, -, hstores⟩ := hstored ⟨.ofVar y, .equal, ⟨terms, constant⟩⟩ (by simp [Gate.statements])
  obtain ⟨count, hsound⟩ := hstores.sound
  exact EncodingContext.Reads.signalValue_eq hreads hfollows
    (fun t ht => (hsound.terms t (List.mem_append_right _ ht)).1) hsound.rhs_constant

/-- **A variable that stands for a formula has its robustness** in every assignment that satisfies
the model and follows the trajectory. -/
theorem robustness_eq (hsat : l.model.Satisfies p) (hfollows : l.context.Follows x p)
    {f : Formula Exact} {t : Nat} {u : Unrolled Exact} {e : Encoded Exact VarId}
    (hu : l.context.settings.unroll f t = .ok u) (he : u.DenotedBy l.gates e) :
    f.robustness l.context.settings.policy x t = .ok (.fin (p e.var)) := by
  have hlen : x.length ≤ Index.last := hfollows.length_eq ▸ l.horizon_le
  have hread : ∀ source t terms constant y, .signal source t terms constant y ∈ l.gates →
      weigh p terms + constant.toRat = x.reading source t := by
    intro source t terms constant y h
    simp [Trajectory.reading, signalValue_of_mem hfollows h]
  have hall : u.All fun s v => x.signalValue s v = .ok (.fin (x.reading s v)) := by
    refine Unrolled.DenotedBy.all (fun source t terms constant y h => ?_) u e he
    rw [← hread source t terms constant y h]
    exact signalValue_of_mem hfollows h
  have hvalue := Unrolled.DenotedBy.value_eq (computes hsat) hread u e he
  have hunroll : f.unroll l.context.settings.policy x.spacing x.length t = .ok u := by
    rw [hfollows.spacing_eq, hfollows.length_eq]
    exact hu
  have hvalueAt := Formula.valueAt_of_unroll hlen f t u hunroll hall
  rw [hvalue]
  exact Formula.evaluate_eq_ok.mpr
    ⟨Formula.lt_of_defined hlen f t (Formula.defined_of_valueAt hlen f t _ hvalueAt), hvalueAt⟩

end Ledger

end SignalTemporalLogic
