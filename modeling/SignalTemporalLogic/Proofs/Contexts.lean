import SignalTemporalLogic.Proofs.Evaluation
import SignalTemporalLogic.Proofs.Plans

/-!
Contexts that serve a trajectory. Where windows are the same and variables are bound to the samples
of the trajectory and to nothing else, the signals that have a linear form are the affine ones that
have a value.
-/

namespace SignalTemporalLogic

variable {α V : Type} [Scalar α]

/-- The context encodes what is evaluated on the trajectory: it has the same windows, and variables
are bound to the samples of the trajectory, all of them inside its domain, and to nothing else. -/
structure EncodingContext.Serves (ctx : EncodingContext α V) (policy : WindowPolicy)
    (x : Trajectory α) : Prop where
  horizon_eq : ctx.settings.horizon = x.length
  spacing_eq : ctx.settings.spacing = x.spacing
  policy_eq : ctx.settings.policy = policy
  inside (sample : Sample) (a : α) : x.value sample = .ok a → sample.index < x.length
  bound_iff (sample : Sample) :
    (∃ v, ctx.bindings[sample]? = some v) ↔ ∃ a, x.value sample = .ok a

variable {ctx : EncodingContext α V} {policy : WindowPolicy} {x : Trajectory α}

theorem EncodingContext.getElem?_bind (sample other : Sample) (v : V) :
    (ctx.bind sample v).bindings[other]? =
      if sample = other then some v else ctx.bindings[other]? := by
  simp only [bind, Std.TreeMap.getElem?_insert, Sample.compare_eq_eq_iff]

theorem EncodingContext.inside_iff (t : Nat) :
    (∃ u, ctx.inside t = .ok u) ↔ t < ctx.settings.horizon := by
  unfold inside
  split <;> simp <;> omega

theorem EncodingContext.boundVariable_eq_ok {sample : Sample} {v : V} :
    ctx.boundVariable sample = .ok v ↔ ctx.bindings[sample]? = some v := by
  unfold boundVariable
  cases ctx.bindings[sample]? <;> simp

namespace EncodingContext.Serves

theorem congr {ctx' : EncodingContext α V} (h : ctx.Serves policy x)
    (hsettings : ctx'.settings = ctx.settings) (hbindings : ctx'.bindings = ctx.bindings) :
    ctx'.Serves policy x where
  horizon_eq := hsettings ▸ h.horizon_eq
  spacing_eq := hsettings ▸ h.spacing_eq
  policy_eq := hsettings ▸ h.policy_eq
  inside := h.inside
  bound_iff := hbindings ▸ h.bound_iff

/-- A sample has a variable inside the horizon exactly if it has a value. -/
theorem resolve_iff (h : ctx.Serves policy x) (input : α × Sample) :
    (∃ term, ctx.resolve input = .ok term) ↔ ∃ a, x.value input.2 = .ok a := by
  constructor
  · intro ⟨term, hterm⟩
    obtain ⟨_, -, hterm⟩ := Except.bind_eq_ok.mp hterm
    obtain ⟨v, hv, -⟩ := Except.bind_eq_ok.mp hterm
    exact (h.bound_iff _).mp ⟨v, EncodingContext.boundVariable_eq_ok.mp hv⟩
  · intro ⟨a, ha⟩
    obtain ⟨u, hu⟩ := (EncodingContext.inside_iff input.2.index).mpr
      (h.horizon_eq ▸ h.inside input.2 a ha)
    obtain ⟨v, hv⟩ := (h.bound_iff input.2).mpr ⟨a, ha⟩
    exact ⟨_, Except.bind_eq_ok.mpr ⟨u, hu, Except.bind_eq_ok.mpr
      ⟨v, EncodingContext.boundVariable_eq_ok.mpr hv, rfl⟩⟩⟩

/-- A signal has a linear form exactly if it is affine and has a value. -/
theorem linearForm_iff (h : ctx.Serves policy x) (signal : Signal α) (t : Nat) :
    (∃ value, ctx.linearForm signal t = .ok value) ↔
      (∃ part, signal.form.affinePart = .ok part) ∧
        ∃ a, x.signalValue signal t = .ok a := by
  rw [Trajectory.exists_signalValue_iff, ← h.horizon_eq, ← EncodingContext.inside_iff]
  constructor
  · intro ⟨value, hvalue⟩
    obtain ⟨part, hpart, hvalue⟩ := Except.bind_eq_ok.mp hvalue
    obtain ⟨u, hu, hvalue⟩ := Except.bind_eq_ok.mp hvalue
    obtain ⟨samples, hsamples, hvalue⟩ := Except.bind_eq_ok.mp hvalue
    obtain ⟨terms, hterms, -⟩ := Except.bind_eq_ok.mp hvalue
    have hlength : samples.length = part.1.length := by
      rw [← (Except.mapM_eq_ok.mp hsamples).length_eq, (SignalForm.affinePart_eq_ok hpart).1,
        List.length_map]
    refine ⟨⟨part, hpart⟩, ⟨u, hu⟩, fun label hlabel => ?_⟩
    obtain ⟨sample, hmem, hsample⟩ :=
      (exists_of_forall₂ (Except.mapM_eq_ok.mp hsamples)).1 label hlabel
    rw [← @List.map_snd_zip _ _ (part.1.map Prod.fst) samples (by simp [hlength])] at hmem
    obtain ⟨input, hinput, rfl⟩ := List.mem_map.mp hmem
    exact ⟨input.2, hsample, (h.resolve_iff input).mp
      (Except.exists_mapM_eq_ok_iff.mp ⟨terms, hterms⟩ input hinput)⟩
  · intro ⟨⟨part, hpart⟩, ⟨u, hu⟩, hread⟩
    obtain ⟨samples, hsamples⟩ := Except.exists_mapM_eq_ok_iff.mpr
      fun label hlabel => (hread label hlabel).imp fun _ h => h.1
    obtain ⟨terms, hterms⟩ := Except.exists_mapM_eq_ok_iff.mpr
      (show ∀ input ∈ (part.1.map Prod.fst).zip samples, ∃ term, ctx.resolve input = .ok term by
        intro input hinput
        obtain ⟨label, hlabel, hsample⟩ := (exists_of_forall₂ (Except.mapM_eq_ok.mp hsamples)).2
          input.2 (List.of_mem_zip hinput).2
        obtain ⟨sample, hsample', hvalue⟩ := hread label hlabel
        obtain rfl := Except.ok.inj (hsample.symm.trans hsample')
        exact (h.resolve_iff input).mpr hvalue)
    exact ⟨_, Except.bind_eq_ok.mpr ⟨part, hpart, Except.bind_eq_ok.mpr ⟨u, hu,
      Except.bind_eq_ok.mpr ⟨samples, hsamples, Except.bind_eq_ok.mpr ⟨terms, hterms, rfl⟩⟩⟩⟩⟩

end EncodingContext.Serves

end SignalTemporalLogic
