import SignalTemporalLogic.Proofs.Emissions

/-!
What single steps of an encoding do to a session. A step that makes a variable adds a gate to the
model and changes neither the settings nor what is bound or remembered.
-/

namespace SignalTemporalLogic

open RunLogic

/-- A session over a stored model. -/
abbrev StoredSession := Session Exact VarId (StoredModel Exact)

/-- The contexts differ in labels and counts only. -/
structure EncodingContext.Agrees (ctx ctx' : EncodingContext Exact VarId) : Prop where
  settings_eq : ctx'.settings = ctx.settings
  bindings_eq : ctx'.bindings = ctx.bindings
  memo_eq : ctx'.memo = ctx.memo

namespace EncodingContext.Agrees

variable {ctx ctx' ctx'' : EncodingContext Exact VarId}

theorem refl (ctx : EncodingContext Exact VarId) : ctx.Agrees ctx where
  settings_eq := rfl
  bindings_eq := rfl
  memo_eq := rfl

theorem trans (h : ctx.Agrees ctx') (k : ctx'.Agrees ctx'') : ctx.Agrees ctx'' :=
  ⟨k.settings_eq.trans h.settings_eq, k.bindings_eq.trans h.bindings_eq,
    k.memo_eq.trans h.memo_eq⟩

end EncodingContext.Agrees

/-- The session has grown by some variables and constraints. -/
structure Session.Grows (s s' : StoredSession) : Prop where
  agrees : s.context.Agrees s'.context
  solver : ∃ shapes constraints, s.solver.Grows s'.solver shapes constraints

/-- The session has grown by the gate. -/
structure Session.Gains (s s' : StoredSession) (g : Gate) : Prop where
  agrees : s.context.Agrees s'.context
  extends_solver : g.Extends s.solver s'.solver

/-- Steps before anything is remembered. -/
def stepping (fails : Prop) : RunLogic StoredSession StoredSession where
  state := id
  later := Session.Grows
  tidy := Session.Grows
  fails := fails
  tidy_refl s := ⟨.refl s.context, _, _, .refl s.solver⟩
  tidy_trans := fun ⟨ha, _, _, h⟩ ⟨ka, _, _, k⟩ => ⟨ha.trans ka, _, _, h.trans k⟩
  later_of_tidy := id
  later_trans := fun ⟨ha, _, _, h⟩ ⟨ka, _, _, k⟩ => ⟨ha.trans ka, _, _, h.trans k⟩

variable {fails : Prop} {s : StoredSession}

/-! ## Steps that read and label -/

theorem leads_context {post : EncodingContext Exact VarId → StoredSession → Prop}
    (h : post s.context s) : (stepping fails).Leads s Encode.context post :=
  leads_bind (leads_get (leads_pure h))

theorem leads_checkIndex {t : Nat} {post : Unit → StoredSession → Prop}
    (hready : fails ∨ t < s.context.settings.horizon)
    (hpost : t < s.context.settings.horizon → post () s) :
    (stepping fails).Leads s (Encode.checkIndex t) post := by
  refine leads_bind (leads_context ?_)
  by_cases ht : s.context.settings.horizon ≤ t
  · simp only [ht, if_true]
    exact leads_throw (hready.resolve_right (by omega))
  · simp only [ht, if_false]
    exact leads_pure (hpost (by omega))

theorem leads_takeLabel {role : VariableRole} {t : Nat} {post : String → StoredSession → Prop}
    (hpost : ∀ label s', s'.solver = s.solver → s.context.Agrees s'.context → post label s') :
    (stepping fails).Leads s (Encode.takeLabel role t) post := by
  let labelled : StoredSession := { s with context := (s.context.takeLabel role t).2 }
  have hrun : Encode.takeLabel role t s = (.ok (s.context.takeLabel role t).1, labelled) := rfl
  exact (leads_of_ok hrun).mpr ⟨labelled, rfl, ⟨⟨rfl, rfl, rfl⟩, _, _, .refl s.solver⟩,
    hpost _ labelled rfl ⟨rfl, rfl, rfl⟩⟩

theorem leads_emission {β : Type} {act : Emit Exact (StoredModel Exact) β}
    {post : β → StoredSession → Prop}
    (h : (emission fails).Leads ⟨s.solver, s.context.stats⟩ act fun b e =>
      post b ⟨e.solver, { s.context with stats := e.stats }⟩) :
    (stepping fails).Leads s (Encode.emit act) post := by
  rcases hrun : act ⟨s.solver, s.context.stats⟩ with ⟨fault | b, e⟩
  · obtain ⟨hfails, e', rfl, hgrows⟩ := (leads_of_error hrun).mp h
    have hemit : Encode.emit act s =
        (.error fault, ⟨e'.solver, { s.context with stats := e'.stats }⟩) := by
      simp [Encode.emit, hrun, emission]
    refine (leads_of_error hemit).mpr ⟨hfails, ?_⟩
    exact ⟨⟨e'.solver, { s.context with stats := e'.stats }⟩, rfl, ⟨rfl, rfl, rfl⟩, hgrows⟩
  · obtain ⟨e', rfl, hgrows, hpost⟩ := (leads_of_ok hrun).mp h
    have hemit : Encode.emit act s =
        (.ok b, ⟨e'.solver, { s.context with stats := e'.stats }⟩) := by
      simp [Encode.emit, hrun, emission]
    refine (leads_of_ok hemit).mpr ?_
    exact ⟨⟨e'.solver, { s.context with stats := e'.stats }⟩, rfl, ⟨⟨rfl, rfl, rfl⟩, hgrows⟩, hpost⟩

/-! ## Steps that make a variable -/

/-- A variable for an expression adds the variable and an equation. -/
theorem leads_equalTo {role : VariableRole} {t : Nat} {bounds : Bounds Exact}
    {start : Option (ScoreTree Exact)} {value : LinearExpr Exact VarId}
    {post : Encoded Exact VarId → StoredSession → Prop}
    (hready : fails ∨ s.solver.variableLimit = none ∧ bounds.lower ≤ bounds.upper ∧
      (∀ t ∈ value.terms, Scalar.IsFinite t.1 ∧ t.2.index < s.solver.vars.size) ∧
      Scalar.IsFinite value.constant)
    (hpost : ∀ c s', bounds.lower ≤ bounds.upper → s.context.Agrees s'.context →
      Statement.Stores ⟨.ofVar ⟨s.solver.vars.size⟩, .equal, value⟩ c →
      s.solver.Grows s'.solver [.real bounds] [c] → post ⟨⟨s.solver.vars.size⟩, bounds⟩ s') :
    (stepping fails).Leads s (Encode.equalTo StoredModel.solver role t bounds start value) post := by
  refine leads_bind (leads_takeLabel fun label s₁ hsolver hagrees => ?_)
  rw [← hsolver] at hready hpost
  refine leads_emission (leads_bind (leads_newVariable
    (hready.imp_right fun h => ⟨.of_none h.1 1, h.2.1⟩) fun _ hbounds e₁ h₁ => ?_))
  refine leads_bind (leads_addConstraint ⟨.ofVar ⟨s₁.solver.vars.size⟩, .equal, value⟩
    (hready.imp_right fun h => ⟨fun t ht => ?_, by simp [LinearExpr.ofVar, LinearExpr.term],
      h.2.2.2⟩) fun c e₂ hc h₂ => ?_)
  · have hsize := h₁.size_eq
    simp only [LinearExpr.ofVar, LinearExpr.term, List.singleton_append, List.mem_cons] at ht
    rcases ht with rfl | ht
    · exact ⟨by simp, by simp only [hsize, List.length_singleton]; omega⟩
    · obtain ⟨hfinite, hknown⟩ := h.2.2.1 t ht
      exact ⟨hfinite, by simp only [hsize, List.length_singleton]; omega⟩
  refine leads_bind (leads_countConstraints fun e₃ h₃ => leads_pure (hpost c _ hbounds ⟨hagrees.1, hagrees.2, hagrees.3⟩ hc ?_))
  simpa [Shape.real, StoredModel.initialBounds] using (h₁.trans h₂).trans h₃

/-- The coefficient stays, and the variable is bound to the sample. -/
def EncodingContext.Resolves (ctx : EncodingContext Exact VarId) (input : Exact × Sample)
    (term : Exact × VarId) : Prop :=
  term.1 = input.1 ∧ input.2.index < ctx.settings.horizon ∧ ctx.bindings[input.2]? = some term.2

/-- At `t` the signal is the sum of the terms and the constant. -/
structure EncodingContext.Reads (ctx : EncodingContext Exact VarId) (source : Signal Exact)
    (t : Nat) (terms : List (Exact × VarId)) (constant : Exact) : Prop where
  inside : t < ctx.settings.horizon
  exists_samples : ∃ labelled samples, source.form.affinePart = .ok (labelled, constant) ∧
    source.samplesAt t = .ok samples ∧
    List.Forall₂ ctx.Resolves ((labelled.map Prod.fst).zip samples) terms

theorem leads_predicateTerms {inputs : List (Exact × Sample)}
    {post : List (Exact × VarId) → StoredSession → Prop}
    (hready : fails ∨ ∃ terms, List.Forall₂ s.context.Resolves inputs terms)
    (hpost : ∀ terms, List.Forall₂ s.context.Resolves inputs terms → post terms s) :
    (stepping fails).Leads s (Encode.predicateTerms inputs) post := by
  induction inputs generalizing post with
  | nil => exact leads_pure (hpost [] .nil)
  | cons input rest ih =>
    obtain ⟨c, sample⟩ := input
    rw [Encode.predicateTerms, List.mapM_cons]
    refine leads_bind (leads_bind (leads_checkIndex (hready.imp_right ?_) fun hindex => ?_))
    · rintro ⟨_, h⟩
      cases h with
      | cons hfirst _ => exact hfirst.2.1
    refine leads_bind (leads_context (leads_bind (leads_lift (fun v hv => ?_)
      (hready.imp_right ?_))))
    swap
    · rintro ⟨_, h⟩
      cases h with
      | cons hfirst _ => exact ⟨_, by rw [EncodingContext.boundVariable, hfirst.2.2]⟩
    have hbound : s.context.bindings[sample]? = some v := by
      unfold EncodingContext.boundVariable at hv
      split at hv
      · next h => rwa [Except.ok.inj hv] at h
      · cases hv
    refine leads_pure (leads_bind (ih (hready.imp_right ?_) fun terms hterms => ?_))
    · rintro ⟨_, h⟩
      cases h with
      | cons _ hrest => exact ⟨_, hrest⟩
    · exact leads_pure (hpost ((c, v) :: terms) (.cons ⟨rfl, hindex, hbound⟩ hterms))

theorem EncodingContext.Resolves.unique {ctx : EncodingContext Exact VarId}
    {inputs : List (Exact × Sample)} {terms terms' : List (Exact × VarId)}
    (h : List.Forall₂ ctx.Resolves inputs terms) (k : List.Forall₂ ctx.Resolves inputs terms') :
    terms = terms' := by
  induction h generalizing terms' with
  | nil => cases k; rfl
  | cons hfirst _ ih =>
    cases k with
    | cons kfirst krest =>
      rw [ih krest]
      exact congrArg (· :: _) (Prod.ext (hfirst.1.trans kfirst.1.symm)
        (Option.some.inj (hfirst.2.2.symm.trans kfirst.2.2)))

theorem leads_predicate {source : Signal Exact} {t : Nat} {start : Option (ScoreTree Exact)}
    {post : Encoded Exact VarId → StoredSession → Prop}
    (hready : fails ∨ s.solver.variableLimit = none ∧
      source.bounds.lower ≤ source.bounds.upper ∧ ∃ terms constant,
        s.context.Reads source t terms constant ∧ Scalar.IsFinite constant ∧
        ∀ t ∈ terms, Scalar.IsFinite t.1 ∧ t.2.index < s.solver.vars.size)
    (hpost : ∀ terms constant s', source.bounds.lower ≤ source.bounds.upper →
      s.context.Reads source t terms constant →
      s.Gains s' (.signal source t terms constant ⟨s.solver.vars.size⟩) →
      post ⟨⟨s.solver.vars.size⟩, source.bounds⟩ s') :
    (stepping fails).Leads s (Encode.predicate StoredModel.solver source t start) post := by
  refine leads_bind (leads_lift (fun (labelled, constant) haffine => ?_) (hready.imp_right ?_))
  swap
  · rintro ⟨-, -, terms, constant, ⟨-, labelled, samples, haffine, -⟩, -⟩
    exact ⟨_, haffine⟩
  refine leads_bind (leads_checkIndex (hready.imp_right ?_) fun hindex => ?_)
  · rintro ⟨-, -, terms, constant, ⟨hindex, -⟩, -⟩
    exact hindex
  refine leads_bind (leads_lift (fun samples hsamples => ?_) (hready.imp_right ?_))
  swap
  · rintro ⟨-, -, terms, constant, ⟨-, labelled, samples, -, hsamples, -⟩, -⟩
    exact ⟨_, hsamples⟩
  have hreads : ∀ terms' constant', s.context.Reads source t terms' constant' →
      constant' = constant ∧
        List.Forall₂ s.context.Resolves ((labelled.map Prod.fst).zip samples) terms' := by
    rintro terms' constant' ⟨-, labelled', samples', haffine', hsamples', hresolves⟩
    obtain ⟨rfl, rfl⟩ := Prod.mk.inj (Except.ok.inj (haffine.symm.trans haffine'))
    obtain rfl := Except.ok.inj (hsamples.symm.trans hsamples')
    exact ⟨rfl, hresolves⟩
  refine leads_bind (leads_predicateTerms (hready.imp_right ?_) fun terms hterms => ?_)
  · rintro ⟨-, -, terms, constant', hread, -⟩
    exact ⟨terms, (hreads terms constant' hread).2⟩
  refine leads_equalTo (hready.imp_right ?_) fun c s' hbounds hagrees hc hgrows => ?_
  · rintro ⟨hlimit, hbounds, terms', constant', hread, hconstant, hfinite⟩
    obtain ⟨rfl, hresolves⟩ := hreads terms' constant' hread
    obtain rfl := EncodingContext.Resolves.unique hterms hresolves
    exact ⟨hlimit, hbounds, hfinite, hconstant⟩
  · exact hpost terms constant s' hbounds ⟨hindex, labelled, samples, haffine, hsamples, hterms⟩
      ⟨hagrees, [c], .cons hc .nil, hgrows⟩

theorem leads_negation {t : Nat} {start : Option (ScoreTree Exact)} {x : Encoded Exact VarId}
    {post : Encoded Exact VarId → StoredSession → Prop}
    (hready : fails ∨ s.solver.variableLimit = none ∧ x.bounds.lower ≤ x.bounds.upper ∧
      x.var.index < s.solver.vars.size)
    (hpost : ∀ s', x.bounds.negate.lower ≤ x.bounds.negate.upper →
      s.Gains s' (.negation x ⟨s.solver.vars.size⟩) →
      post ⟨⟨s.solver.vars.size⟩, x.bounds.negate⟩ s') :
    (stepping fails).Leads s (Encode.negation StoredModel.solver t start x) post := by
  refine leads_equalTo (hready.imp_right fun h =>
    ⟨h.1, OrderedScalar.neg_le_neg h.2.1, ?_, by simp [LinearExpr.term]⟩) ?_
  · simpa [LinearExpr.term] using h.2.2
  · exact fun c s' hbounds hagrees hc hgrows =>
      hpost s' hbounds ⟨hagrees, [c], .cons hc .nil, hgrows⟩

theorem leads_group {ext : Extremum} {role : VariableRole} {t : Nat}
    {start : Option (ScoreTree Exact)} {operands : List (Encoded Exact VarId)}
    {post : Encoded Exact VarId → StoredSession → Prop}
    (hready : fails ∨ operands ≠ [] ∧ s.solver.variableLimit = none ∧
      (∀ x ∈ operands, x.var.index < s.solver.vars.size ∧ x.bounds.lower ≤ x.bounds.upper) ∧
      ∃ m, s.context.settings.bigM.resolve (operands.map Encoded.bounds) = .ok m ∧
        Scalar.IsFinite m)
    (hsingle : ∀ x s', operands = [x] → s.context.Agrees s'.context → s'.solver = s.solver →
      post x s')
    (hgate : ∀ m s', s.context.settings.bigM.resolve (operands.map Encoded.bounds) = .ok m →
      2 ≤ operands.length →
      (ext.boundsOf (operands.map Encoded.bounds)).lower ≤
        (ext.boundsOf (operands.map Encoded.bounds)).upper →
      s.Gains s' (.extreme ext m operands ⟨s.solver.vars.size⟩
        ((List.range' (s.solver.vars.size + 1) operands.length).map VarId.mk)) →
      post ⟨⟨s.solver.vars.size⟩, ext.boundsOf (operands.map Encoded.bounds)⟩ s') :
    (stepping fails).Leads s (Encode.group StoredModel.solver ext role t start operands) post := by
  refine leads_bind (leads_context (leads_bind (leads_takeLabel
    fun label s₁ hsolver hagrees => ?_)))
  rw [← hsolver] at hready hgate
  refine leads_emission (Extremum.leads_emit
    (hready.imp_right fun h => ⟨h.1, .of_none h.2.1 _, h.2.2⟩) ?_ ?_)
  · exact fun x hx => hsingle x _ hx hagrees hsolver
  · exact fun m e hm htwo _ hordered hextends =>
      hgate m _ hm htwo hordered ⟨⟨hagrees.1, hagrees.2, hagrees.3⟩, hsolver ▸ hextends⟩

end SignalTemporalLogic
