import SignalTemporalLogic.Proofs.SessionSteps

/-!
The variables that an encoding adds, with their names and start values. They come in a fixed order
and never change again, so that what is known of them when they are added is known of the model that
a run leaves behind.
-/

namespace SignalTemporalLogic

open RunLogic

/-- Runs of which nothing is asked but what they return. -/
def outcomes (S : Type) : RunLogic S S where
  state := id
  later _ _ := True
  tidy _ _ := True
  fails := True
  tidy_refl _ := trivial
  tidy_trans _ _ := trivial
  later_of_tidy _ := trivial
  later_trans _ _ := trivial

/-! ## Calls -/

section Calls

variable {m : StoredModel Exact}

theorem leads_addVariable {name : String} {kind : VarKind} {bounds : Bounds Exact} :
    (outcomes _).Leads m (StoredModel.addVariable name kind bounds) fun v m' =>
      v = ⟨m.vars.size⟩ ∧ m'.vars.toList = m.vars.toList ++
        [⟨name, kind, StoredModel.initialBounds kind bounds, none⟩] := by
  have hstore : (outcomes _).Leads m (m.storeVariable name kind bounds) fun v m' =>
      v = ⟨m.vars.size⟩ ∧ m'.vars.toList = m.vars.toList ++
        [⟨name, kind, StoredModel.initialBounds kind bounds, none⟩] := by
    unfold StoredModel.storeVariable
    split
    · exact leads_throw trivial
    · exact leads_bind (leads_set _ rfl trivial (leads_pure ⟨rfl, by simp⟩))
  refine leads_bind (leads_get ?_)
  dsimp only
  split
  · split
    · exact leads_bind (leads_throw trivial)
    · exact hstore
  · exact hstore

theorem leads_addConstraint_outcome {lhs rhs : LinearExpr Exact VarId} {relation : Relation} :
    (outcomes _).Leads m (StoredModel.addConstraint lhs relation rhs) fun _ m' =>
      m'.vars = m.vars :=
  leads_bind (leads_get (leads_bind (leads_lift
    (fun _ _ => leads_set _ rfl trivial rfl) (.inl trivial))))

theorem modify_last {β : Type} (change : β → β) (b : β) :
    ∀ bs : List β, (bs ++ [b]).modify bs.length change = bs ++ [change b]
  | [] => rfl
  | c :: bs => congrArg (c :: ·) (modify_last change b bs)

/-- The variable that was added last gets a start value. -/
theorem leads_setStart_last {before : List (Variable Exact)} {var : Variable Exact}
    (value : Exact) (hlast : m.vars.toList = before ++ [var]) :
    (outcomes _).Leads m (StoredModel.setStart ⟨before.length⟩ value) fun _ m' =>
      m'.vars.toList = before ++ [{ var with start := some value }] := by
  refine leads_bind (leads_get ?_)
  split
  · refine leads_set _ rfl trivial ?_
    show (m.vars.modify before.length _).toList = _
    rw [Array.toList_modify, hlast, modify_last]
  · exact leads_throw trivial

end Calls

/-! ## Emissions -/

section Emissions

variable {e : Emission (StoredModel Exact)}

theorem leads_call {β : Type} {act : SolverCall Exact (StoredModel Exact) β}
    {post : β → StoredModel Exact → Prop} (h : (outcomes _).Leads e.solver act post) :
    (outcomes _).Leads e (Emit.call act) fun b e' => post b e'.solver := by
  rcases hrun : act e.solver with ⟨refusal | b, m⟩
  · exact (leads_of_error (e := .refused refusal) (s := { e with solver := m })
      (by simp [outcomes, Emit.call, hrun])).mpr ⟨trivial, _, rfl, trivial⟩
  · obtain ⟨m', rfl, -, hpost⟩ := (leads_of_ok hrun).mp h
    exact (leads_of_ok (b := b) (s := { e with solver := m' })
      (by simp [outcomes, Emit.call, hrun])).mpr ⟨_, rfl, trivial, hpost⟩

theorem leads_newVariable_outcome {name : String} {kind : VarKind} {bounds : Bounds Exact}
    {start : Option Exact} :
    (outcomes _).Leads e (Emit.newVariable StoredModel.solver name kind bounds start) fun v e' =>
      v = ⟨e.solver.vars.size⟩ ∧ e'.solver.vars.toList = e.solver.vars.toList ++
        [⟨name, kind, StoredModel.initialBounds kind bounds, start⟩] := by
  refine leads_bind ((leads_call leads_addVariable).mono fun v e₁ _ ⟨hv, hvars⟩ => ?_)
  subst hv
  let counted : Emission (StoredModel Exact) := match kind with
    | .continuous => { e₁ with stats.continuous := e₁.stats.continuous + 1 }
    | .binary => { e₁ with stats.binaries := e₁.stats.binaries + 1 }
  have hsolver : counted.solver = e₁.solver := by cases kind <;> rfl
  refine leads_bind (leads_modify counted (by cases kind <;> rfl) trivial ?_)
  rw [← hsolver] at hvars
  cases start with
  | none => exact leads_pure ⟨rfl, hvars⟩
  | some value =>
    have hset := leads_setStart_last value hvars
    rw [Array.length_toList] at hset
    exact leads_bind ((leads_call hset).mono fun _ e₂ _ h => leads_pure ⟨rfl, h⟩)

namespace Extremum

/-- The selectors from number `i` on. -/
def selectors (label : String) (chosen : Option Nat) (i count : Nat) : List (Variable Exact) :=
  (List.range' i count).map fun j =>
    ⟨s!"{label}_d{j}", .binary, StoredModel.initialBounds .binary ⟨0, 1⟩,
      chosen.map fun selected => if j = selected then 0 else 1⟩

theorem getElem?_selectors {label : String} {chosen : Option Nat} {i count j : Nat}
    {var : Variable Exact} (h : (selectors label chosen i count)[j]? = some var) :
    var.kind = .binary ∧
      var.start = chosen.map fun selected => if i + j = selected then 0 else 1 := by
  simp only [selectors, List.getElem?_map, Option.map_eq_some_iff] at h
  obtain ⟨k, hk, rfl⟩ := h
  obtain ⟨hlt, rfl⟩ := List.getElem?_eq_some_iff.mp hk
  simp

theorem leads_emitSelectors_outcome {label : String} {chosen : Option Nat} {i count : Nat} :
    (outcomes _).Leads e (emitSelectors StoredModel.solver label chosen i count) fun _ e' =>
      e'.solver.vars.toList = e.solver.vars.toList ++ selectors label chosen i count := by
  induction count generalizing e i with
  | zero => exact leads_pure (by simp [selectors])
  | succ count ih =>
    refine leads_bind (leads_newVariable_outcome.mono fun d e₁ _ ⟨_, hfirst⟩ => ?_)
    refine leads_bind (ih.mono fun _ e₂ _ hothers => leads_pure ?_)
    rw [hothers, hfirst, List.append_assoc]
    rfl

/-- Tying the result to its operands adds no variable. -/
theorem leads_emitPairs_outcome {ext : Extremum} {m : Exact} {r : VarId}
    {pairs : List (Encoded Exact VarId × VarId)} :
    (outcomes _).Leads e (pairs.forM fun (operand, selector) =>
      ext.emitPair StoredModel.solver m r operand.var selector : Emit Exact _ Unit) fun _ e' =>
        e'.solver.vars = e.solver.vars := by
  induction pairs generalizing e with
  | nil => exact leads_pure rfl
  | cons pair rest ih =>
    refine leads_bind (leads_bind ((leads_call leads_addConstraint_outcome).mono
      fun _ e₁ _ h₁ => ?_))
    refine leads_bind ((leads_call leads_addConstraint_outcome).mono fun _ e₂ _ h₂ => ?_)
    refine leads_modify _ rfl trivial (ih.mono fun _ e₃ _ h₃ => ?_)
    exact h₃.trans (h₂.trans h₁)

/-- A group of two operands or more adds its result and the selectors. -/
theorem leads_emit_outcome {ext : Extremum} {label : String}
    {operands : List (Encoded Exact VarId)} {bigM : BigM Exact} {start : Option (ScoreTree Exact)}
    (h : 2 ≤ operands.length) :
    (outcomes _).Leads e (ext.emit StoredModel.solver label operands bigM start) fun _ e' =>
      e'.solver.vars.toList = e.solver.vars.toList ++
        ⟨label, .continuous, ext.boundsOf (operands.map Encoded.bounds),
          start.map ScoreTree.score⟩ ::
        selectors label (start.bind ScoreTree.chosen) 0 operands.length := by
  rw [emit_eq _ h]
  refine leads_bind (leads_lift (fun m _ => ?_) (.inl trivial))
  refine leads_bind (leads_newVariable_outcome.mono fun r e₁ _ ⟨_, h₁⟩ => ?_)
  refine leads_bind (leads_emitSelectors_outcome.mono fun ds e₂ _ h₂ => ?_)
  refine leads_bind (leads_emitPairs_outcome.mono fun _ e₃ _ h₃ => ?_)
  refine leads_bind ((leads_call leads_addConstraint_outcome).mono fun _ e₄ _ h₄ => ?_)
  refine leads_bind (leads_modify _ rfl trivial (leads_pure ?_))
  show e₄.solver.vars.toList = _
  rw [h₄, h₃, h₂, h₁, List.append_assoc]
  rfl

end Extremum

end Emissions

/-! ## Sessions -/

section Sessions

variable {s : StoredSession}

theorem leads_emit_session {β : Type} {act : Emit Exact (StoredModel Exact) β}
    (post : β → StoredModel Exact → Prop)
    (h : (outcomes _).Leads ⟨s.solver, s.context.stats⟩ act fun b e => post b e.solver) :
    (outcomes _).Leads s (Encode.emit act) fun b s' => post b s'.solver := by
  rcases hrun : act ⟨s.solver, s.context.stats⟩ with ⟨fault | b, e⟩
  · have hemit : Encode.emit act s =
        (.error fault, ⟨e.solver, { s.context with stats := e.stats }⟩) := by
      simp [Encode.emit, hrun]
    exact (leads_of_error hemit).mpr ⟨trivial, _, rfl, trivial⟩
  · obtain ⟨e', rfl, -, hpost⟩ := (leads_of_ok hrun).mp h
    have hemit : Encode.emit act s =
        (.ok b, ⟨e'.solver, { s.context with stats := e'.stats }⟩) := by
      simp [Encode.emit, hrun, outcomes]
    exact (leads_of_ok hemit).mpr ⟨_, rfl, trivial, hpost⟩

theorem takeLabel_run (role : VariableRole) (t : Nat) : Encode.takeLabel role t s =
    (.ok (EncodingContext.labelText s.context.settings.labelStem role s.context.nextLabel t),
      { s with context := { s.context with nextLabel := s.context.nextLabel + 1 } }) := rfl

/-- The variable that was labelled by a step, with the start value that it got. -/
def Session.labelled (s : StoredSession) (role : VariableRole) (t : Nat) (bounds : Bounds Exact)
    (start : Option (ScoreTree Exact)) : Variable Exact :=
  ⟨EncodingContext.labelText s.context.settings.labelStem role s.context.nextLabel t, .continuous,
    bounds, start.map ScoreTree.score⟩

theorem leads_equalTo_outcome {role : VariableRole} {t : Nat} {bounds : Bounds Exact}
    {start : Option (ScoreTree Exact)} {value : LinearExpr Exact VarId} :
    (outcomes _).Leads s (Encode.equalTo StoredModel.solver role t bounds start value) fun _ s' =>
      s'.solver.vars.toList = s.solver.vars.toList ++ [s.labelled role t bounds start] := by
  refine leads_bind ((leads_of_ok (takeLabel_run role t)).mpr ⟨_, rfl, trivial, ?_⟩)
  refine leads_emit_session (fun _ m => m.vars.toList = s.solver.vars.toList ++
    [s.labelled role t bounds start]) ?_
  refine leads_bind (leads_newVariable_outcome.mono fun y e₁ _ ⟨_, h₁⟩ => ?_)
  refine leads_bind ((leads_call leads_addConstraint_outcome).mono fun _ e₂ _ h₂ => ?_)
  refine leads_bind (leads_modify _ rfl trivial (leads_pure ?_))
  show e₂.solver.vars.toList = _
  rw [h₂, h₁]
  rfl

theorem leads_group_outcome {ext : Extremum} {role : VariableRole} {t : Nat}
    {start : Option (ScoreTree Exact)} {operands : List (Encoded Exact VarId)}
    (h : 2 ≤ operands.length) :
    (outcomes _).Leads s (Encode.group StoredModel.solver ext role t start operands) fun _ s' =>
      ∃ label, s'.solver.vars.toList = s.solver.vars.toList ++
        s.labelled role t (ext.boundsOf (operands.map Encoded.bounds)) start ::
        Extremum.selectors label (start.bind ScoreTree.chosen) 0 operands.length := by
  refine leads_bind ((leads_of_ok (show Encode.context s = (.ok s.context, s) from rfl)).mpr
    ⟨s, rfl, trivial, ?_⟩)
  refine leads_bind ((leads_of_ok (takeLabel_run role t)).mpr ⟨_, rfl, trivial, ?_⟩)
  refine leads_emit_session (fun _ m => ∃ label, m.vars.toList = s.solver.vars.toList ++
    s.labelled role t (ext.boundsOf (operands.map Encoded.bounds)) start ::
      Extremum.selectors label (start.bind ScoreTree.chosen) 0 operands.length) ?_
  exact (Extremum.leads_emit_outcome h).mono fun _ _ _ hvars => ⟨_, hvars⟩

/-! ## Runs that return -/

/-- A step that cannot fail returns, with all that is known of it and of its outcome. -/
theorem exists_run {β : Type} {act : Encode Exact VarId (StoredModel Exact) β}
    {post outcome : β → StoredSession → Prop} (h : (stepping False).Leads s act post)
    (k : (outcomes _).Leads s act outcome) :
    ∃ b s', act s = (.ok b, s') ∧ s.Grows s' ∧ post b s' ∧ outcome b s' := by
  obtain ⟨b, hb⟩ := h.exists_ok not_false
  obtain ⟨_, rfl, hgrows, hpost⟩ := h.exists_post hb
  obtain ⟨_, rfl, -, houtcome⟩ := k.exists_post hb
  exact ⟨b, _, Prod.ext hb rfl, hgrows, hpost, houtcome⟩

theorem equalTo_run (role : VariableRole) (t : Nat) (start : Option (ScoreTree Exact))
    {bounds : Bounds Exact} {value : LinearExpr Exact VarId}
    (hlimit : s.solver.variableLimit = none) (hbounds : bounds.lower ≤ bounds.upper)
    (hterms : ∀ t ∈ value.terms, Scalar.IsFinite t.1 ∧ t.2.index < s.solver.vars.size)
    (hconstant : Scalar.IsFinite value.constant) :
    ∃ c s', Encode.equalTo StoredModel.solver role t bounds start value s =
        (.ok ⟨⟨s.solver.vars.size⟩, bounds⟩, s') ∧
      s.context.Agrees s'.context ∧
      Statement.Stores ⟨.ofVar ⟨s.solver.vars.size⟩, .equal, value⟩ c ∧
      s.solver.Grows s'.solver [.real bounds] [c] ∧
      s'.solver.vars.toList = s.solver.vars.toList ++ [s.labelled role t bounds start] := by
  have hstep : (stepping False).Leads s
      (Encode.equalTo StoredModel.solver role t bounds start value) fun y s' =>
        y = ⟨⟨s.solver.vars.size⟩, bounds⟩ ∧ s.context.Agrees s'.context ∧ ∃ c,
          Statement.Stores ⟨.ofVar ⟨s.solver.vars.size⟩, .equal, value⟩ c ∧
          s.solver.Grows s'.solver [.real bounds] [c] :=
    leads_equalTo (.inr ⟨hlimit, hbounds, hterms, hconstant⟩)
      fun c s' _ hagrees hstores hgrows => ⟨rfl, hagrees, c, hstores, hgrows⟩
  obtain ⟨_, s', hrun, -, ⟨rfl, hagrees, c, hstores, hgrows⟩, hvars⟩ :=
    exists_run hstep leads_equalTo_outcome
  exact ⟨c, s', hrun, hagrees, hstores, hgrows, hvars⟩

section Groups

variable (ext : Extremum) (role : VariableRole) (t : Nat) (start : Option (ScoreTree Exact))
  {operands : List (Encoded Exact VarId)}

theorem group_run {m : Exact} (htwo : 2 ≤ operands.length)
    (hlimit : s.solver.variableLimit = none)
    (hoperands : ∀ x ∈ operands,
      x.var.index < s.solver.vars.size ∧ x.bounds.lower ≤ x.bounds.upper)
    (hm : s.context.settings.bigM.resolve (operands.map Encoded.bounds) = .ok m)
    (hfinite : Scalar.IsFinite m) :
    ∃ label s', Encode.group StoredModel.solver ext role t start operands s =
        (.ok ⟨⟨s.solver.vars.size⟩, ext.boundsOf (operands.map Encoded.bounds)⟩, s') ∧
      s.Gains s' (.extreme ext m operands ⟨s.solver.vars.size⟩
        ((List.range' (s.solver.vars.size + 1) operands.length).map VarId.mk)) ∧
      s'.solver.vars.toList = s.solver.vars.toList ++
        s.labelled role t (ext.boundsOf (operands.map Encoded.bounds)) start ::
        Extremum.selectors label (start.bind ScoreTree.chosen) 0 operands.length := by
  have hstep : (stepping False).Leads s
      (Encode.group StoredModel.solver ext role t start operands) fun y s' =>
        y = ⟨⟨s.solver.vars.size⟩, ext.boundsOf (operands.map Encoded.bounds)⟩ ∧
        s.Gains s' (.extreme ext m operands ⟨s.solver.vars.size⟩
          ((List.range' (s.solver.vars.size + 1) operands.length).map VarId.mk)) := by
    refine leads_group (.inr ⟨List.ne_nil_of_length_pos (by omega), hlimit, hoperands, m, hm,
      hfinite⟩) ?_ ?_
    · rintro x s' rfl
      simp at htwo
    · intro m' s' hm' _ _ hgains
      obtain rfl := Except.ok.inj (hm.symm.trans hm')
      exact ⟨rfl, hgains⟩
  obtain ⟨_, s', hrun, -, ⟨rfl, hgains⟩, label, hvars⟩ :=
    exists_run hstep (leads_group_outcome htwo)
  exact ⟨label, s', hrun, hgains, hvars⟩

/-- A group starts with a label. -/
theorem group_eq_emit (operands : List (Encoded Exact VarId)) :
    Encode.group StoredModel.solver ext role t start operands s =
      Encode.emit (ext.emit StoredModel.solver
        (EncodingContext.labelText s.context.settings.labelStem role s.context.nextLabel t)
        operands s.context.settings.bigM start)
      { s with context := { s.context with nextLabel := s.context.nextLabel + 1 } } := rfl

/-- A group whose big-M constant is not found changes nothing but the label. -/
theorem group_refused {fault : Fault Exact} (htwo : 2 ≤ operands.length)
    (hfault : s.context.settings.bigM.resolve (operands.map Encoded.bounds) = .error fault) :
    ∃ s', Encode.group StoredModel.solver ext role t start operands s = (.error fault, s') ∧
      s.context.Agrees s'.context ∧ s'.solver = s.solver := by
  refine ⟨{ s with context := { s.context with nextLabel := s.context.nextLabel + 1 } }, ?_,
    ⟨rfl, rfl, rfl⟩, rfl⟩
  rw [group_eq_emit, Extremum.emit_eq _ htwo, hfault]
  rfl

/-- A single operand is its own extreme. -/
theorem group_single (x : Encoded Exact VarId) :
    ∃ s', Encode.group StoredModel.solver ext role t start [x] s = (.ok x, s') ∧
      s.context.Agrees s'.context ∧ s'.solver = s.solver :=
  ⟨_, rfl, ⟨rfl, rfl, rfl⟩, rfl⟩

end Groups

end Sessions

end SignalTemporalLogic
