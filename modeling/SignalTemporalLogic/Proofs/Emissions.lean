import SignalTemporalLogic.Proofs.Gates

/-!
What emitting a gate does to a model. The variables come first, the result before the selectors, and
then the constraints, so that a gate that is emitted completely is a block of variables followed by
a block of constraints that are known by the gate alone.
-/

namespace SignalTemporalLogic

open RunLogic

/-- The model has grown by the gate. -/
def Gate.Extends (g : Gate) (m m' : StoredModel Exact) : Prop :=
  ∃ constraints, List.Forall₂ Statement.Stores g.statements constraints ∧
    m.Grows m' g.shapes constraints

/-- A big-M constant that got into a model is finite. -/
theorem Gate.Extends.isFinite {m m' : StoredModel Exact} {e : Extremum} {constant : Exact}
    {inputs : List (Encoded Exact VarId)} {r : VarId} {selectors : List VarId}
    (h : (Gate.extreme e constant inputs r selectors).Extends m m')
    (hlength : selectors.length = inputs.length) (hne : inputs ≠ []) :
    Scalar.IsFinite constant := by
  obtain ⟨constraints, hstores, -⟩ := h
  have hzip : inputs.zip selectors ≠ [] := by
    rw [← List.length_pos_iff] at hne ⊢
    simpa [hlength] using hne
  obtain ⟨⟨x, d⟩, hpair⟩ := List.exists_mem_of_ne_nil _ hzip
  have hmem : (⟨.ofVar r, e.relaxed, (LinearExpr.ofVar x.var).plus (e.slack constant) d⟩ :
      Statement) ∈ (Gate.extreme e constant inputs r selectors).statements :=
    List.mem_append_left _ (List.mem_flatMap.mpr ⟨(x, d), hpair, by simp [Gate.pairStatements]⟩)
  obtain ⟨i, hi, he⟩ := List.mem_iff_getElem.mp hmem
  have hstore := List.Forall₂.get hstores hi (hstores.length_eq ▸ hi)
  simp only [List.get_eq_getElem, he] at hstore
  obtain ⟨count, hsound⟩ := hstore.sound
  have hslack := (hsound.terms (e.slack constant, d) (by simp [LinearExpr.plus])).1
  cases e with
  | min => exact StoredModel.isFinite_neg.mp hslack
  | max => exact hslack

/-- Emissions only add to a model. -/
def emission (fails : Prop) :
    RunLogic (Emission (StoredModel Exact)) (Emission (StoredModel Exact)) where
  state := id
  later e e' := ∃ shapes constraints, e.solver.Grows e'.solver shapes constraints
  tidy e e' := ∃ shapes constraints, e.solver.Grows e'.solver shapes constraints
  fails := fails
  tidy_refl e := ⟨_, _, .refl e.solver⟩
  tidy_trans := fun ⟨_, _, h⟩ ⟨_, _, k⟩ => ⟨_, _, h.trans k⟩
  later_of_tidy := id
  later_trans := fun ⟨_, _, h⟩ ⟨_, _, k⟩ => ⟨_, _, h.trans k⟩

variable {fails : Prop} {e : Emission (StoredModel Exact)}

/-! ## Single calls -/

theorem leads_call_of_ok {β : Type} {act : SolverCall Exact (StoredModel Exact) β} {b : β}
    {m : StoredModel Exact} {shapes : List Shape} {constraints : List (Constraint Exact)}
    {post : β → Emission (StoredModel Exact) → Prop} (hrun : act e.solver = (.ok b, m))
    (hgrows : e.solver.Grows m shapes constraints) (hpost : post b { e with solver := m }) :
    (emission fails).Leads e (Emit.call act) post :=
  (leads_of_ok (b := b) (s := { e with solver := m }) (by simp [emission, Emit.call, hrun])).mpr
    ⟨{ e with solver := m }, rfl, ⟨_, _, hgrows⟩, hpost⟩

theorem leads_call_of_error {β : Type} {act : SolverCall Exact (StoredModel Exact) β}
    {refusal : Refusal Exact} {post : β → Emission (StoredModel Exact) → Prop}
    (hrun : act e.solver = (.error refusal, e.solver)) (hfails : fails) :
    (emission fails).Leads e (Emit.call act) post :=
  (leads_of_error (e := .refused refusal) (s := e) (by simp [emission, Emit.call, hrun])).mpr
    ⟨hfails, e, rfl, _, _, .refl e.solver⟩

theorem leads_newVariable {name : String} {kind : VarKind} {bounds : Bounds Exact}
    {start : Option Exact} {post : VarId → Emission (StoredModel Exact) → Prop}
    (hready : fails ∨ e.solver.HasRoom 1 ∧ bounds.lower ≤ bounds.upper)
    (hpost : e.solver.HasRoom 1 → bounds.lower ≤ bounds.upper → ∀ e',
      e.solver.Grows e'.solver [⟨kind, StoredModel.initialBounds kind bounds⟩] [] →
      post ⟨e.solver.vars.size⟩ e') :
    (emission fails).Leads e (Emit.newVariable StoredModel.solver name kind bounds start) post := by
  refine leads_bind ?_
  rcases StoredModel.addVariable_run name kind bounds with
    ⟨⟨hroom, hbounds⟩, m, hrun, hgrows⟩ | ⟨hrefused, refusal, hrun⟩
  · refine leads_call_of_ok hrun hgrows (leads_bind ?_)
    let counted : Emission (StoredModel Exact) := match kind with
      | .continuous => ⟨m, { e.stats with continuous := e.stats.continuous + 1 }⟩
      | .binary => ⟨m, { e.stats with binaries := e.stats.binaries + 1 }⟩
    have hsolver : counted.solver = m := by cases kind <;> rfl
    refine leads_modify counted (by cases kind <;> rfl) ⟨[], [], hsolver ▸ .refl m⟩ ?_
    rw [← hsolver] at hgrows
    cases start with
    | none => exact leads_pure (hpost hroom hbounds counted hgrows)
    | some value =>
      refine leads_bind ?_
      rcases StoredModel.setStart_run (m := counted.solver) ⟨e.solver.vars.size⟩ value with
        ⟨m', hrun, hstart⟩ | ⟨hunknown, -⟩
      · exact leads_call_of_ok hrun hstart
          (leads_pure (hpost hroom hbounds _ (hgrows.trans hstart)))
      · exact absurd (by rw [hgrows.size_eq]; simp) hunknown
  · exact leads_call_of_error hrun (hready.resolve_right hrefused)

theorem leads_addConstraint (s : Statement) {post : Unit → Emission (StoredModel Exact) → Prop}
    (hready : fails ∨ s.Sound e.solver.vars.size)
    (hpost : ∀ c e', s.Stores c → e.solver.Grows e'.solver [] [c] → post () e') :
    (emission fails).Leads e
      (Emit.call (StoredModel.solver.addConstraint s.lhs s.relation s.rhs)) post := by
  rcases StoredModel.addConstraint_run (m := e.solver) s with
    ⟨c, m, hrun, hstores, hgrows⟩ | ⟨hrefused, refusal, hrun⟩
  · exact leads_call_of_ok hrun hgrows (hpost c _ hstores hgrows)
  · exact leads_call_of_error hrun (hready.resolve_right hrefused)

theorem leads_countConstraints {n : Nat} {post : Unit → Emission (StoredModel Exact) → Prop}
    (hpost : ∀ e', e.solver.Grows e'.solver [] [] → post () e') :
    (emission fails).Leads e (Emit.countConstraints n : Emit Exact _ Unit) post :=
  leads_modify { e with stats.constraints := e.stats.constraints + n } rfl
    ⟨_, _, .refl e.solver⟩ (hpost _ (.refl e.solver))

/-! ## Groups -/

namespace Extremum

theorem initialBounds_selector :
    (⟨.binary, StoredModel.initialBounds .binary ⟨0, 1⟩⟩ : Shape) = .selector := by
  simp [StoredModel.initialBounds, Shape.selector, Scalar.max, Scalar.min, Scalar.IsNaN]

theorem leads_emitSelectors {label : String} {chosen : Option Nat} {i count : Nat}
    {post : List VarId → Emission (StoredModel Exact) → Prop}
    (hready : fails ∨ e.solver.HasRoom count)
    (hpost : (count = 0 ∨ e.solver.HasRoom count) → ∀ e',
      e.solver.Grows e'.solver (List.replicate count .selector) [] →
      post ((List.range' e.solver.vars.size count).map VarId.mk) e') :
    (emission fails).Leads e
      (emitSelectors StoredModel.solver label chosen i count : Emit Exact _ _) post := by
  induction count generalizing e i post with
  | zero => exact leads_pure (hpost (.inl rfl) e (.refl e.solver))
  | succ count ih =>
    refine leads_bind (leads_newVariable (hready.imp_right fun h =>
      ⟨fun limit hlimit => (Nat.add_le_add_left (Nat.le_add_left 1 count) _).trans (h limit hlimit),
        by simp⟩) ?_)
    intro hroom _ e₁ hfirst
    rw [initialBounds_selector] at hfirst
    have hshift : e₁.solver.HasRoom count ↔ e.solver.HasRoom (count + 1) := by
      rw [hfirst.hasRoom_iff, List.length_singleton, Nat.add_comm]
    refine leads_bind (ih (hready.imp_right hshift.mpr) ?_)
    intro hothers e₂ hgrows
    rw [hfirst.size_eq]
    refine leads_pure (hpost (.inr ?_) e₂ (hfirst.trans hgrows))
    rcases hothers with rfl | hothers
    · exact hroom
    · exact hshift.mp hothers

theorem pairStatements_sound {ext : Extremum} {m : Exact} {r operand selector : VarId} {count : Nat}
    (hm : Scalar.IsFinite m) (hr : r.index < count) (hoperand : operand.index < count)
    (hselector : selector.index < count) :
    ∀ s ∈ Gate.pairStatements ext m r operand selector, s.Sound count := by
  obtain ⟨q, rfl⟩ := Exact.isFinite_iff.mp hm
  have hslack : Scalar.IsFinite (ext.slack (Exact.fin q)) := by cases ext <;> simp [slack]
  intro s hs
  simp only [Gate.pairStatements, List.mem_cons, List.not_mem_nil, or_false] at hs
  rcases hs with rfl | rfl <;> constructor <;>
    simp [LinearExpr.ofVar, LinearExpr.term, LinearExpr.plus, hr, hoperand, hselector, hslack]

theorem leads_emitPair {ext : Extremum} {m : Exact} {r operand selector : VarId}
    {post : Unit → Emission (StoredModel Exact) → Prop}
    (hready : fails ∨ ∀ s ∈ Gate.pairStatements ext m r operand selector,
      s.Sound e.solver.vars.size)
    (hpost : ∀ cs e', List.Forall₂ Statement.Stores
      (Gate.pairStatements ext m r operand selector) cs → e.solver.Grows e'.solver [] cs →
      post () e') :
    (emission fails).Leads e (ext.emitPair StoredModel.solver m r operand selector) post := by
  refine leads_bind (leads_addConstraint ⟨.ofVar r, ext.bound, .ofVar operand⟩
    (hready.imp_right fun h => h _ (by simp [Gate.pairStatements])) ?_)
  intro c₁ e₁ hc₁ h₁
  refine leads_bind (leads_addConstraint
    ⟨.ofVar r, ext.relaxed, (LinearExpr.ofVar operand).plus (ext.slack m) selector⟩
    (hready.imp_right fun h => ?_) ?_)
  · simpa [h₁.size_eq] using h _ (by simp [Gate.pairStatements])
  intro c₂ e₂ hc₂ h₂
  refine leads_countConstraints fun e₃ h₃ => hpost [c₁, c₂] e₃ (.cons hc₁ (.cons hc₂ .nil)) ?_
  simpa using (h₁.trans h₂).trans h₃

theorem leads_emitPairs {ext : Extremum} {m : Exact} {r : VarId}
    {pairs : List (Encoded Exact VarId × VarId)}
    {post : Unit → Emission (StoredModel Exact) → Prop}
    (hready : fails ∨ ∀ x d, (x, d) ∈ pairs → ∀ s ∈ Gate.pairStatements ext m r x.var d,
      s.Sound e.solver.vars.size)
    (hpost : ∀ cs e', List.Forall₂ Statement.Stores
      (pairs.flatMap fun (x, d) => Gate.pairStatements ext m r x.var d) cs →
      e.solver.Grows e'.solver [] cs → post () e') :
    (emission fails).Leads e (pairs.forM fun (operand, selector) =>
      ext.emitPair StoredModel.solver m r operand.var selector : Emit Exact _ Unit) post := by
  induction pairs generalizing e post with
  | nil => exact leads_pure (hpost [] e .nil (.refl e.solver))
  | cons pair rest ih =>
    obtain ⟨x, d⟩ := pair
    refine leads_bind (leads_emitPair (hready.imp_right fun h => h x d (by simp)) ?_)
    intro cs₁ e₁ hcs₁ h₁
    refine ih (hready.imp_right fun h x d hmem => ?_) ?_
    · simpa [h₁.size_eq] using h x d (List.mem_cons_of_mem _ hmem)
    intro cs₂ e₂ hcs₂ h₂
    exact hpost (cs₁ ++ cs₂) e₂ (List.rel_append hcs₁ hcs₂) (h₁.trans h₂)

theorem emit_eq {α V σ : Type} [Scalar α] (model : SolverModel α V σ) {ext : Extremum}
    {label : String} {operands : List (Encoded α V)} {bigM : BigM α} {start : Option (ScoreTree α)}
    (h : 2 ≤ operands.length) :
    ext.emit model label operands bigM start = (do
      let m ← bigM.resolve (operands.map Encoded.bounds)
      let r ← Emit.newVariable model label .continuous
        (ext.boundsOf (operands.map Encoded.bounds)) (start.map ScoreTree.score)
      let selectors ← emitSelectors model label (start.bind ScoreTree.chosen) 0 operands.length
      (operands.zip selectors).forM fun (operand, selector) =>
        ext.emitPair model m r operand.var selector
      Emit.call (model.addConstraint (.sum selectors) .equal
        (.ofConstant (Scalar.ofNat (operands.length - 1))))
      Emit.countConstraints 1
      return ⟨r, ext.boundsOf (operands.map Encoded.bounds)⟩) := by
  match operands with
  | _ :: _ :: _ => rfl

/-- A group of two operands or more adds a gate; a single operand is its own extreme. -/
theorem leads_emit {ext : Extremum} {label : String} {operands : List (Encoded Exact VarId)}
    {bigM : BigM Exact} {start : Option (ScoreTree Exact)}
    {post : Encoded Exact VarId → Emission (StoredModel Exact) → Prop}
    (hready : fails ∨ operands ≠ [] ∧ e.solver.HasRoom (operands.length + 1) ∧
      (∀ x ∈ operands, x.var.index < e.solver.vars.size ∧ x.bounds.lower ≤ x.bounds.upper) ∧
      ∃ m, bigM.resolve (operands.map Encoded.bounds) = .ok m ∧ Scalar.IsFinite m)
    (hsingle : ∀ x, operands = [x] → post x e)
    (hgate : ∀ m e', bigM.resolve (operands.map Encoded.bounds) = .ok m →
      2 ≤ operands.length → e.solver.HasRoom (operands.length + 1) →
      (ext.boundsOf (operands.map Encoded.bounds)).lower ≤
        (ext.boundsOf (operands.map Encoded.bounds)).upper →
      (Gate.extreme ext m operands ⟨e.solver.vars.size⟩
        ((List.range' (e.solver.vars.size + 1) operands.length).map VarId.mk)).Extends
          e.solver e'.solver →
      post ⟨⟨e.solver.vars.size⟩, ext.boundsOf (operands.map Encoded.bounds)⟩ e') :
    (emission fails).Leads e (ext.emit StoredModel.solver label operands bigM start) post := by
  rcases Nat.lt_or_ge operands.length 2 with hshort | htwo
  · match operands with
    | [] => exact leads_throw (hready.resolve_right fun h => h.1 rfl)
    | [x] => exact leads_pure (hsingle x rfl)
  rw [emit_eq _ htwo]
  refine leads_bind (leads_lift (fun m hm => ?_) (hready.imp_right fun h => ?_))
  swap
  · obtain ⟨m, hm, -⟩ := h.2.2.2
    exact ⟨m, hm⟩
  refine leads_bind (leads_newVariable (hready.imp_right fun h =>
    ⟨fun limit hlimit => (Nat.add_le_add_left (Nat.le_add_left 1 _) _).trans (h.2.1 limit hlimit),
      ?_⟩) ?_)
  · refine boundsOf_ordered (by simpa using h.1) fun b hb => ?_
    obtain ⟨x, hx, rfl⟩ := List.mem_map.mp hb
    exact (h.2.2.1 x hx).2
  intro _ hordered e₁ h₁
  have hshift : e₁.solver.HasRoom operands.length ↔ e.solver.HasRoom (operands.length + 1) := by
    rw [h₁.hasRoom_iff, List.length_singleton, Nat.add_comm]
  refine leads_bind (leads_emitSelectors (hready.imp_right fun h => hshift.mpr h.2.1) ?_)
  intro hroom e₂ h₂
  replace hroom := hshift.mp (hroom.resolve_left (by omega))
  have hsize : e₂.solver.vars.size = e.solver.vars.size + 1 + operands.length := by
    rw [h₂.size_eq, h₁.size_eq]
    simp
  rw [show e₁.solver.vars.size = e.solver.vars.size + 1 from h₁.size_eq]
  set selectors := (List.range' (e.solver.vars.size + 1) operands.length).map VarId.mk
    with hselectors
  have hselector : ∀ d ∈ selectors, d.index < e₂.solver.vars.size := by
    intro d hd
    obtain ⟨k, hk, rfl⟩ := List.mem_map.mp hd
    have := List.mem_range'_1.mp hk
    simp only
    omega
  refine leads_bind (leads_emitPairs (hready.imp_right fun h x d hmem => ?_) ?_)
  · obtain ⟨m', hm', hfinite⟩ := h.2.2.2
    obtain rfl := Except.ok.inj (hm'.symm.trans hm)
    have hx := (h.2.2.1 x (List.of_mem_zip hmem).1).1
    exact pairStatements_sound hfinite (by simp only; omega) (by omega)
      (hselector d (List.of_mem_zip hmem).2)
  intro cs₁ e₃ hcs₁ h₃
  have hcount : (⟨.sum selectors, .equal, .ofConstant (Scalar.ofNat (operands.length - 1))⟩ :
      Statement) = Gate.countStatement selectors := by
    simp [Gate.countStatement, hselectors]
  refine leads_bind (leads_addConstraint
    ⟨.sum selectors, .equal, .ofConstant (Scalar.ofNat (operands.length - 1))⟩ (.inr ?_) ?_)
  · refine ⟨fun t ht => ?_, by simp [LinearExpr.sum], Exact.isFinite_iff.mpr ⟨_, rfl⟩⟩
    simp only [LinearExpr.sum, LinearExpr.ofConstant, List.append_nil, List.mem_map] at ht
    obtain ⟨d, hd, rfl⟩ := ht
    exact ⟨by simp, by rw [h₃.size_eq]; exact hselector d hd⟩
  intro c e₄ hc h₄
  rw [hcount] at hc
  refine leads_bind (leads_countConstraints fun e₅ h₅ => leads_pure (hgate m e₅ hm htwo hroom hordered ?_))
  refine ⟨cs₁ ++ [c], List.rel_append hcs₁ (.cons hc .nil), ?_⟩
  simpa [Gate.shapes, Shape.real, StoredModel.initialBounds, hselectors] using
    (((h₁.trans h₂).trans h₃).trans h₄).trans h₅

end Extremum

end SignalTemporalLogic
