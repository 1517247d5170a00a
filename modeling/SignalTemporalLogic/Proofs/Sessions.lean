import SignalTemporalLogic.Proofs.EncodingRuns

/-!
Sessions as a caller makes them: calls on one model and one context, in any order. Every call leaves
behind a session with a ledger, also one that fails on its way.
-/

namespace SignalTemporalLogic

open RunLogic

/-- A session with the variables that the caller has added. -/
structure Workspace where
  session : StoredSession
  own : List VarId

/-- What a caller may ask for. -/
inductive Call where
  | addVariable (name : String) (kind : VarKind) (bounds : Bounds Exact)
  | addConstraint (s : Statement)
  | fix (v : VarId) (value : Exact)
  | bind (sample : Sample) (v : VarId)
  | encodeAt (f : Formula Exact) (anchor : Nat) (start : Option (ScoreTree Exact))

namespace Workspace

abbrev model (w : Workspace) : StoredModel Exact := w.session.solver

abbrev context (w : Workspace) : EncodingContext Exact VarId := w.session.context

/-- A new session on an empty model without a tolerance. -/
def fresh (context : EncodingContext Exact VarId) (variableLimit : Option Nat) (nodeLimit : Nat) :
    Workspace where
  session := ⟨⟨#[], #[], variableLimit, .fin 0, nodeLimit⟩, context⟩
  own := []

/-- The workspace after a call. A call that fails leaves behind what it has done by then. -/
def after (w : Workspace) : Call → Workspace
  | .addVariable name kind bounds =>
    match StoredModel.addVariable name kind bounds w.model with
    | (.ok v, m) => ⟨{ w.session with solver := m }, v :: w.own⟩
    | (.error _, m) => { w with session := { w.session with solver := m } }
  | .addConstraint s =>
    { w with session := { w.session with
        solver := (StoredModel.addConstraint s.lhs s.relation s.rhs w.model).2 } }
  | .fix v value =>
    { w with session := { w.session with solver := (StoredModel.fix v value w.model).2 } }
  | .bind sample v =>
    { w with session := { w.session with context := w.context.bind sample v } }
  | .encodeAt f anchor start =>
    { w with session := (f.encodeAt StoredModel.solver anchor start w.session).2 }

end Workspace

/-- The caller fixes nothing but its own variables, binds no sample twice, and encodes formulas of
the library. -/
def Call.Admissible (lib : FormulaLibrary Exact) (w : Workspace) : Call → Prop
  | fix v _ => v ∈ w.own
  | bind sample v => w.context.bindings[sample]? = none ∧ v.index < w.model.vars.size
  | encodeAt f _ _ => f ∈ lib.formulas
  | addVariable .. => True
  | addConstraint _ => True

namespace Workspace

variable {rule : Workspace → Call → Prop}

/-- The workspaces that calls by a rule lead to. -/
inductive Reached (rule : Workspace → Call → Prop) : Workspace → Prop
  | fresh {options : EncodingOptions Exact} {context : EncodingContext Exact VarId}
      (variableLimit : Option Nat) (nodeLimit : Nat)
      (hcontext : EncodingContext.ofOptions? options = .ok context)
      (hhorizon : context.settings.horizon ≤ Index.last) :
      Reached rule (.fresh context variableLimit nodeLimit)
  | call {w : Workspace} (h : Reached rule w) {c : Call} (hc : rule w c) : Reached rule (w.after c)

/-- Every call of the list follows the rule when its turn comes. -/
def Admits (rule : Workspace → Call → Prop) : Workspace → List Call → Prop
  | _, [] => True
  | w, c :: rest => rule w c ∧ (w.after c).Admits rule rest

theorem Reached.run {w : Workspace} (h : w.Reached rule) {calls : List Call}
    (hcalls : w.Admits rule calls) : (calls.foldl after w).Reached rule := by
  induction calls generalizing w with
  | nil => exact h
  | cons c rest ih => exact ih (h.call hcalls.1) hcalls.2

end Workspace

namespace Ledger

variable {lib : FormulaLibrary Exact}

/-! ## Calls on a ledger -/

/-- The ledger of a new session. -/
theorem exists_fresh {options : EncodingOptions Exact} {context : EncodingContext Exact VarId}
    (variableLimit : Option Nat) (nodeLimit : Nat)
    (hcontext : EncodingContext.ofOptions? options = .ok context)
    (hhorizon : context.settings.horizon ≤ Index.last) :
    ∃ l : Ledger lib, l.session = (Workspace.fresh context variableLimit nodeLimit).session ∧
      l.gates = [] ∧ l.context.bindings = ∅ := by
  obtain ⟨settings, -, hcontext⟩ := Except.bind_eq_ok.mp hcontext
  obtain rfl := Except.pure_eq_ok.mp hcontext
  refine ⟨{
    session := (Workspace.fresh { settings } variableLimit nodeLimit).session
    gates := []
    horizon_le := hhorizon
    tolerance_eq := rfl
    normal := fun c hc => absurd hc (Array.not_mem_empty c)
    recorded := by simp
    remembered := fun site entry hentry => by simp [Workspace.fresh] at hentry
    named := by simp }, rfl, rfl, rfl⟩

/-- What a gate adds is in the model. -/
theorem lt_of_adds (l : Ledger lib) {g : Gate} (hg : g ∈ l.gates) {v : VarId} (h : g.Adds v) :
    v.index < l.model.vars.size := by
  obtain ⟨hle, hlt⟩ := h
  obtain ⟨i, hi⟩ := Nat.exists_eq_add_of_le hle
  have hshape := (l.recorded g hg).placed i _ (List.getElem?_eq_getElem (by omega))
  have hplaced := (List.getElem?_eq_some_iff.mp hshape).1
  rwa [StoredModel.length_shapes, ← hi] at hplaced

/-- A ledger for a session in which the caller has changed a variable that no gate has added. -/
theorem exists_fixed (l : Ledger lib) {v : VarId} (value : Exact)
    (h : ∀ g ∈ l.gates, ¬ g.Adds v) :
    ∃ l' : Ledger lib, l'.session =
        { l.session with solver := (StoredModel.fix v value l.model).2 } ∧
      l'.gates = l.gates ∧ l'.model.vars.size = l.model.vars.size := by
  have hunchanged : ∀ refusal, StoredModel.fix v value l.model = (.error refusal, l.model) →
      ∃ l' : Ledger lib, l'.session =
          { l.session with solver := (StoredModel.fix v value l.model).2 } ∧
        l'.gates = l.gates ∧ l'.model.vars.size = l.model.vars.size :=
    fun refusal hrun => ⟨l, by rw [hrun], rfl, rfl⟩
  by_cases hfinite : Scalar.IsFinite value
  · have hfix : StoredModel.fix v value l.model =
        StoredModel.update v (fun x => { x with bounds := .point value }) l.model := by
      simp [StoredModel.fix, hfinite]
    rcases StoredModel.update_run (m := l.model) v fun x => { x with bounds := .point value } with
      ⟨-, hrun⟩ | ⟨-, refusal, hrun⟩
    · rw [hfix, hrun]
      refine ⟨{ l with
        session := { l.session with solver := { l.model with
          vars := l.model.vars.modify v.index fun x => { x with bounds := .point value } } }
        tolerance_eq := l.tolerance_eq
        normal := fun c hc => by simpa using l.normal c hc
        recorded := fun g hg => ?_ }, rfl, rfl, by simp [model]⟩
      obtain ⟨hformed, hordered, hsourced, hstored, hplaced⟩ := l.recorded g hg
      refine ⟨hformed, hordered, hsourced, hstored, fun i shape hi => ?_⟩
      have hi' := hplaced i shape hi
      have hne : v.index ≠ g.output.var.index + i := fun he =>
        h g hg ⟨by omega, by have := (List.getElem?_eq_some_iff.mp hi).1; omega⟩
      simpa [StoredModel.shapes, Array.getElem?_modify, hne] using hi'
    · exact hunchanged refusal (hfix.trans hrun)
  · refine hunchanged (.notFixable value) ?_
    simp [StoredModel.fix, hfinite]
    rfl

/-- A ledger for a session in which one more sample is bound. -/
theorem exists_bound (l : Ledger lib) {sample : Sample} (v : VarId)
    (h : l.context.bindings[sample]? = none) :
    ∃ l' : Ledger lib, l'.session = { l.session with context := l.context.bind sample v } ∧
      l'.gates = l.gates := by
  have hpreserves : l.context.Preserves (l.context.bind sample v) := by
    refine ⟨rfl, fun other u hu => ?_⟩
    have hne : sample ≠ other := by
      rintro rfl
      simp [h] at hu
    simpa [EncodingContext.bind, Std.TreeMap.getElem?_insert, hne] using hu
  obtain ⟨l', hsession, hgates⟩ := l.exists_next
    { l.session with context := l.context.bind sample v } [] hpreserves (.refl l.model) (by simp)
    (fun site entry hentry => (List.append_nil l.gates).symm ▸ l.remembered site entry hentry)
    (fun f t hf => hf) (by simp)
  exact ⟨l', hsession, by simpa using hgates⟩

/-- **Encoding a formula at an anchor gives a variable for its unrolling there.** -/
theorem leads_encodeAt (w : Ledger lib) (fails : Prop) (f : Formula Exact) (t : Nat)
    (start : Option (ScoreTree Exact)) (hf : f ∈ lib.formulas)
    (hinside : fails ∨ t < w.context.settings.horizon) (hready : w.Ready fails f t) :
    (logic lib fails).Leads w (f.encodeAt StoredModel.solver t start) fun v w' =>
      ∃ x : Encoded Exact VarId, x.var = v ∧ w.Encodes w' f t x := by
  refine leads_bind (leads_bind (leads_ledger_context ?_))
  by_cases ht : w.context.settings.horizon ≤ t
  · simp only [ht, if_true]
    exact leads_throw (hinside.resolve_right (by omega))
  · simp only [ht, if_false]
    refine leads_pure (leads_bind ((leads_formula f t start w hf hready).mono fun x w' _ hx => ?_))
    exact leads_pure ⟨x, rfl, hx⟩

/-! ## Ledgers of workspaces -/

/-- The variables belong to the caller: they are in the model, and no gate adds them. -/
structure Own (l : Ledger lib) (own : List VarId) : Prop where
  known : ∀ v ∈ own, v.index < l.model.vars.size
  apart : ∀ v ∈ own, ∀ g ∈ l.gates, ¬ g.Adds v

/-- All samples are bound to variables of the model. -/
def BindsKnown (l : Ledger lib) : Prop :=
  ∀ (sample : Sample) (v : VarId), l.context.bindings[sample]? = some v →
    v.index < l.model.vars.size

section Workspaces

variable {l l' : Ledger lib} {own : List VarId}

theorem Later.size_le (h : l.Later l') : l.model.vars.size ≤ l'.model.vars.size := by
  obtain ⟨shapes, constraints, hgrows⟩ := h.model_grows
  exact hgrows.size_eq ▸ Nat.le_add_right _ _

theorem Own.later (h : l.Own own) (hlater : l.Later l') : l'.Own own := by
  refine ⟨fun v hv => (h.known v hv).trans_le hlater.size_le, fun v hv g hg hadds => ?_⟩
  rcases hlater.fresh g hg with hg | hle
  · exact h.apart v hv g hg hadds
  · exact absurd (h.known v hv) (Nat.not_lt.mpr (hle.trans hadds.1))

theorem BindsKnown.later (h : l.BindsKnown) (hlater : l.Later l') : l'.BindsKnown :=
  fun sample v hv => (h sample v (hlater.bindings_eq ▸ hv)).trans_le hlater.size_le

/-- A variable that the caller has just added is its own. -/
theorem Own.cons (h : l.Own own) (hlater : l.Later l') (hgates : l'.gates = l.gates)
    (hsize : l.model.vars.size < l'.model.vars.size) :
    l'.Own (⟨l.model.vars.size⟩ :: own) := by
  obtain ⟨hknown, hapart⟩ := h.later hlater
  refine ⟨List.forall_mem_cons.mpr ⟨hsize, hknown⟩, List.forall_mem_cons.mpr ⟨?_, hapart⟩⟩
  intro g hg hadds
  exact absurd (l.lt_of_adds (hgates ▸ hg) hadds) (Nat.lt_irrefl _)

/-- **Every call leaves behind a session with a ledger.** -/
theorem exists_after {w : Workspace} (hsession : l.session = w.session) (hown : l.Own w.own)
    (hbinds : l.BindsKnown) {c : Call} (hc : c.Admissible lib w) :
    ∃ l' : Ledger lib, l'.session = (w.after c).session ∧ l'.Own (w.after c).own ∧
      l'.BindsKnown := by
  obtain ⟨session, own⟩ := w
  obtain rfl : l.session = session := hsession
  cases c with
  | addVariable name kind bounds =>
    rcases StoredModel.addVariable_run (m := l.model) name kind bounds with
      ⟨-, m, hrun, hgrows⟩ | ⟨-, refusal, hrun⟩
    · obtain ⟨l', hl', hgates, hlater⟩ := l.exists_grown { l.session with solver := m }
        ⟨.refl _, _, _, hgrows⟩
      have hsize : l.model.vars.size < l'.model.vars.size := by
        rw [Ledger.model, Ledger.model, hl', hgrows.size_eq]
        exact Nat.lt_succ_self _
      simp only [Workspace.after, Workspace.model, hrun]
      exact ⟨l', hl', hown.cons hlater hgates hsize, hbinds.later hlater⟩
    · simp only [Workspace.after, Workspace.model, hrun]
      exact ⟨l, rfl, hown, hbinds⟩
  | addConstraint s =>
    have hgrows : ∃ shapes constraints, l.model.Grows
        (StoredModel.addConstraint s.lhs s.relation s.rhs l.model).2 shapes constraints := by
      rcases StoredModel.addConstraint_run (m := l.model) s with
        ⟨c, m, hrun, -, hgrows⟩ | ⟨-, refusal, hrun⟩
      · exact ⟨_, _, by rw [hrun]; exact hgrows⟩
      · exact ⟨_, _, by rw [hrun]; exact .refl l.model⟩
    obtain ⟨l', hl', -, hlater⟩ := l.exists_grown { l.session with
      solver := (StoredModel.addConstraint s.lhs s.relation s.rhs l.model).2 } ⟨.refl _, hgrows⟩
    exact ⟨l', hl', hown.later hlater, hbinds.later hlater⟩
  | fix v value =>
    obtain ⟨l', hl', hgates, hsize⟩ := l.exists_fixed value (hown.apart v hc)
    refine ⟨l', hl', ⟨fun u hu => hsize ▸ hown.known u hu, fun u hu => hgates ▸ hown.apart u hu⟩,
      fun sample u hu => hsize ▸ hbinds sample u ?_⟩
    rwa [Ledger.context, hl'] at hu
  | bind sample v =>
    obtain ⟨hfree, hv⟩ := hc
    obtain ⟨l', hl', hgates⟩ := l.exists_bound v hfree
    have hmodel : l'.model = l.model := by rw [Ledger.model, hl']
    refine ⟨l', hl', ⟨fun u hu => hmodel ▸ hown.known u hu, fun u hu => hgates ▸ hown.apart u hu⟩,
      fun other u hu => hmodel ▸ ?_⟩
    have hbound : (l.context.bind sample v).bindings[other]? = some u := by
      rwa [Ledger.context, hl'] at hu
    simp only [EncodingContext.bind, Std.TreeMap.getElem?_insert] at hbound
    split at hbound
    · obtain rfl := Option.some.inj hbound
      exact hv
    · exact hbinds other u hbound
  | encodeAt f anchor start =>
    obtain ⟨l', hl', hlater⟩ := (l.leads_encodeAt True f anchor start hc
      (.inl trivial) (.inl trivial)).exists_later
    exact ⟨l', hl', hown.later hlater, hbinds.later hlater⟩

end Workspaces

end Ledger

/-- **Every session that a caller can reach has a ledger.** -/
theorem Workspace.Reached.exists_ledger {lib : FormulaLibrary Exact} {w : Workspace}
    (h : w.Reached (Call.Admissible lib)) :
    ∃ l : Ledger lib, l.session = w.session ∧ l.Own w.own ∧ l.BindsKnown := by
  induction h with
  | fresh variableLimit nodeLimit hcontext hhorizon =>
    obtain ⟨l, hl, hgates, hbindings⟩ := Ledger.exists_fresh variableLimit nodeLimit hcontext
      hhorizon
    refine ⟨l, hl, ⟨by simp [Workspace.fresh], by simp [Workspace.fresh]⟩, fun sample v hv => ?_⟩
    simp [hbindings] at hv
  | call _ hc ih =>
    obtain ⟨l, hl, hown, hbinds⟩ := ih
    exact Ledger.exists_after hl hown hbinds hc

end SignalTemporalLogic
