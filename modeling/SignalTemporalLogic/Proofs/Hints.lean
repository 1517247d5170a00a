import SignalTemporalLogic.Proofs.Metering

/-!
Start values are hints. A tree of start values decides where a search begins and nothing else: not
which variables and constraints are added, nor what they are called, nor what the session remembers.
Its shape does not matter either, be it too small, too large, or that of another formula. To prove
it, two encodings of one formula are compared with a third one over a model that is told no start
values. There a tree makes no difference at all, and apart from the hints the other two are like it.
-/

namespace SignalTemporalLogic

variable {α V σ β γ : Type}

/-! ## Models that are told no start values -/

/-- The model, except that it ignores start values without being told. -/
def SolverModel.withoutStarts (model : SolverModel α V σ) : SolverModel α V σ :=
  { model with setStart := fun _ _ => pure () }

theorem Emit.newVariable_withoutStarts (model : SolverModel α V σ) (name : String) (kind : VarKind)
    (bounds : Bounds α) (start : Option α) :
    Emit.newVariable model.withoutStarts name kind bounds start =
      Emit.newVariable model.withoutStarts name kind bounds none := by
  cases start <;> rfl

variable [Scalar α]

namespace Extremum

theorem emitSelectors_withoutStarts (model : SolverModel α V σ) (label : String)
    (chosen : Option Nat) (i count : Nat) :
    emitSelectors model.withoutStarts label chosen i count =
      emitSelectors model.withoutStarts label none i count := by
  induction count generalizing i with
  | zero => rfl
  | succ count ih =>
    rw [emitSelectors, emitSelectors, ih, Emit.newVariable_withoutStarts,
      Emit.newVariable_withoutStarts _ _ _ _ (Option.map _ _)]

theorem emit_withoutStarts (e : Extremum) (model : SolverModel α V σ) (label : String)
    (operands : List (Encoded α V)) (bigM : BigM α) (start : Option (ScoreTree α)) :
    e.emit model.withoutStarts label operands bigM start =
      e.emit model.withoutStarts label operands bigM none := by
  match operands with
  | [] | [single] => rfl
  | first :: second :: rest =>
    rw [emit_eq _ (by simp), emit_eq _ (by simp), emitSelectors_withoutStarts,
      Emit.newVariable_withoutStarts]
    rfl

end Extremum

/-- The task without its start values. -/
def Task.unhinted (k : Task α) : Task α := { k with start := none }

/-- The plan without the start values of its tasks. -/
def Plan.unhinted : Plan α → Plan α
  | signal source => signal source
  | same k => same k.unhinted
  | negated k => negated k.unhinted
  | extreme e role tasks => extreme e role (tasks.map Task.unhinted)
  | candidates skipped rights lefts =>
    candidates skipped (rights.map Task.unhinted) (lefts.map Task.unhinted)

/-- A tree of start values has no influence on what is planned. -/
theorem Formula.plan_unhinted (settings : EncodingSettings α) (f : Formula α) (t : Nat)
    (start : Option (ScoreTree α)) :
    f.plan settings t none = (f.plan settings t start).map Plan.unhinted := by
  cases f with
  | predicate => rfl
  | not _ arg => cases arg <;> rfl
  | and _ args | or _ args =>
    show Except.ok _ = Except.ok (Plan.unhinted _)
    rw [Plan.unhinted, List.map_map]
    rfl
  | always _ interval _ | eventually _ interval _ =>
    simp only [Formula.plan]
    cases settings.policy.window interval settings.spacing t settings.horizon with
    | error e => rfl
    | ok w =>
      show Except.ok _ = Except.ok (Plan.unhinted _)
      rw [Plan.unhinted, List.map_map]
      rfl
  | holdsUntil _ interval _ _ =>
    simp only [Formula.plan]
    cases settings.policy.window interval settings.spacing t settings.horizon with
    | error e => rfl
    | ok w =>
      show Except.ok _ = Except.ok (Plan.unhinted _)
      rw [Plan.unhinted, List.map_map, List.map_map]
      rfl
  | next =>
    simp only [Formula.plan]
    cases (settings.policy.offsets t 1 1 settings.horizon : Except (Fault α) Window) <;> rfl

namespace Encode

variable {model : SolverModel α V σ} {t : Nat}

theorem equalTo_withoutStarts (role : VariableRole) (bounds : Bounds α)
    (start : Option (ScoreTree α)) (value : LinearExpr α V) :
    equalTo model.withoutStarts role t bounds start value =
      equalTo model.withoutStarts role t bounds none value := by
  unfold equalTo
  simp only [Emit.newVariable_withoutStarts]

theorem group_withoutStarts (e : Extremum) (role : VariableRole) (start : Option (ScoreTree α))
    (operands : List (Encoded α V)) :
    group model.withoutStarts e role t start operands =
      group model.withoutStarts e role t none operands := by
  unfold group
  simp only [Extremum.emit_withoutStarts]

theorem predicate_withoutStarts (source : Signal α) (start : Option (ScoreTree α)) :
    predicate model.withoutStarts source t start = predicate model.withoutStarts source t none := by
  simp only [predicate_eq, equalTo_withoutStarts]

/-- The same nodes are visited in the same order, and nothing else depends on start values. -/
theorem carryOut_unhinted {visit : Task α → Encode α V σ (Encoded α V)} {plan : Plan α}
    (start : Option (ScoreTree α)) (h : ∀ k ∈ plan.tasks, visit k = visit k.unhinted) :
    carryOut model.withoutStarts t start visit plan =
      carryOut model.withoutStarts t none visit plan.unhinted := by
  have hvisits (tasks : List (Task α)) (hmem : ∀ k ∈ tasks, k ∈ plan.tasks) :
      tasks.mapM visit = (tasks.map Task.unhinted).mapM visit := by
    induction tasks with
    | nil => rfl
    | cons k rest ih =>
      have hk := h k (hmem k (by simp))
      rw [List.map_cons, List.mapM_cons, List.mapM_cons, hk,
        ih fun k' hk' => hmem k' (by simp [hk'])]
  cases plan with
  | signal source => exact predicate_withoutStarts source start
  | same k => exact h k (by simp [Plan.tasks])
  | negated k =>
    simp only [carryOut, Plan.unhinted, h k (by simp [Plan.tasks]), negation]
    simp only [equalTo_withoutStarts]
  | extreme e role tasks =>
    simp only [carryOut, Plan.unhinted, hvisits tasks fun _ h => h, group_withoutStarts]
  | candidates skipped rights lefts =>
    simp only [carryOut, Plan.unhinted, hvisits rights fun _ h => List.mem_append_left _ h,
      hvisits lefts fun _ h => List.mem_append_right _ h, untilBest, group_withoutStarts]

/-- **A tree of start values makes no difference to a model that is told none.** -/
theorem formula_withoutStarts (f : Formula α) (t : Nat) (start : Option (ScoreTree α)) :
    formula model.withoutStarts f t start = formula model.withoutStarts f t none := by
  induction f, t, start using Formula.induction_on_plan with
  | step f t start ih =>
    have hcarry (settings : EncodingSettings α) : (do
        let plan ← f.plan settings t start
        carryOut model.withoutStarts t start (task model.withoutStarts) plan) = (do
        let plan ← f.plan settings t none
        carryOut model.withoutStarts t none (task model.withoutStarts) plan :
          Encode α V σ (Encoded α V)) := by
      funext s
      rw [f.plan_unhinted settings t start]
      cases hplan : f.plan settings t start with
      | error e => exact (RunLogic.run_bind_error rfl).trans (RunLogic.run_bind_error rfl).symm
      | ok plan =>
        have h : carryOut model.withoutStarts t start (task model.withoutStarts) plan =
            carryOut model.withoutStarts t none (task model.withoutStarts) plan.unhinted :=
          carryOut_unhinted start fun k hk => ih settings plan hplan k hk
        exact (RunLogic.run_bind_ok _ rfl).trans
          ((congrFun h s).trans (RunLogic.run_bind_ok _ rfl).symm)
    rw [formula_eq, formula_eq]
    simp only [hcarry]

end Encode

theorem Formula.encodeAt_withoutStarts (model : SolverModel α V σ) (f : Formula α) (anchor : Nat)
    (start : Option (ScoreTree α)) :
    f.encodeAt model.withoutStarts anchor start = f.encodeAt model.withoutStarts anchor none := by
  unfold Formula.encodeAt
  rw [Encode.formula_withoutStarts]

/-! ## Models that take start values as hints -/

/-- Start values are always accepted, and only change the state in ways that do not show: from
states that are the same in this sense, additions have the same outcome and lead to such states. -/
structure SolverModel.IgnoresStarts (model : SolverModel α V σ) (Same : σ → σ → Prop) : Prop where
  equivalence : Equivalence Same
  setStart (var : V) (value : α) (s : σ) :
    (model.setStart var value s).1 = .ok () ∧ Same s (model.setStart var value s).2
  addVariable (name : String) (kind : VarKind) (bounds : Bounds α) {s s' : σ} (h : Same s s') :
    (model.addVariable name kind bounds s).1 = (model.addVariable name kind bounds s').1 ∧
      Same (model.addVariable name kind bounds s).2 (model.addVariable name kind bounds s').2
  addConstraint (lhs : LinearExpr α V) (relation : Relation) (rhs : LinearExpr α V) {s s' : σ}
    (h : Same s s') :
    (model.addConstraint lhs relation rhs s).1 = (model.addConstraint lhs relation rhs s').1 ∧
      Same (model.addConstraint lhs relation rhs s).2 (model.addConstraint lhs relation rhs s').2

/-- The call adds a variable or a constraint to the model. -/
def SolverEvent.shapes : SolverEvent α V → Bool
  | added _ _ _ | constrained _ _ _ => true
  | started _ _ => false

/-- The accepted calls that added something to the model, in order. -/
def Meter.additions (m : Meter α V σ) : List (SolverEvent α V) := m.accepted.filter (·.shapes)

/-- The sessions differ in start values at most. -/
structure Session.SameButStarts (Same : σ → σ → Prop) (s s' : Session α V (Meter α V σ)) :
    Prop where
  solver : Same s.solver.solver s'.solver.solver
  additions : s.solver.additions = s'.solver.additions
  refused : s.solver.refused = s'.solver.refused
  context : s.context = s'.context

namespace Encode

variable {Same : σ → σ → Prop}

/-- From sessions that differ in start values at most, both computations have the same result and
lead to such sessions. -/
def AlikeButStarts (Same : σ → σ → Prop) (act act' : Encode α V (Meter α V σ) β) : Prop :=
  ∀ s s', Session.SameButStarts Same s s' →
    (act s).1 = (act' s').1 ∧ Session.SameButStarts Same (act s).2 (act' s').2

namespace AlikeButStarts

theorem bind {act act' : Encode α V (Meter α V σ) β}
    {next next' : β → Encode α V (Meter α V σ) γ} (h : AlikeButStarts Same act act')
    (hnext : ∀ b, AlikeButStarts Same (next b) (next' b)) :
    AlikeButStarts Same (act >>= next) (act' >>= next') := by
  intro s s' hs
  obtain ⟨hresult, hafter⟩ := h s s' hs
  rcases hrun : act s with ⟨e | b, u⟩ <;> rcases hrun' : act' s' with ⟨e' | b', u'⟩ <;>
    rw [hrun, hrun'] at hresult hafter <;> cases hresult
  · rw [RunLogic.run_bind_error hrun, RunLogic.run_bind_error hrun']
    exact ⟨rfl, hafter⟩
  · rw [RunLogic.run_bind_ok next hrun, RunLogic.run_bind_ok next' hrun']
    exact hnext b u u' hafter

/-- A call that adds to the model. -/
theorem call {event : SolverEvent α V} (hevent : event.shapes = true) {act : SolverCall α σ β}
    (h : ∀ {s s' : σ}, Same s s' → (act s).1 = (act s').1 ∧ Same (act s).2 (act s').2) :
    AlikeButStarts Same (emit (Emit.call (Meter.pass event act)))
      (emit (Emit.call (Meter.pass event act))) := by
  intro s s' hs
  obtain ⟨hresult, hafter⟩ := h hs.solver
  rcases hrun : act s.solver.solver with ⟨e | b, u⟩ <;>
    rcases hrun' : act s'.solver.solver with ⟨e' | b', u'⟩ <;>
    rw [hrun, hrun'] at hresult hafter <;> cases hresult
  · rw [emit_pass_error hrun, emit_pass_error hrun']
    refine ⟨rfl, hafter, hs.additions, ?_, hs.context⟩
    exact congrArg (· ++ [(event, e)]) hs.refused
  · rw [emit_pass_ok hrun, emit_pass_ok hrun']
    refine ⟨rfl, hafter, ?_, hs.refused, hs.context⟩
    have hadditions := congrArg (· ++ [event]) hs.additions
    simpa [Session.accept, Meter.accept, Meter.additions, hevent] using hadditions

end AlikeButStarts

end Encode

/-- To a model that takes start values as hints it makes no difference whether it is told any. -/
def hinting {model : SolverModel α V σ} {Same : σ → σ → Prop} (hmodel : model.IgnoresStarts Same) :
    Correspondence model.metered model.metered.withoutStarts :=
  CallCorrespondence.toCorrespondence {
    Alike := Encode.AlikeButStarts Same
    lift := fun x s s' hs => by cases x <;> exact ⟨rfl, hs⟩
    bind := Encode.AlikeButStarts.bind
    context := fun s s' hs => ⟨congrArg Except.ok hs.context, hs⟩
    modifyContext := fun change s s' hs =>
      ⟨rfl, hs.solver, hs.additions, hs.refused, congrArg change hs.context⟩
    addVariable := fun name kind bounds =>
      .call rfl fun h => hmodel.addVariable name kind bounds h
    addConstraint := fun lhs relation rhs =>
      .call rfl fun h => hmodel.addConstraint lhs relation rhs h
    setStart := fun var value s s' hs => by
      obtain ⟨hok, hsame⟩ := hmodel.setStart var value s.solver.solver
      have hset : model.setStart var value s.solver.solver =
          (.ok (), (model.setStart var value s.solver.solver).2) := Prod.ext hok rfl
      have hrun : Encode.emit (Emit.call (model.metered.setStart var value)) s = (.ok (), _) :=
        Encode.emit_pass_ok hset
      rw [hrun]
      refine ⟨rfl, ?_, ?_, hs.refused, hs.context⟩
      · exact hmodel.equivalence.trans (hmodel.equivalence.symm hsame) hs.solver
      · have hadditions : (s.solver.accept (.started var value)
            (model.setStart var value s.solver.solver).2).additions = s.solver.additions := by
          simp [Meter.accept, Meter.additions, SolverEvent.shapes]
        exact hadditions.trans hs.additions }

/-- **Warm starts do not change the model.** On a model that takes start values as hints, an
encoding with a tree of start values, whatever its shape, adds the same variables and the same
constraints as one without, in the same order, meets the same refusal or returns the same variable,
and leaves the same context: bindings, memo, counts and labels. -/
theorem warm_start_leaves_model {model : SolverModel α V σ} {Same : σ → σ → Prop}
    (hmodel : model.IgnoresStarts Same) (f : Formula α) (anchor : Nat) (tree : ScoreTree α)
    (solver : σ) (ctx : EncodingContext α V) :
    let warm := f.encodeAt model.metered anchor (some tree) ⟨⟨solver, [], []⟩, ctx⟩
    let plain := f.encodeAt model.metered anchor none ⟨⟨solver, [], []⟩, ctx⟩
    f.encodeAt model anchor (some tree) ⟨solver, ctx⟩ = (warm.1, warm.2.unmetered) ∧
    f.encodeAt model anchor none ⟨solver, ctx⟩ = (plain.1, plain.2.unmetered) ∧
    warm.1 = plain.1 ∧ warm.2.context = plain.2.context ∧
    warm.2.solver.additions = plain.2.solver.additions ∧
    warm.2.solver.refused = plain.2.solver.refused ∧
    Same warm.2.solver.solver plain.2.solver.solver := by
  intro warm plain
  have hstart : Session.SameButStarts Same (⟨⟨solver, [], []⟩, ctx⟩ : Session α V (Meter α V σ))
      ⟨⟨solver, [], []⟩, ctx⟩ := ⟨hmodel.equivalence.refl solver, rfl, rfl, rfl⟩
  obtain ⟨hwarm, hwarm'⟩ := (hinting hmodel).encodeAt f anchor (some tree) _ _ hstart
  obtain ⟨hplain, hplain'⟩ := (hinting hmodel).encodeAt f anchor none _ _ hstart
  rw [Formula.encodeAt_withoutStarts] at hwarm hwarm'
  exact ⟨f.encodeAt_unmetered model anchor (some tree) ⟨⟨solver, [], []⟩, ctx⟩,
    f.encodeAt_unmetered model anchor none ⟨⟨solver, [], []⟩, ctx⟩,
    hwarm.trans hplain.symm, hwarm'.context.trans hplain'.context.symm,
    hwarm'.additions.trans hplain'.additions.symm, hwarm'.refused.trans hplain'.refused.symm,
    hmodel.equivalence.trans hwarm'.solver (hmodel.equivalence.symm hplain'.solver)⟩

/-- The calls in a journal that added something. -/
def Journal.additions (journal : Journal α) : List (SolverEvent α String) :=
  journal.toList.filter (·.shapes)

omit [Scalar α] in
/-- A journal that never refuses writes start values down, but nothing depends on them. -/
theorem Journal.solver_ignoresStarts (source : Option String) :
    (Journal.solver ⟨true, none, source⟩ : SolverModel α String (Journal α)).IgnoresStarts
      fun journal journal' => journal.additions = journal'.additions where
  equivalence := ⟨fun _ => rfl, Eq.symm, Eq.trans⟩
  setStart var value journal := by
    refine ⟨rfl, ?_⟩
    show journal.additions = Journal.additions (journal.push (.started var value))
    simp [Journal.additions, SolverEvent.shapes]
  addVariable name kind bounds {journal journal'} h := by
    refine ⟨rfl, ?_⟩
    show Journal.additions (journal.push (.added name kind bounds)) =
      Journal.additions (journal'.push (.added name kind bounds))
    simpa [Journal.additions] using h
  addConstraint lhs relation rhs {journal journal'} h := by
    refine ⟨rfl, ?_⟩
    show Journal.additions (journal.push (.constrained lhs relation rhs)) =
      Journal.additions (journal'.push (.constrained lhs relation rhs))
    simpa [Journal.additions] using h

/-- A tree without children that names an operand which does not exist: three start values are
passed on, for the result and its two selectors, and the twelve additions are those of an encoding
without a tree. -/
theorem warm_start_leaves_model_of_aheadThroughout :
    let model : SolverModel Exact String (Journal Exact) := Journal.solver ⟨true, none, none⟩
    let s : Session Exact String (Meter Exact String (Journal Exact)) :=
      ⟨⟨#[], [], []⟩, threeSampleSession.context⟩
    let warm := aheadThroughout.encodeAt model.metered 0 (some ⟨.fin 2, some 7, []⟩) s
    let plain := aheadThroughout.encodeAt model.metered 0 none s
    warm.2.solver.accepted.length = 15 ∧ plain.2.solver.accepted.length = 12 ∧
      warm.1 = .ok "stl_alw2_t0" ∧ warm.2.solver.additions = plain.2.solver.additions := by
  intro model s warm plain
  have hwarm : warm.2.solver.accepted.length = 15 := by decide +kernel
  have hplain : plain.2.solver.accepted.length = 12 := by decide +kernel
  have hresult : plain.1 = .ok "stl_alw2_t0" := by decide +kernel
  obtain ⟨-, -, hsame, -, hadditions, -⟩ :=
    warm_start_leaves_model (Journal.solver_ignoresStarts none) aheadThroughout 0
      ⟨.fin 2, some 7, []⟩ #[] threeSampleSession.context
  exact ⟨hwarm, hplain, hsame.trans hresult, hadditions⟩

end SignalTemporalLogic
