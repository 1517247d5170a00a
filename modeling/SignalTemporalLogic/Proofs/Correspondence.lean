import SignalTemporalLogic.Proofs.Emissions
import SignalTemporalLogic.Proofs.Plans

/-!
Two runs of the encoder, side by side, over two solver models. The encoder never looks at a model,
so on both it takes the same steps. A relation between computations that composes, and that holds of
the few steps in which a model is called, is then a relation between whole encodings. It is for the
relation to say what a call may do: a model may write down what it is told, refuse from some call
on, or be the same one twice.
-/

namespace SignalTemporalLogic

variable {α V σ τ β γ : Type} [Scalar α]

/-! ## Emissions as steps of a session -/

namespace Encode

theorem emit_lift (x : Except (Fault α) β) :
    emit (liftM x : Emit α σ β) = (liftM x : Encode α V σ β) := by
  cases x <;> rfl

theorem emit_bind (act : Emit α σ β) (next : β → Emit α σ γ) :
    (emit (act >>= next) : Encode α V σ γ) = emit act >>= fun b => emit (next b) := by
  funext s
  rcases hrun : act ⟨s.solver, s.context.stats⟩ with ⟨e | b, emission⟩
  · have hemit : (emit act : Encode α V σ β) s =
        (.error e, ⟨emission.solver, { s.context with stats := emission.stats }⟩) := by
      simp [emit, hrun]
    rw [RunLogic.run_bind_error hemit]
    simp [emit, RunLogic.run_bind_error hrun]
  · have hemit : (emit act : Encode α V σ β) s =
        (.ok b, ⟨emission.solver, { s.context with stats := emission.stats }⟩) := by
      simp [emit, hrun]
    rw [RunLogic.run_bind_ok _ hemit]
    simp [emit, RunLogic.run_bind_ok _ hrun]

theorem takeLabel_eq (role : VariableRole) (t : Nat) :
    (takeLabel role t : Encode α V σ String) = (do
      let ctx ← context
      modifyContext fun ctx => { ctx with nextLabel := ctx.nextLabel + 1 }
      return EncodingContext.labelText ctx.settings.labelStem role ctx.nextLabel t) := rfl

end Encode

namespace EncodingStats

/-- The counts with one more variable. -/
def addVariable (stats : EncodingStats) : VarKind → EncodingStats
  | .continuous => { stats with continuous := stats.continuous + 1 }
  | .binary => { stats with binaries := stats.binaries + 1 }

def addConstraints (stats : EncodingStats) (n : Nat) : EncodingStats :=
  { stats with constraints := stats.constraints + n }

/-- The counts of what was added to the model are the same. -/
structure Matches (a b : EncodingStats) : Prop where
  continuous : a.continuous = b.continuous
  binaries : a.binaries = b.binaries
  constraints : a.constraints = b.constraints

end EncodingStats

namespace Encode

def changeStats (change : EncodingStats → EncodingStats) : Encode α V σ Unit :=
  modifyContext fun ctx => { ctx with stats := change ctx.stats }

theorem emit_countVariable (kind : VarKind) :
    (emit (Emit.countVariable kind) : Encode α V σ Unit) = changeStats (·.addVariable kind) := by
  cases kind <;> rfl

/-- A new variable is counted before it gets its start value. -/
theorem emit_newVariable (model : SolverModel α V σ) (name : String) (kind : VarKind)
    (bounds : Bounds α) (start : Option α) :
    (emit (Emit.newVariable model name kind bounds start) : Encode α V σ V) = (do
      let v ← emit (Emit.call (model.addVariable name kind bounds))
      changeStats (·.addVariable kind)
      if let some value := start then emit (Emit.call (model.setStart v value))
      return v) := by
  rw [Emit.newVariable, emit_bind]
  refine congrArg _ (funext fun v => ?_)
  rw [emit_bind, emit_countVariable]
  cases start with
  | none => rfl
  | some value => exact congrArg _ (funext fun _ => emit_bind _ _)

theorem emit_equality (model : SolverModel α V σ) (lhs rhs : LinearExpr α V) :
    (emit (do
      Emit.call (model.addConstraint lhs .equal rhs)
      Emit.countConstraints 1) : Encode α V σ Unit) = (do
        emit (Emit.call (model.addConstraint lhs .equal rhs))
        changeStats (·.addConstraints 1)) :=
  emit_bind _ _

/-- Two constraints are counted when both have been added. -/
theorem emit_pair (model : SolverModel α V σ) (e : Extremum) (m : α) (r operand selector : V) :
    (emit (e.emitPair model m r operand selector) : Encode α V σ Unit) = (do
      emit (Emit.call (model.addConstraint (.ofVar r) e.bound (.ofVar operand)))
      emit (Emit.call (model.addConstraint (.ofVar r) e.relaxed
        ((LinearExpr.ofVar operand).plus (e.slack m) selector)))
      changeStats (·.addConstraints 2)) := by
  rw [Extremum.emitPair, emit_bind]
  exact congrArg _ (funext fun _ => emit_bind _ _)

end Encode

/-- A relation between computations over two models that keeps to the steps of the encoder. -/
structure Correspondence (model : SolverModel α V σ) (model' : SolverModel α V τ) where
  Alike {β : Type} : Encode α V σ β → Encode α V τ β → Prop
  lift {β : Type} (x : Except (Fault α) β) : Alike (liftM x) (liftM x)
  bind {β γ : Type} {act : Encode α V σ β} {act' : Encode α V τ β} {next : β → Encode α V σ γ}
    {next' : β → Encode α V τ γ} : Alike act act' → (∀ b, Alike (next b) (next' b)) →
      Alike (act >>= next) (act' >>= next')
  context : Alike Encode.context Encode.context
  /-- Changes of the context outside of an emission add nothing to the model. -/
  modifyContext (change : EncodingContext α V → EncodingContext α V)
    (h : ∀ ctx, (change ctx).stats.Matches ctx.stats) :
    Alike (Encode.modifyContext change) (Encode.modifyContext change)
  newVariable (name : String) (kind : VarKind) (bounds : Bounds α) (start : Option α) :
    Alike (Encode.emit (Emit.newVariable model name kind bounds start))
      (Encode.emit (Emit.newVariable model' name kind bounds start))
  /-- An equality is counted when it has been added. -/
  equality (lhs rhs : LinearExpr α V) :
    Alike
      (Encode.emit do
        Emit.call (model.addConstraint lhs .equal rhs)
        Emit.countConstraints 1)
      (Encode.emit do
        Emit.call (model'.addConstraint lhs .equal rhs)
        Emit.countConstraints 1)
  pair (e : Extremum) (m : α) (r operand selector : V) :
    Alike (Encode.emit (e.emitPair model m r operand selector))
      (Encode.emit (e.emitPair model' m r operand selector))

namespace Correspondence

variable {model : SolverModel α V σ} {model' : SolverModel α V τ}
  (c : Correspondence model model')

theorem pure (b : β) : c.Alike (Pure.pure b) (Pure.pure b) := c.lift (.ok b)

theorem mapM {visit : γ → Encode α V σ β} {visit' : γ → Encode α V τ β} {items : List γ}
    (h : ∀ d ∈ items, c.Alike (visit d) (visit' d)) :
    c.Alike (items.mapM visit) (items.mapM visit') := by
  induction items with
  | nil => exact c.pure []
  | cons d items ih =>
    rw [List.mapM_cons, List.mapM_cons]
    refine c.bind (h d (by simp)) fun b => ?_
    exact c.bind (ih fun d' hd' => h d' (by simp [hd'])) fun bs => c.pure (b :: bs)

/-! ## Emissions -/

/-- The emissions correspond as steps of a session. -/
def Emits (act : Emit α σ β) (act' : Emit α τ β) : Prop :=
  c.Alike (Encode.emit act) (Encode.emit act')

theorem emits_lift (x : Except (Fault α) β) : c.Emits (liftM x) (liftM x) := by
  unfold Emits
  rw [Encode.emit_lift, Encode.emit_lift]
  exact c.lift x

theorem emits_pure (b : β) : c.Emits (Pure.pure b) (Pure.pure b) := c.emits_lift (.ok b)

variable {c}

theorem Emits.bind {act : Emit α σ β} {act' : Emit α τ β} {next : β → Emit α σ γ}
    {next' : β → Emit α τ γ} (h : c.Emits act act') (hnext : ∀ b, c.Emits (next b) (next' b)) :
    c.Emits (act >>= next) (act' >>= next') := by
  unfold Emits
  rw [Encode.emit_bind, Encode.emit_bind]
  exact c.bind h hnext

theorem Emits.forM {visit : γ → Emit α σ Unit} {visit' : γ → Emit α τ Unit}
    (h : ∀ d, c.Emits (visit d) (visit' d)) (items : List γ) :
    c.Emits (items.forM visit) (items.forM visit') := by
  induction items with
  | nil => exact c.emits_pure ()
  | cons d items ih => exact (h d).bind fun _ => ih

variable (c)

/-- An equality and what follows it. -/
theorem emits_equality {next : Emit α σ β} {next' : Emit α τ β} (lhs rhs : LinearExpr α V)
    (h : c.Emits next next') :
    c.Emits (do
      Emit.call (model.addConstraint lhs .equal rhs)
      Emit.countConstraints 1
      next) (do
      Emit.call (model'.addConstraint lhs .equal rhs)
      Emit.countConstraints 1
      next') := by
  have hcounted : c.Emits (do
      Emit.call (model.addConstraint lhs .equal rhs)
      Emit.countConstraints 1) (do
      Emit.call (model'.addConstraint lhs .equal rhs)
      Emit.countConstraints 1) := c.equality lhs rhs
  simpa only [bind_assoc] using hcounted.bind fun _ => h

theorem emits_selectors (label : String) (chosen : Option Nat) (i count : Nat) :
    c.Emits (Extremum.emitSelectors model label chosen i count)
      (Extremum.emitSelectors model' label chosen i count) := by
  induction count generalizing i with
  | zero => exact c.emits_pure []
  | succ count ih =>
    have hselector (start : Option α) := c.newVariable s!"{label}_d{i}" .binary ⟨0, 1⟩ start
    exact Emits.bind (hselector _) fun d => (ih (i + 1)).bind fun ds =>
      c.emits_pure (d :: ds)

theorem emits_extremum (e : Extremum) (label : String) (operands : List (Encoded α V))
    (bigM : BigM α) (start : Option (ScoreTree α)) :
    c.Emits (e.emit model label operands bigM start) (e.emit model' label operands bigM start) := by
  match operands with
  | [] => exact c.emits_lift (.error _)
  | [single] => exact c.emits_pure single
  | first :: second :: rest =>
    rw [Extremum.emit_eq model (by simp), Extremum.emit_eq model' (by simp)]
    refine (c.emits_lift _).bind fun m => ?_
    refine Emits.bind (c.newVariable _ _ _ _) fun r => ?_
    refine (c.emits_selectors _ _ _ _).bind fun selectors => ?_
    refine (Emits.forM (fun _ => c.pair _ _ _ _ _) _).bind fun _ => ?_
    exact c.emits_equality _ _ (c.emits_pure _)

/-! ## Encodings -/

variable {t : Nat} {start : Option (ScoreTree α)}

theorem takeLabel (role : VariableRole) (t : Nat) :
    c.Alike (Encode.takeLabel role t) (Encode.takeLabel role t) := by
  rw [Encode.takeLabel_eq, Encode.takeLabel_eq]
  refine c.bind c.context fun ctx => c.bind (c.modifyContext _ fun _ => ⟨rfl, rfl, rfl⟩) fun _ => ?_
  exact c.pure _

theorem equalTo (role : VariableRole) (t : Nat) (bounds : Bounds α)
    (start : Option (ScoreTree α)) (value : LinearExpr α V) :
    c.Alike (Encode.equalTo model role t bounds start value)
      (Encode.equalTo model' role t bounds start value) := by
  refine c.bind (c.takeLabel role t) fun label => ?_
  exact Emits.bind (c.newVariable _ _ _ _) fun y =>
    c.emits_equality _ _ (c.emits_pure _)

theorem predicate (source : Signal α) (t : Nat) (start : Option (ScoreTree α)) :
    c.Alike (Encode.predicate model source t start) (Encode.predicate model' source t start) := by
  rw [Encode.predicate_eq, Encode.predicate_eq]
  exact c.bind c.context fun _ => c.bind (c.lift _) fun value => c.equalTo ..

theorem group (e : Extremum) (role : VariableRole) (t : Nat) (start : Option (ScoreTree α))
    (operands : List (Encoded α V)) :
    c.Alike (Encode.group model e role t start operands)
      (Encode.group model' e role t start operands) :=
  c.bind c.context fun _ => c.bind (c.takeLabel role t) fun _ => c.emits_extremum ..

theorem minimaAfter (before : Encoded α V) (operands : List (Encoded α V)) :
    c.Alike (Encode.minimaAfter model t before operands)
      (Encode.minimaAfter model' t before operands) := by
  induction operands generalizing before with
  | nil => exact c.pure []
  | cons operand rest ih =>
    exact c.bind (c.group ..) fun minimum => c.bind (ih minimum) fun others => c.pure _

theorem runningMinima (operands : List (Encoded α V)) :
    c.Alike (Encode.runningMinima model t operands) (Encode.runningMinima model' t operands) := by
  cases operands with
  | nil => exact c.pure []
  | cons operand rest => exact c.bind (c.minimaAfter operand rest) fun _ => c.pure _

theorem untilBest (skipped : Nat) (rights lefts : List (Encoded α V)) :
    c.Alike (Encode.untilBest model t skipped start rights lefts)
      (Encode.untilBest model' t skipped start rights lefts) := by
  refine c.bind (c.runningMinima lefts) fun minima => c.bind (c.mapM fun term _ => ?_) fun terms =>
    c.group ..
  match term with
  | (right, none) => exact c.pure right
  | (right, some before) => exact c.group ..

/-- The same plan is carried out alike if its nodes are visited alike. -/
theorem carryOut {plan : Plan α} {visit : Task α → Encode α V σ (Encoded α V)}
    {visit' : Task α → Encode α V τ (Encoded α V)}
    (h : ∀ k ∈ plan.tasks, c.Alike (visit k) (visit' k)) :
    c.Alike (Encode.carryOut model t start visit plan)
      (Encode.carryOut model' t start visit' plan) := by
  cases plan with
  | signal source => exact c.predicate source t start
  | same k => exact h k (by simp [Plan.tasks])
  | negated k => exact c.bind (h k (by simp [Plan.tasks])) fun _ => c.equalTo ..
  | extreme e role tasks => exact c.bind (c.mapM h) fun _ => c.group ..
  | candidates skipped rights lefts =>
    refine c.bind (c.mapM fun k hk => h k (List.mem_append_left _ hk)) fun xs => ?_
    exact c.bind (c.mapM fun k hk => h k (List.mem_append_right _ hk)) fun ys => c.untilBest ..

/-- **A formula is encoded alike over both models.** -/
theorem formula (f : Formula α) (t : Nat) (start : Option (ScoreTree α)) :
    c.Alike (Encode.formula model f t start) (Encode.formula model' f t start) := by
  induction f, t, start using Formula.induction_on_plan with
  | step f t start ih =>
    rw [Encode.formula_eq, Encode.formula_eq, Encode.memoized, Encode.memoized]
    refine c.bind c.context fun ctx => ?_
    cases ctx.encoded? f t with
    | some hit =>
      exact c.bind (c.modifyContext _ fun _ => ⟨rfl, rfl, rfl⟩) fun _ => c.pure hit
    | none =>
      refine c.bind (c.bind c.context fun ctx => ?_) fun encoded =>
        c.bind (c.modifyContext _ fun _ => ⟨rfl, rfl, rfl⟩) fun _ => c.pure encoded
      cases hplan : f.plan ctx.settings t start with
      | error e => exact c.lift (.error e)
      | ok plan => exact c.carryOut fun k hk => ih _ plan hplan k hk

theorem encodeAt (f : Formula α) (anchor : Nat) (start : Option (ScoreTree α)) :
    c.Alike (f.encodeAt model anchor start) (f.encodeAt model' anchor start) := by
  have hcheck : c.Alike (Encode.checkIndex anchor) (Encode.checkIndex anchor) := by
    rw [(Encode.checkIndex_consults anchor).eq_read, (Encode.checkIndex_consults anchor).eq_read]
    exact c.bind c.context fun ctx => c.lift (ctx.inside anchor)
  exact c.bind hcheck fun _ => c.bind (c.formula f anchor start) fun encoded => c.pure encoded.var

end Correspondence

/-! ## Relations that hold of every call -/

/-- A relation between computations over two models that holds of every call, and to which it does
not matter what is counted. -/
structure CallCorrespondence (model : SolverModel α V σ) (model' : SolverModel α V τ) where
  Alike {β : Type} : Encode α V σ β → Encode α V τ β → Prop
  lift {β : Type} (x : Except (Fault α) β) : Alike (liftM x) (liftM x)
  bind {β γ : Type} {act : Encode α V σ β} {act' : Encode α V τ β} {next : β → Encode α V σ γ}
    {next' : β → Encode α V τ γ} : Alike act act' → (∀ b, Alike (next b) (next' b)) →
      Alike (act >>= next) (act' >>= next')
  context : Alike Encode.context Encode.context
  modifyContext (change : EncodingContext α V → EncodingContext α V) :
    Alike (Encode.modifyContext change) (Encode.modifyContext change)
  addVariable (name : String) (kind : VarKind) (bounds : Bounds α) :
    Alike (Encode.emit (Emit.call (model.addVariable name kind bounds)))
      (Encode.emit (Emit.call (model'.addVariable name kind bounds)))
  addConstraint (lhs : LinearExpr α V) (relation : Relation) (rhs : LinearExpr α V) :
    Alike (Encode.emit (Emit.call (model.addConstraint lhs relation rhs)))
      (Encode.emit (Emit.call (model'.addConstraint lhs relation rhs)))
  setStart (var : V) (value : α) :
    Alike (Encode.emit (Emit.call (model.setStart var value)))
      (Encode.emit (Emit.call (model'.setStart var value)))

/-- Such a relation is kept by the encoder. -/
def CallCorrespondence.toCorrespondence {model : SolverModel α V σ} {model' : SolverModel α V τ}
    (c : CallCorrespondence model model') : Correspondence model model' where
  Alike := c.Alike
  lift := c.lift
  bind := c.bind
  context := c.context
  modifyContext change _ := c.modifyContext change
  newVariable name kind bounds start := by
    rw [Encode.emit_newVariable, Encode.emit_newVariable]
    refine c.bind (c.addVariable name kind bounds) fun v => c.bind (c.modifyContext _) fun _ => ?_
    cases start with
    | none => exact c.bind (c.lift (.ok ())) fun _ => c.lift (.ok v)
    | some value => exact c.bind (c.setStart v value) fun _ => c.lift (.ok v)
  equality lhs rhs := by
    rw [Encode.emit_equality, Encode.emit_equality]
    exact c.bind (c.addConstraint lhs .equal rhs) fun _ => c.modifyContext _
  pair e m r operand selector := by
    rw [Encode.emit_pair, Encode.emit_pair]
    exact c.bind (c.addConstraint ..) fun _ => c.bind (c.addConstraint ..) fun _ =>
      c.modifyContext _

end SignalTemporalLogic
