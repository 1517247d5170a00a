import SignalTemporalLogic.Proofs.Emissions
import SignalTemporalLogic.Proofs.Plans

/-!
The faults that a computation may end in. An emission fails where the model refuses a call, where a
big-M constant cannot be found, and where a group has no operands. No other step of an encoding
finds that there are too few operands.
-/

namespace SignalTemporalLogic

/-- Every fault that the computation ends in is of one kind. -/
def FailsOnly {ε S β : Type} (kind : ε → Prop) (act : ExceptT ε (StateM S) β) : Prop :=
  ∀ s e, (act s).1 = .error e → kind e

namespace FailsOnly

variable {ε S β γ : Type} {kind : ε → Prop} {act : ExceptT ε (StateM S) β}

theorem pure (b : β) : FailsOnly kind (Pure.pure b : ExceptT ε (StateM S) β) := nofun

theorem throw {e : ε} (h : kind e) :
    FailsOnly kind (MonadExcept.throw e : ExceptT ε (StateM S) β) := by
  rintro s e' ⟨⟩
  exact h

theorem update (f : S → S) : FailsOnly kind (modify f : ExceptT ε (StateM S) Unit) := nofun

theorem lift {x : Except ε β} (h : ∀ e, x = .error e → kind e) :
    FailsOnly kind (liftM x : ExceptT ε (StateM S) β) := by
  intro s e he
  cases x with
  | error e' =>
    cases he
    exact h e rfl
  | ok b => cases he

theorem bind {next : β → ExceptT ε (StateM S) γ} (h : FailsOnly kind act)
    (hnext : ∀ b, FailsOnly kind (next b)) : FailsOnly kind (act >>= next) := by
  intro s e he
  rcases RunLogic.run_bind_eq_error (Prod.ext he rfl) with hact | ⟨b, u, -, hrest⟩
  · exact h s e (congrArg Prod.fst hact)
  · exact hnext b u e (congrArg Prod.fst hrest)

theorem forM {visit : β → ExceptT ε (StateM S) Unit} (h : ∀ b, FailsOnly kind (visit b))
    (bs : List β) : FailsOnly kind (bs.forM visit) := by
  induction bs with
  | nil => exact pure ()
  | cons b bs ih => exact (h b).bind fun _ => ih

theorem mapM {visit : β → ExceptT ε (StateM S) γ} (h : ∀ b, FailsOnly kind (visit b))
    (bs : List β) : FailsOnly kind (bs.mapM visit) := by
  induction bs with
  | nil => exact pure []
  | cons b bs ih =>
    rw [List.mapM_cons]
    exact (h b).bind fun c => ih.bind fun cs => pure (c :: cs)

end FailsOnly

/-! ## Emissions -/

variable {α V σ β : Type} {kind : Fault α → Prop} {model : SolverModel α V σ}

/-- What the model refuses is of one kind. -/
structure SolverModel.RefusesOnly (model : SolverModel α V σ) (kind : Refusal α → Prop) : Prop where
  addVariable (name : String) (sort : VarKind) (bounds : Bounds α) :
    FailsOnly kind (model.addVariable name sort bounds)
  addConstraint (lhs : LinearExpr α V) (relation : Relation) (rhs : LinearExpr α V) :
    FailsOnly kind (model.addConstraint lhs relation rhs)
  setStart (var : V) (value : α) : FailsOnly kind (model.setStart var value)

theorem FailsOnly.call {act : SolverCall α σ β} (h : FailsOnly (fun r => kind (.refused r)) act) :
    FailsOnly kind (Emit.call act) := by
  intro s e he
  rcases hrun : act s.solver with ⟨r | b, solver⟩
  · simp only [Emit.call, hrun, Except.error.injEq] at he
    exact he ▸ h s.solver r (congrArg Prod.fst hrun)
  · simp [Emit.call, hrun] at he

section Emissions

variable (hmodel : model.RefusesOnly fun r => kind (.refused r))

include hmodel

theorem newVariable_failsOnly (name : String) (sort : VarKind) (bounds : Bounds α)
    (start : Option α) : FailsOnly kind (Emit.newVariable model name sort bounds start) := by
  refine (FailsOnly.call (hmodel.addVariable name sort bounds)).bind fun v => ?_
  refine (FailsOnly.update _).bind fun _ => ?_
  cases start with
  | none => exact (FailsOnly.pure ()).bind fun _ => .pure v
  | some value => exact (FailsOnly.call (hmodel.setStart v value)).bind fun _ => .pure v

variable [Scalar α]

theorem emitSelectors_failsOnly (label : String) (chosen : Option Nat) (i count : Nat) :
    FailsOnly kind (Extremum.emitSelectors model label chosen i count) := by
  induction count generalizing i with
  | zero => exact .pure []
  | succ count ih =>
    exact (newVariable_failsOnly hmodel _ _ _ _).bind fun d => (ih (i + 1)).bind fun _ => .pure _

theorem emitPair_failsOnly (e : Extremum) (m : α) (r operand selector : V) :
    FailsOnly kind (e.emitPair model m r operand selector) :=
  (FailsOnly.call (hmodel.addConstraint _ _ _)).bind fun _ =>
    (FailsOnly.call (hmodel.addConstraint _ _ _)).bind fun _ => .update _

/-- A group that has operands fails only for want of a constant or by a refusal. -/
theorem emit_failsOnly {e : Extremum} {label : String} {operands : List (Encoded α V)}
    {bigM : BigM α} {start : Option (ScoreTree α)} (hne : operands ≠ [])
    (hbigM : ∀ fault, bigM.resolve (operands.map Encoded.bounds) = .error fault → kind fault) :
    FailsOnly kind (e.emit model label operands bigM start) := by
  match operands with
  | [] => exact absurd rfl hne
  | [single] => exact .pure single
  | first :: second :: rest =>
    rw [Extremum.emit_eq model (by simp)]
    refine (FailsOnly.lift hbigM).bind fun m => ?_
    refine (newVariable_failsOnly hmodel _ _ _ _).bind fun r => ?_
    refine (emitSelectors_failsOnly hmodel _ _ _ _).bind fun selectors => ?_
    refine (FailsOnly.forM (fun _ => emitPair_failsOnly hmodel _ _ _ _ _) _).bind fun _ => ?_
    refine (FailsOnly.call (hmodel.addConstraint _ _ _)).bind fun _ => ?_
    exact (FailsOnly.update _).bind fun _ => .pure _

theorem emitEquality_failsOnly (label : String) (bounds : Bounds α) (start : Option α)
    (value : LinearExpr α V) :
    FailsOnly kind (do
      let y ← Emit.newVariable model label .continuous bounds start
      Emit.call (model.addConstraint (.ofVar y) .equal value)
      Emit.countConstraints 1
      return (⟨y, bounds⟩ : Encoded α V)) := by
  refine (newVariable_failsOnly hmodel _ _ _ _).bind fun y => ?_
  exact (FailsOnly.call (hmodel.addConstraint _ _ _)).bind fun _ =>
    (FailsOnly.update _).bind fun _ => .pure _

end Emissions

/-! ## Sessions -/

section Sessions

variable [Scalar α]

theorem FailsOnly.emit {act : Emit α σ β} (h : FailsOnly kind act) :
    FailsOnly kind (Encode.emit act : Encode α V σ β) :=
  fun s e he => h ⟨s.solver, s.context.stats⟩ e he

theorem FailsOnly.context :
    FailsOnly kind (Encode.context : Encode α V σ (EncodingContext α V)) := nofun

theorem FailsOnly.takeLabel (role : VariableRole) (t : Nat) :
    FailsOnly kind (Encode.takeLabel role t : Encode α V σ String) := nofun

theorem equalTo_failsOnly (hmodel : model.RefusesOnly fun r => kind (.refused r))
    (role : VariableRole) (t : Nat) (bounds : Bounds α) (start : Option (ScoreTree α))
    (value : LinearExpr α V) :
    FailsOnly kind (Encode.equalTo model role t bounds start value) :=
  (FailsOnly.takeLabel role t).bind fun label =>
    .emit (emitEquality_failsOnly hmodel label bounds _ value)

end Sessions

/-! ## Too few operands -/

section Arity

/-- A list of operands is too short. -/
def Fault.IsArity : Fault α → Prop
  | arity _ _ _ => True
  | _ => False

/-- No list is too short for a solver model. -/
theorem SolverModel.refusesOnly_not_isArity (model : SolverModel α V σ) :
    model.RefusesOnly fun r => ¬ (Fault.refused r).IsArity where
  addVariable _ _ _ := fun _ _ _ => not_false
  addConstraint _ _ _ := fun _ _ _ => not_false
  setStart _ _ := fun _ _ _ => not_false

variable {fault : Fault α}

theorem WindowFault.not_isArity (start stop : α) (reason : WindowFault) :
    ¬ (reason.fault start stop).IsArity := by
  cases reason <;> exact not_false

theorem Signal.not_isArity_of_samplesAt {source : Signal α} {t : Nat}
    (h : source.samplesAt t = .error fault) : ¬ fault.IsArity := by
  obtain ⟨label, -, hlabel⟩ := Except.exists_of_mapM_eq_error h
  unfold Signal.sampleAt at hlabel
  split at hlabel <;> cases hlabel
  exact not_false

variable [Scalar α]

theorem SignalForm.not_isArity_of_affinePart {form : SignalForm α}
    (h : form.affinePart = .error fault) : ¬ fault.IsArity := by
  cases form <;> cases h
  exact not_false

theorem BigM.not_isArity_of_resolve {bigM : BigM α} {bounds : List (Bounds α)}
    (h : bigM.resolve bounds = .error fault) : ¬ fault.IsArity := by
  cases bigM with
  | constant => cases h
  | fromBounds =>
    simp only [BigM.resolve] at h
    split at h <;> cases h
    exact not_false

theorem TimeInterval.not_isArity_of_discretize {interval : TimeInterval α} {spacing : α}
    (h : interval.discretize spacing = .error fault) : ¬ fault.IsArity := by
  simp only [TimeInterval.discretize] at h
  split at h
  · split at h <;> cases h
    exact not_false
  · cases h
    exact not_false

theorem WindowPolicy.not_isArity_of_offsets {policy : WindowPolicy} {anchor lo hi length : Nat}
    (h : policy.offsets anchor lo hi length = .error fault) : ¬ fault.IsArity := by
  obtain ⟨reason, -, rfl⟩ := Except.mapError_eq_error.mp h
  exact reason.not_isArity _ _

theorem WindowPolicy.not_isArity_of_window {policy : WindowPolicy} {interval : TimeInterval α}
    {spacing : α} {anchor length : Nat}
    (h : policy.window interval spacing anchor length = .error fault) : ¬ fault.IsArity := by
  rcases Except.bind_eq_error.mp h with hoffsets | ⟨offsets, -, hresolve⟩
  · exact TimeInterval.not_isArity_of_discretize hoffsets
  · obtain ⟨reason, -, rfl⟩ := Except.mapError_eq_error.mp hresolve
    exact reason.not_isArity _ _

theorem EncodingContext.not_isArity_of_boundVariable {ctx : EncodingContext α V} {sample : Sample}
    (h : ctx.boundVariable sample = .error fault) : ¬ fault.IsArity := by
  unfold EncodingContext.boundVariable at h
  split at h <;> cases h
  exact not_false

theorem checkIndex_not_isArity (t : Nat) :
    FailsOnly (¬ ·.IsArity) (Encode.checkIndex t : Encode α V σ Unit) := by
  refine FailsOnly.context.bind fun ctx => ?_
  by_cases h : ctx.settings.horizon ≤ t
  · simp only [if_pos h]
    exact .throw not_false
  · simp only [if_neg h]
    exact .pure ()

/-- A predicate may be at fault in many ways, but it takes no operands. -/
theorem predicate_not_isArity (model : SolverModel α V σ) (source : Signal α) (t : Nat)
    (start : Option (ScoreTree α)) :
    FailsOnly (¬ ·.IsArity) (Encode.predicate model source t start) := by
  refine (FailsOnly.lift fun _ => SignalForm.not_isArity_of_affinePart).bind fun part => ?_
  refine (checkIndex_not_isArity t).bind fun _ => ?_
  refine (FailsOnly.lift fun _ => Signal.not_isArity_of_samplesAt).bind fun samples => ?_
  refine (FailsOnly.mapM (fun input => ?_) _).bind fun terms => ?_
  · refine (checkIndex_not_isArity _).bind fun _ => FailsOnly.context.bind fun ctx => ?_
    exact (FailsOnly.lift fun _ => EncodingContext.not_isArity_of_boundVariable).bind fun _ =>
      .pure _
  · exact equalTo_failsOnly model.refusesOnly_not_isArity _ _ _ _ _

end Arity

end SignalTemporalLogic
