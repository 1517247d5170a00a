import SignalTemporalLogic.Proofs.Metering

/-!
The counts of a session against the calls that its model has accepted. Variables are counted one by
one as they are added, and so are equalities. The two inequalities of an operand in a group are
counted when both have been added, so that a refusal of the second one leaves the first one
uncounted. No other refusal makes a difference.
-/

namespace SignalTemporalLogic

variable {α V σ β γ : Type}

namespace SolverEvent

/-- The call adds a variable of the kind. -/
def adds (kind : VarKind) : SolverEvent α V → Bool
  | added _ own _ => own = kind
  | _ => false

/-- The call adds a constraint. -/
def constrains : SolverEvent α V → Bool
  | constrained _ _ _ => true
  | _ => false

/-- The call adds an inequality that a selector loosens, the second one of its operand. -/
def loosens : SolverEvent α V → Bool
  | constrained _ relation rhs => relation ≠ .equal ∧ rhs.terms.length = 2
  | _ => false

/-- The counts with this call. -/
def countIn (stats : EncodingStats) : SolverEvent α V → EncodingStats
  | added _ kind _ => stats.addVariable kind
  | constrained _ _ _ => stats.addConstraints 1
  | started _ _ => stats

variable (stats : EncodingStats) (event : SolverEvent α V)

theorem continuous_countIn : (event.countIn stats).continuous =
    stats.continuous + if event.adds .continuous then 1 else 0 := by
  cases event with
  | added _ kind _ => cases kind <;> rfl
  | constrained | started => rfl

theorem binaries_countIn : (event.countIn stats).binaries =
    stats.binaries + if event.adds .binary then 1 else 0 := by
  cases event with
  | added _ kind _ => cases kind <;> rfl
  | constrained | started => rfl

theorem constraints_countIn : (event.countIn stats).constraints =
    stats.constraints + if event.constrains then 1 else 0 := by
  cases event with
  | added _ kind _ => cases kind <;> rfl
  | constrained | started => rfl

end SolverEvent

variable [Scalar α]

/-! ## What a session has not counted yet -/

/-- The counts fall short of the calls that were accepted by what is missing, and by one constraint
for each second inequality that was refused. -/
structure Session.Lacks (s : Session α V (Meter α V σ)) (missing : EncodingStats) : Prop where
  continuous : s.context.stats.continuous + missing.continuous =
    s.solver.accepted.countP (·.adds .continuous)
  binaries : s.context.stats.binaries + missing.binaries =
    s.solver.accepted.countP (·.adds .binary)
  constraints : s.context.stats.constraints + missing.constraints +
    s.solver.refused.countP (·.1.loosens) = s.solver.accepted.countP (·.constrains)

namespace Session.Lacks

variable {s : Session α V (Meter α V σ)} {missing : EncodingStats} {event : SolverEvent α V}

theorem accept (h : s.Lacks missing) (event : SolverEvent α V) (solver : σ) :
    (s.accept event solver).Lacks (event.countIn missing) where
  continuous := by
    simp only [Session.accept, Meter.accept, List.countP_append, List.countP_singleton,
      SolverEvent.continuous_countIn, ← h.continuous, Nat.add_assoc]
  binaries := by
    simp only [Session.accept, Meter.accept, List.countP_append, List.countP_singleton,
      SolverEvent.binaries_countIn, ← h.binaries, Nat.add_assoc]
  constraints := by
    simp only [Session.accept, Meter.accept, List.countP_append, List.countP_singleton,
      SolverEvent.constraints_countIn, ← h.constraints]
    omega

theorem refuse (h : s.Lacks missing) (hevent : event.loosens = false) (refusal : Refusal α)
    (solver : σ) : (s.refuse event refusal solver).Lacks missing where
  continuous := h.continuous
  binaries := h.binaries
  constraints := by simpa [Session.refuse, Meter.refuse, hevent] using h.constraints

/-- The first inequality of the operand remains uncounted when the second one is refused. -/
theorem refuse_second (h : s.Lacks (missing.addConstraints 1)) (hevent : event.loosens = true)
    (refusal : Refusal α) (solver : σ) : (s.refuse event refusal solver).Lacks missing where
  continuous := h.continuous
  binaries := h.binaries
  constraints := by
    have hconstraints := h.constraints
    simp only [EncodingStats.addConstraints] at hconstraints
    simp [Session.refuse, Meter.refuse, hevent]
    omega

end Session.Lacks

/-! ## Computations that settle their counts -/

namespace Encode

/-- Started when `missing` is not counted yet, the computation returns when `left` is not, and
leaves nothing uncounted if it fails. -/
def Settles (missing left : EncodingStats) (act : Encode α V (Meter α V σ) β) : Prop :=
  ∀ s, s.Lacks missing →
    match act s with
    | (.ok _, s') => s'.Lacks left
    | (.error _, s') => s'.Lacks {}

variable {missing left later : EncodingStats}

theorem Settles.bind {act : Encode α V (Meter α V σ) β} {next : β → Encode α V (Meter α V σ) γ}
    (h : Settles missing left act) (hnext : ∀ b, Settles left later (next b)) :
    Settles missing later (act >>= next) := by
  intro s hs
  have hact := h s hs
  rcases hrun : act s with ⟨e | b, s'⟩ <;> rw [hrun] at hact
  · rw [RunLogic.run_bind_error hrun]
    exact hact
  · rw [RunLogic.run_bind_ok next hrun]
    exact hnext b s' hact

theorem settles_lift (x : Except (Fault α) β) :
    Settles {} {} (liftM x : Encode α V (Meter α V σ) β) := by
  intro s hs
  cases x <;> exact hs

/-- A call that is accepted has to be counted. -/
theorem settles_call (event : SolverEvent α V) (act : SolverCall α σ β)
    (hrefused : ∀ (s : Session α V (Meter α V σ)) refusal solver, s.Lacks missing →
      (s.refuse event refusal solver).Lacks {}) :
    Settles missing (event.countIn missing) (emit (Emit.call (Meter.pass event act))) := by
  intro s hs
  rcases hrun : act s.solver.solver with ⟨refusal | b, solver⟩
  · rw [emit_pass_error hrun]
    exact hrefused s refusal solver hs
  · rw [emit_pass_ok hrun]
    exact hs.accept event solver

theorem settles_addVariable (kind : VarKind) :
    Settles (missing.addVariable kind) missing
      (changeStats (·.addVariable kind) : Encode α V (Meter α V σ) Unit) := by
  intro s ⟨hcontinuous, hbinaries, hconstraints⟩
  cases kind
  · exact ⟨(Nat.add_right_comm _ _ _).trans hcontinuous, hbinaries, hconstraints⟩
  · exact ⟨hcontinuous, (Nat.add_right_comm _ _ _).trans hbinaries, hconstraints⟩

theorem settles_addConstraints (n : Nat) :
    Settles (missing.addConstraints n) missing
      (changeStats (·.addConstraints n) : Encode α V (Meter α V σ) Unit) := by
  intro s ⟨hcontinuous, hbinaries, hconstraints⟩
  refine ⟨hcontinuous, hbinaries, ?_⟩
  rw [← hconstraints]
  simp only [EncodingStats.addConstraints]
  omega

theorem settles_newVariable (model : SolverModel α V σ) (name : String) (kind : VarKind)
    (bounds : Bounds α) (start : Option α) :
    Settles {} {} (emit (Emit.newVariable model.metered name kind bounds start)) := by
  rw [emit_newVariable]
  refine (settles_call (.added name kind bounds) _ fun _ _ _ hs => hs.refuse rfl _ _).bind
    fun v => (settles_addVariable kind).bind fun _ => ?_
  cases start with
  | none => exact (settles_lift (.ok ())).bind fun _ => settles_lift (.ok v)
  | some value =>
    exact (settles_call (.started v value) _ fun _ _ _ hs => hs.refuse rfl _ _).bind
      fun _ => settles_lift (.ok v)

theorem settles_equality (model : SolverModel α V σ) (lhs rhs : LinearExpr α V) :
    Settles {} {} (emit do
      Emit.call (model.metered.addConstraint lhs .equal rhs)
      Emit.countConstraints 1) := by
  rw [emit_equality]
  exact (settles_call (.constrained lhs .equal rhs) _ fun _ _ _ hs => hs.refuse rfl _ _).bind
    fun _ => settles_addConstraints 1

/-- Between the two inequalities of an operand the first one is not counted yet. -/
theorem settles_pair (model : SolverModel α V σ) (e : Extremum) (m : α) (r operand selector : V) :
    Settles {} {} (emit (e.emitPair model.metered m r operand selector)) := by
  rw [emit_pair]
  let first : SolverEvent α V := .constrained (.ofVar r) e.bound (.ofVar operand)
  let second : SolverEvent α V := .constrained (.ofVar r) e.relaxed
    ((LinearExpr.ofVar operand).plus (e.slack m) selector)
  have hfirst : first.loosens = false := by cases e <;> rfl
  have hsecond : second.loosens = true := by cases e <;> rfl
  refine (settles_call first _ fun _ _ _ hs => hs.refuse hfirst _ _).bind fun _ => ?_
  refine (settles_call second _ fun _ _ _ hs => hs.refuse_second hsecond _ _).bind fun _ => ?_
  show Settles (({} : EncodingStats).addConstraints 2) {} _
  exact settles_addConstraints 2

end Encode

/-- The encoder settles its counts. -/
def settling (model : SolverModel α V σ) : Correspondence model.metered model.metered where
  Alike act _ := Encode.Settles {} {} act
  lift := Encode.settles_lift
  bind := Encode.Settles.bind
  context _ hs := hs
  modifyContext change h s hs := by
    obtain ⟨hcontinuous, hbinaries, hconstraints⟩ := h s.context
    exact ⟨hcontinuous ▸ hs.continuous, hbinaries ▸ hs.binaries, hconstraints ▸ hs.constraints⟩
  newVariable := Encode.settles_newVariable model
  equality := Encode.settles_equality model
  pair := Encode.settles_pair model

/-! ## Sessions -/

namespace Session

theorem Lacks.encodeAt {s : Session α V (Meter α V σ)} (h : s.Lacks {}) (model : SolverModel α V σ)
    (f : Formula α) (anchor : Nat) (start : Option (ScoreTree α)) :
    (f.encodeAt model.metered anchor start s).2.Lacks {} := by
  have hrun := (settling model).encodeAt f anchor start s h
  rcases hresult : f.encodeAt model.metered anchor start s with ⟨e | v, s'⟩ <;>
    rw [hresult] at hrun <;> exact hrun

theorem Lacks.run {s : Session α V (Meter α V σ)} (h : s.Lacks {}) (model : SolverModel α V σ)
    (acts : List (Act α V σ)) : (s.run model.metered (acts.map Act.metered)).Lacks {} := by
  induction acts generalizing s with
  | nil => exact h
  | cons act rest ih =>
    refine ih (s := s.after model.metered act.metered) ?_
    cases act with
    | encode k => exact h.encodeAt model k.formula k.index k.start
    | bind | adjust => exact ⟨h.continuous, h.binaries, h.constraints⟩

end Session

/-- **The counts are those of the calls that the model has accepted**, in every session on a new
context, except that of the two inequalities of an operand the first one is not counted if the
second one is refused. -/
theorem stats_count_accepted (model : SolverModel α V σ) (settings : EncodingSettings α)
    (solver : σ) (acts : List (Session.Act α V σ)) :
    let s := Session.run model.metered ⟨⟨solver, [], []⟩, { settings }⟩
      (acts.map Session.Act.metered)
    Session.run model ⟨solver, { settings }⟩ acts = s.unmetered ∧
    s.context.stats.continuous = s.solver.accepted.countP (·.adds .continuous) ∧
    s.context.stats.binaries = s.solver.accepted.countP (·.adds .binary) ∧
    s.context.stats.constraints + s.solver.refused.countP (·.1.loosens) =
      s.solver.accepted.countP (·.constrains) := by
  intro s
  have hnew : Session.Lacks
      (⟨⟨solver, [], []⟩, { settings }⟩ : Session α V (Meter α V σ)) {} := ⟨rfl, rfl, rfl⟩
  obtain ⟨hcontinuous, hbinaries, hconstraints⟩ := hnew.run model acts
  exact ⟨Session.run_unmetered model ⟨⟨solver, [], []⟩, { settings }⟩ acts, hcontinuous, hbinaries,
    hconstraints⟩

/-- `x > 0` and `x > 1`. -/
def bothAbove : Formula Exact :=
  .and ⟨2⟩ (.pair (.predicate ⟨0⟩ (.greaterThan "x" (.fin 0)))
    (.predicate ⟨1⟩ (.greaterThan "x" (.fin 1))))

/-- The ninth call is refused, between the two inequalities of the first operand: of three
constraints in the journal two are counted. -/
theorem stats_miss_constraint :
    let s := Session.run (Journal.solver ⟨true, some 8, none⟩ : SolverModel Exact _ _).metered
      ⟨⟨#[], [], []⟩, { settings := ⟨.constant (.fin 10), 1, .fin 1, .strict, "stl"⟩ }⟩
      [.bind ⟨"x", 0⟩ "x[0]", .encode ⟨bothAbove, 0, none⟩]
    s.context.stats.constraints = 2 ∧ s.solver.accepted.countP (·.constrains) = 3 := by
  decide +kernel

end SignalTemporalLogic
