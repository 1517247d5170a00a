import SignalTemporalLogic.Linear.Journal
import SignalTemporalLogic.Proofs.Correspondence
import SignalTemporalLogic.Proofs.Remembering

/-!
Metered models. A meter stands between the encoder and a solver model and writes down every call
with its arguments, those that were accepted and those that were refused. It changes nothing: an
encoding over the metered model is the encoding over the model itself, with a record of what was
asked of it.
-/

namespace SignalTemporalLogic

variable {α V σ β γ : Type}

/-- The state of a model with the calls that were made on it, in order. -/
structure Meter (α V σ : Type) where
  solver : σ
  accepted : List (SolverEvent α V) := []
  refused : List (SolverEvent α V × Refusal α) := []

namespace Meter

def accept (m : Meter α V σ) (event : SolverEvent α V) (solver : σ) : Meter α V σ :=
  ⟨solver, m.accepted ++ [event], m.refused⟩

def refuse (m : Meter α V σ) (event : SolverEvent α V) (refusal : Refusal α) (solver : σ) :
    Meter α V σ :=
  ⟨solver, m.accepted, m.refused ++ [(event, refusal)]⟩

/-- Makes a call and writes down what becomes of it. -/
def pass (event : SolverEvent α V) (act : SolverCall α σ β) : SolverCall α (Meter α V σ) β :=
  fun m => match act m.solver with
  | (.ok b, solver) => (.ok b, m.accept event solver)
  | (.error refusal, solver) => (.error refusal, m.refuse event refusal solver)

end Meter

/-- The model with a meter. -/
def SolverModel.metered (model : SolverModel α V σ) : SolverModel α V (Meter α V σ) where
  addVariable name kind bounds :=
    Meter.pass (.added name kind bounds) (model.addVariable name kind bounds)
  addConstraint lhs relation rhs :=
    Meter.pass (.constrained lhs relation rhs) (model.addConstraint lhs relation rhs)
  setStart var value := Meter.pass (.started var value) (model.setStart var value)

variable [Scalar α]

/-! ## Metered sessions -/

namespace Session

/-- The session without its meter. -/
def unmetered (s : Session α V (Meter α V σ)) : Session α V σ := ⟨s.solver.solver, s.context⟩

/-- The session after one more call has been accepted. -/
def accept (s : Session α V (Meter α V σ)) (event : SolverEvent α V) (solver : σ) :
    Session α V (Meter α V σ) :=
  { s with solver := s.solver.accept event solver }

/-- The session after a call has been refused. -/
def refuse (s : Session α V (Meter α V σ)) (event : SolverEvent α V) (refusal : Refusal α)
    (solver : σ) : Session α V (Meter α V σ) :=
  { s with solver := s.solver.refuse event refusal solver }

end Session

namespace Encode

variable {event : SolverEvent α V} {act : SolverCall α σ β} {s : Session α V (Meter α V σ)}

theorem emit_pass_ok {b : β} {solver : σ} (h : act s.solver.solver = (.ok b, solver)) :
    emit (Emit.call (Meter.pass event act)) s = (.ok b, s.accept event solver) := by
  simp [emit, Emit.call, Meter.pass, h, Session.accept]

theorem emit_pass_error {refusal : Refusal α} {solver : σ}
    (h : act s.solver.solver = (.error refusal, solver)) :
    emit (Emit.call (Meter.pass event act)) s =
      (.error (.refused refusal), s.refuse event refusal solver) := by
  simp [emit, Emit.call, Meter.pass, h, Session.refuse]

/-- The computation is the other one with a meter. -/
def Meters (act : Encode α V (Meter α V σ) β) (act' : Encode α V σ β) : Prop :=
  ∀ s, act' s.unmetered = ((act s).1, (act s).2.unmetered)

theorem Meters.bind {act : Encode α V (Meter α V σ) β} {act' : Encode α V σ β}
    {next : β → Encode α V (Meter α V σ) γ} {next' : β → Encode α V σ γ} (h : Meters act act')
    (hnext : ∀ b, Meters (next b) (next' b)) : Meters (act >>= next) (act' >>= next') := by
  intro s
  have hact := h s
  rcases hrun : act s with ⟨e | b, s₁⟩ <;> rw [hrun] at hact
  · rw [RunLogic.run_bind_error hact, RunLogic.run_bind_error hrun]
  · rw [RunLogic.run_bind_ok _ hact, RunLogic.run_bind_ok _ hrun]
    exact hnext b s₁

theorem meters_pass (event : SolverEvent α V) (act : SolverCall α σ β) :
    Meters (emit (Emit.call (Meter.pass event act))) (emit (Emit.call act)) := by
  intro s
  rcases hrun : act s.solver.solver with ⟨refusal | b, solver⟩
  · rw [emit_pass_error hrun]
    simp [emit, Emit.call, Session.unmetered, hrun, Session.refuse, Meter.refuse]
  · rw [emit_pass_ok hrun]
    simp [emit, Emit.call, Session.unmetered, hrun, Session.accept, Meter.accept]

end Encode

/-- **A meter changes nothing.** -/
def metering (model : SolverModel α V σ) : Correspondence model.metered model :=
  CallCorrespondence.toCorrespondence {
    Alike := Encode.Meters
    lift := fun x s => by cases x <;> rfl
    bind := Encode.Meters.bind
    context := fun _ => rfl
    modifyContext := fun _ _ => rfl
    addVariable := fun _ _ _ => Encode.meters_pass _ _
    addConstraint := fun _ _ _ => Encode.meters_pass _ _
    setStart := fun _ _ => Encode.meters_pass _ _ }

theorem Formula.encodeAt_unmetered (model : SolverModel α V σ) (f : Formula α) (anchor : Nat)
    (start : Option (ScoreTree α)) (s : Session α V (Meter α V σ)) :
    f.encodeAt model anchor start s.unmetered =
      ((f.encodeAt model.metered anchor start s).1,
        (f.encodeAt model.metered anchor start s).2.unmetered) :=
  (metering model).encodeAt f anchor start s

namespace Session

/-- The act of a caller who does not see the meter. -/
def Act.metered : Act α V σ → Act α V (Meter α V σ)
  | encode k => encode k
  | bind sample var => bind sample var
  | adjust change => adjust fun m => { m with solver := change m.solver }

/-- The session over the model is that over the metered model, whatever the caller does. -/
theorem run_unmetered (model : SolverModel α V σ) (s : Session α V (Meter α V σ))
    (acts : List (Act α V σ)) :
    s.unmetered.run model acts = (s.run model.metered (acts.map Act.metered)).unmetered := by
  induction acts generalizing s with
  | nil => rfl
  | cons act rest ih =>
    have hstep : s.unmetered.after model act = (s.after model.metered act.metered).unmetered := by
      cases act with
      | encode k => exact congrArg Prod.snd (k.formula.encodeAt_unmetered model k.index k.start s)
      | bind | adjust => rfl
    show (s.unmetered.after model act).run model rest = _
    rw [hstep, ih]
    rfl

end Session

end SignalTemporalLogic
