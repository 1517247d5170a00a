import SignalTemporalLogic.Proofs.Acceptance
import SignalTemporalLogic.Proofs.Metering

/-!
What a refusal does to an encoding: it ends it, where it happens. Up to there the encoding has made
the calls that it makes on a model which never refuses, and after it none; the refusal is its
result.
-/

namespace SignalTemporalLogic

variable {α V σ β γ : Type}

/-- When a model starts to refuse, and the reason that it gives then. -/
structure Cutoff (α V σ : Type) where
  /-- The number of calls that are accepted. -/
  capacity : Nat
  reason : σ → SolverEvent α V → Refusal α

/-- Makes a call, unless the model has accepted as many calls as it can. -/
def Meter.passUpTo (cut : Cutoff α V σ) (event : SolverEvent α V) (act : SolverCall α σ β) :
    SolverCall α (Meter α V σ) β := fun m =>
  if cut.capacity ≤ m.accepted.length then
    (.error (cut.reason m.solver event), m.refuse event (cut.reason m.solver event) m.solver)
  else pass event act m

/-- The metered model, except that from some call on it refuses. -/
def SolverModel.limited (model : SolverModel α V σ) (cut : Cutoff α V σ) :
    SolverModel α V (Meter α V σ) where
  addVariable name kind bounds :=
    Meter.passUpTo cut (.added name kind bounds) (model.addVariable name kind bounds)
  addConstraint lhs relation rhs :=
    Meter.passUpTo cut (.constrained lhs relation rhs) (model.addConstraint lhs relation rhs)
  setStart var value := Meter.passUpTo cut (.started var value) (model.setStart var value)

variable [Scalar α]

open RunLogic

/-! ## Runs with and without a cutoff -/

/-- The run stopped with the refusal of the first call that was too many of those that the full run
has made, and has made no other call than those before it. -/
structure StopsAt (cut : Cutoff α V σ) (full : Session α V (Meter α V σ)) (call : SolverEvent α V)
    (run : Except (Fault α) β × Session α V (Meter α V σ)) : Prop where
  call_eq : full.solver.accepted[cut.capacity]? = some call
  accepted_eq : run.2.solver.accepted = full.solver.accepted.take cut.capacity
  refused_eq : run.2.solver.refused = [(call, cut.reason run.2.solver.solver call)]
  result_eq : run.1 = .error (.refused (cut.reason run.2.solver.solver call))

/-- The first computation makes calls that are all accepted. The second one either is the same, if
it gets by with the calls that are accepted, or it stops at the first one that is not. -/
def Encode.CutsOff (cut : Cutoff α V σ) (act act' : Encode α V (Meter α V σ) β) : Prop :=
  ∀ s, s.solver.refused = [] →
    ((act s).2.solver.refused = [] ∧ s.solver.accepted <+: (act s).2.solver.accepted) ∧
    (s.solver.accepted.length ≤ cut.capacity →
      (act s).2.solver.accepted.length ≤ cut.capacity ∧ act' s = act s ∨
        ∃ call, StopsAt cut (act s).2 call (act' s))

section Steps

variable {cut : Cutoff α V σ}

/-- A run that has stopped does not go on, whatever the full run does afterwards. -/
theorem StopsAt.bind {act : Encode α V (Meter α V σ) β} {s full full' : Session α V (Meter α V σ)}
    {call : SolverEvent α V} (h : StopsAt cut full call (act s))
    (next : β → Encode α V (Meter α V σ) γ)
    (hleading : full.solver.accepted <+: full'.solver.accepted) :
    StopsAt cut full' call ((act >>= next) s) := by
  rcases hrun : act s with ⟨e | b, s'⟩ <;> rw [hrun] at h
  · obtain ⟨later, hlater⟩ := hleading
    have hlt := (List.getElem?_eq_some_iff.mp h.call_eq).1
    rw [run_bind_error hrun]
    refine ⟨?_, ?_, h.refused_eq, congrArg Except.error (Except.error.inj h.result_eq)⟩
    · rw [← hlater, List.getElem?_append_left hlt]
      exact h.call_eq
    · rw [h.accepted_eq, ← hlater, List.take_append_of_le_length hlt.le]
  · exact nomatch h.result_eq

namespace Encode.CutsOff

/-- A computation that makes no calls is the same. -/
theorem of_eq {act : Encode α V (Meter α V σ) β} (h : ∀ s, (act s).2.solver = s.solver) :
    CutsOff cut act act := by
  intro s hs
  rw [h s]
  exact ⟨⟨hs, List.prefix_rfl⟩, fun hle => .inl ⟨hle, rfl⟩⟩

theorem bind {act act' : Encode α V (Meter α V σ) β}
    {next next' : β → Encode α V (Meter α V σ) γ} (h : CutsOff cut act act')
    (hnext : ∀ b, CutsOff cut (next b) (next' b)) :
    CutsOff cut (act >>= next) (act' >>= next') := by
  intro s hs
  obtain ⟨⟨hrefused, hleading⟩, hcut⟩ := h s hs
  rcases hrun : act s with ⟨e | b, s₁⟩ <;> rw [hrun] at hrefused hleading hcut
  · rw [run_bind_error hrun]
    refine ⟨⟨hrefused, hleading⟩, fun hle => ?_⟩
    rcases hcut hle with ⟨hwithin, hsame⟩ | ⟨call, hstops⟩
    · exact .inl ⟨hwithin, run_bind_error hsame⟩
    · exact .inr ⟨call, hstops.bind next' List.prefix_rfl⟩
  · obtain ⟨⟨hrefused', hleading'⟩, hcut'⟩ := hnext b s₁ hrefused
    rw [run_bind_ok next hrun]
    refine ⟨⟨hrefused', hleading.trans hleading'⟩, fun hle => ?_⟩
    rcases hcut hle with ⟨hwithin, hsame⟩ | ⟨call, hstops⟩
    · rw [run_bind_ok next' hsame]
      exact hcut' hwithin
    · exact .inr ⟨call, hstops.bind next' hleading'⟩

/-- Of a call the two make something different exactly if it is one too many. -/
theorem call (event : SolverEvent α V) {act : SolverCall α σ β} (h : Returns act) :
    CutsOff cut (emit (Emit.call (Meter.pass event act)))
      (emit (Emit.call (Meter.passUpTo cut event act))) := by
  intro s hs
  obtain ⟨b, solver, hrun⟩ := h s.solver.solver
  rw [emit_pass_ok hrun]
  refine ⟨⟨hs, List.prefix_append _ _⟩, fun hle => ?_⟩
  by_cases hfull : cut.capacity ≤ s.solver.accepted.length
  · have hrefuses : emit (Emit.call (Meter.passUpTo cut event act)) s =
        (.error (.refused (cut.reason s.solver.solver event)),
          s.refuse event (cut.reason s.solver.solver event) s.solver.solver) := by
      simp [emit, Emit.call, Meter.passUpTo, hfull, Session.refuse]
    have hcapacity : cut.capacity = s.solver.accepted.length := le_antisymm hfull hle
    rw [hrefuses]
    refine .inr ⟨event, ?_, ?_, ?_, rfl⟩
    · simp [Session.accept, Meter.accept, hcapacity]
    · simp [Session.accept, Meter.accept, Session.refuse, Meter.refuse, hcapacity]
    · simp [Session.refuse, Meter.refuse, hs]
  · have hpasses : emit (Emit.call (Meter.passUpTo cut event act)) s =
        emit (Emit.call (Meter.pass event act)) s := by
      simp [emit, Emit.call, Meter.passUpTo, hfull]
    rw [hpasses, emit_pass_ok hrun]
    refine .inl ⟨?_, rfl⟩
    simp only [Session.accept, Meter.accept, List.length_append, List.length_singleton]
    omega

end Encode.CutsOff

end Steps

/-- The encoder stops at a refusal, whatever call it is. -/
def cutting {model : SolverModel α V σ} (hmodel : model.Accepts) (cut : Cutoff α V σ) :
    Correspondence model.metered (model.limited cut) :=
  CallCorrespondence.toCorrespondence {
    Alike := Encode.CutsOff cut
    lift := fun x => .of_eq fun s => by cases x <;> rfl
    bind := Encode.CutsOff.bind
    context := .of_eq fun _ => rfl
    modifyContext := fun _ => .of_eq fun _ => rfl
    addVariable := fun name kind bounds => .call _ (hmodel.addVariable name kind bounds)
    addConstraint := fun lhs relation rhs => .call _ (hmodel.addConstraint lhs relation rhs)
    setStart := fun var value => .call _ (hmodel.setStart var value) }

/-- **A refusal cuts an encoding off exactly where it happens.** Take a model that never refuses,
and the calls that an encoding makes on it. If the model refuses from some call on instead, the
accepted calls are the first ones of these. With room for all of them nothing changes; otherwise the
result is the refusal of the first call for which there is no room, and no other call is made. -/
theorem refusal_cuts {model : SolverModel α V σ} (hmodel : model.Accepts) (f : Formula α)
    (anchor : Nat) (start : Option (ScoreTree α)) (solver : σ) (ctx : EncodingContext α V)
    (cut : Cutoff α V σ) :
    let full := f.encodeAt model.metered anchor start ⟨⟨solver, [], []⟩, ctx⟩
    let limited := f.encodeAt (model.limited cut) anchor start ⟨⟨solver, [], []⟩, ctx⟩
    f.encodeAt model anchor start ⟨solver, ctx⟩ = (full.1, full.2.unmetered) ∧
    full.2.solver.refused = [] ∧
    limited.2.solver.accepted = full.2.solver.accepted.take cut.capacity ∧
    (full.2.solver.accepted.length ≤ cut.capacity → limited = full) ∧
    (cut.capacity < full.2.solver.accepted.length → ∃ call,
      full.2.solver.accepted[cut.capacity]? = some call ∧
      limited.1 = .error (.refused (cut.reason limited.2.solver.solver call)) ∧
      limited.2.solver.refused = [(call, cut.reason limited.2.solver.solver call)]) := by
  intro full limited
  obtain ⟨⟨hrefused, -⟩, hcut⟩ :=
    (cutting hmodel cut).encodeAt f anchor start ⟨⟨solver, [], []⟩, ctx⟩ rfl
  refine ⟨f.encodeAt_unmetered model anchor start ⟨⟨solver, [], []⟩, ctx⟩, hrefused, ?_⟩
  rcases hcut (Nat.zero_le _) with ⟨hwithin, hsame⟩ | ⟨call, hstops⟩
  · refine ⟨?_, fun _ => hsame, fun hlt => absurd hwithin (not_le.mpr hlt)⟩
    rw [List.take_of_length_le hwithin]
    exact congrArg (fun run => run.2.solver.accepted) hsame
  · have hlt := (List.getElem?_eq_some_iff.mp hstops.call_eq).1
    exact ⟨hstops.accepted_eq, fun hle => absurd hlt (not_lt.mpr hle),
      fun _ => ⟨call, hstops.call_eq, hstops.result_eq, hstops.refused_eq⟩⟩

/-- A journal that refuses from the twelfth call on. -/
def elevenCalls : Cutoff Exact String (Journal Exact) where
  capacity := 11
  reason journal _ := .external s!"call {journal.size} refused" none

/-- The formula needs twelve calls, and the last one is refused. -/
theorem refusal_cuts_of_aheadThroughout :
    let model : SolverModel Exact String (Journal Exact) := Journal.solver ⟨true, none, none⟩
    let s : Session Exact String (Meter Exact String (Journal Exact)) :=
      ⟨⟨#[], [], []⟩, threeSampleSession.context⟩
    let full := aheadThroughout.encodeAt model.metered 0 none s
    let limited := aheadThroughout.encodeAt (model.limited elevenCalls) 0 none s
    full.2.solver.accepted.length = 12 ∧
      limited.2.solver.accepted = full.2.solver.accepted.take 11 ∧
      limited.2.solver.refused.length = 1 ∧ ∃ refusal, limited.1 = .error (.refused refusal) := by
  intro model s full limited
  have hlength : full.2.solver.accepted.length = 12 := by decide +kernel
  obtain ⟨-, -, haccepted, -, hstops⟩ := refusal_cuts (Journal.solver_accepts true none)
    aheadThroughout 0 none #[] threeSampleSession.context elevenCalls
  obtain ⟨call, -, hresult, hrefused⟩ := hstops (lt_of_lt_of_eq (by decide) hlength.symm)
  exact ⟨hlength, haccepted, by rw [hrefused]; rfl, _, hresult⟩

end SignalTemporalLogic
