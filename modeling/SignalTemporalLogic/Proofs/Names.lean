import SignalTemporalLogic.Proofs.EncoderSteps
import SignalTemporalLogic.Proofs.Labels
import SignalTemporalLogic.Proofs.Metering

/-!
No name is given out twice. Every emission of a session takes one label, and the names that it asks
for, as far as it gets, are different names with the number of the label. The numbers only go up, also
past emissions that are refused, and a name tells its number, so that names of two emissions differ.
-/

namespace SignalTemporalLogic

open RunLogic

variable {α V σ β γ : Type}

/-! ## Names that a model is asked for -/

/-- The name of the variable that the call adds. -/
def SolverEvent.name? : SolverEvent α V → Option String
  | added name _ _ => some name
  | _ => none

/-- The names that were asked for, granted or not. -/
def Meter.names (m : Meter α V σ) : List String :=
  m.accepted.filterMap SolverEvent.name? ++ m.refused.filterMap (·.1.name?)

theorem Meter.names_refuse (m : Meter α V σ) (event : SolverEvent α V) (refusal : Refusal α)
    (solver : σ) : (m.refuse event refusal solver).names = m.names ++ event.name?.toList := by
  cases h : event.name? <;> simp [names, refuse, h]

theorem Meter.names_accept (m : Meter α V σ) (event : SolverEvent α V) (solver : σ) :
    (m.accept event solver).names.Perm (m.names ++ event.name?.toList) := by
  cases h : event.name? with
  | none => simp [names, accept, h]
  | some name =>
    simp only [names, accept, List.filterMap_append, List.filterMap_cons, h, List.filterMap_nil,
      Option.toList_some, List.append_assoc]
    exact List.perm_append_comm.append_left _

namespace Emit

/-- The computation asks for some of the names, in order, cut short or not. -/
def Asks (names : List String) (act : Emit α (Meter α V σ) β) : Prop :=
  ∀ e, ∃ asked, asked.Sublist names ∧ (act e).2.solver.names.Perm (e.solver.names ++ asked)

variable {names more : List String} {act : Emit α (Meter α V σ) β}

theorem asks_of_names_eq (h : ∀ e, (act e).2.solver.names = e.solver.names) : Asks names act :=
  fun e => ⟨[], List.nil_sublist _, by rw [h, List.append_nil]⟩

theorem asks_pure (b : β) : Asks names (pure b : Emit α (Meter α V σ) β) :=
  asks_of_names_eq fun _ => rfl

theorem asks_lift (x : Except (Fault α) β) : Asks names (liftM x : Emit α (Meter α V σ) β) :=
  asks_of_names_eq fun _ => by cases x <;> rfl

theorem Asks.bind {next : β → Emit α (Meter α V σ) γ} (h : Asks names act)
    (hnext : ∀ b, Asks more (next b)) : Asks (names ++ more) (act >>= next) := by
  intro e
  obtain ⟨asked, hasked, hperm⟩ := h e
  rcases hrun : act e with ⟨fault | b, e'⟩ <;> rw [hrun] at hperm
  · rw [run_bind_error hrun]
    exact ⟨asked, hasked.trans (List.sublist_append_left _ _), hperm⟩
  · rw [run_bind_ok next hrun]
    obtain ⟨asked', hasked', hperm'⟩ := hnext b e'
    refine ⟨asked ++ asked', hasked.append hasked', hperm'.trans ?_⟩
    rw [← List.append_assoc]
    exact hperm.append_right asked'

/-- What comes after asks for nothing. -/
theorem Asks.before {next : β → Emit α (Meter α V σ) γ} (h : Asks names act)
    (hnext : ∀ b, Asks [] (next b)) : Asks names (act >>= next) :=
  List.append_nil names ▸ h.bind hnext

/-- What comes before asks for nothing. -/
theorem Asks.after {next : β → Emit α (Meter α V σ) γ} (h : Asks [] act)
    (hnext : ∀ b, Asks names (next b)) : Asks names (act >>= next) :=
  h.bind hnext

theorem asks_forM {visit : γ → Emit α (Meter α V σ) Unit} (h : ∀ d, Asks [] (visit d))
    (items : List γ) : Asks [] (items.forM visit) := by
  induction items with
  | nil => exact asks_pure ()
  | cons d items ih => exact (h d).after fun _ => ih

/-- A call asks for the name of its variable, if it adds one. -/
theorem asks_call (event : SolverEvent α V) (pass : SolverCall α σ β) :
    Asks event.name?.toList (call (Meter.pass event pass)) := by
  intro e
  refine ⟨event.name?.toList, List.Sublist.refl _, ?_⟩
  rcases hrun : pass e.solver.solver with ⟨refusal | b, solver⟩
  · simp only [call, Meter.pass, hrun, Meter.names_refuse]
    exact List.Perm.refl _
  · simp only [call, Meter.pass, hrun]
    exact e.solver.names_accept event solver

theorem asks_addConstraint (model : SolverModel α V σ) (lhs : LinearExpr α V) (relation : Relation)
    (rhs : LinearExpr α V) : Asks [] (call (model.metered.addConstraint lhs relation rhs)) :=
  asks_call (.constrained lhs relation rhs) _

/-- A new variable asks for its name only, also if it gets a start value. -/
theorem asks_newVariable (model : SolverModel α V σ) (name : String) (kind : VarKind)
    (bounds : Bounds α) (start : Option α) :
    Asks [name] (newVariable model.metered name kind bounds start) := by
  have hadd : Asks [name] (call (model.metered.addVariable name kind bounds)) :=
    asks_call (.added name kind bounds) _
  have hcount : Asks [] (countVariable kind : Emit α (Meter α V σ) Unit) :=
    asks_of_names_eq fun _ => by cases kind <;> rfl
  refine hadd.before fun v => hcount.after fun _ => ?_
  cases start with
  | none => exact asks_pure v
  | some value =>
    have hstart : Asks [] (call (model.metered.setStart v value)) := asks_call (.started v value) _
    exact hstart.after fun _ => asks_pure v

end Emit

namespace Extremum

variable [Scalar α]

theorem asks_selectors (model : SolverModel α V σ) (label : String) (chosen : Option Nat)
    (i count : Nat) : Emit.Asks ((List.range' i count).map (selectorName label))
      (emitSelectors model.metered label chosen i count) := by
  induction count generalizing i with
  | zero => exact Emit.asks_pure []
  | succ count ih =>
    have hselector (start : Option α) : Emit.Asks [selectorName label i]
        (Emit.newVariable model.metered s!"{label}_d{i}" .binary ⟨0, 1⟩ start) :=
      Emit.asks_newVariable _ _ _ _ _
    exact (hselector _).bind fun d => (ih (i + 1)).before fun ds => Emit.asks_pure (d :: ds)

theorem asks_pair (model : SolverModel α V σ) (e : Extremum) (m : α) (r operand selector : V) :
    Emit.Asks [] (e.emitPair model.metered m r operand selector) :=
  (Emit.asks_addConstraint _ _ _ _).after fun _ => (Emit.asks_addConstraint _ _ _ _).after fun _ =>
    Emit.asks_of_names_eq fun _ => rfl

/-- A group asks for its own names. -/
theorem asks_emit (model : SolverModel α V σ) (e : Extremum) (label : String)
    (operands : List (Encoded α V)) (bigM : BigM α) (start : Option (ScoreTree α)) :
    Emit.Asks (groupNames label operands.length)
      (e.emit model.metered label operands bigM start) := by
  match operands with
  | [] => exact Emit.asks_of_names_eq fun _ => rfl
  | [single] => exact Emit.asks_pure single
  | first :: second :: rest =>
    rw [Extremum.emit_eq model.metered (by simp)]
    show Emit.Asks ([label] ++ (List.range' 0 (first :: second :: rest).length).map
      (selectorName label)) _
    refine (Emit.asks_lift _).after fun m => ?_
    refine (Emit.asks_newVariable model label _ _ _).bind fun r => ?_
    refine (asks_selectors model label _ 0 _).before fun selectors => ?_
    refine (Emit.asks_forM (fun _ => asks_pair _ _ _ _ _ _) _).after fun _ => ?_
    exact (Emit.asks_addConstraint _ _ _ _).after fun _ => Emit.asks_of_names_eq fun _ => rfl

end Extremum

/-! ## Names of a session -/

variable [Scalar α]

/-- The names that were asked for are different, and all have numbers that were given out. -/
structure Session.NamesApart (s : Session α V (Meter α V σ)) : Prop where
  nodup : s.solver.names.Nodup
  numbered : ∀ name ∈ s.solver.names,
    ∃ n < s.context.nextLabel, Numbered s.context.settings.labelStem n name

/-- Encodings on a metered model, followed through sessions whose names are different. Any of them
may fail. -/
def apart : RunLogic (Session α V (Meter α V σ)) { s : Session α V (Meter α V σ) // s.NamesApart } where
  state := Subtype.val
  later _ _ := True
  tidy _ _ := True
  fails := True
  tidy_refl _ := trivial
  tidy_trans _ _ := trivial
  later_of_tidy := id
  later_trans _ _ := trivial

namespace Encode

variable {w : { s : Session α V (Meter α V σ) // s.NamesApart }}

theorem leads_of_namesApart {act : Encode α V (Meter α V σ) β} (h : (act w.val).2.NamesApart) :
    apart.Leads w act fun _ _ => True := by
  rcases hrun : act w.val with ⟨e | b, s⟩
  · exact (leads_of_error hrun).mpr ⟨trivial, ⟨_, h⟩, congrArg Prod.snd hrun, trivial⟩
  · exact (leads_of_ok hrun).mpr ⟨⟨_, h⟩, congrArg Prod.snd hrun, trivial, trivial⟩

/-- **Names under a new label are new**: no name so far has its number. -/
theorem leads_labelled (role : VariableRole) (t count : Nat)
    {act : String → Emit α (Meter α V σ) β}
    (h : ∀ label, (act label).Asks (groupNames label count)) :
    apart.Leads w (do emit (act (← takeLabel role t))) fun _ _ => True := by
  obtain ⟨s, hnodup, hnumbered⟩ := w
  let label := EncodingContext.labelText s.context.settings.labelStem role s.context.nextLabel t
  obtain ⟨asked, hasked, hperm⟩ := h label ⟨s.solver, s.context.stats⟩
  have hown : ∀ name ∈ asked,
      Numbered s.context.settings.labelStem s.context.nextLabel name :=
    fun name hname => numbered_of_mem_groupNames (hasked.subset hname)
  refine leads_of_namesApart ⟨hperm.nodup_iff.mpr ?_, fun name hname => ?_⟩
  · refine List.nodup_append'.mpr ⟨hnodup, (groupNames_nodup label count).sublist hasked, ?_⟩
    intro name hold hnew
    obtain ⟨n, hn, hnumber⟩ := hnumbered name hold
    exact absurd (hnumber.unique (hown name hnew)) hn.ne
  · rcases List.mem_append.mp (hperm.subset hname) with hold | hnew
    · obtain ⟨n, hn, hnumber⟩ := hnumbered name hold
      exact ⟨n, hn.trans (Nat.lt_succ_self _), hnumber⟩
    · exact ⟨_, Nat.lt_succ_self _, hown name hnew⟩

/-- An equality is a group without selectors. -/
theorem leads_equalTo_apart (model : SolverModel α V σ) (role : VariableRole) (t : Nat)
    (bounds : Bounds α) (start : Option (ScoreTree α)) (value : LinearExpr α V) :
    apart.Leads w (equalTo model.metered role t bounds start value) fun _ _ => True := by
  refine leads_labelled role t 0 fun label => ?_
  refine (Emit.asks_newVariable model label _ _ _).before fun y => ?_
  exact (Emit.asks_addConstraint _ _ _ _).after fun _ => Emit.asks_of_names_eq fun _ => rfl

theorem apart_steps (model : SolverModel α V σ) : Steps apart model.metered where
  fails := trivial
  negation _ _ _ _ := leads_equalTo_apart ..
  group _ e role t start operands _ := leads_bind (leads_context
    (leads_labelled role t operands.length fun label => e.asks_emit model label operands _ start))
  predicate w id source t start := by
    rw [predicate_eq, bind_assoc]
    refine leads_bind (leads_context ?_)
    rw [bind_assoc]
    refine leads_bind (leads_lift (fun value _ => ?_) (.inl trivial))
    refine leads_bind ((leads_equalTo_apart ..).mono fun x v _ _ => ?_)
    exact leads_bind (leads_modify
      ⟨{ v.val with context := v.val.context.remember (.predicate id source) t x },
        v.property.1, v.property.2⟩ rfl trivial (leads_pure trivial))
  hit w := ⟨⟨{ w.val with context := w.val.context.countHit }, w.property.1, w.property.2⟩,
    rfl, trivial⟩
  remember w f t x _ := ⟨⟨{ w.val with context := w.val.context.remember f t x },
    w.property.1, w.property.2⟩, rfl, trivial⟩

end Encode

theorem Session.NamesApart.run {s : Session α V (Meter α V σ)} (h : s.NamesApart)
    (model : SolverModel α V σ) (acts : List (Session.Act α V σ)) :
    (s.run model.metered (acts.map Act.metered)).NamesApart := by
  induction acts generalizing s with
  | nil => exact h
  | cons act rest ih =>
    refine ih (s := s.after model.metered act.metered) ?_
    cases act with
    | encode k =>
      obtain ⟨w, hw, -⟩ :=
        ((Encode.apart_steps model).encodeAt k.formula k.index k.start ⟨s, h⟩).exists_later
      have hstate : w.val = s.after model.metered (.encode k) := hw
      exact hstate ▸ w.property
    | bind | adjust => exact ⟨h.nodup, h.numbered⟩

/-- **No name is given out twice.** In every session on a new context, whatever its stem is, on every
solver model and whatever it refuses, all names that the encoder passes on with a new variable are
different, those that were refused and those of selectors included. -/
theorem emitted_names_unique (model : SolverModel α V σ) (settings : EncodingSettings α)
    (solver : σ) (acts : List (Session.Act α V σ)) :
    let s := Session.run model.metered ⟨⟨solver, [], []⟩, { settings }⟩
      (acts.map Session.Act.metered)
    Session.run model ⟨solver, { settings }⟩ acts = s.unmetered ∧ s.solver.names.Nodup := by
  intro s
  have hnew : Session.NamesApart
      (⟨⟨solver, [], []⟩, { settings }⟩ : Session α V (Meter α V σ)) := ⟨List.nodup_nil, nofun⟩
  exact ⟨Session.run_unmetered model ⟨⟨solver, [], []⟩, { settings }⟩ acts, (hnew.run model acts).1⟩

end SignalTemporalLogic
