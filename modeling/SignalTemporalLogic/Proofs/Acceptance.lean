import SignalTemporalLogic.Linear.Journal
import SignalTemporalLogic.Proofs.Contexts
import SignalTemporalLogic.Proofs.Failures
import SignalTemporalLogic.Proofs.Ledger
import SignalTemporalLogic.Proofs.Relations
import SignalTemporalLogic.Proofs.Tables

/-!
When an encoding succeeds. With a model that accepts every call only windows, samples and signals
are left to fail, and those are what an evaluation fails for: the encoder looks at them in another
order, skips what it remembers and skips two negations, but succeeds on the same inputs.
-/

namespace SignalTemporalLogic

variable {α V σ : Type}

/-! ## Models that accept every call -/

/-- The computation never fails. -/
def Returns {ε S β : Type} (act : ExceptT ε (StateM S) β) : Prop :=
  ∀ s, ∃ b s', act s = (.ok b, s')

/-- No call is ever refused. -/
structure SolverModel.Accepts (model : SolverModel α V σ) : Prop where
  addVariable (name : String) (kind : VarKind) (bounds : Bounds α) :
    Returns (model.addVariable name kind bounds)
  addConstraint (lhs : LinearExpr α V) (relation : Relation) (rhs : LinearExpr α V) :
    Returns (model.addConstraint lhs relation rhs)
  setStart (var : V) (value : α) : Returns (model.setStart var value)

/-- A journal without a capacity accepts every call. -/
theorem Journal.solver_accepts (starts : Bool) (source : Option String) :
    (Journal.solver ⟨starts, none, source⟩ : SolverModel α String (Journal α)).Accepts where
  addVariable _ _ _ _ := ⟨_, _, rfl⟩
  addConstraint _ _ _ _ := ⟨_, _, rfl⟩
  setStart _ _ _ := by cases starts <;> exact ⟨_, _, rfl⟩

theorem returns_iff {ε S β : Type} {act : ExceptT ε (StateM S) β} :
    Returns act ↔ FailsOnly (fun _ => False) act := by
  constructor
  · intro h s e he
    obtain ⟨b, s', hrun⟩ := h s
    rw [hrun] at he
    cases he
  · intro h s
    rcases hrun : act s with ⟨e | b, s'⟩
    · exact (h s e (by rw [hrun])).elim
    · exact ⟨b, s', rfl⟩

section Emissions

variable {model : SolverModel α V σ}

theorem SolverModel.Accepts.refusesOnly (hmodel : model.Accepts) :
    model.RefusesOnly fun _ => False where
  addVariable name kind bounds := returns_iff.mp (hmodel.addVariable name kind bounds)
  addConstraint lhs relation rhs := returns_iff.mp (hmodel.addConstraint lhs relation rhs)
  setStart var value := returns_iff.mp (hmodel.setStart var value)

variable [Scalar α]

theorem emit_returns (hmodel : model.Accepts) (e : Extremum) (label : String) (m : α)
    (start : Option (ScoreTree α)) {operands : List (Encoded α V)} (hne : operands ≠ []) :
    Returns (e.emit model label operands (.constant m) start) :=
  returns_iff.mpr (emit_failsOnly hmodel.refusesOnly hne nofun)

theorem emitEquality_returns (hmodel : model.Accepts) (label : String) (bounds : Bounds α)
    (start : Option α) (value : LinearExpr α V) :
    Returns (do
      let y ← Emit.newVariable model label .continuous bounds start
      Emit.call (model.addConstraint (.ofVar y) .equal value)
      Emit.countConstraints 1
      return (⟨y, bounds⟩ : Encoded α V)) :=
  returns_iff.mpr (emitEquality_failsOnly hmodel.refusesOnly label bounds start value)

end Emissions

/-! ## Affine formulas -/

section Affine

variable [Scalar α]

mutual

/-- All signals of the formula are affine. -/
def Formula.Affine : Formula α → Prop
  | .predicate _ signal => ∃ part, signal.form.affinePart = .ok part
  | .not _ arg | .always _ _ arg | .eventually _ _ arg | .next _ arg => arg.Affine
  | .and _ args | .or _ args => args.Affine
  | .holdsUntil _ _ left right => left.Affine ∧ right.Affine

def Operands.Affine : Operands α → Prop
  | .pair first second => first.Affine ∧ second.Affine
  | .cons first rest => first.Affine ∧ rest.Affine

end

theorem Operands.affine_iff : ∀ args : Operands α, args.Affine ↔ ∀ g ∈ args.toList, g.Affine
  | .pair _ _ => by simp [Operands.Affine, Operands.toList]
  | .cons _ rest => by simp [Operands.Affine, Operands.toList, rest.affine_iff]

theorem Formula.Affine.of_mem_children {f g : Formula α} (h : f.Affine) (hg : g ∈ f.children) :
    g.Affine := by
  cases f with
  | predicate => cases hg
  | not | always | eventually | next => exact List.mem_singleton.mp hg ▸ h
  | and _ args | or _ args => exact args.affine_iff.mp h g hg
  | holdsUntil => rcases List.mem_pair.mp hg with rfl | rfl; exacts [h.1, h.2]

end Affine

/-! ## Sessions -/

section Sessions

open RunLogic

variable [Scalar α]

/-- The session encodes what is evaluated on the trajectory, with one big-M constant for all groups,
and every node that it remembers belongs to a formula of the library that is defined there. -/
structure Session.Serves (s : Session α V σ) (lib : FormulaLibrary α) (policy : WindowPolicy)
    (x : Trajectory α) : Prop where
  context : s.context.Serves policy x
  constant : ∃ m, s.context.settings.bigM = .constant m
  remembered (site : Site) (entry : MemoEntry α V) : s.context.memo[site]? = some entry →
    entry.formula ∈ lib.formulas ∧ entry.formula.id = site.node ∧
      entry.formula.Defined policy x site.index

variable {lib : FormulaLibrary α} {policy : WindowPolicy} {x : Trajectory α} {fails : Prop}

/-- Whether a session serves a trajectory depends on its settings, its bindings and its memo. -/
theorem Session.Serves.congr {s s' : Session α V σ} (h : s.Serves lib policy x)
    (hsettings : s'.context.settings = s.context.settings)
    (hbindings : s'.context.bindings = s.context.bindings)
    (hmemo : s'.context.memo = s.context.memo) : s'.Serves lib policy x where
  context := h.context.congr hsettings hbindings
  constant := hsettings ▸ h.constant
  remembered := fun site entry hentry => h.remembered site entry (hmemo ▸ hentry)

/-- A session that remembers one more node where the formula is defined. -/
theorem Session.Serves.remember {s : Session α V σ} (h : s.Serves lib policy x) {f : Formula α}
    {t : Nat} (encoded : Encoded α V) (hf : f ∈ lib.formulas)
    (hdef : f.Defined policy x t) :
    Session.Serves { s with context := s.context.remember f t encoded } lib policy x where
  context := h.context.congr rfl rfl
  constant := h.constant
  remembered := by
    intro site entry hentry
    rw [EncodingContext.getElem?_remember] at hentry
    split at hentry
    · next hsite =>
      obtain rfl := Option.some.inj hentry
      subst hsite
      exact ⟨hf, rfl, hdef⟩
    · exact h.remembered site entry hentry

/-- Encodings, followed through sessions that serve a trajectory. -/
def serving (lib : FormulaLibrary α) (policy : WindowPolicy) (x : Trajectory α)
    (fails : Prop) : RunLogic (Session α V σ) { s : Session α V σ // s.Serves lib policy x } where
  state := Subtype.val
  later _ _ := True
  tidy _ _ := True
  fails := fails
  tidy_refl _ := trivial
  tidy_trans _ _ := trivial
  later_of_tidy _ := trivial
  later_trans _ _ := trivial

variable {model : SolverModel α V σ} {w : { s : Session α V σ // s.Serves lib policy x }}

/-! ### Steps -/

theorem leads_of_returns {β : Type} {act : Emit α σ β} (h : Returns act) :
    (serving lib policy x fails).Leads w (Encode.emit act) fun _ _ => True := by
  obtain ⟨b, e, hrun⟩ := h ⟨w.val.solver, w.val.context.stats⟩
  have hemit : Encode.emit act w.val =
      (.ok b, ⟨e.solver, { w.val.context with stats := e.stats }⟩) := by
    simp [Encode.emit, hrun]
  refine (leads_of_ok hemit).mpr ?_
  exact ⟨⟨⟨e.solver, { w.val.context with stats := e.stats }⟩, w.property.congr rfl rfl rfl⟩, rfl,
    trivial, trivial⟩

theorem leads_label {role : VariableRole} {t : Nat} :
    (serving lib policy x fails).Leads w (Encode.takeLabel role t) fun _ _ => True :=
  (leads_of_ok (show Encode.takeLabel role t w.val = (.ok _, _) from rfl)).mpr
    ⟨⟨⟨w.val.solver, (w.val.context.takeLabel role t).2⟩, w.property.congr rfl rfl rfl⟩, rfl,
      trivial, trivial⟩

theorem leads_equalTo_serving (hmodel : model.Accepts) {role : VariableRole} {t : Nat}
    {bounds : Bounds α} {start : Option (ScoreTree α)} {value : LinearExpr α V} :
    (serving lib policy x fails).Leads w (Encode.equalTo model role t bounds start value)
      fun _ _ => True := by
  exact leads_bind (leads_label.mono fun label w₁ _ _ =>
    leads_of_returns (emitEquality_returns hmodel label bounds _ value))

/-- A group can be emitted, since the one big-M constant suits all groups. -/
theorem leads_group_serving (hmodel : model.Accepts) {e : Extremum} {role : VariableRole} {t : Nat}
    {start : Option (ScoreTree α)} {operands : List (Encoded α V)}
    (h : fails ∨ operands ≠ []) :
    (serving lib policy x fails).Leads w (Encode.group model e role t start operands)
      fun _ _ => True := by
  refine leads_bind (Encode.leads_context (leads_bind (leads_label.mono fun label w₁ _ _ => ?_)))
  obtain ⟨m, hm⟩ := w.property.constant
  rw [show ((serving lib policy x fails).state w).context.settings.bigM = .constant m from hm]
  by_cases hne : operands = []
  · subst hne
    have hrun : Encode.emit (e.emit model label [] (.constant m) start) w₁.val =
        (.error (.arity e.operator 1 0), w₁.val) := rfl
    exact (leads_of_error hrun).mpr ⟨h.resolve_right (by simp), w₁, rfl, trivial⟩
  · exact leads_of_returns (emit_returns hmodel e label m start hne)

theorem serving_emits (hmodel : model.Accepts) :
    Encode.Emits (serving lib policy x fails : RunLogic (Session α V σ) _) model where
  negation _ _ _ _ := leads_equalTo_serving hmodel
  group _ _ _ _ _ _ h := leads_group_serving hmodel h

/-! ### Formulas -/

/-- A signal can be encoded where it has a value, if it is affine. -/
theorem leads_predicate_serving (hmodel : model.Accepts) {source : Signal α} {t : Nat}
    {start : Option (ScoreTree α)}
    (hready : fails ∨ (∃ part, source.form.affinePart = .ok part) ∧
      ∃ a, x.signalValue source t = .ok a) :
    (serving lib policy x fails).Leads w (Encode.predicate model source t start) fun _ _ =>
      ∃ a, x.signalValue source t = .ok a := by
  have hlinear := w.property.context.linearForm_iff source t
  rw [Encode.predicate_eq]
  refine leads_bind (Encode.leads_context (leads_bind (leads_lift (fun value hvalue => ?_)
    (hready.imp_right hlinear.mpr))))
  exact (leads_equalTo_serving hmodel).mono fun _ _ _ _ => (hlinear.mp ⟨value, hvalue⟩).2

/-- **An encoding of a formula only returns where the formula is defined**, and there it does, if
all signals are affine. -/
theorem leads_formula_serving (hmodel : model.Accepts) (hlen : x.length ≤ Index.last)
    (f : Formula α) (t : Nat) (start : Option (ScoreTree α))
    (w : { s : Session α V σ // s.Serves lib policy x }) (hf : f ∈ lib.formulas)
    (hready : fails ∨ f.Affine ∧ f.Defined policy x t) :
    (serving lib policy x fails).Leads w (Encode.formula model f t start) fun _ _ =>
      f.Defined policy x t := by
  induction f, t, start using Formula.induction_on_plan generalizing w with
  | step f t start ih =>
    obtain ⟨hhorizon, hspacing, hpolicy, -, -⟩ := w.property.context
    refine Encode.leads_formula_of_plan (hready.imp_right fun h => Formula.exists_plan_of_defined
      start hlen hpolicy hspacing hhorizon h.2) ?_ ?_
    · intro encoded hmemo
      obtain ⟨entry, hentry, rfl⟩ := Option.map_eq_some_iff.mp hmemo
      obtain ⟨hlib, hid, hdef⟩ := w.property.remembered _ entry hentry
      obtain rfl := lib.unique entry.formula hlib f hf hid
      exact ⟨⟨{ w.val with context := w.val.context.countHit }, w.property.congr rfl rfl rfl⟩, rfl,
        trivial, hdef⟩
    · intro plan hplan _
      have hdefined := Formula.defined_iff_of_plan hlen hpolicy hspacing
        hhorizon hplan
      refine Leads.mono (Encode.leads_carryOut (fun k _ => k.formula.Defined policy x k.index)
        (fun source => ∃ a, x.signalValue source t = .ok a) (serving_emits hmodel)
        (.inr (Formula.plan_wellFormed (hhorizon ▸ hlen) hplan)) (fun _ h => h)
        (fun source hsource => leads_predicate_serving hmodel (hready.imp_right fun h => ?_))
        fun k hk v _ => ih _ plan hplan k hk v (Formula.mem_of_plan lib.closed hf hplan hk)
          (hready.imp_right fun h => ⟨?_, ?_⟩)) fun encoded v _ ⟨hreads, htasks⟩ => ?_
      · subst hsource
        obtain ⟨id, rfl⟩ := Formula.plan_eq_signal hplan
        exact ⟨h.1, h.2⟩
      · exact Formula.mem_of_plan (K := {f | f.Affine})
          (fun _ h _ hg => h.of_mem_children hg) h.1 hplan hk
      · exact (hdefined.mp h.2).2 k hk
      · have h := hdefined.mpr ⟨Plan.readable_iff.mpr hreads, htasks⟩
        exact ⟨⟨_, v.property.remember encoded hf h⟩, rfl, trivial, h⟩

/-! ### Calls -/

/-- The session after encodings that may all fail. -/
def Session.encoding (model : SolverModel α V σ) (s : Session α V σ) (calls : List (Task α)) :
    Session α V σ :=
  calls.foldl (fun s k => (k.formula.encodeAt model k.index k.start s).2) s

theorem leads_encodeAt_serving (hmodel : model.Accepts) (hlen : x.length ≤ Index.last)
    {f : Formula α} (t : Nat) (start : Option (ScoreTree α))
    (w : { s : Session α V σ // s.Serves lib policy x }) (hf : f ∈ lib.formulas)
    (hready : fails ∨ f.Affine ∧ t < x.length ∧ f.Defined policy x t) :
    (serving lib policy x fails).Leads w (f.encodeAt model t start) fun _ _ =>
      t < x.length ∧ f.Defined policy x t := by
  have hinside : (∃ u, w.val.context.inside t = .ok u) ↔ t < x.length := by
    rw [EncodingContext.inside_iff, w.property.context.horizon_eq]
  refine leads_bind (Encode.leads_consults (Encode.checkIndex_consults t) (fun u hu => ?_)
    (hready.imp_right fun h => hinside.mpr h.2.1))
  refine leads_bind ((leads_formula_serving hmodel hlen f t start w hf
    (hready.imp_right fun h => ⟨h.1, h.2.2⟩)).mono fun encoded v _ h => ?_)
  exact leads_pure ⟨hinside.mp ⟨u, hu⟩, h⟩

/-- Encodings of formulas of the library leave a session that serves the trajectory, also where they
fail. -/
theorem Session.Serves.encoding (hmodel : model.Accepts) (hlen : x.length ≤ Index.last)
    {s : Session α V σ} (h : s.Serves lib policy x)
    {calls : List (Task α)} (hcalls : ∀ k ∈ calls, k.formula ∈ lib.formulas) :
    (s.encoding model calls).Serves lib policy x := by
  induction calls generalizing s with
  | nil => exact h
  | cons k rest ih =>
    obtain ⟨w, hw, -⟩ := (leads_encodeAt_serving hmodel hlen k.index k.start ⟨s, h⟩
      (hcalls k (by simp)) (.inl trivial)).exists_later
    have hnext : (k.formula.encodeAt model k.index k.start s).2.Serves lib policy x := by
      have hstate : w.val = (k.formula.encodeAt model k.index k.start s).2 := hw
      exact hstate ▸ w.property
    exact ih hnext fun k' hk' => hcalls k' (by simp [hk'])

/-- An evaluation returns exactly inside the trajectory where the formula is defined, whatever the
values are. -/
theorem Formula.exists_evaluate_iff {Y : Type} {S : Semantics α Y} {x : Trajectory α}
    (hlen : x.length ≤ Index.last) {f : Formula α} {anchor : Nat} :
    (∃ y, f.evaluate S policy x anchor = .ok y) ↔
      anchor < x.length ∧ f.Defined policy x anchor := by
  constructor
  · intro ⟨y, hy⟩
    obtain ⟨hinside, hvalue⟩ := Formula.evaluate_eq_ok.mp hy
    exact ⟨hinside, Formula.defined_of_valueAt hlen f anchor y hvalue⟩
  · intro ⟨hinside, hdef⟩
    -- values that the semantics cannot order are no obstacle: verdicts can always be ordered
    obtain ⟨b, hb, -⟩ := Formula.exists_valueAt qualitative_ordered hlen f anchor hdef
      fun _ _ _ _ _ => trivial
    have halike : EndAlike Eq (fun _ _ => True) (f.evaluate S policy x anchor)
        (f.evaluate .qualitative policy x anchor) :=
      f.evaluate_alike ⟨fun _ _ => trivial, fun _ _ => trivial, trivial, trivial⟩ (fun _ => rfl)
        hlen rfl rfl anchor (.inr fun _ _ _ => trivial) fun _ _ _ =>
          Trajectory.signalValue_alike (S := S) (T := .qualitative) (R := fun _ _ => True)
            fun _ _ => trivial
    exact halike.ok_iff.mpr ⟨b, Formula.evaluate_eq_ok.mpr ⟨hinside, hb⟩⟩

/-- **An encoding succeeds exactly where an evaluation does.** On a model that accepts every call,
with one big-M constant, with variables bound to the samples of a table and to nothing else, and
after any encodings under these bindings, a formula whose signals are all affine can be encoded at
an anchor exactly if it has a robustness there. -/
theorem encoding_succeeds_iff (hmodel : model.Accepts) {x : SampledTrajectory α} (hx : x.Built)
    (hlen : x.length ≤ Index.last) {s : Session α V σ} {m : α}
    (hbigM : s.context.settings.bigM = .constant m)
    (hhorizon : s.context.settings.horizon = x.length)
    (hspacing : s.context.settings.spacing = x.spacing)
    (hpolicy : s.context.settings.policy = policy)
    (hbound : ∀ sample : Sample, (∃ v, s.context.bindings[sample]? = some v) ↔
      (∃ column, x.column? sample.name = some column) ∧ sample.index < x.length)
    (hmemo : s.context.memo = ∅) {calls : List (Task α)}
    (hcalls : ∀ k ∈ calls, k.formula ∈ lib.formulas) {f : Formula α} (hf : f ∈ lib.formulas)
    (haffine : f.Affine) (anchor : Nat) (start : Option (ScoreTree α)) :
    (∃ v, (f.encodeAt model anchor start (s.encoding model calls)).1 = .ok v) ↔
      ∃ y, f.robustness policy x.toTrajectory anchor = .ok y := by
  have hserves : s.Serves lib policy x.toTrajectory := by
    refine ⟨⟨hhorizon, hspacing, hpolicy, ?_, ?_⟩, ⟨m, hbigM⟩, ?_⟩
    · exact fun sample a ha => ((hx.value_iff sample).mp ⟨a, ha⟩).2
    · exact fun sample => (hbound sample).trans (hx.value_iff sample).symm
    · exact fun site entry hentry => by simp [hmemo] at hentry
  have hsession := hserves.encoding hmodel hlen hcalls
  rw [Formula.robustness, Formula.exists_evaluate_iff (x := x.toTrajectory) hlen]
  constructor
  · intro ⟨v, hv⟩
    have hrun := leads_encodeAt_serving hmodel hlen anchor start ⟨_, hsession⟩ hf (.inl trivial)
    obtain ⟨-, -, -, h⟩ := hrun.exists_post hv
    exact h
  · intro h
    exact (leads_encodeAt_serving hmodel hlen anchor start ⟨_, hsession⟩ hf
      (.inr ⟨haffine, h⟩)).exists_ok not_false

/-- `x > 0` one sample ahead, throughout the first time unit. -/
def aheadThroughout : Formula Exact :=
  .always ⟨0⟩ .firstStep (.predicate ⟨1⟩ (.ofForm (.affine [(.fin 1, ⟨"x", 1⟩)] (.fin 0))))

def aheadLibrary : FormulaLibrary Exact :=
  .over aheadThroughout ⟨1⟩ _ rfl (by decide)

/-- A table of three samples. -/
def threeSamples : SampledTrajectory Exact :=
  ⟨.fin 1, some 3, (∅ : Std.TreeMap String (Array Exact)).insert "x" #[.fin 1, .fin 2, .fin 3]⟩

theorem threeSamples_built : threeSamples.Built := by
  have hadd : (SampledTrajectory.empty (.fin 1)).withSignal? "x" #[.fin 1, .fin 2, .fin 3] =
      .ok threeSamples := SampledTrajectory.withSignal?_eq_ok.mpr
    ⟨by decide, by simp [SampledTrajectory.empty], rfl⟩
  exact .withSignal (.empty (.fin 1)) hadd

/-- A session over a journal, with a variable for each sample of the table. -/
def threeSampleSession : Session Exact String (Journal Exact) where
  solver := #[]
  context := [0, 1, 2].foldl (fun ctx i => ctx.bind ⟨"x", i⟩ s!"x[{i}]")
    { settings := ⟨.constant (.fin 10), 3, .fin 1, .strict, "stl"⟩ }

theorem threeSampleSession_bindings (sample : Sample) :
    (∃ v, threeSampleSession.context.bindings[sample]? = some v) ↔
      (∃ column, threeSamples.column? sample.name = some column) ∧
        sample.index < threeSamples.length := by
  obtain ⟨name, i⟩ := sample
  have hcolumn : (∃ column, threeSamples.column? name = some column) ↔ name = "x" := by
    simp [threeSamples, SampledTrajectory.column?, SampledTrajectory.column?_withColumn, eq_comm]
  have hbound : (∃ v, threeSampleSession.context.bindings[(⟨name, i⟩ : Sample)]? = some v) ↔
      name = "x" ∧ (i = 0 ∨ i = 1 ∨ i = 2) := by
    simp only [threeSampleSession, List.foldl_cons, List.foldl_nil, EncodingContext.getElem?_bind,
      Std.TreeMap.getElem?_emptyc, Sample.mk.injEq]
    by_cases hname : "x" = name
    · subst hname
      split_ifs <;> simp_all
      omega
    · simp [hname, Ne.symm hname]
  rw [hcolumn, hbound]
  refine and_congr_right fun _ => ?_
  show _ ↔ i < 3
  omega

/-- The first encoding stops at the second index of its window and leaves the node at the first one
remembered; the encoding at the anchor before it succeeds all the same. -/
theorem encoding_succeeds_iff_of_aheadThroughout :
    (∃ v, (aheadThroughout.encodeAt (Journal.solver ⟨true, none, none⟩) 0 none
      (threeSampleSession.encoding (Journal.solver ⟨true, none, none⟩)
        [⟨aheadThroughout, 1, none⟩])).1 = .ok v) ∧
    ¬ ∃ v, (aheadThroughout.encodeAt (Journal.solver ⟨true, none, none⟩) 1 none
      (threeSampleSession.encoding (Journal.solver ⟨true, none, none⟩) [])).1 = .ok v := by
  have hspec (anchor : Nat) (calls : List (Task Exact))
      (hcalls : ∀ k ∈ calls, k.formula ∈ aheadLibrary.formulas) :=
    encoding_succeeds_iff (Journal.solver_accepts true none) threeSamples_built
      (by decide) rfl rfl rfl rfl threeSampleSession_bindings rfl hcalls (.inl rfl) ⟨_, rfl⟩ anchor
      none
  refine ⟨(hspec 0 _ fun k hk => ?_).mpr ⟨.fin 2, by decide +kernel⟩, fun h => ?_⟩
  · exact List.mem_singleton.mp hk ▸ .inl rfl
  · obtain ⟨y, hy⟩ := (hspec 1 [] fun k hk => nomatch hk).mp h
    have hfault : (aheadThroughout.robustness threeSampleSession.context.settings.policy
        threeSamples.toTrajectory 1).isOk = false := by decide +kernel
    rw [hy] at hfault
    cases hfault

end Sessions

end SignalTemporalLogic
