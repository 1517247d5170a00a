import SignalTemporalLogic.Proofs.Contexts
import SignalTemporalLogic.Proofs.EncoderSteps
import SignalTemporalLogic.Proofs.Metering

/-!
Which variables a remembered predicate is about. Its equality was added over the variables that were
bound to its samples when it was encoded. Later bindings do not reach it: the memo goes by node and
index, and so a predicate whose sample has been bound to another variable is found again as it was.
-/

namespace SignalTemporalLogic

open RunLogic

variable {α V σ β γ : Type} [Scalar α]

/-! ## Linear forms and bindings -/

namespace EncodingContext

variable {ctx ctx' : EncodingContext α V} {signal : Signal α} {t : Nat}

/-- A term stays as long as its sample keeps its variable. -/
theorem resolve_eq_ok_of_bindings (hsettings : ctx'.settings = ctx.settings) {input : α × Sample}
    (h : ∀ v, ctx.bindings[input.2]? = some v → ctx'.bindings[input.2]? = some v) {term : α × V}
    (hterm : ctx.resolve input = .ok term) : ctx'.resolve input = .ok term := by
  obtain ⟨u, hu, hterm⟩ := Except.bind_eq_ok.mp hterm
  obtain ⟨v, hv, hterm⟩ := Except.bind_eq_ok.mp hterm
  refine Except.bind_eq_ok.mpr ⟨u, ?_, Except.bind_eq_ok.mpr ⟨v, ?_, hterm⟩⟩
  · rw [← hu, inside, inside, hsettings]
  · exact boundVariable_eq_ok.mpr (h v (boundVariable_eq_ok.mp hv))

/-- A linear form stays as long as the samples of the signal keep their variables. -/
theorem linearForm_eq_ok_of_bindings (hsettings : ctx'.settings = ctx.settings)
    (h : ∀ samples, signal.samplesAt t = .ok samples → ∀ sample ∈ samples, ∀ v,
      ctx.bindings[sample]? = some v → ctx'.bindings[sample]? = some v)
    {value : LinearExpr α V} (hvalue : ctx.linearForm signal t = .ok value) :
    ctx'.linearForm signal t = .ok value := by
  obtain ⟨part, hpart, hvalue⟩ := Except.bind_eq_ok.mp hvalue
  obtain ⟨u, hu, hvalue⟩ := Except.bind_eq_ok.mp hvalue
  obtain ⟨samples, hsamples, hvalue⟩ := Except.bind_eq_ok.mp hvalue
  obtain ⟨terms, hterms, hvalue⟩ := Except.bind_eq_ok.mp hvalue
  have hu' : ctx'.inside t = .ok u := by rw [← hu, inside, inside, hsettings]
  have hterms' : ((part.1.map Prod.fst).zip samples).mapM ctx'.resolve = .ok terms :=
    Except.mapM_eq_ok.mpr (forall₂_imp_of_mem (Except.mapM_eq_ok.mp hterms) fun input hinput _ hterm =>
      resolve_eq_ok_of_bindings hsettings (h samples hsamples input.2 (List.of_mem_zip hinput).2) hterm)
  exact Except.bind_eq_ok.mpr ⟨part, hpart, Except.bind_eq_ok.mpr ⟨u, hu',
    Except.bind_eq_ok.mpr ⟨samples, hsamples, Except.bind_eq_ok.mpr ⟨terms, hterms', hvalue⟩⟩⟩⟩

end EncodingContext

/-! ## Grounded predicates -/

/-- If the entry is that of a predicate, the model has accepted that its variable equals the signal
over the variables which the context binds to the samples. -/
def Meter.Grounds (m : Meter α V σ) (ctx : EncodingContext α V) (site : Site)
    (entry : MemoEntry α V) : Prop :=
  ∀ id signal, entry.formula = .predicate id signal →
    ∃ value, ctx.linearForm signal site.index = .ok value ∧
      SolverEvent.constrained (.ofVar entry.encoded.var) .equal value ∈ m.accepted

/-- A run keeps the bindings and the accepted calls. What it has remembered is grounded in the
bindings. -/
structure Session.Advances (s s' : Session α V (Meter α V σ)) : Prop where
  settings_eq : s'.context.settings = s.context.settings
  bindings_eq : s'.context.bindings = s.context.bindings
  accepted : s.solver.accepted ⊆ s'.solver.accepted
  entries {site : Site} {entry : MemoEntry α V} : s'.context.memo[site]? = some entry →
    s.context.memo[site]? = some entry ∨ s'.solver.Grounds s.context site entry

section Growth

variable {s s' s'' : Session α V (Meter α V σ)}

theorem Meter.Grounds.mono {m m' : Meter α V σ} {ctx ctx' : EncodingContext α V} {site : Site}
    {entry : MemoEntry α V} (h : m.Grounds ctx site entry) (haccepted : m.accepted ⊆ m'.accepted)
    (hsettings : ctx'.settings = ctx.settings) (hbindings : ctx'.bindings = ctx.bindings) :
    m'.Grounds ctx' site entry := by
  intro id signal he
  obtain ⟨value, hvalue, hmem⟩ := h id signal he
  exact ⟨value, EncodingContext.linearForm_eq_ok_of_bindings hsettings
    (fun _ _ _ _ _ hv => hbindings ▸ hv) hvalue, haccepted hmem⟩

namespace Session.Advances

theorem of_memo_eq (hsettings : s'.context.settings = s.context.settings)
    (hbindings : s'.context.bindings = s.context.bindings)
    (hmemo : s'.context.memo = s.context.memo)
    (haccepted : s.solver.accepted ⊆ s'.solver.accepted) : s.Advances s' where
  settings_eq := hsettings
  bindings_eq := hbindings
  accepted := haccepted
  entries he := .inl (hmemo ▸ he)

theorem refl (s : Session α V (Meter α V σ)) : s.Advances s := .of_memo_eq rfl rfl rfl (List.Subset.refl _)

theorem trans (h : s.Advances s') (k : s'.Advances s'') : s.Advances s'' where
  settings_eq := k.settings_eq.trans h.settings_eq
  bindings_eq := k.bindings_eq.trans h.bindings_eq
  accepted := List.Subset.trans h.accepted k.accepted
  entries he := by
    rcases k.entries he with hold | hnew
    · exact (h.entries hold).imp_right (·.mono k.accepted rfl rfl)
    · exact .inr (hnew.mono (List.Subset.refl _) h.settings_eq.symm h.bindings_eq.symm)

end Session.Advances

end Growth

/-- A call adds to the accepted ones, or to the refused ones. -/
theorem Encode.accepted_subset_pass (event : SolverEvent α V) (act : SolverCall α σ β)
    (s : Session α V (Meter α V σ)) :
    s.solver.accepted ⊆ (emit (Emit.call (Meter.pass event act)) s).2.solver.accepted := by
  rcases hrun : act s.solver.solver with ⟨refusal | b, solver⟩
  · rw [emit_pass_error hrun]
    exact List.Subset.refl _
  · rw [emit_pass_ok hrun]
    exact List.subset_append_left _ _

/-- A call that has returned has been accepted. -/
theorem Encode.mem_accepted_of_pass {event : SolverEvent α V} {act : SolverCall α σ β} {b : β}
    {s : Session α V (Meter α V σ)} (h : (emit (Emit.call (Meter.pass event act)) s).1 = .ok b) :
    event ∈ (emit (Emit.call (Meter.pass event act)) s).2.solver.accepted := by
  rcases hrun : act s.solver.solver with ⟨refusal | b', solver⟩
  · rw [emit_pass_error hrun] at h
    cases h
  · rw [emit_pass_ok hrun]
    exact List.mem_append_right _ (List.mem_singleton_self _)

/-- What has been accepted stays accepted. -/
def accumulating (model : SolverModel α V σ) : Correspondence model.metered model.metered :=
  CallCorrespondence.toCorrespondence {
    Alike := fun act _ => ∀ s, s.solver.accepted ⊆ (act s).2.solver.accepted
    lift := fun x s => by cases x <;> exact List.Subset.refl _
    bind := fun {_ _ act _ next _} h hnext s => by
      have hact := h s
      rcases hrun : act s with ⟨e | b, s'⟩ <;> rw [hrun] at hact
      · rw [run_bind_error hrun]
        exact hact
      · rw [run_bind_ok next hrun]
        exact List.Subset.trans hact (hnext b s')
    context := fun s => List.Subset.refl _
    modifyContext := fun _ s => List.Subset.refl _
    addVariable := fun _ _ _ => Encode.accepted_subset_pass _ _
    addConstraint := fun _ _ _ => Encode.accepted_subset_pass _ _
    setStart := fun _ _ => Encode.accepted_subset_pass _ _ }

/-- Encodings on a metered model, any of which may fail. -/
def grounding : RunLogic (Session α V (Meter α V σ)) (Session α V (Meter α V σ)) where
  state := id
  later := Session.Advances
  tidy := Session.Advances
  fails := True
  tidy_refl := .refl
  tidy_trans := .trans
  later_of_tidy := id
  later_trans := .trans

section Steps

variable {w : Session α V (Meter α V σ)}

/-- A step that leaves the bindings and the memo alone. -/
theorem leads_of_memo_eq {act : Encode α V (Meter α V σ) β}
    {post : β → Session α V (Meter α V σ) → Prop}
    (hsettings : (act w).2.context.settings = w.context.settings)
    (hbindings : (act w).2.context.bindings = w.context.bindings)
    (hmemo : (act w).2.context.memo = w.context.memo)
    (haccepted : w.solver.accepted ⊆ (act w).2.solver.accepted)
    (hpost : ∀ b, (act w).1 = .ok b → post b (act w).2) : grounding.Leads w act post := by
  have hadvances := Session.Advances.of_memo_eq hsettings hbindings hmemo haccepted
  rcases hrun : act w with ⟨e | b, s⟩ <;> rw [hrun] at hadvances hpost
  · exact (leads_of_error hrun).mpr ⟨trivial, s, rfl, hadvances⟩
  · exact (leads_of_ok hrun).mpr ⟨s, rfl, hadvances, hpost b rfl⟩

/-- A variable is returned with its equality. -/
theorem leads_equalTo_grounding (model : SolverModel α V σ) (role : VariableRole) (t : Nat)
    (bounds : Bounds α) (start : Option (ScoreTree α)) (value : LinearExpr α V) :
    grounding.Leads w (Encode.equalTo model.metered role t bounds start value) fun x v =>
      .constrained (.ofVar x.var) .equal value ∈ v.solver.accepted := by
  refine leads_bind (leads_of_memo_eq rfl rfl rfl (List.Subset.refl _) fun label _ => ?_)
  rw [Encode.emit_bind]
  refine leads_bind (leads_of_memo_eq rfl rfl rfl
    ((accumulating model).newVariable label .continuous bounds _ _) fun y _ => ?_)
  rw [Encode.emit_bind]
  refine leads_bind (leads_of_memo_eq rfl rfl rfl
    (Encode.accepted_subset_pass _ _ _) fun u hu => ?_)
  refine leads_of_memo_eq rfl rfl rfl (List.Subset.refl _) fun x hx => ?_
  cases hx
  exact Encode.mem_accepted_of_pass hu

/-- A predicate is remembered with its equality. -/
theorem leads_predicate_grounding (model : SolverModel α V σ) (id : NodeId) (source : Signal α)
    (t : Nat) (start : Option (ScoreTree α)) :
    grounding.Leads w (do
      let x ← Encode.predicate model.metered source t start
      Encode.modifyContext (·.remember (.predicate id source) t x)
      return x) fun _ _ => True := by
  rw [Encode.predicate_eq, bind_assoc]
  refine leads_bind (Encode.leads_context ?_)
  rw [bind_assoc]
  refine leads_bind (leads_lift (fun value hvalue => ?_) (.inl trivial))
  refine leads_bind ((leads_equalTo_grounding ..).mono fun x v hv hequal => ?_)
  refine leads_bind (leads_modify { v with context := v.context.remember (.predicate id source) t x }
    rfl ⟨rfl, rfl, List.Subset.refl _, fun {site entry} he => ?_⟩ (leads_pure trivial))
  rw [EncodingContext.getElem?_remember] at he
  split at he
  · next hsite =>
    cases he
    refine .inr ?_
    rintro _ _ ⟨⟩
    exact ⟨value, EncodingContext.linearForm_eq_ok_of_bindings hv.settings_eq
      (fun _ _ _ _ _ hu => hv.bindings_eq ▸ hu) (hsite ▸ hvalue), hequal⟩
  · exact .inl he

theorem grounding_steps (model : SolverModel α V σ) : Encode.Steps grounding model.metered where
  fails := trivial
  negation _ _ _ _ := (leads_equalTo_grounding ..).mono fun _ _ _ _ => trivial
  group w e role t start operands _ := leads_of_memo_eq rfl rfl rfl
    ((accumulating model).group e role t start operands w) fun _ _ => trivial
  predicate _ id source t start := leads_predicate_grounding model id source t start
  hit w := ⟨_, rfl, .of_memo_eq rfl rfl rfl (List.Subset.refl _)⟩
  remember w f t x h := by
    refine ⟨_, rfl, rfl, rfl, List.Subset.refl _, fun {site entry} he => ?_⟩
    have he : (w.context.remember f t x).memo[site]? = some entry := he
    rw [EncodingContext.getElem?_remember] at he
    split at he
    · cases he
      exact .inr fun id source hf => absurd hf (h id source)
    · exact .inl he

end Steps

/-! ## Sessions -/

/-- The entry is that of a predicate that reads the sample. -/
def MemoEntry.Reads (entry : MemoEntry α V) (t : Nat) (sample : Sample) : Prop :=
  ∃ id signal samples, entry.formula = .predicate id signal ∧ signal.samplesAt t = .ok samples ∧
    sample ∈ samples

namespace Session

variable {model : SolverModel α V σ} {s : Session α V (Meter α V σ)}

theorem advances_encode (model : SolverModel α V σ) (s : Session α V (Meter α V σ)) (k : Task α) :
    s.Advances (s.after model.metered (.encode k)) := by
  obtain ⟨s', hs', hadvances⟩ :=
    ((grounding_steps model).encodeAt k.formula k.index k.start s).exists_later
  have hstate : s' = s.after model.metered (.encode k) := hs'
  exact hstate ▸ hadvances

/-- The settings stay, and so do the accepted calls. -/
theorem run_extends (s : Session α V (Meter α V σ)) (acts : List (Act α V σ)) :
    (s.run model.metered (acts.map Act.metered)).context.settings = s.context.settings ∧
      s.solver.accepted ⊆ (s.run model.metered (acts.map Act.metered)).solver.accepted := by
  induction acts generalizing s with
  | nil => exact ⟨rfl, List.Subset.refl _⟩
  | cons act rest ih =>
    obtain ⟨hsettings, haccepted⟩ := ih (s.after model.metered act.metered)
    cases act with
    | encode k =>
      have hadvances := advances_encode model s k
      exact ⟨hsettings.trans hadvances.settings_eq, List.Subset.trans hadvances.accepted haccepted⟩
    | bind | adjust => exact ⟨hsettings, haccepted⟩

/-- A sample keeps its variable as long as it is bound to no other one. -/
theorem bindings_run {sample : Sample} {v : V} {acts : List (Act α V σ)}
    (hacts : ∀ var, .bind sample var ∈ acts → var = v)
    (hbound : s.context.bindings[sample]? = some v) :
    (s.run model.metered (acts.map Act.metered)).context.bindings[sample]? = some v := by
  induction acts generalizing s with
  | nil => exact hbound
  | cons act rest ih =>
    refine ih (s := s.after model.metered act.metered)
      (fun var hvar => hacts var (List.mem_cons_of_mem _ hvar)) ?_
    cases act with
    | encode k => exact (advances_encode model s k).bindings_eq ▸ hbound
    | adjust => exact hbound
    | bind sample' var =>
      refine (EncodingContext.getElem?_bind sample' sample var).trans ?_
      split
      · next he => rw [hacts var (he ▸ List.mem_cons_self)]
      · exact hbound

/-- **A predicate is remembered by an encoding that grounds it** in the bindings of its time. -/
theorem exists_grounding (s : Session α V (Meter α V σ)) (acts : List (Act α V σ)) {site : Site}
    {entry : MemoEntry α V}
    (h : (s.run model.metered (acts.map Act.metered)).context.memo[site]? = some entry) :
    s.context.memo[site]? = some entry ∨ ∃ before k after, acts = before ++ .encode k :: after ∧
      (s.run model.metered (acts.map Act.metered)).solver.Grounds
        (s.run model.metered (before.map Act.metered)).context site entry := by
  induction acts generalizing s with
  | nil => exact .inl h
  | cons act rest ih =>
    rcases ih (s.after model.metered act.metered) h with hnext | ⟨before, k, after, rfl, hgrounds⟩
    · cases act with
      | encode k =>
        refine ((advances_encode model s k).entries hnext).imp_right fun hgrounds => ?_
        exact ⟨[], k, rest, rfl, hgrounds.mono (run_extends _ rest).2 rfl rfl⟩
      | bind | adjust => exact .inl hnext
    · exact .inr ⟨act :: before, k, after, rfl, hgrounds⟩

end Session

/-- **What a remembered predicate is about.** In every session on a new context, whatever its model
refuses, each predicate that is remembered has an accepted equality over the variables that were
bound to its samples when some call of the session encoded it. These are the variables bound to them
now, unless one of the samples has been bound to another variable since. -/
theorem predicates_grounded (model : SolverModel α V σ) (settings : EncodingSettings α) (solver : σ)
    (acts : List (Session.Act α V σ)) :
    let new : Session α V (Meter α V σ) := ⟨⟨solver, [], []⟩, { settings }⟩
    let s := new.run model.metered (acts.map Session.Act.metered)
    Session.run model ⟨solver, { settings }⟩ acts = s.unmetered ∧
    ∀ (site : Site) (entry : MemoEntry α V), s.context.memo[site]? = some entry →
      ∃ before k after, acts = before ++ .encode k :: after ∧
        let s₀ := new.run model.metered (before.map Session.Act.metered)
        s.solver.Grounds s₀.context site entry ∧
        ((∀ sample var, .bind sample var ∈ after → entry.Reads site.index sample →
            s₀.context.bindings[sample]? = some var) →
          s.solver.Grounds s.context site entry) := by
  intro new s
  refine ⟨Session.run_unmetered model new acts, fun site entry hentry => ?_⟩
  rcases Session.exists_grounding new acts hentry with hold | ⟨before, k, after, hacts, hgrounds⟩
  · simp [new] at hold
  · refine ⟨before, k, after, hacts, hgrounds, fun hkept id signal hformula => ?_⟩
    obtain ⟨value, hvalue, hmem⟩ := hgrounds id signal hformula
    refine ⟨value, EncodingContext.linearForm_eq_ok_of_bindings ?_ ?_ hvalue, hmem⟩
    · exact (Session.run_extends new acts).1.trans (Session.run_extends new before).1.symm
    · intro samples hsamples sample hsample v hv
      let s₀ := new.run model.metered (before.map Session.Act.metered)
      have hrun : s = (s₀.after model.metered (.encode k)).run model.metered
          (after.map Session.Act.metered) := by
        show new.run model.metered (acts.map Session.Act.metered) = _
        rw [hacts, List.map_append]
        exact List.foldl_append
      rw [hrun]
      refine Session.bindings_run (fun var hvar => ?_)
        ((Session.advances_encode model s₀ k).bindings_eq ▸ hv)
      have hsame := hkept sample var hvar ⟨id, signal, samples, hformula, hsamples, hsample⟩
      exact Option.some.inj (hsame.symm.trans hv)

/-- The variables on the right of a constraint. -/
def SolverEvent.variables : SolverEvent α V → List V
  | constrained _ _ rhs => rhs.terms.map Prod.snd
  | _ => []

/-- The variables that are bound to what the entry of a predicate reads. -/
def EncodingContext.variablesOf (ctx : EncodingContext α V) (t : Nat) (entry : MemoEntry α V) :
    List V :=
  match entry.formula with
  | .predicate _ signal => (ctx.linearForm signal t).toOption.elim [] (·.terms.map Prod.snd)
  | _ => []

/-- `x > 0` is encoded over `u`, and once more after the sample has been bound to `v`. -/
def bindTwice : List (Session.Act Exact String (Journal Exact)) :=
  let positive : Task Exact := ⟨.predicate ⟨0⟩ (.greaterThan "x" (.fin 0)), 0, none⟩
  [.bind ⟨"x", 0⟩ "u", .encode positive, .bind ⟨"x", 0⟩ "v", .encode positive]

/-- The second encoding finds the first one, so that what is remembered in the end is not about the
variable that is bound in the end. -/
theorem memo_misses_binding :
    let s := Session.run (Journal.solver ⟨true, none, none⟩ : SolverModel Exact _ _).metered
      ⟨⟨#[], [], []⟩, { settings := ⟨.constant (.fin 10), 1, .fin 1, .strict, "stl"⟩ }⟩
      (bindTwice.map Session.Act.metered)
    ∃ (site : Site) (entry : MemoEntry Exact String), s.context.memo[site]? = some entry ∧
      ¬ s.solver.Grounds s.context site entry := by
  intro s
  have hbound : (s.context.memo[(⟨⟨0⟩, 0⟩ : Site)]?).map (s.context.variablesOf 0) = some ["v"] := by
    decide +kernel
  have hequal : ∀ event ∈ s.solver.accepted, "v" ∉ event.variables := by decide +kernel
  obtain ⟨entry, hentry, hentryBound⟩ := Option.map_eq_some_iff.mp hbound
  refine ⟨⟨⟨0⟩, 0⟩, entry, hentry, fun h => ?_⟩
  unfold EncodingContext.variablesOf at hentryBound
  split at hentryBound
  · next id signal hformula =>
    obtain ⟨value, hvalue, hmem⟩ := h id signal hformula
    rw [hvalue] at hentryBound
    have hvariables : value.terms.map Prod.snd = ["v"] := hentryBound
    exact hequal _ hmem (show "v" ∈ value.terms.map Prod.snd from hvariables ▸ List.mem_cons_self)
  · cases hentryBound

end SignalTemporalLogic
