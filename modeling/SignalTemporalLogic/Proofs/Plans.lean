import SignalTemporalLogic.Encoding.Encode
import SignalTemporalLogic.Proofs.Runs
import SignalTemporalLogic.Proofs.Uses

/-!
Plans: what an encoding of a formula at an index is going to do, as far as the settings of the
session tell. A plan lists the nodes to be encoded first, with their start values, and says how the
results are combined. Encoding a formula is to carry out its plan, unless the formula is remembered,
so that what holds of all encodings is proved for five kinds of plans and not for every operator.
-/

namespace SignalTemporalLogic

variable {α : Type} [Scalar α]

/-- A node to be encoded at an index. -/
structure Task (α : Type) [Scalar α] where
  formula : Formula α
  index : Nat
  start : Option (ScoreTree α)

/-- How the variable of a node comes about. -/
inductive Plan (α : Type) [Scalar α] where
  /-- It equals the value of a signal. -/
  | signal (source : Signal α)
  /-- It is the variable of another node. -/
  | same (task : Task α)
  | negated (task : Task α)
  | extreme (e : Extremum) (role : VariableRole) (tasks : List (Task α))
  /-- It is the best candidate of an until. -/
  | candidates (skipped : Nat) (rights lefts : List (Task α))

/-- The nodes to be encoded first, in order. -/
def Plan.tasks : Plan α → List (Task α)
  | signal _ => []
  | same task | negated task => [task]
  | extreme _ _ tasks => tasks
  | candidates _ rights lefts => rights ++ lefts

/-- No extreme is taken of nothing, and an until has the left operands that its candidates need. -/
def Plan.WellFormed : Plan α → Prop
  | .extreme _ _ tasks => tasks ≠ []
  | .candidates skipped rights lefts =>
    rights ≠ [] ∧ rights.length + skipped = lefts.length + 1
  | _ => True

/-- The plan for the formula at `t`. -/
def Formula.plan (settings : EncodingSettings α) :
    Formula α → Nat → Option (ScoreTree α) → Except (Fault α) (Plan α)
  | .predicate _ signal, _, _ => return .signal signal
  | .not _ (.not _ arg), t, start => return .same ⟨arg, t, startAt (startAt start 0) 0⟩
  | .not _ arg, t, start => return .negated ⟨arg, t, startAt start 0⟩
  | .and _ args, t, start =>
    return .extreme .min .and (args.toList.zipIdx.map fun (g, i) => ⟨g, t, startAt start i⟩)
  | .or _ args, t, start =>
    return .extreme .max .or (args.toList.zipIdx.map fun (g, i) => ⟨g, t, startAt start i⟩)
  | .always _ interval arg, t, start => do
    let w ← settings.policy.window interval settings.spacing t settings.horizon
    return .extreme .min .always
      ((List.range' w.first w.size).map fun u => ⟨arg, u, startAt start (u - w.first)⟩)
  | .eventually _ interval arg, t, start => do
    let w ← settings.policy.window interval settings.spacing t settings.horizon
    return .extreme .max .eventually
      ((List.range' w.first w.size).map fun u => ⟨arg, u, startAt start (u - w.first)⟩)
  | .holdsUntil _ interval left right, t, start => do
    let w ← settings.policy.window interval settings.spacing t settings.horizon
    return .candidates (w.first - t)
      ((List.range' w.first w.size).map fun u => ⟨right, u, startAt start (u - w.first)⟩)
      ((List.range' t (w.last - t)).map fun u => ⟨left, u, startAt start (w.size + (u - t))⟩)
  | .next _ arg, t, start => do
    let w ← settings.policy.offsets t 1 1 settings.horizon
    return .same ⟨arg, w.first, startAt start 0⟩

namespace Encode

variable {V σ : Type}

/-- Encodes a node at index `t` by a plan. The nodes of the plan are encoded by `visit`. -/
def carryOut (model : SolverModel α V σ) (t : Nat) (start : Option (ScoreTree α))
    (visit : Task α → Encode α V σ (Encoded α V)) : Plan α → Encode α V σ (Encoded α V)
  | .signal source => predicate model source t start
  | .same task => visit task
  | .negated task => do negation model t start (← visit task)
  | .extreme e role tasks => do group model e role t start (← tasks.mapM visit)
  | .candidates skipped rights lefts => do
    let xs ← rights.mapM visit
    let ys ← lefts.mapM visit
    untilBest model t skipped start xs ys

/-- Encodes the node of a task. -/
def task (model : SolverModel α V σ) (k : Task α) : Encode α V σ (Encoded α V) :=
  formula model k.formula k.index k.start

theorem operands_eq_mapM (model : SolverModel α V σ) (t : Nat) (start : Option (ScoreTree α)) :
    ∀ (args : Operands α) (i : Nat), operands model args t start i =
      ((args.toList.zipIdx i).map fun (g, k) => (⟨g, t, startAt start k⟩ : Task α)).mapM
        (task model)
  | .pair first second, i => by simp [operands, Operands.toList, task]
  | .cons first rest, i => by
    simp [operands, Operands.toList, task, operands_eq_mapM model t start rest]

/-- **Encoding a formula is carrying out its plan**, unless the formula is remembered. -/
theorem formula_eq (model : SolverModel α V σ) (f : Formula α) (t : Nat)
    (start : Option (ScoreTree α)) :
    formula model f t start = memoized f t (do
      let plan ← f.plan (← context).settings t start
      carryOut model t start (task model) plan) := by
  cases f with
  | predicate id signal =>
    rw [formula]
    rfl
  | not id arg =>
    cases arg with
    | not id' inner =>
      rw [formula]
      rfl
    | predicate | and | or | always | eventually | holdsUntil | next =>
      rw [formula]
      · rfl
      · rintro _ _ ⟨⟩
  | and id args | or id args =>
    rw [formula, operands_eq_mapM]
    rfl
  | always | eventually | holdsUntil =>
    rw [formula]
    simp only [window, Window.mapM, Index.mapRangeM_eq_mapM, Formula.plan, carryOut, bind_assoc,
      monadLift_bind, liftM_pure, pure_bind, List.mapM_map]
    rfl
  | next =>
    rw [formula]
    simp only [nextWindow, Formula.plan, carryOut, bind_assoc, monadLift_bind, liftM_pure,
      pure_bind]
    rfl

end Encode

/-! ## What a predicate reads -/

section Readings

open RunLogic

variable {V σ β γ : Type}

/-- The value of an affine signal is the sum of its terms. -/
theorem SignalForm.affinePart_eq_ok {form : SignalForm α}
    {labelled : List (α × SampleLabel)} {constant : α}
    (h : form.affinePart = .ok (labelled, constant)) :
    form.labels = labelled.map Prod.snd ∧
      ∀ arguments,
        form.apply arguments = affineValue (labelled.map Prod.fst) constant arguments := by
  cases form with
  | above | below | affine =>
    obtain ⟨rfl, rfl⟩ := Prod.mk.inj (Except.ok.inj h)
    exact ⟨rfl, fun _ => rfl⟩
  | nonlinear => cases h

/-- An index has to be inside the horizon. -/
def EncodingContext.inside (ctx : EncodingContext α V) (t : Nat) : Except (Fault α) Unit :=
  if ctx.settings.horizon ≤ t then .error (.outOfRange t ctx.settings.horizon) else .ok ()

/-- The variable bound to a sample inside the horizon, with its coefficient. -/
def EncodingContext.resolve (ctx : EncodingContext α V) (input : α × Sample) :
    Except (Fault α) (α × V) := do
  ctx.inside input.2.index
  return (input.1, ← ctx.boundVariable input.2)

/-- The value of a signal at `t` over the variables bound to its samples. -/
def EncodingContext.linearForm (ctx : EncodingContext α V) (signal : Signal α) (t : Nat) :
    Except (Fault α) (LinearExpr α V) := do
  let part ← signal.form.affinePart
  ctx.inside t
  let samples ← signal.samplesAt t
  return ⟨← ((part.1.map Prod.fst).zip samples).mapM ctx.resolve, part.2⟩

namespace Encode

/-- The computation only reads the context. -/
def Consults (act : Encode α V σ β) (read : EncodingContext α V → Except (Fault α) β) : Prop :=
  ∀ s, act s = (read s.context, s)

namespace Consults

variable {act : Encode α V σ β} {read : EncodingContext α V → Except (Fault α) β}

theorem lift (x : Except (Fault α) β) : Consults (liftM x : Encode α V σ β) fun _ => x := by
  intro s
  cases x <;> rfl

theorem pure (b : β) : Consults (Pure.pure b : Encode α V σ β) fun _ => .ok b := fun _ => rfl

theorem withContext {next : EncodingContext α V → Encode α V σ β}
    (h : ∀ ctx, Consults (next ctx) fun _ => read ctx) : Consults (context >>= next) read :=
  fun s => h s.context s

theorem bind (h : Consults act read) {next : β → Encode α V σ γ}
    {read' : β → EncodingContext α V → Except (Fault α) γ}
    (hnext : ∀ b, Consults (next b) (read' b)) :
    Consults (act >>= next) fun ctx => read ctx >>= fun b => read' b ctx := by
  intro s
  have hrun := h s
  show _ = (read s.context >>= fun b => read' b s.context, s)
  cases hread : read s.context with
  | error e =>
    rw [hread] at hrun
    exact run_bind_error hrun
  | ok b =>
    rw [hread] at hrun
    exact (run_bind_ok next hrun).trans (hnext b s)

theorem mapM {visit : β → Encode α V σ γ} {read : β → EncodingContext α V → Except (Fault α) γ}
    (h : ∀ b, Consults (visit b) (read b)) (bs : List β) :
    Consults (bs.mapM visit) fun ctx => bs.mapM (read · ctx) := by
  induction bs with
  | nil => exact fun _ => rfl
  | cons b bs ih =>
    simp only [List.mapM_cons]
    exact (h b).bind fun c => ih.bind fun cs => pure (c :: cs)

/-- What is only read can be read all at once. -/
theorem eq_read (h : Consults act read) : act = (do read (← Encode.context)) := by
  have hread : Consults (do read (← Encode.context) : Encode α V σ β) read :=
    withContext fun ctx => lift (read ctx)
  funext s
  rw [h s, hread s]

end Consults

theorem checkIndex_consults (t : Nat) :
    Consults (checkIndex t : Encode α V σ Unit) fun ctx => ctx.inside t := by
  refine Consults.withContext fun ctx s => ?_
  unfold EncodingContext.inside
  split <;> rfl

theorem predicateTerms_consults (inputs : List (α × Sample)) :
    Consults (predicateTerms inputs : Encode α V σ _) fun ctx => inputs.mapM ctx.resolve := by
  have hvisit (input : α × Sample) : Consults (do
      checkIndex input.2.index
      let v ← (← context).boundVariable input.2
      return (input.1, v) : Encode α V σ (α × V)) fun ctx => ctx.resolve input :=
    (checkIndex_consults input.2.index).bind fun _ => Consults.withContext fun ctx =>
      (Consults.lift (ctx.boundVariable input.2)).bind fun v => .pure (input.1, v)
  exact Consults.mapM hvisit inputs

/-- Encoding a predicate is reading its signal, followed by an equality. -/
theorem predicate_eq (model : SolverModel α V σ) (signal : Signal α) (t : Nat)
    (start : Option (ScoreTree α)) :
    predicate model signal t start = (do
      let value ← (← context).linearForm signal t
      equalTo model .predicate t signal.bounds start value) := by
  have hread : Consults (do
      let part ← signal.form.affinePart
      checkIndex t
      let samples ← signal.samplesAt t
      let terms ← predicateTerms ((part.1.map Prod.fst).zip samples)
      return ⟨terms, part.2⟩ : Encode α V σ (LinearExpr α V)) (·.linearForm signal t) :=
    (Consults.lift _).bind fun part => (checkIndex_consults t).bind fun _ =>
      (Consults.lift _).bind fun samples => (predicateTerms_consults _).bind fun terms => .pure _
  have h := congrArg (· >>= equalTo model .predicate t signal.bounds start) hread.eq_read
  simpa [predicate] using h

end Encode

end Readings

/-! ## Rules for runs -/

namespace Encode

open RunLogic

variable {V σ W β : Type} {L : RunLogic (Session α V σ) W} {w : W}

theorem leads_consults {act : Encode α V σ β} {read : EncodingContext α V → Except (Fault α) β}
    {post : β → W → Prop} (h : Consults act read)
    (hok : ∀ b, read (L.state w).context = .ok b → post b w)
    (hready : L.fails ∨ ∃ b, read (L.state w).context = .ok b) : L.Leads w act post := by
  have hrun := h (L.state w)
  cases hread : read (L.state w).context with
  | error e =>
    rw [hread] at hrun hready
    exact (leads_of_error hrun).mpr ⟨hready.resolve_right (by simp), w, rfl, later_refl w⟩
  | ok b =>
    rw [hread] at hrun
    exact (leads_of_ok hrun).mpr ⟨w, rfl, L.tidy_refl w, hok b hread⟩

theorem leads_context {post : EncodingContext α V → W → Prop} (h : post (L.state w).context w) :
    L.Leads w context post :=
  leads_consults (fun _ => rfl : Consults context fun ctx => .ok ctx)
    (fun _ hctx => Except.ok.inj hctx ▸ h) (.inr ⟨_, rfl⟩)

/-- A formula is either remembered, or its plan is carried out and the result is remembered. -/
theorem leads_formula_of_memo {model : SolverModel α V σ} {f : Formula α} {t : Nat}
    {start : Option (ScoreTree α)} {post : Encoded α V → W → Prop}
    (hready : L.fails ∨ ∃ plan, f.plan (L.state w).context.settings t start = .ok plan)
    (hhit : ∀ x, (L.state w).context.encoded? f t = some x →
      ∃ w', L.state w' = { L.state w with context := (L.state w).context.countHit } ∧
        L.tidy w w' ∧ post x w')
    (hplan : ∀ plan, f.plan (L.state w).context.settings t start = .ok plan →
      (L.state w).context.encoded? f t = none →
      L.Leads w (do
        let encoded ← carryOut model t start (task model) plan
        modifyContext (·.remember f t encoded)
        return encoded) post) :
    L.Leads w (formula model f t start) post := by
  rw [formula_eq, memoized]
  refine leads_bind (leads_context ?_)
  cases hmemo : (L.state w).context.encoded? f t with
  | some x =>
    obtain ⟨w', hstate, htidy, hpost⟩ := hhit x hmemo
    exact leads_bind (leads_modify w' hstate htidy (leads_pure hpost))
  | none =>
    simp only [bind_assoc]
    exact leads_bind (leads_context (leads_bind
      (leads_lift (fun plan h => hplan plan h hmemo) hready)))

/-- The result of a plan may be remembered in a step of its own. -/
theorem leads_formula_of_plan {model : SolverModel α V σ} {f : Formula α} {t : Nat}
    {start : Option (ScoreTree α)} {post : Encoded α V → W → Prop}
    (hready : L.fails ∨ ∃ plan, f.plan (L.state w).context.settings t start = .ok plan)
    (hhit : ∀ x, (L.state w).context.encoded? f t = some x →
      ∃ w', L.state w' = { L.state w with context := (L.state w).context.countHit } ∧
        L.tidy w w' ∧ post x w')
    (hplan : ∀ plan, f.plan (L.state w).context.settings t start = .ok plan →
      (L.state w).context.encoded? f t = none →
      L.Leads w (carryOut model t start (task model) plan) fun x v =>
        ∃ w', L.state w' = { L.state v with context := (L.state v).context.remember f t x } ∧
          L.tidy v w' ∧ post x w') :
    L.Leads w (formula model f t start) post := by
  refine leads_formula_of_memo hready hhit fun plan h hfree => ?_
  refine leads_bind ((hplan plan h hfree).mono fun x v _ ⟨w', hstate, htidy, hpost⟩ => ?_)
  exact leads_bind (leads_modify w' hstate htidy (leads_pure hpost))

/-! ### Carrying out a plan -/

/-- Negations and groups can be emitted in every world of the logic, groups of nothing only if runs
may fail. -/
structure Emits (L : RunLogic (Session α V σ) W) (model : SolverModel α V σ) : Prop where
  negation (w : W) (t : Nat) (start : Option (ScoreTree α)) (operand : Encoded α V) :
    L.Leads w (negation model t start operand) fun _ _ => True
  group (w : W) (e : Extremum) (role : VariableRole) (t : Nat) (start : Option (ScoreTree α))
    (operands : List (Encoded α V)) (h : L.fails ∨ operands ≠ []) :
    L.Leads w (group model e role t start operands) fun _ _ => True

section CarryOut

variable {model : SolverModel α V σ} {t : Nat} {start : Option (ScoreTree α)}

theorem leads_minimaAfter (h : Emits L model) {before : Encoded α V}
    {operands : List (Encoded α V)} :
    L.Leads w (minimaAfter model t before operands) fun minima _ =>
      minima.length = operands.length := by
  induction operands generalizing before w with
  | nil => exact leads_pure rfl
  | cons operand rest ih =>
    refine leads_bind ((h.group w _ _ _ _ _ (.inr (by simp))).mono fun minimum v _ _ => ?_)
    exact leads_bind (ih.mono fun others _ _ hlength => leads_pure (by simp [hlength]))

theorem leads_runningMinima (h : Emits L model) {operands : List (Encoded α V)} :
    L.Leads w (runningMinima model t operands) fun minima _ =>
      minima.length = operands.length := by
  cases operands with
  | nil => exact leads_pure rfl
  | cons operand rest =>
    exact leads_bind ((leads_minimaAfter h).mono fun minima _ _ hlength =>
      leads_pure (by simp [hlength]))

/-- Every candidate of an until has its left operands, and there is one, unless runs may fail. -/
theorem leads_untilBest (h : Emits L model) {skipped : Nat} {rights lefts : List (Encoded α V)}
    (hformed : L.fails ∨ rights ≠ [] ∧ rights.length + skipped = lefts.length + 1) :
    L.Leads w (untilBest model t skipped start rights lefts) fun _ _ => True := by
  refine leads_bind ((leads_runningMinima h).mono fun minima v _ hminima => ?_)
  refine leads_bind ((leads_mapM (fun _ _ _ => True) (fun _ _ => trivial)
    fun term _ u _ => ?_).mono fun terms u _ hterms => ?_)
  · match term with
    | (right, none) => exact leads_pure trivial
    | (right, some before) => exact h.group u _ _ _ _ _ (.inr (by simp))
  · refine h.group u _ _ _ _ _ (hformed.imp_right fun ⟨hne, hlength⟩ => ?_)
    have hpos := List.length_pos_iff.mpr hne
    refine List.ne_nil_of_length_pos ?_
    rw [← hterms.length_eq]
    simp only [List.length_zip, List.length_drop, List.length_cons, List.length_map]
    omega

/-- **A plan is carried out** if its nodes can be visited and its signal can be encoded. What holds
of a node after its visit, and what later steps leave alone, holds of all nodes in the end. -/
theorem leads_carryOut {plan : Plan α} {visit : Task α → Encode α V σ (Encoded α V)}
    (Holds : Task α → W → Prop) (Reads : Signal α → Prop) (h : Emits L model)
    (hformed : L.fails ∨ plan.WellFormed)
    (hmono : ∀ {k u v}, L.tidy u v → Holds k u → Holds k v)
    (hsignal : ∀ source, plan = .signal source →
      L.Leads w (predicate model source t start) fun _ _ => Reads source)
    (hvisit : ∀ k ∈ plan.tasks, ∀ v, L.tidy w v → L.Leads v (visit k) fun _ v' => Holds k v') :
    L.Leads w (carryOut model t start visit plan) fun _ v =>
      (∀ source, plan = .signal source → Reads source) ∧ ∀ k ∈ plan.tasks, Holds k v := by
  have hvisits (tasks : List (Task α)) (hmem : ∀ k ∈ tasks, k ∈ plan.tasks) (v : W)
      (hv : L.tidy w v) : L.Leads v (tasks.mapM visit) fun xs v' =>
        xs.length = tasks.length ∧ ∀ k ∈ tasks, Holds k v' := by
    refine (leads_mapM (fun k _ => Holds k) hmono fun k hk u hu =>
      hvisit k (hmem k hk) u (L.tidy_trans hv hu)).mono fun xs v' _ hxs => ?_
    refine ⟨hxs.length_eq.symm, fun k hk => ?_⟩
    obtain ⟨x, -, hx⟩ := (exists_of_forall₂ hxs).1 k hk
    exact hx
  cases plan with
  | signal source =>
    refine (hsignal source rfl).mono fun _ _ _ hreads => ⟨?_, by simp [Plan.tasks]⟩
    rintro _ ⟨⟩
    exact hreads
  | same k =>
    refine (hvisit k (by simp [Plan.tasks]) w (L.tidy_refl w)).mono fun _ v _ hk => ⟨nofun, ?_⟩
    simpa [Plan.tasks] using hk
  | negated k =>
    refine leads_bind ((hvisit k (by simp [Plan.tasks]) w (L.tidy_refl w)).mono
      fun x v _ hk => ?_)
    refine (h.negation v t start x).mono fun _ u hu _ => ⟨nofun, ?_⟩
    simpa [Plan.tasks] using hmono hu hk
  | extreme e role tasks =>
    refine leads_bind ((hvisits tasks (fun _ h => h) w (L.tidy_refl w)).mono
      fun xs v _ ⟨hlength, htasks⟩ => ?_)
    refine (h.group v e role t start xs (hformed.imp_right fun hne => ?_)).mono
      fun _ u hu _ => ⟨nofun, fun k hk => hmono hu (htasks k hk)⟩
    rw [← List.length_pos_iff, hlength, List.length_pos_iff]
    exact hne
  | candidates skipped rights lefts =>
    refine leads_bind ((hvisits rights (fun _ h => List.mem_append_left _ h) w
      (L.tidy_refl w)).mono fun xs v hv ⟨hxs, hrights⟩ => ?_)
    refine leads_bind ((hvisits lefts (fun _ h => List.mem_append_right _ h) v hv).mono
      fun ys u hu ⟨hys, hlefts⟩ => ?_)
    refine (leads_untilBest h (hformed.imp_right fun ⟨hne, hlength⟩ => ⟨?_, ?_⟩)).mono
      fun _ u' hu' _ => ⟨nofun, fun k hk => ?_⟩
    · rw [← List.length_pos_iff, hxs, List.length_pos_iff]
      exact hne
    · rw [hxs, hys, hlength]
    · rcases List.mem_append.mp hk with hk | hk
      · exact hmono hu' (hmono hu (hrights k hk))
      · exact hmono hu' (hlefts k hk)

end CarryOut

end Encode

/-! ## Plans and evaluations -/

section Uses

variable {settings : EncodingSettings α} {f : Formula α} {t : Nat} {start : Option (ScoreTree α)}
  {plan : Plan α}

/-- The nodes to be encoded first are the evaluations used, each with the start values at its
position, unless two negations are skipped. -/
theorem Formula.plan_cases (h : f.plan settings t start = .ok plan) :
    (∃ id id' arg, f = .not id (.not id' arg) ∧
      plan = .same ⟨arg, t, startAt (startAt start 0) 0⟩) ∨
    ∃ es, f.uses settings.policy settings.spacing settings.horizon t = .ok es ∧
      plan.tasks = es.zipIdx.map fun (e, i) => ⟨e.1, e.2, startAt start i⟩ := by
  cases f with
  | predicate =>
    cases h
    exact .inr ⟨[], rfl, rfl⟩
  | not id arg =>
    cases arg with
    | not id' inner =>
      cases h
      exact .inl ⟨id, id', inner, rfl, rfl⟩
    | predicate | and | or | always | eventually | holdsUntil | next =>
      cases h
      exact .inr ⟨_, rfl, rfl⟩
  | and _ args | or _ args =>
    cases h
    refine .inr ⟨_, rfl, ?_⟩
    simp [Plan.tasks, List.zipIdx_map]
  | always _ interval arg | eventually _ interval arg =>
    obtain ⟨w, hw, h⟩ := Except.bind_eq_ok.mp h
    cases h
    refine .inr ⟨_, Except.bind_eq_ok.mpr ⟨w, hw, rfl⟩, ?_⟩
    exact List.ext_getElem (by simp [Plan.tasks]) fun i _ _ => by simp [Plan.tasks]
  | holdsUntil _ interval left right =>
    obtain ⟨w, hw, h⟩ := Except.bind_eq_ok.mp h
    cases h
    refine .inr ⟨_, Except.bind_eq_ok.mpr ⟨w, hw, rfl⟩, ?_⟩
    refine List.ext_getElem (by simp [Plan.tasks]) fun i hi _ => ?_
    simp only [Plan.tasks, List.length_append, List.length_map, List.length_range'] at hi
    by_cases hright : i < w.size
    · simp [Plan.tasks, hright]
    · have hposition : w.size + (i - w.size) = i := by omega
      simp [Plan.tasks, List.getElem_append, hright, hposition]
  | next _ arg =>
    obtain ⟨w, hw, h⟩ := Except.bind_eq_ok.mp h
    cases h
    exact .inr ⟨_, Except.bind_eq_ok.mpr ⟨w, hw, rfl⟩, rfl⟩

/-- There is a plan if the evaluations used are known. -/
theorem Formula.exists_plan {es : List (Formula α × Nat)} (start : Option (ScoreTree α))
    (h : f.uses settings.policy settings.spacing settings.horizon t = .ok es) :
    ∃ plan, f.plan settings t start = .ok plan := by
  cases f with
  | predicate | and | or => exact ⟨_, rfl⟩
  | not id arg => cases arg <;> exact ⟨_, rfl⟩
  | always | eventually | holdsUntil | next =>
    obtain ⟨w, hw, -⟩ := Except.bind_eq_ok.mp h
    exact ⟨_, Except.bind_eq_ok.mpr ⟨w, hw, rfl⟩⟩

/-- A class of formulas that is closed under arguments contains the nodes of their plans. -/
theorem Formula.mem_of_plan {K : Set (Formula α)} (hclosed : ∀ f ∈ K, ∀ g ∈ f.children, g ∈ K)
    (hf : f ∈ K) (h : f.plan settings t start = .ok plan) {k : Task α} (hk : k ∈ plan.tasks) :
    k.formula ∈ K := by
  rcases Formula.plan_cases h with ⟨id, id', arg, rfl, rfl⟩ | ⟨es, hes, htasks⟩
  · cases List.mem_singleton.mp hk
    exact hclosed _ (hclosed _ hf _ (List.mem_singleton_self _)) _ (List.mem_singleton_self _)
  · rw [htasks] at hk
    obtain ⟨⟨e, i⟩, he, rfl⟩ := List.mem_map.mp hk
    exact hclosed _ hf _ (Formula.mem_children_of_uses hes (List.fst_mem_of_mem_zipIdx he))

theorem Formula.sizeOf_lt_of_plan [SizeOf α] (h : f.plan settings t start = .ok plan)
    {k : Task α} (hk : k ∈ plan.tasks) : sizeOf k.formula < sizeOf f := by
  rcases Formula.plan_cases h with ⟨id, id', arg, rfl, rfl⟩ | ⟨es, hes, htasks⟩
  · cases List.mem_singleton.mp hk
    simp; omega
  · rw [htasks] at hk
    obtain ⟨⟨e, i⟩, he, rfl⟩ := List.mem_map.mp hk
    exact Formula.sizeOf_lt_of_mem_children
      (Formula.mem_children_of_uses hes (List.fst_mem_of_mem_zipIdx he))

/-- What holds of a node if it holds of all those that its plans list holds of every node. -/
theorem Formula.induction_on_plan {P : Formula α → Nat → Option (ScoreTree α) → Prop}
    (step : ∀ f t start, (∀ settings plan, f.plan settings t start = .ok plan →
      ∀ k ∈ plan.tasks, P k.formula k.index k.start) → P f t start)
    (f : Formula α) (t : Nat) (start : Option (ScoreTree α)) : P f t start :=
  step f t start fun _ _ h k hk =>
    have := Formula.sizeOf_lt_of_plan h hk
    Formula.induction_on_plan step k.formula k.index k.start
termination_by sizeOf f

theorem Formula.plan_wellFormed (hlen : settings.horizon ≤ Index.last)
    (h : f.plan settings t start = .ok plan) : plan.WellFormed := by
  cases f with
  | predicate => cases h; trivial
  | not _ arg => cases arg <;> cases h <;> trivial
  | and _ args | or _ args =>
    cases h
    have := args.two_le_length_toList
    exact List.ne_nil_of_length_pos (by simp; omega)
  | always | eventually =>
    obtain ⟨w, -, h⟩ := Except.bind_eq_ok.mp h
    cases h
    exact List.ne_nil_of_length_pos (by simp [Window.size])
  | holdsUntil =>
    obtain ⟨w, hw, h⟩ := Except.bind_eq_ok.mp h
    cases h
    have hbounds := (WindowPolicy.window_bounds hlen hw).1
    have hle := w.first_le_last
    refine ⟨List.ne_nil_of_length_pos (by simp [Window.size]), ?_⟩
    simp only [List.length_map, List.length_range', Window.size]
    omega
  | next =>
    obtain ⟨w, -, h⟩ := Except.bind_eq_ok.mp h
    cases h
    trivial

/-- A formula asks for what the nodes of its plan ask for. -/
theorem Formula.asks_of_plan {policy : WindowPolicy} {x : Trajectory α}
    (hlen : x.length ≤ Index.last) (hpolicy : settings.policy = policy)
    (hspacing : settings.spacing = x.spacing) (hlength : settings.horizon = x.length)
    (h : f.plan settings t start = .ok plan) {k : Task α} (hk : k ∈ plan.tasks) {signal : Signal α}
    {u : Nat} (hasks : k.formula.Asks policy x k.index signal u) : f.Asks policy x t signal u := by
  rcases Formula.plan_cases h with ⟨id, id', arg, rfl, rfl⟩ | ⟨es, hes, htasks⟩
  · cases List.mem_singleton.mp hk
    exact hasks
  · rw [hpolicy, hspacing, hlength] at hes
    rw [htasks] at hk
    obtain ⟨⟨e, i⟩, he, rfl⟩ := List.mem_map.mp hk
    exact Formula.asks_of_uses hlen hes (List.fst_mem_of_mem_zipIdx he) hasks

/-- Only predicates are planned as signals. -/
theorem Formula.plan_eq_signal {source : Signal α}
    (h : f.plan settings t start = .ok (.signal source)) : ∃ id, f = .predicate id source := by
  cases f with
  | predicate id signal => cases h; exact ⟨id, rfl⟩
  | not _ arg => cases arg <;> cases h
  | and | or => cases h
  | always | eventually | holdsUntil | next =>
    obtain ⟨w, -, h⟩ := Except.bind_eq_ok.mp h
    cases h

/-- The value of the signal exists, if the plan is one. -/
def Plan.Readable (x : Trajectory α) (t : Nat) : Plan α → Prop
  | .signal source => ∃ a, x.signalValue source t = .ok a
  | _ => True

variable {policy : WindowPolicy} {x : Trajectory α}

theorem Plan.readable_iff : plan.Readable x t ↔
    ∀ source, plan = .signal source → ∃ a, x.signalValue source t = .ok a := by
  cases plan <;> simp [Plan.Readable]

theorem Formula.readable_iff_of_plan (h : f.plan settings t start = .ok plan) :
    f.Readable x t ↔ plan.Readable x t := by
  cases f with
  | predicate => cases h; exact Iff.rfl
  | not _ arg => cases arg <;> cases h <;> exact Iff.rfl
  | and | or => cases h; exact Iff.rfl
  | always | eventually | holdsUntil | next =>
    obtain ⟨w, -, h⟩ := Except.bind_eq_ok.mp h
    cases h
    exact Iff.rfl

/-- A formula is defined if what its plan reads and lists is. -/
theorem Formula.defined_iff_of_plan (hlen : x.length ≤ Index.last)
    (hpolicy : settings.policy = policy) (hspacing : settings.spacing = x.spacing)
    (hlength : settings.horizon = x.length) (h : f.plan settings t start = .ok plan) :
    f.Defined policy x t ↔
      plan.Readable x t ∧ ∀ k ∈ plan.tasks, k.formula.Defined policy x k.index := by
  rcases Formula.plan_cases h with ⟨id, id', arg, rfl, rfl⟩ | ⟨es, hes, htasks⟩
  · simp [Plan.Readable, Plan.tasks, Formula.Defined]
  · rw [hpolicy, hspacing, hlength] at hes
    rw [Formula.defined_iff hlen, hes, Formula.readable_iff_of_plan h, htasks]
    refine and_congr_right fun _ => ?_
    simp only [Except.ok.injEq, exists_eq_left', List.forall_mem_map]
    constructor
    · intro hall p hp
      exact hall p.1 (List.fst_mem_of_mem_zipIdx hp)
    · intro hall e he
      obtain ⟨i, hi, rfl⟩ := List.mem_iff_getElem.mp he
      exact hall (es[i], i) (List.mk_mem_zipIdx_iff_getElem?.mpr (List.getElem?_eq_getElem hi))

theorem Formula.exists_plan_of_defined (start : Option (ScoreTree α)) (hlen : x.length ≤ Index.last)
    (hpolicy : settings.policy = policy) (hspacing : settings.spacing = x.spacing)
    (hlength : settings.horizon = x.length) (h : f.Defined policy x t) :
    ∃ plan, f.plan settings t start = .ok plan := by
  obtain ⟨-, es, hes, -⟩ := (Formula.defined_iff hlen).mp h
  rw [← hpolicy, ← hspacing, ← hlength] at hes
  exact Formula.exists_plan start hes

end Uses

end SignalTemporalLogic
