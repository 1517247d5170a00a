import SignalTemporalLogic.Proofs.WarmSessions

/-!
Warm starts. An encoding that is started from the tree of an evaluation gives every variable that
stands for a node the score of the node, and the selectors of a group single out the operand that
the tree names. Together these values solve the model.
-/

namespace SignalTemporalLogic

open RunLogic

/-- The predicate values that the formula at `t` asks for are those of signals over rationals, and
lie in their ranges. -/
def Formula.AsksWithin (R : Bounds Exact → Rat → Prop) (policy : WindowPolicy)
    (x : Trajectory Exact) (f : Formula Exact) (t : Nat) : Prop :=
  ∀ signal u, f.Asks policy x t signal u → signal.form.Rational ∧
    ∀ q, x.signalValue signal u = .ok (.fin q) → R signal.bounds q

namespace WarmSession

variable {lib : FormulaLibrary Exact} {policy : WindowPolicy} {x : Trajectory Exact}
  {bigM : BigM Exact} {R : Bounds Exact → Rat → Prop} {w : WarmSession lib policy x bigM R}
  {n t : Nat} {fails : Prop}

/-! ## Rules for runs -/

section Rules

variable {role : VariableRole} {q : Rat}
  {act : Encode Exact VarId (StoredModel Exact) (Encoded Exact VarId)}

theorem leads_of_steps {start : Option (ScoreTree Exact)} (h : w.Steps fails role t start act q)
    (hrole : role = .untilBefore ∨ role = .untilTerm) :
    (logic lib policy x bigM R n fails).Leads w act fun y v => v.Carries y q := by
  rcases h with ⟨y, s', hrun, hstep⟩ | ⟨hfails, fault, s', hrun, hagrees, hsolver⟩
  · obtain ⟨v, hv, htidy, hy⟩ := hstep.exists_operand hrole
    exact (leads_of_ok hrun).mpr ⟨v, hv, htidy, hy⟩
  · obtain ⟨v, hv, htidy, -⟩ := w.exists_relabelled hagrees hsolver
    exact (leads_of_error hrun).mpr ⟨hfails, v, hv, htidy⟩

/-- A step and the memory of it are taken together. -/
theorem leads_remembered_of_steps {tree : ScoreTree Exact} {f : Formula Exact}
    (h : w.Steps fails role t (some tree) act q) (hf : f ∈ lib.formulas) (hn : sizeOf f < n)
    (hfree : w.Free f t) (htree : f.ScoredBy policy x t tree) (hscore : tree.score = .fin q) :
    (logic lib policy x bigM R n fails).Leads w (do
      let y ← act
      Encode.modifyContext (·.remember f t y)
      return y) fun y v => ∃ q, tree.score = .fin q ∧ v.Carries y q := by
  rcases h with ⟨y, s', hrun, hstep⟩ | ⟨hfails, fault, s', hrun, hagrees, hsolver⟩
  · obtain ⟨v, hv, htidy, hy⟩ := hstep.exists_remembered hf hn hfree htree hscore
    exact (leads_of_ok (b := y) (s := Ledger.remembering s' f t y)
      ((run_bind_ok _ hrun).trans rfl)).mpr ⟨v, hv, htidy, q, hscore, hy⟩
  · obtain ⟨v, hv, htidy, -⟩ := w.exists_relabelled hagrees hsolver
    exact (leads_of_error (run_bind_error hrun)).mpr ⟨hfails, v, hv, htidy⟩

/-- What is run for the arguments of a formula leaves the formula free. -/
theorem leads_bind_free {β γ : Type} {first : Encode Exact VarId (StoredModel Exact) β}
    {next : β → Encode Exact VarId (StoredModel Exact) γ}
    {post : γ → WarmSession lib policy x bigM R → Prop} {f : Formula Exact}
    (hf : f ∈ lib.formulas) (hn : sizeOf f < n) (hfree : w.Free f t)
    (h : (logic lib policy x bigM R (sizeOf f) fails).Leads w first fun b v =>
      Tidy (sizeOf f) w v → v.Free f t →
        (logic lib policy x bigM R n fails).Leads v (next b) post) :
    (logic lib policy x bigM R n fails).Leads w (first >>= next) post := by
  have hwiden (v : WarmSession lib policy x bigM R) (hv : Tidy (sizeOf f) w v) : Tidy n w v :=
    hv.widen hn.le
  refine leads_bind (Leads.mono (L := logic lib policy x bigM R n fails)
    (h.transfer rfl id hwiden hwiden) fun b v _ ⟨htidy, hpost⟩ => ?_)
  exact hpost htidy (htidy.free t hf le_rfl hfree)

end Rules

theorem carries_mono {v : WarmSession lib policy x bigM R} {ys : List (Encoded Exact VarId)}
    {qs : List Rat} (h : List.Forall₂ w.Carries ys qs) (htidy : Tidy n w v) :
    List.Forall₂ v.Carries ys qs :=
  h.imp fun _ _ hy => htidy.carries hy

/-! ## Until -/

section Until

theorem leads_minimum (hserves : bigM.Serves R fails) {role : VariableRole}
    (hrole : role = .untilBefore ∨ role = .untilTerm) {y z : Encoded Exact VarId} {q r : Rat}
    (hy : w.Carries y q) (hz : w.Carries z r) :
    (logic lib policy x bigM R n fails).Leads w
      (Encode.group StoredModel.solver .min role t none [y, z]) fun m v =>
        v.Carries m (min q r) := by
  rw [← Extremum.pick_min_pair]
  have hsteps : w.Steps fails role t none
      (Encode.group StoredModel.solver .min role t none [y, z]) (Extremum.min.pick [q, r]) :=
    group_steps hserves .min (.cons hy (.cons hz .nil)) (by simp) (by simp)
  exact leads_of_steps hsteps hrole

theorem scanl_eq_cons (first : Rat) (values : List Rat) :
    values.scanl min first = first :: (values.scanl min first).tail := by
  cases values <;> simp

theorem leads_minimaAfter_warm (hserves : bigM.Serves R fails) {before : Encoded Exact VarId}
    {q : Rat} {ys : List (Encoded Exact VarId)} {qs : List Rat} (hbefore : w.Carries before q)
    (hys : List.Forall₂ w.Carries ys qs) :
    (logic lib policy x bigM R n fails).Leads w
      (Encode.minimaAfter StoredModel.solver t before ys) fun ms v =>
        List.Forall₂ v.Carries ms (qs.scanl min q).tail := by
  induction ys generalizing w before q qs with
  | nil =>
    cases hys
    exact leads_pure .nil
  | cons y rest ih =>
    cases hys with
    | @cons _ r _ rs hy hrest =>
      refine leads_bind ((leads_minimum hserves (.inl rfl) hbefore hy).mono fun m v hv hm => ?_)
      refine leads_bind ((ih hm (carries_mono hrest hv)).mono fun ms u hu hms => leads_pure ?_)
      rw [List.scanl_cons, List.tail_cons, scanl_eq_cons]
      exact .cons (hu.carries hm) hms

theorem leads_runningMinima_warm (hserves : bigM.Serves R fails)
    {ys : List (Encoded Exact VarId)} {qs : List Rat} (hys : List.Forall₂ w.Carries ys qs) :
    (logic lib policy x bigM R n fails).Leads w
      (Encode.runningMinima StoredModel.solver t ys) fun ms v =>
        List.Forall₂ v.Carries ms (runningLeast qs) := by
  cases hys with
  | nil => exact leads_pure .nil
  | @cons y q _ qs hy hrest =>
    refine leads_bind ((leads_minimaAfter_warm hserves hy hrest).mono fun ms v hv hms =>
      leads_pure ?_)
    rw [runningLeast, scanl_eq_cons]
    exact .cons (hv.carries hy) hms

/-- An operand with what comes before it, and their values. -/
def CarriesCandidate (w : WarmSession lib policy x bigM R)
    (y : Encoded Exact VarId × Option (Encoded Exact VarId)) (q : Rat × Option Rat) : Prop :=
  w.Carries y.1 q.1 ∧ Option.Rel w.Carries y.2 q.2

theorem CarriesCandidate.tidy {v : WarmSession lib policy x bigM R}
    {y : Encoded Exact VarId × Option (Encoded Exact VarId)} {q : Rat × Option Rat}
    (h : w.CarriesCandidate y q) (htidy : Tidy n w v) : v.CarriesCandidate y q := by
  obtain ⟨right, before⟩ := y
  obtain ⟨r, b⟩ := q
  obtain ⟨hright, hbefore⟩ := h
  refine ⟨htidy.carries hright, ?_⟩
  cases hbefore with
  | none => exact .none
  | some hbefore => exact .some (htidy.carries hbefore)

theorem leads_untilTerms_warm (hserves : bigM.Serves R fails)
    {ys : List (Encoded Exact VarId × Option (Encoded Exact VarId))} {qs : List (Rat × Option Rat)}
    (hys : List.Forall₂ w.CarriesCandidate ys qs) :
    (logic lib policy x bigM R n fails).Leads w
      (ys.mapM (Encode.untilTerm StoredModel.solver t)) fun terms v =>
        List.Forall₂ v.Carries terms (qs.map candidateValue) := by
  induction ys generalizing w qs with
  | nil =>
    cases hys
    exact leads_pure .nil
  | cons y rest ih =>
    obtain ⟨right, before⟩ := y
    cases hys with
    | @cons _ q _ qs hy hrest =>
      obtain ⟨r, b⟩ := q
      obtain ⟨hright, hbefore⟩ := hy
      rw [List.mapM_cons]
      have hterm : (logic lib policy x bigM R n fails).Leads w
          (Encode.untilTerm StoredModel.solver t (right, before)) fun term v =>
            v.Carries term (candidateValue (r, b)) := by
        cases hbefore with
        | none => exact leads_pure hright
        | some hbefore => exact leads_minimum hserves (.inr rfl) hright hbefore
      refine leads_bind (hterm.mono fun term v hv hterm => ?_)
      have hlater : List.Forall₂ v.CarriesCandidate rest qs := hrest.imp fun _ _ h => h.tidy hv
      refine leads_bind ((ih hlater).mono fun terms u hu hterms => leads_pure ?_)
      exact .cons (hu.carries hterm) hterms

/-- The operands of the best candidate carry the values that the candidates have. -/
theorem carriesCandidates {skipped : Nat} {ys ms : List (Encoded Exact VarId)} {rs ls : List Rat}
    (hys : List.Forall₂ w.Carries ys rs) (hms : List.Forall₂ w.Carries ms (runningLeast ls)) :
    List.Forall₂ w.CarriesCandidate (ys.zip ((none :: ms.map some).drop skipped))
      (rs.zip ((none :: (runningLeast ls).map some).drop skipped)) := by
  refine Ledger.forall₂_zip hys (List.forall₂_drop skipped (.cons .none ?_))
  exact List.forall₂_map_left_iff.mpr (List.forall₂_map_right_iff.mpr (hms.imp fun _ _ => .some))

end Until

/-! ## Formulas -/

section Formulas

variable {f : Formula Exact} {plan : Plan Exact} {tree : ScoreTree Exact}
  {visit : Task Exact → Encode Exact VarId (StoredModel Exact) (Encoded Exact VarId)}

/-- The node is visited from the tree of its evaluation, and its variable carries the score. -/
def Visits (w : WarmSession lib policy x bigM R) (y : Encoded Exact VarId)
    (child : ScoreTree Exact) : Prop :=
  ∃ q, child.score = .fin q ∧ w.Carries y q

theorem values_of_visits {ys : List (Encoded Exact VarId)} {children : List (ScoreTree Exact)}
    (h : List.Forall₂ w.Visits ys children) :
    ∃ qs : List Rat, children.map ScoreTree.score = qs.map .fin ∧ List.Forall₂ w.Carries ys qs := by
  induction h with
  | nil => exact ⟨[], rfl, .nil⟩
  | cons hy _ ih =>
    obtain ⟨q, hq, hcarries⟩ := hy
    obtain ⟨qs, hqs, hrest⟩ := ih
    exact ⟨q :: qs, by rw [List.map_cons, List.map_cons, hq, hqs], .cons hcarries hrest⟩

/-- Visits in a row. -/
theorem leads_visits {tasks : List (Task Exact)} {children : List (ScoreTree Exact)}
    (hstarts : List.Forall₂ (Task.StartsFrom policy x) tasks children)
    (hvisit : ∀ k ∈ tasks, ∀ child, k.StartsFrom policy x child → ∀ v,
      (logic lib policy x bigM R n fails).Leads v (visit k) fun y v' => v'.Visits y child) :
    (logic lib policy x bigM R n fails).Leads w (tasks.mapM visit) fun ys v =>
      List.Forall₂ v.Visits ys children := by
  induction hstarts generalizing w with
  | nil => exact leads_pure .nil
  | @cons k child rest children hk _ ih =>
    rw [List.mapM_cons]
    refine leads_bind ((hvisit k (by simp) child hk w).mono fun y v _ hy => ?_)
    refine leads_bind ((ih fun k hk => hvisit k (by simp [hk])).mono fun ys u hu hys => ?_)
    exact leads_pure (.cons (hy.imp fun _ h => h.imp_right hu.carries) hys)

theorem ne_nil_of_forall₂ {β γ : Type} {S : β → γ → Prop} {bs : List β} {cs : List γ}
    (h : List.Forall₂ S bs cs) (hne : bs ≠ []) : cs ≠ [] := by
  rintro rfl
  cases h
  exact hne rfl

/-- A tree over children with the given scores has their extreme, and names its first position. -/
theorem select_of_scores {e : Extremum} {children : List (ScoreTree Exact)} {qs : List Rat}
    (h : children.map ScoreTree.score = qs.map .fin) (hne : qs ≠ []) :
    (ScoreTree.select e children).score = .fin (e.pick qs) ∧
      (ScoreTree.select e children).chosen = some (qs.idxOf (e.pick qs)) := by
  unfold ScoreTree.select
  rw [h, Extremum.first_map_fin hne]
  exact ⟨rfl, rfl⟩

theorem selectUntil_of_scores {skipped : Nat} {rights lefts : List (ScoreTree Exact)}
    {rs ls : List Rat} (hrights : rights.map ScoreTree.score = rs.map .fin)
    (hlefts : lefts.map ScoreTree.score = ls.map .fin)
    (hlength : rs.length + skipped = ls.length + 1) (hne : candidateValues skipped rs ls ≠ []) :
    (ScoreTree.selectUntil skipped rights lefts).score =
        .fin (Extremum.max.pick (candidateValues skipped rs ls)) ∧
      (ScoreTree.selectUntil skipped rights lefts).chosen =
        some ((candidateValues skipped rs ls).idxOf
          (Extremum.max.pick (candidateValues skipped rs ls))) := by
  unfold ScoreTree.selectUntil
  rw [ScoreTree.untilTerms_map_fin hrights hlefts hlength, Extremum.first_map_fin hne]
  exact ⟨rfl, rfl⟩

/-- **A plan is carried out from start values that are a solution**, and its result is remembered,
if the nodes of the plan are visited so. -/
theorem leads_carryOut_warm (hserves : bigM.Serves R fails) (hf : f ∈ lib.formulas)
    (hn : sizeOf f < n) (hfree : w.Free f t) (htree : f.ScoredBy policy x t tree)
    (hformed : plan.WellFormed) (hscored : plan.Scored policy x t tree)
    (hvisit : ∀ k ∈ plan.tasks, ∀ child, k.StartsFrom policy x child → ∀ v,
      (logic lib policy x bigM R (sizeOf f) fails).Leads v (visit k) fun y v' => v'.Visits y child)
    (hsignal : ∀ source, plan = .signal source → source.form.Rational ∧
      ∀ q, x.signalValue source t = .ok (.fin q) → R source.bounds q) :
    (logic lib policy x bigM R n fails).Leads w (do
      let y ← Encode.carryOut StoredModel.solver t (some tree) visit plan
      Encode.modifyContext (·.remember f t y)
      return y) fun y v => v.Visits y tree := by
  cases plan with
  | signal source =>
    obtain ⟨hform, hrange⟩ := hsignal source rfl
    obtain ⟨q, hscore⟩ := w.exists_signalValue_eq hform hscored
    have hread : x.signalValue source t = .ok (.fin q) := hscore ▸ hscored
    have hready : ∃ value, w.context.linearForm source t = .ok value :=
      (w.serves.linearForm_iff source t).mpr
        ⟨hform.elim fun _ ⟨_, hpart, _⟩ => ⟨_, hpart⟩, _, hscored⟩
    rw [Encode.carryOut, Encode.predicate_eq]
    simp only [bind_assoc]
    refine leads_bind (Encode.leads_context (leads_bind (leads_lift (fun value hvalue => ?_)
      (.inr hready))))
    exact leads_remembered_of_steps (signal_steps hserves.toSuits hform hvalue hread
      (hrange _ hread) (by rintro _ ⟨⟩; exact hscore)) hf hn hfree htree hscore
  | same k =>
    obtain ⟨child, hk, hscore⟩ := hscored
    refine leads_bind_free hf hn hfree ((hvisit k (by simp [Plan.tasks]) child hk w).mono
      fun y v _ hvisited _ hfree => ?_)
    obtain ⟨q, hq, hy⟩ := hvisited
    have hstep : v.Step .not t (some tree.score) v.session y q :=
      step_of_carries hy (.refl v.context) rfl
    obtain ⟨v', hv', htidy, hy'⟩ := hstep.exists_remembered hf hn hfree htree (hscore.trans hq)
    exact leads_bind (leads_modify v' hv' htidy (leads_pure ⟨q, hscore.trans hq, hy'⟩))
  | negated k =>
    obtain ⟨child, hk, hscore⟩ := hscored
    rw [Encode.carryOut, bind_assoc]
    refine leads_bind_free hf hn hfree ((hvisit k (by simp [Plan.tasks]) child hk w).mono
      fun y v _ hvisited _ hfree => ?_)
    obtain ⟨q, hq, hy⟩ := hvisited
    rw [hq, Exact.neg_fin] at hscore
    exact leads_remembered_of_steps (negation_steps hserves.toSuits hy
      (by rintro _ ⟨⟩; exact hscore)) hf hn hfree htree hscore
  | extreme e role tasks =>
    obtain ⟨children, hstarts, rfl⟩ := hscored
    rw [Encode.carryOut, bind_assoc]
    refine leads_bind_free hf hn hfree ((leads_visits hstarts hvisit).mono
      fun ys v _ hys _ hfree => ?_)
    obtain ⟨qs, hqs, hcarries⟩ := values_of_visits hys
    have hys : ys ≠ [] := ne_nil_of_forall₂ hys.flip (ne_nil_of_forall₂ hstarts hformed)
    obtain ⟨hscore, hchosen⟩ := select_of_scores (e := e) hqs (ne_nil_of_forall₂ hcarries hys)
    exact leads_remembered_of_steps (group_steps hserves e hcarries hys
      (by rintro _ ⟨⟩; exact ⟨hscore, hchosen⟩)) hf hn hfree htree hscore
  | candidates skipped rights lefts =>
    obtain ⟨rs, ls, hrights, hlefts, rfl⟩ := hscored
    obtain ⟨hne, hlength⟩ := hformed
    rw [Encode.carryOut]
    simp only [Encode.untilBest, bind_assoc]
    refine leads_bind_free hf hn hfree ((leads_visits hrights fun k hk =>
      hvisit k (List.mem_append_left _ hk)).mono fun ys v _ hys _ hfree => ?_)
    refine leads_bind_free hf hn hfree ((leads_visits hlefts fun k hk =>
      hvisit k (List.mem_append_right _ hk)).mono fun zs v' hv' hzs _ hfree => ?_)
    obtain ⟨qs, hqs, hys⟩ := values_of_visits hys
    obtain ⟨ps, hps, hzs⟩ := values_of_visits hzs
    refine leads_bind_free hf hn hfree ((leads_runningMinima_warm hserves hzs).mono
      fun ms v₁ hv₁ hms _ hfree => ?_)
    refine leads_bind_free hf hn hfree ((leads_untilTerms_warm hserves
      (carriesCandidates (carries_mono (carries_mono hys hv') hv₁) hms)).mono
      fun terms v₂ _ hterms _ hfree => ?_)
    have hright : rights.length = qs.length :=
      hrights.length_eq.trans (by simpa using congrArg List.length hqs)
    have hleft : lefts.length = ps.length :=
      hlefts.length_eq.trans (by simpa using congrArg List.length hps)
    have hlength' : qs.length + skipped = ps.length + 1 := by omega
    have hterms' : terms ≠ [] := by
      have hcount := hterms.length_eq.trans (length_candidateValues hlength')
      rw [← List.length_pos_iff, hcount, ← hright]
      exact List.length_pos_iff.mpr hne
    obtain ⟨hscore, hchosen⟩ := selectUntil_of_scores hqs hps hlength'
      (ne_nil_of_forall₂ hterms hterms')
    exact leads_remembered_of_steps (group_steps hserves .max hterms hterms'
      (by rintro _ ⟨⟩; exact ⟨hscore, hchosen⟩)) hf hn hfree htree hscore

theorem scoredBy_of_treeAt (w : WarmSession lib policy x bigM R) (hlen : x.length ≤ Index.last)
    (hasks : f.AsksWithin R policy x t) (htree : f.treeAt policy x t = .ok tree) :
    f.ScoredBy policy x t tree := by
  have hnumber : f.AsksValid .quantitative (fun a => a ≤ a) policy x t := by
    intro signal u a h ha
    obtain ⟨q, rfl⟩ := w.exists_signalValue_eq (hasks signal u h).1 ha
    exact Exact.fin_le_fin.mpr le_rfl
  obtain ⟨-, -, hfaithful⟩ := Formula.faithful_of_treeAt hlen f t hnumber tree htree
  obtain ⟨-, score_eq, -, -, -⟩ := hfaithful
  exact ⟨htree, score_eq⟩

/-- **An encoding from the tree of an evaluation** gives a variable with the score of the tree. -/
theorem leads_formula_warm (hserves : bigM.Serves R fails) (hlen : x.length ≤ Index.last)
    (f : Formula Exact) (t : Nat) (start : Option (ScoreTree Exact)) (n : Nat)
    (w : WarmSession lib policy x bigM R) (hn : sizeOf f < n) (hf : f ∈ lib.formulas)
    (hasks : f.AsksWithin R policy x t) (tree : ScoreTree Exact) (hstart : start = some tree)
    (htree : f.treeAt policy x t = .ok tree) :
    (logic lib policy x bigM R n fails).Leads w (Encode.formula StoredModel.solver f t start)
      fun y v => v.Visits y tree := by
  induction f, t, start using Formula.induction_on_plan generalizing n w tree with
  | step f t start ih =>
    subst hstart
    obtain ⟨hlength, hspacing, hpolicy, -, -⟩ := w.serves
    obtain ⟨es, hes, -⟩ := Formula.assembles_of_treeAt htree
    rw [← hpolicy, ← hspacing, ← hlength] at hes
    refine Encode.leads_formula_of_memo (.inr (Formula.exists_plan (some tree) hes)) ?_ ?_
    · intro y hmemo
      obtain ⟨entry, hentry, rfl⟩ := Option.map_eq_some_iff.mp hmemo
      obtain ⟨hlib, hid, tree', q, htree', hq, hy⟩ := w.remembered _ entry hentry
      obtain rfl := lib.unique entry.formula hlib f hf hid
      obtain rfl := Except.ok.inj (htree.symm.trans htree'.tree_eq)
      have hhit : w.context.Agrees (⟨w.model, w.context.countHit⟩ : StoredSession).context :=
        ⟨rfl, rfl, rfl⟩
      obtain ⟨v, hv, htidy, hcarries⟩ := w.exists_relabelled (n := n) hhit rfl
      exact ⟨v, hv, htidy, q, hq, hcarries _ _ hy⟩
    · intro plan hplan hfree
      refine leads_carryOut_warm hserves hf hn hfree (w.scoredBy_of_treeAt hlen hasks htree)
        (Formula.plan_wellFormed (hlength.trans_le hlen) hplan)
        (Formula.scored_of_plan hpolicy hspacing hlength htree hplan) ?_ ?_
      · intro k hk child ⟨hkstart, hktree⟩ v
        exact ih _ plan hplan k hk _ v (Formula.sizeOf_lt_of_plan hplan hk)
          (Formula.mem_of_plan lib.closed hf hplan hk) (fun signal u h => hasks signal u
            (Formula.asks_of_plan hlen hpolicy hspacing hlength hplan hk h)) child hkstart hktree
      · intro source hsource
        subst hsource
        obtain ⟨id, rfl⟩ := Formula.plan_eq_signal hplan
        exact hasks source t ⟨rfl, rfl⟩

theorem leads_encodeAt_warm (hserves : bigM.Serves R fails) (hlen : x.length ≤ Index.last)
    {f : Formula Exact} {anchor : Nat} {tree : ScoreTree Exact} (hn : sizeOf f < n)
    (hf : f ∈ lib.formulas) (hasks : f.AsksWithin R policy x anchor)
    (htree : f.robustnessTree policy x anchor = .ok tree) :
    (logic lib policy x bigM R n fails).Leads w
      (f.encodeAt StoredModel.solver anchor (some tree)) fun _ _ => True := by
  obtain ⟨hinside, htree⟩ := Formula.robustnessTree_eq_ok.mp htree
  have hchecked : ∃ u, w.context.inside anchor = .ok u :=
    (EncodingContext.inside_iff anchor).mpr (w.serves.horizon_eq.symm ▸ hinside)
  refine leads_bind (Encode.leads_consults (Encode.checkIndex_consults anchor) (fun u _ => ?_)
    (.inr hchecked))
  refine leads_bind ((leads_formula_warm hserves hlen f anchor (some tree) n w hn hf hasks tree rfl
    htree).mono fun y v _ _ => leads_pure trivial)

end Formulas

end WarmSession

end SignalTemporalLogic
