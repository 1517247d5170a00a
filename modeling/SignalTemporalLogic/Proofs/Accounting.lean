import Mathlib.Data.Set.Card
import SignalTemporalLogic.Proofs.Costs
import SignalTemporalLogic.Proofs.Reaching

/-!
The counts of a session against what it remembers. A node is remembered exactly if it was asked for,
by a caller or by a node that rests on it, and the counts are the sum of what the remembered nodes
cost, each of them once. Asking again for a node that is remembered adds nothing, so it does not
matter how often formulas share a node.
-/

namespace SignalTemporalLogic

open RunLogic

variable {α V σ β : Type} [Scalar α]

/-! ## The cost of a node -/

/-- What the encoding of the formula at `t` adds to the model, apart from the nodes that it rests
on. -/
def Formula.cost (settings : EncodingSettings α) : Formula α → Nat → Cost
  | .predicate _ _, _ => (1, 0, 1)
  | .not _ (.not _ _), _ => 0
  | .not _ _, _ => (1, 0, 1)
  | .and _ args, _ | .or _ args, _ =>
    let n := args.toList.length
    (1, n, 2 * n + 1)
  | .always _ interval _, t | .eventually _ interval _, t =>
    match settings.policy.window interval settings.spacing t settings.horizon with
    | .ok w => if 1 < w.size then (1, w.size, 2 * w.size + 1) else 0
    | .error _ => 0
  | .holdsUntil _ interval _ _, t =>
    match settings.policy.window interval settings.spacing t settings.horizon with
    | .ok w =>
      -- running minima of the left operand, candidates after the anchor, the best candidate
      (w.last - t - 1) • (1, 2, 5) +
        ((List.range' w.first w.size).filter (t < ·)).length • (1, 2, 5) +
        if 1 < w.size then (1, w.size, 2 * w.size + 1) else 0
    | .error _ => 0
  | .next _ _, _ => 0

/-- What carrying out a plan adds to the model, apart from its tasks. -/
def Plan.cost : Plan α → Cost
  | signal _ | negated _ => (1, 0, 1)
  | same _ => 0
  | extreme _ _ tasks => groupCost tasks.length
  | candidates skipped rights lefts =>
    (lefts.length - 1 + Encode.laterCandidates skipped rights.length) • groupCost 2 +
      groupCost rights.length

/-- A candidate after the anchor is one with left operands before it. -/
theorem Window.length_filter_lt {w : Window} {t : Nat} (h : t ≤ w.first) :
    ((List.range' w.first w.size).filter (t < ·)).length =
      Encode.laterCandidates (w.first - t) w.size := by
  have hkept (start count : Nat) (hstart : t < start) :
      (List.range' start count).filter (t < ·) = List.range' start count :=
    List.filter_eq_self.mpr fun u hu =>
      decide_eq_true (hstart.trans_le (List.mem_range'_1.mp hu).1)
  unfold Encode.laterCandidates
  split
  · obtain rfl : w.first = t := by omega
    obtain ⟨n, hn⟩ : ∃ n, w.size = n + 1 := ⟨w.last - w.first, rfl⟩
    rw [hn, List.range'_succ, List.filter_cons_of_neg (by simp), hkept _ _ (Nat.lt_succ_self _)]
    simp
  · rw [hkept _ _ (by omega), List.length_range']

theorem Formula.cost_eq_of_plan {settings : EncodingSettings α}
    (hlen : settings.horizon ≤ Index.last) {f : Formula α} {t : Nat}
    {start : Option (ScoreTree α)} {plan : Plan α} (h : f.plan settings t start = .ok plan) :
    f.cost settings t = plan.cost := by
  cases f with
  | predicate => cases h; rfl
  | not _ arg => cases arg <;> cases h <;> rfl
  | and _ args | or _ args =>
    cases h
    have hcount : 1 < args.toList.length := args.two_le_length_toList
    simp [Formula.cost, Plan.cost, groupCost, hcount]
  | always | eventually =>
    obtain ⟨w, hw, h⟩ := Except.bind_eq_ok.mp h
    cases h
    simp [Formula.cost, Plan.cost, groupCost, hw]
  | holdsUntil =>
    obtain ⟨w, hw, h⟩ := Except.bind_eq_ok.mp h
    cases h
    have hlater := Window.length_filter_lt (WindowPolicy.window_bounds hlen hw).1
    simp only [Formula.cost, Plan.cost, hw, hlater, List.length_map, List.length_range', add_nsmul]
    rfl
  | next =>
    obtain ⟨w, -, h⟩ := Except.bind_eq_ok.mp h
    cases h
    rfl

/-! ## What is owed -/

namespace EncodingContext

/-- What the remembered nodes cost together. -/
def spent (ctx : EncodingContext α V) : Cost :=
  (ctx.memo.toList.map fun (site, entry) => entry.formula.cost ctx.settings site.index).sum

/-- A new node is one more item. -/
theorem spent_remember {ctx : EncodingContext α V} {f : Formula α} {t : Nat}
    (encoded : Encoded α V) (hfree : ctx.memo[f.site t]? = none) :
    (ctx.remember f t encoded).spent = ctx.spent + f.cost ctx.settings t := by
  -- the place of the node is free, so its item replaces no other
  have hothers : ctx.memo.toList.filter (fun p => ¬ (f.site t == p.1)) = ctx.memo.toList := by
    refine List.filter_eq_self.mpr fun p hp => ?_
    have hentry := Std.TreeMap.mem_toList_iff_getElem?_eq_some.mp hp
    have hsite : f.site t ≠ p.1 := by
      intro hsite
      rw [← hsite, hfree] at hentry
      cases hentry
    simpa using hsite
  have hperm := Std.TreeMap.toList_insert_perm (t := ctx.memo) (k := f.site t) (v := ⟨f, encoded⟩)
  rw [hothers] at hperm
  have hsum := (hperm.map fun p => p.2.formula.cost ctx.settings p.1.index).sum_eq
  rw [List.map_cons, List.sum_cons, add_comm] at hsum
  exact hsum

/-- All nodes that have been added are in `R`, and what was added to the model is what they cost,
and `cost` besides, which is owed to a node that is not remembered yet. -/
structure Owes (R : Set (Formula α × Nat)) (cost : Cost) (ctx ctx' : EncodingContext α V) :
    Prop where
  added {site : Site} {entry : MemoEntry α V} : ctx'.memo[site]? = some entry →
    ctx.memo[site]? = some entry ∨ (entry.formula, site.index) ∈ R
  balance : ctx'.stats.emitted + ctx.spent = ctx.stats.emitted + ctx'.spent + cost

namespace Owes

variable {R R' : Set (Formula α × Nat)} {cost : Cost} {ctx ctx' ctx'' : EncodingContext α V}

theorem of_eq (hsettings : ctx'.settings = ctx.settings) (hmemo : ctx'.memo = ctx.memo)
    (hstats : ctx'.stats.emitted = ctx.stats.emitted + cost) : ctx.Owes R cost ctx' where
  added h := .inl (hmemo ▸ h)
  balance := by
    rw [spent, spent, hsettings, hmemo, hstats]
    exact add_right_comm _ _ _

theorem refl (ctx : EncodingContext α V) : ctx.Owes R 0 ctx :=
  of_eq rfl rfl (add_zero _).symm

/-- Steps whose costs are settled do not add to what comes after them. -/
theorem trans (h : ctx.Owes R 0 ctx') (k : ctx'.Owes R cost ctx'') :
    ctx.Owes R cost ctx'' where
  added he := (k.added he).elim h.added .inr
  balance := by
    have hsettled := h.balance
    have hcost := k.balance
    simp only [Prod.ext_iff, Prod.fst_add, Prod.snd_add, Prod.fst_zero, Prod.snd_zero]
      at hsettled hcost ⊢
    omega

theorem mono (h : ctx.Owes R cost ctx') (hsub : R ⊆ R') : ctx.Owes R' cost ctx' where
  added he := (h.added he).imp_right (hsub ·)
  balance := h.balance

/-- What a node costs is settled when it is remembered. -/
theorem remember {f : Formula α} {t : Nat} (h : ctx.Owes R (f.cost ctx'.settings t) ctx')
    (encoded : Encoded α V) (hfree : ctx'.memo[f.site t]? = none) (hf : (f, t) ∈ R) :
    ctx.Owes R 0 (ctx'.remember f t encoded) where
  added {site entry} he := by
    rw [getElem?_remember] at he
    split at he
    · next hsite =>
      cases he
      exact .inr (hsite ▸ hf)
    · exact h.added he
  balance := by
    rw [spent_remember encoded hfree, add_zero]
    exact h.balance.trans (add_assoc _ _ _)

end Owes

end EncodingContext

/-! ## Steps -/

/-- Runs that keep the settings and the memo, cut short or not. -/
def keepingMemo : RunLogic (Session α V σ) (Session α V σ) where
  state := id
  later s s' := s'.context.settings = s.context.settings ∧ s'.context.memo = s.context.memo
  tidy s s' := s'.context.settings = s.context.settings ∧ s'.context.memo = s.context.memo
  fails := True
  tidy_refl _ := ⟨rfl, rfl⟩
  tidy_trans h k := ⟨k.1.trans h.1, k.2.trans h.2⟩
  later_of_tidy := id
  later_trans h k := ⟨k.1.trans h.1, k.2.trans h.2⟩

namespace Encode

theorem keepsMemo_iff {act : Encode α V σ β} :
    KeepsMemo act ↔ ∀ s, keepingMemo.Leads s act fun _ _ => True := by
  refine ⟨fun h s => ?_, fun h s => ?_⟩
  · have hs := h s
    rcases hrun : act s with ⟨e | b, s'⟩ <;> rw [hrun] at hs
    · exact (leads_of_error hrun).mpr ⟨trivial, s', rfl, hs⟩
    · exact (leads_of_ok hrun).mpr ⟨s', rfl, hs, trivial⟩
  · obtain ⟨_, rfl, hlater⟩ := (h s).exists_later
    exact hlater

theorem lift_keepsMemo (x : Except (Fault α) β) : KeepsMemo (liftM x : Encode α V σ β) := by
  intro s
  cases x <;> exact ⟨rfl, rfl⟩

theorem predicate_keepsMemo (model : SolverModel α V σ) (source : Signal α) (t : Nat)
    (start : Option (ScoreTree α)) : KeepsMemo (predicate model source t start) := by
  rw [predicate_eq]
  exact context_keepsMemo.bind fun ctx => (lift_keepsMemo _).bind fun value =>
    equalTo_keepsMemo _ _ _ _ _ _

theorem untilBest_keepsMemo (model : SolverModel α V σ) (t skipped : Nat)
    (start : Option (ScoreTree α)) (rights lefts : List (Encoded α V)) :
    KeepsMemo (untilBest model t skipped start rights lefts) := by
  refine keepsMemo_iff.mpr fun s => leads_untilBest ⟨fun s _ _ _ => ?_, fun s _ _ _ _ _ _ => ?_⟩
    (.inl trivial)
  · exact keepsMemo_iff.mp (equalTo_keepsMemo _ _ _ _ _ _) s
  · exact keepsMemo_iff.mp (group_keepsMemo _ _ _ _ _ _) s

end Encode

section Runs

variable {model : SolverModel α V σ} {lib : FormulaLibrary α} {n t : Nat} {f : Formula α}
  {start : Option (ScoreTree α)} {R : Set (Formula α × Nat)}
  {w : { s : Session α V σ // s.context.Intact ∧ s.context.Within lib }}

/-- A step that remembers nothing leaves all it has spent owed. -/
theorem leads_of_spends {act : Encode α V σ β} {cost : Cost} {post : β → Prop}
    (hkeeps : Encode.KeepsMemo act) (hspends : Spends Session.emitted cost act post) :
    (keeping lib n).Leads w act fun _ v => w.val.context.Owes R cost v.val.context := by
  obtain ⟨hsettings, hmemo⟩ := hkeeps w.val
  have hleads := leads_of_keepsMemo (n := n) (w := w) hkeeps
  rcases hrun : act w.val with ⟨e | b, s⟩
  · exact (leads_of_error hrun).mpr ((leads_of_error hrun).mp hleads)
  · obtain ⟨v, hv, hgrows, -⟩ := (leads_of_ok hrun).mp hleads
    obtain ⟨hcost, -⟩ := hspends w.val b s hrun
    rw [hrun] at hsettings hmemo
    subst hv
    exact (leads_of_ok hrun).mpr ⟨v, rfl, hgrows, .of_eq hsettings hmemo hcost⟩

/-- **Carrying out a plan costs what its own steps cost**, if its tasks account for themselves. -/
theorem leads_carryOut_owes {plan : Plan α} (hformed : plan.WellFormed)
    {visit : Task α → Encode α V σ (Encoded α V)}
    (hvisit : ∀ k ∈ plan.tasks, ∀ v, (keeping lib n).tidy w v →
      (keeping lib n).Leads v (visit k) fun _ v' => v.val.context.Owes R 0 v'.val.context) :
    (keeping lib n).Leads w (Encode.carryOut model t start visit plan) fun _ v =>
      w.val.context.Owes R plan.cost v.val.context := by
  have hvisits (tasks : List (Task α)) (hmem : ∀ k ∈ tasks, k ∈ plan.tasks)
      (v : { s : Session α V σ // s.context.Intact ∧ s.context.Within lib })
      (hv : (keeping lib n).tidy w v) : (keeping lib n).Leads v (tasks.mapM visit) fun xs v' =>
        xs.length = tasks.length ∧ v.val.context.Owes R 0 v'.val.context :=
    leads_mapM_trans (L := keeping lib n) (fun u v => u.val.context.Owes R 0 v.val.context)
      (fun v => .refl v.val.context) (fun h k => h.trans k)
      fun k hk u hu => hvisit k (hmem k hk) u (hv.trans hu)
  cases plan with
  | signal source =>
    exact leads_of_spends (Encode.predicate_keepsMemo _ _ _ _) (Encode.spends_predicate source)
  | same k => exact hvisit k (by simp [Plan.tasks]) w ((keeping lib n).tidy_refl w)
  | negated k =>
    refine leads_bind ((hvisit k (by simp [Plan.tasks]) w ((keeping lib n).tidy_refl w)).mono
      fun x v _ hv => ?_)
    exact (leads_of_spends (Encode.equalTo_keepsMemo _ _ _ _ _ _)
      (Encode.spends_equalTo _ _ _)).mono fun _ _ _ h => hv.trans h
  | extreme e role tasks =>
    refine leads_bind ((hvisits tasks (fun _ h => h) w ((keeping lib n).tidy_refl w)).mono
      fun xs v _ hxs => ?_)
    obtain ⟨hlength, hv⟩ := hxs
    have hspends : Spends Session.emitted (Plan.extreme e role tasks).cost
        (Encode.group model e role t start xs) fun _ => True := by
      rw [Plan.cost, ← hlength]
      exact Encode.spends_group e role xs
    exact (leads_of_spends (Encode.group_keepsMemo _ _ _ _ _ _) hspends).mono
      fun _ _ _ h => hv.trans h
  | candidates skipped rights lefts =>
    refine leads_bind ((hvisits rights (fun _ h => List.mem_append_left _ h) w
      ((keeping lib n).tidy_refl w)).mono fun xs v htidy hxs => ?_)
    obtain ⟨hrights, hv⟩ := hxs
    refine leads_bind ((hvisits lefts (fun _ h => List.mem_append_right _ h) v htidy).mono
      fun ys u _ hys => ?_)
    obtain ⟨hlefts, hu⟩ := hys
    have hlength : xs.length + skipped = ys.length + 1 := by rw [hrights, hlefts, hformed.2]
    have hspends : Spends Session.emitted (Plan.candidates skipped rights lefts).cost
        (Encode.untilBest model t skipped start xs ys) fun _ => True := by
      rw [Plan.cost, ← hrights, ← hlefts]
      exact Encode.spends_untilBest hlength
    exact (leads_of_spends (Encode.untilBest_keepsMemo _ _ _ _ _ _) hspends).mono
      fun _ _ _ h => (hv.trans hu).trans h

/-- **A node is paid for once**: the encoding of a formula adds what the new nodes cost, all of them
reached from it. -/
theorem leads_formula_owes (f : Formula α) (t : Nat) (start : Option (ScoreTree α)) (n : Nat)
    (w : { s : Session α V σ // s.context.Intact ∧ s.context.Within lib }) (hn : sizeOf f < n)
    (hf : f ∈ lib.formulas) :
    (keeping lib n).Leads w (Encode.formula model f t start) fun _ v =>
      w.val.context.Owes {e | w.val.context.settings.Reaches (f, t) e} 0 v.val.context := by
  induction f, t, start using Formula.induction_on_plan generalizing n w with
  | step f t start ih =>
    refine Encode.leads_formula_of_memo (.inl trivial) (fun encoded hmemo => ?_)
      fun plan hplan hmiss => ?_
    · exact ⟨⟨{ w.val with context := w.val.context.countHit }, w.property.1.congr rfl rfl,
        w.property.2⟩, rfl, .of_eq rfl rfl, .of_eq rfl rfl (add_zero _).symm⟩
    · let reached : Set (Formula α × Nat) := {e | w.val.context.settings.Reaches (f, t) e}
      have hlen : w.val.context.settings.horizon ≤ Index.last := w.property.1.horizon_le
      have hcarried := leads_carryOut_keeping (w := w) model hf hplan
      have howes : (keeping lib (sizeOf f)).Leads w
          (Encode.carryOut model t start (Encode.task model) plan) fun _ v =>
            w.val.context.Owes reached plan.cost v.val.context := by
        refine leads_carryOut_owes (Formula.plan_wellFormed hlen hplan) fun k hk v hv => ?_
        refine (ih _ plan hplan k hk _ v (Formula.sizeOf_lt_of_plan hplan hk)
          (Formula.mem_of_plan lib.closed hf hplan hk)).mono fun _ _ _ h => h.mono fun e he => ?_
        rw [hv.settings_eq] at he
        exact .head (EncodingSettings.restsOn_of_plan hplan hk) he
      refine leads_remember_keeping hn hf hmiss ((hcarried.and howes
        Subtype.val_injective).mono fun x v hgrows ⟨hsupports, hpaid⟩ => ⟨hsupports, ?_⟩)
      intro v' hv' hfree
      -- the plan leaves the cost of the node owed, which remembering the node settles
      rw [← Formula.cost_eq_of_plan hlen hplan, ← hgrows.settings_eq] at hpaid
      rw [hv']
      exact hpaid.remember x hfree .refl

theorem leads_encodeAt_owes (model : SolverModel α V σ) {f : Formula α} (anchor : Nat)
    (start : Option (ScoreTree α)) (hf : f ∈ lib.formulas) :
    (keeping lib (sizeOf f + 1)).Leads w (f.encodeAt model anchor start) fun _ v =>
      v.val.context.isEncoded f anchor = true ∧
        w.val.context.Owes {e | w.val.context.settings.Reaches (f, anchor) e} 0
          v.val.context := by
  refine leads_bind (Encode.leads_consults (Encode.checkIndex_consults anchor) (fun u _ => ?_)
    (.inl trivial))
  exact leads_bind (((leads_formula_keeping f anchor start _ w (Nat.lt_succ_self _) hf).and
    (leads_formula_owes f anchor start _ w (Nat.lt_succ_self _) hf)
      Subtype.val_injective).mono fun _ _ _ h => leads_pure h)

end Runs

/-! ## Sessions -/

namespace EncodingContext

/-- The counts are those of the remembered nodes, and these are the nodes reached from the roots. -/
structure Accounted (roots : Set (Formula α × Nat)) (ctx : EncodingContext α V) : Prop where
  intact : ctx.Intact
  within : ∃ lib, ctx.Within lib
  settled : ctx.stats.emitted = ctx.spent
  reached {e : Formula α × Nat} : ctx.Remembers e → ∃ root ∈ roots, ctx.settings.Reaches root e
  remembers {e : Formula α × Nat} : e ∈ roots → ctx.Remembers e

variable {ctx ctx' : EncodingContext α V} {roots : Set (Formula α × Nat)} {e : Formula α × Nat}

theorem Accounted.congr (h : ctx.Accounted roots) (hsettings : ctx'.settings = ctx.settings)
    (hmemo : ctx'.memo = ctx.memo) (hstats : ctx'.stats = ctx.stats) : ctx'.Accounted roots where
  intact := h.intact.congr hsettings hmemo
  within := h.within.imp fun _ hwithin site entry he => hwithin site entry (hmemo ▸ he)
  settled := by
    rw [hstats, spent, hsettings, hmemo]
    exact h.settled
  reached {e} he := by
    rw [Remembers, hmemo] at he
    exact hsettings ▸ h.reached he
  remembers {e} he := by
    rw [Remembers, hmemo]
    exact h.remembers he

/-- In a new context nothing is remembered, and nothing has been added to the model. -/
theorem accounted_of_ofOptions? {options : EncodingOptions α} (h : ofOptions? options = .ok ctx)
    (hhorizon : ctx.settings.horizon ≤ Index.last) : ctx.Accounted ∅ := by
  obtain ⟨hfresh, hwithin⟩ := intact_of_ofOptions? h hhorizon
  obtain ⟨settings, -, rfl⟩ := ofOptions?_eq_ok.mp h
  refine ⟨hfresh, ⟨⟨∅, nofun, nofun⟩, hwithin _⟩, rfl, ?_, nofun⟩
  rintro e ⟨entry, hentry, -⟩
  exact absurd hentry (by simp)

theorem Accounted.remembers_iff (h : ctx.Accounted roots) :
    ctx.Remembers e ↔ ∃ root ∈ roots, ctx.settings.Reaches root e := by
  obtain ⟨lib, hwithin⟩ := h.within
  exact ⟨h.reached, fun ⟨_, hroot, hreach⟩ =>
    h.intact.remembers_of_reaches hwithin (h.remembers hroot) hreach⟩

/-- Every entry is that of a node of its own. -/
theorem Intact.size_memo (h : ctx.Intact) : ctx.memo.size = {e | ctx.Remembers e}.ncard := by
  classical
  let nodes : List (Formula α × Nat) := ctx.memo.toList.map fun p => (p.2.formula, p.1.index)
  have hsite {p : Site × MemoEntry α V} (hp : p ∈ ctx.memo.toList) :
      p.2.formula.site p.1.index = p.1 := by
    rw [Formula.site, h.node_eq (Std.TreeMap.mem_toList_iff_getElem?_eq_some.mp hp)]
  have hnodup : nodes.Nodup := by
    refine List.pairwise_map.mpr (Std.TreeMap.distinct_keys_toList.imp_of_mem
      fun {p q} hp hq hkeys hnodes => hkeys ?_)
    obtain ⟨hformula, hindex⟩ := Prod.mk.inj hnodes
    rw [← hsite hp, ← hsite hq, hformula, hindex, Site.compare_eq_eq_iff]
  have hnodes : {e | ctx.Remembers e} = nodes.toFinset := by
    ext ⟨f, t⟩
    simp only [Set.mem_ofPred_eq, Finset.mem_coe, List.mem_toFinset, nodes, List.mem_map]
    constructor
    · rintro ⟨entry, hentry, hformula⟩
      exact ⟨(f.site t, entry), Std.TreeMap.mem_toList_iff_getElem?_eq_some.mpr hentry,
        Prod.ext hformula rfl⟩
    · rintro ⟨p, hp, hnode⟩
      exact hnode ▸ h.remembers_of_getElem? (Std.TreeMap.mem_toList_iff_getElem?_eq_some.mp hp)
  rw [hnodes, Set.ncard_coe_finset, List.toFinset_card_of_nodup hnodup, List.length_map,
    Std.TreeMap.length_toList]

end EncodingContext

namespace Session

/-- Every encoding of the session returns. -/
def Succeeds (model : SolverModel α V σ) : Session α V σ → List (Act α V σ) → Prop
  | _, [] => True
  | s, act :: rest =>
    (∀ k, act = .encode k → ∃ v, (k.formula.encodeAt model k.index k.start s).1 = .ok v) ∧
      (s.after model act).Succeeds model rest

/-- The nodes that a caller asks for. -/
def roots (acts : List (Act α V σ)) : Set (Formula α × Nat) :=
  {e | ∃ k, .encode k ∈ acts ∧ (k.formula, k.index) = e}

theorem roots_encode (k : Task α) (rest : List (Act α V σ)) :
    roots (.encode k :: rest) = {(k.formula, k.index)} ∪ roots rest := by
  ext e
  simp [roots, eq_comm (a := e)]

variable {model : SolverModel α V σ} {s : Session α V σ} {asked : Set (Formula α × Nat)}

theorem accounted_encode (h : s.context.Accounted asked) {k : Task α}
    (hk : s.context.Identifies k.formula) {v : V}
    (hok : (k.formula.encodeAt model k.index k.start s).1 = .ok v) :
    (s.after model (.encode k)).context.Accounted (asked ∪ {(k.formula, k.index)}) := by
  obtain ⟨lib, hmem, hwithin⟩ := hk
  obtain ⟨w, hw, hgrows, hencoded, howes⟩ :=
    (leads_encodeAt_owes (w := ⟨s, h.intact, hwithin⟩) model k.index k.start hmem).exists_post
      hok
  have hstate : w.val = s.after model (.encode k) := hw
  rw [← hstate]
  refine ⟨w.property.1, ⟨lib, w.property.2⟩, ?_, ?_, ?_⟩
  · have hbalance := howes.balance
    rw [h.settled, add_zero, add_comm] at hbalance
    exact add_left_cancel hbalance
  · rintro ⟨f, t⟩ ⟨entry, hentry, rfl⟩
    rw [hgrows.settings_eq]
    rcases howes.added hentry with hold | hnew
    · obtain ⟨root, hroot, hreach⟩ := h.reached ⟨entry, hold, rfl⟩
      exact ⟨root, .inl hroot, hreach⟩
    · exact ⟨_, .inr rfl, hnew⟩
  · rintro e (he | rfl)
    · obtain ⟨entry, hentry, hformula⟩ := h.remembers he
      exact ⟨entry, hgrows.kept hentry, hformula⟩
    · exact w.property.1.remembers w.property.2 hmem hencoded

/-- **Nothing is owed after an act**, if the encodings return. -/
theorem accounted_run {acts : List (Act α V σ)} (h : s.context.Accounted asked)
    (hacts : s.Admits model acts) (hok : s.Succeeds model acts) :
    (s.run model acts).context.Accounted (asked ∪ roots acts) := by
  induction acts generalizing s asked with
  | nil =>
    have hroots : asked ∪ roots ([] : List (Act α V σ)) = asked := by simp [roots]
    rw [hroots]
    exact h
  | cons act rest ih =>
    cases act with
    | encode k =>
      obtain ⟨v, hv⟩ := hok.1 k rfl
      rw [roots_encode, ← Set.union_assoc]
      exact ih (accounted_encode h (hacts.1 k rfl) hv) hacts.2 hok.2
    | bind sample var =>
      have hroots : roots (.bind sample var :: rest) = roots rest := by simp [roots]
      exact hroots ▸ ih (s := s.after model (.bind sample var)) (h.congr rfl rfl rfl) hacts.2 hok.2
    | adjust change =>
      have hroots : roots (.adjust change :: rest) = roots rest := by simp [roots]
      exact hroots ▸ ih (s := s.after model (.adjust change)) (h.congr rfl rfl rfl) hacts.2 hok.2

theorem settings_run {acts : List (Act α V σ)} (h : s.context.Intact)
    (hacts : s.Admits model acts) : (s.run model acts).context.settings = s.context.settings := by
  induction acts generalizing s with
  | nil => rfl
  | cons act rest ih =>
    obtain ⟨hnext, n, hgrows⟩ := intact_after h hacts.1
    exact (ih hnext hacts.2).trans hgrows.settings_eq

end Session

/-- **The counts of a session are the costs of what it remembers**, node by node, if all its
encodings return: over a new context the memo holds one entry for every node that is reached from a
formula that was asked for, at its anchor, and no other, and what has been added to the model is the
sum of what these nodes cost. -/
theorem stats_sum_of_costs {options : EncodingOptions α} {ctx : EncodingContext α V}
    (hctx : EncodingContext.ofOptions? options = .ok ctx)
    (hhorizon : ctx.settings.horizon ≤ Index.last) (model : SolverModel α V σ) (solver : σ)
    (acts : List (Session.Act α V σ)) (hacts : Session.Admits model ⟨solver, ctx⟩ acts)
    (hok : Session.Succeeds model ⟨solver, ctx⟩ acts) :
    let after := (Session.run model ⟨solver, ctx⟩ acts).context
    let reached := {e | ∃ root ∈ Session.roots acts, ctx.settings.Reaches root e}
    (after.stats.continuous, after.stats.binaries, after.stats.constraints) =
        (after.memo.toList.map fun (site, entry) =>
          entry.formula.cost ctx.settings site.index).sum ∧
      {e | after.Remembers e} = reached ∧
      after.memo.size = reached.ncard := by
  intro after reached
  have hstart : ctx.Accounted ∅ := EncodingContext.accounted_of_ofOptions? hctx hhorizon
  have hsettings : after.settings = ctx.settings := Session.settings_run hstart.intact hacts
  have hafter : after.Accounted (∅ ∪ Session.roots acts) := Session.accounted_run hstart hacts hok
  rw [Set.empty_union] at hafter
  have hremembered : {e | after.Remembers e} = reached :=
    Set.ext fun e => hafter.remembers_iff.trans (by rw [hsettings]; rfl)
  refine ⟨hsettings ▸ hafter.settled, hremembered, ?_⟩
  rw [← hremembered]
  exact hafter.intact.size_memo

/-- The argument at the second index, the formula that has it in its window, and that once more. -/
def sharedRequests : List (Session.Act Exact String (Journal Exact)) :=
  threeBindings ++ aheadThroughout.children.map (.encode ⟨·, 1, none⟩) ++
    [.encode ⟨aheadThroughout, 0, none⟩, .encode ⟨aheadThroughout, 0, none⟩]

/-- Two predicates and a window of two indices. -/
theorem stats_sum_of_costs_of_sharedRequests :
    {e | ∃ root ∈ Session.roots sharedRequests,
        unboundSession.context.settings.Reaches root e}.ncard = 3 ∧
      ((Session.run (Journal.solver ⟨true, none, none⟩) ⟨#[], unboundSession.context⟩
        sharedRequests).context.memo.toList.map fun (site, entry) =>
          entry.formula.cost unboundSession.context.settings site.index).sum =
        2 • (1, 0, 1) + (1, 2, 5) := by
  let model : SolverModel Exact String (Journal Exact) := Journal.solver ⟨true, none, none⟩
  have hctx : EncodingContext.ofOptions? threeSampleOptions = .ok unboundSession.context := rfl
  obtain ⟨hintact, hwithin⟩ := EncodingContext.intact_of_ofOptions? hctx (by decide)
  have hadmits : unboundSession.Admits model sharedRequests := by
    refine (Session.admits_of_library model hintact (hwithin aheadLibrary) _ fun k hk => ?_).1
    have hwhole : aheadThroughout ∈ aheadLibrary.formulas := .inl rfl
    rcases List.mem_append.mp hk with hk | hk
    · rcases List.mem_append.mp hk with hk | hk
      · simp [threeBindings] at hk
      · obtain ⟨g, hg, hsame⟩ := List.mem_map.mp hk
        cases hsame
        exact aheadLibrary.closed _ hwhole g hg
    · have hk : k = ⟨aheadThroughout, 0, none⟩ := by simpa using hk
      exact hk ▸ hwhole
  have hreturns {s : Session Exact String (Journal Exact)} {k : Task Exact}
      (h : (k.formula.encodeAt model k.index k.start s).1.isOk = true) :
      ∃ v, (k.formula.encodeAt model k.index k.start s).1 = .ok v := by
    cases hresult : (k.formula.encodeAt model k.index k.start s).1 with
    | ok v => exact ⟨v, rfl⟩
    | error fault =>
      rw [hresult] at h
      cases h
  have hok : unboundSession.Succeeds model sharedRequests := by
    refine ⟨?_, ?_, ?_, ?_, ?_, ?_, trivial⟩ <;> intro k hk <;> cases hk <;>
      exact hreturns (by decide +kernel)
  have hspec := stats_sum_of_costs hctx (by decide) (Journal.solver ⟨true, none, none⟩) #[]
    sharedRequests hadmits hok
  exact ⟨hspec.2.2.symm.trans (by decide +kernel), hspec.1.symm.trans (by decide +kernel)⟩

end SignalTemporalLogic
