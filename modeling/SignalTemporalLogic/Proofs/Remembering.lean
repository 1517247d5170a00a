import SignalTemporalLogic.Proofs.Acceptance

/-!
What a session remembers, whatever its solver model refuses. An encoding that stops half-way leaves
the nodes behind that were complete by then, and a node is complete only after everything that its
variable is made of. So the memo is intact at every moment: an entry stays as it is, the nodes that
an entry rests on have entries of their own, and a node whose encoding fails gets none.
-/

namespace SignalTemporalLogic

open RunLogic

variable {α V σ β γ : Type} [Scalar α]

theorem exists_mem_zipIdx {items : List β} {b : β} (h : b ∈ items) :
    ∃ i, (b, i) ∈ items.zipIdx := by
  obtain ⟨i, hi, rfl⟩ := List.mem_iff_getElem.mp h
  exact ⟨i, List.mem_zipIdx_iff_getElem?.mpr (List.getElem?_eq_getElem hi)⟩

/-! ## Contexts -/

namespace EncodingContext

/-- The nodes are encoded that the variable of the formula at `t` is made of. Below two negations
this is the inner argument, for the negation between them gets no variable. -/
def Supports (ctx : EncodingContext α V) : Formula α → Nat → Prop
  | .predicate _ _, _ => True
  | .not _ (.not _ inner), t => ctx.isEncoded inner t = true
  | .not _ arg, t => ctx.isEncoded arg t = true
  | .and _ args, t | .or _ args, t => ∀ g ∈ args.toList, ctx.isEncoded g t = true
  | .always _ interval arg, t | .eventually _ interval arg, t =>
    ∃ w : Window, (ctx.settings.policy.window interval ctx.settings.spacing t ctx.settings.horizon :
      Except (Fault α) Window) = .ok w ∧ ∀ u ∈ w, ctx.isEncoded arg u = true
  | .holdsUntil _ interval left right, t =>
    ∃ w : Window, (ctx.settings.policy.window interval ctx.settings.spacing t ctx.settings.horizon :
      Except (Fault α) Window) = .ok w ∧ (∀ u ∈ w, ctx.isEncoded right u = true) ∧
        ∀ u, t ≤ u → u < w.last → ctx.isEncoded left u = true
  | .next _ arg, t => ctx.isEncoded arg (t + 1) = true

/-- Every entry is that of its node at an index of the horizon, and what it rests on is encoded. -/
structure Intact (ctx : EncodingContext α V) : Prop where
  horizon_le : ctx.settings.horizon ≤ Index.last
  node_eq {site : Site} {entry : MemoEntry α V} : ctx.memo[site]? = some entry →
    entry.formula.id = site.node
  inside {site : Site} {entry : MemoEntry α V} : ctx.memo[site]? = some entry →
    site.index < ctx.settings.horizon
  supports {site : Site} {entry : MemoEntry α V} : ctx.memo[site]? = some entry →
    ctx.Supports entry.formula site.index

/-- All remembered nodes are formulas of the library. -/
def Within (ctx : EncodingContext α V) (lib : FormulaLibrary α) : Prop :=
  ∀ (site : Site) (entry : MemoEntry α V), ctx.memo[site]? = some entry →
    entry.formula ∈ lib.formulas

/-- Among the formula, the remembered nodes, and all below them, no two have the same identity. -/
def Identifies (ctx : EncodingContext α V) (f : Formula α) : Prop :=
  ∃ lib : FormulaLibrary α, f ∈ lib.formulas ∧ ctx.Within lib

/-- What was remembered is remembered, and apart from that only nodes smaller than `n`. -/
structure Grows (n : Nat) (ctx ctx' : EncodingContext α V) : Prop where
  settings_eq : ctx'.settings = ctx.settings
  kept {site : Site} {entry : MemoEntry α V} :
    ctx.memo[site]? = some entry → ctx'.memo[site]? = some entry
  small {site : Site} {entry : MemoEntry α V} : ctx'.memo[site]? = some entry →
    ctx.memo[site]? = some entry ∨ sizeOf entry.formula < n

section Growth

variable {ctx ctx' ctx'' : EncodingContext α V} {lib : FormulaLibrary α} {f : Formula α}
  {t n n' : Nat}

theorem Grows.of_eq (hsettings : ctx'.settings = ctx.settings) (hmemo : ctx'.memo = ctx.memo) :
    ctx.Grows n ctx' where
  settings_eq := hsettings
  kept h := hmemo ▸ h
  small h := .inl (hmemo ▸ h)

theorem Grows.trans (h : ctx.Grows n ctx') (k : ctx'.Grows n ctx'') : ctx.Grows n ctx'' where
  settings_eq := k.settings_eq.trans h.settings_eq
  kept he := k.kept (h.kept he)
  small he := (k.small he).elim h.small .inr

theorem Grows.widen (h : ctx.Grows n ctx') (hle : n ≤ n') : ctx.Grows n' ctx' where
  settings_eq := h.settings_eq
  kept := h.kept
  small he := (h.small he).imp_right hle.trans_lt'

theorem Grows.isEncoded (h : ctx.Grows n ctx') (hf : ctx.isEncoded f t = true) :
    ctx'.isEncoded f t = true := by
  obtain ⟨entry, hentry⟩ := isEncoded_iff.mp hf
  exact isEncoded_iff.mpr ⟨entry, h.kept hentry⟩

theorem Grows.supports (h : ctx.Grows n ctx') (hf : ctx.Supports f t) : ctx'.Supports f t := by
  cases f with
  | predicate => trivial
  | not _ arg => cases arg <;> exact h.isEncoded hf
  | and | or => exact fun g hg => h.isEncoded (hf g hg)
  | always | eventually =>
    obtain ⟨w, hw, harg⟩ := hf
    exact ⟨w, h.settings_eq ▸ hw, fun u hu => h.isEncoded (harg u hu)⟩
  | holdsUntil =>
    obtain ⟨w, hw, hright, hleft⟩ := hf
    exact ⟨w, h.settings_eq ▸ hw, fun u hu => h.isEncoded (hright u hu),
      fun u hu hv => h.isEncoded (hleft u hu hv)⟩
  | next => exact h.isEncoded hf

/-- No node of the size of the formula has been added, and so not the formula. -/
theorem Grows.free (h : ctx.Grows (sizeOf f) ctx') (hintact : ctx'.Intact)
    (hwithin : ctx'.Within lib) (hf : f ∈ lib.formulas) (hfree : ctx.memo[f.site t]? = none) :
    ctx'.memo[f.site t]? = none := by
  cases hentry : ctx'.memo[f.site t]? with
  | none => rfl
  | some entry =>
    rcases h.small hentry with hold | hsmall
    · exact nomatch hfree.symm.trans hold
    · obtain rfl := lib.unique _ (hwithin _ _ hentry) f hf (hintact.node_eq hentry)
      exact absurd hsmall (lt_irrefl _)

theorem Intact.congr (h : ctx.Intact) (hsettings : ctx'.settings = ctx.settings)
    (hmemo : ctx'.memo = ctx.memo) : ctx'.Intact where
  horizon_le := hsettings ▸ h.horizon_le
  node_eq he := h.node_eq (hmemo ▸ he)
  inside he := hsettings ▸ h.inside (hmemo ▸ he)
  supports he := (Grows.of_eq (n := 0) hsettings hmemo).supports (h.supports (hmemo ▸ he))

theorem grows_remember (encoded : Encoded α V) (hfree : ctx.memo[f.site t]? = none)
    (hn : sizeOf f < n) : ctx.Grows n (ctx.remember f t encoded) where
  settings_eq := rfl
  kept {site entry} he := by
    rw [getElem?_remember, if_neg, he]
    rintro rfl
    exact nomatch hfree.symm.trans he
  small {site entry} he := by
    rw [getElem?_remember] at he
    split at he
    · cases he
      exact .inr hn
    · exact .inl he

/-- A node may be remembered once it is supported. -/
theorem Intact.remember (h : ctx.Intact) {encoded : Encoded α V}
    (hfree : ctx.memo[f.site t]? = none) (ht : t < ctx.settings.horizon)
    (hsupports : ctx.Supports f t) : (ctx.remember f t encoded).Intact := by
  have hgrows := grows_remember encoded hfree (Nat.lt_succ_self (sizeOf f))
  have hentry {site : Site} {entry : MemoEntry α V}
      (he : (ctx.remember f t encoded).memo[site]? = some entry) :
      f.site t = site ∧ entry.formula = f ∨ ctx.memo[site]? = some entry := by
    rw [getElem?_remember] at he
    split at he
    · next hsite =>
      cases he
      exact .inl ⟨hsite, rfl⟩
    · exact .inr he
  refine ⟨h.horizon_le, fun he => ?_, fun he => ?_, fun he => ?_⟩ <;>
    rcases hentry he with ⟨rfl, hformula⟩ | hold
  · rw [hformula]
    rfl
  · exact h.node_eq hold
  · exact ht
  · exact h.inside hold
  · rw [hformula]
    exact hgrows.supports hsupports
  · exact hgrows.supports (h.supports hold)

theorem Within.remember (h : ctx.Within lib) {encoded : Encoded α V} (hf : f ∈ lib.formulas) :
    (ctx.remember f t encoded).Within lib := by
  intro site entry he
  rw [getElem?_remember] at he
  split at he
  · cases he
    exact hf
  · exact h site entry he

theorem lt_of_linearForm {signal : Signal α} {value : LinearExpr α V}
    (h : ctx.linearForm signal t = .ok value) : t < ctx.settings.horizon := by
  obtain ⟨_, -, h⟩ := Except.bind_eq_ok.mp h
  obtain ⟨u, hu, -⟩ := Except.bind_eq_ok.mp h
  exact (inside_iff t).mp ⟨u, hu⟩

/-- A formula whose plan has been carried out is supported. -/
theorem supports_of_plan (hlen : ctx.settings.horizon ≤ Index.last)
    {start : Option (ScoreTree α)} {plan : Plan α} (h : f.plan ctx.settings t start = .ok plan)
    (htasks : ∀ k ∈ plan.tasks, ctx.isEncoded k.formula k.index = true) : ctx.Supports f t := by
  cases f with
  | predicate => trivial
  | not _ arg => cases arg <;> cases h <;> exact htasks _ (List.mem_singleton_self _)
  | and _ args | or _ args =>
    cases h
    intro g hg
    obtain ⟨i, hi⟩ := exists_mem_zipIdx hg
    exact htasks _ (List.mem_map_of_mem hi)
  | always | eventually =>
    obtain ⟨w, hw, h⟩ := Except.bind_eq_ok.mp h
    cases h
    refine ⟨w, hw, fun u hu => ?_⟩
    exact htasks _ (List.mem_map_of_mem (List.mem_range'_1.mpr (Window.mem_iff.mp hu)))
  | holdsUntil =>
    obtain ⟨w, hw, h⟩ := Except.bind_eq_ok.mp h
    cases h
    refine ⟨w, hw, fun u hu => ?_, fun u hu hv => ?_⟩
    · exact htasks _ (List.mem_append_left _
        (List.mem_map_of_mem (List.mem_range'_1.mpr (Window.mem_iff.mp hu))))
    · exact htasks _ (List.mem_append_right _
        (List.mem_map_of_mem (List.mem_range'_1.mpr (by omega))))
  | next =>
    obtain ⟨w, hw, h⟩ := Except.bind_eq_ok.mp h
    cases h
    obtain ⟨-, hfirst, -⟩ := (WindowPolicy.offsets_one_eq_ok hlen).mp hw
    have harg := htasks _ (List.mem_singleton_self _)
    rwa [hfirst] at harg

end Growth

end EncodingContext

/-- A formula can only be encoded inside the horizon. -/
theorem Formula.index_lt_of_plan {settings : EncodingSettings α} {f : Formula α} {t : Nat}
    {start : Option (ScoreTree α)} {plan : Plan α} (hlen : settings.horizon ≤ Index.last)
    (h : f.plan settings t start = .ok plan)
    (hsignal : ∀ source, plan = .signal source → t < settings.horizon)
    (htasks : ∀ k ∈ plan.tasks, k.index < settings.horizon) : t < settings.horizon := by
  cases f with
  | predicate => cases h; exact hsignal _ rfl
  | not _ arg => cases arg <;> cases h <;> exact htasks _ (List.mem_singleton_self _)
  | and _ args | or _ args =>
    cases h
    have hcount := args.two_le_length_toList
    obtain ⟨g, hg⟩ := List.exists_mem_of_length_pos (l := args.toList) (by omega)
    obtain ⟨i, hi⟩ := exists_mem_zipIdx hg
    exact htasks _ (List.mem_map_of_mem hi)
  | always | eventually | holdsUntil =>
    obtain ⟨w, hw, -⟩ := Except.bind_eq_ok.mp h
    have hbounds := WindowPolicy.window_bounds hlen hw
    have hle := w.first_le_last
    omega
  | next =>
    obtain ⟨w, hw, -⟩ := Except.bind_eq_ok.mp h
    exact Nat.lt_of_succ_lt ((WindowPolicy.offsets_one_eq_ok hlen).mp hw).1

/-! ## Steps that leave the memo alone -/

namespace Encode

/-- The computation changes neither the settings nor the memo, cut short or not. -/
def KeepsMemo (act : Encode α V σ β) : Prop :=
  ∀ s, (act s).2.context.settings = s.context.settings ∧ (act s).2.context.memo = s.context.memo

theorem KeepsMemo.bind {act : Encode α V σ β} {next : β → Encode α V σ γ} (h : KeepsMemo act)
    (hnext : ∀ b, KeepsMemo (next b)) : KeepsMemo (act >>= next) := by
  intro s
  have hact := h s
  rcases hrun : act s with ⟨e | b, s'⟩ <;> rw [hrun] at hact
  · rw [run_bind_error hrun]
    exact hact
  · rw [run_bind_ok next hrun]
    exact ⟨(hnext b s').1.trans hact.1, (hnext b s').2.trans hact.2⟩

theorem context_keepsMemo : KeepsMemo (context : Encode α V σ _) := fun _ => ⟨rfl, rfl⟩

theorem takeLabel_keepsMemo (role : VariableRole) (t : Nat) :
    KeepsMemo (takeLabel role t : Encode α V σ _) := fun _ => ⟨rfl, rfl⟩

theorem emit_keepsMemo (act : Emit α σ β) : KeepsMemo (emit act : Encode α V σ β) :=
  fun _ => ⟨rfl, rfl⟩

theorem equalTo_keepsMemo (model : SolverModel α V σ) (role : VariableRole) (t : Nat)
    (bounds : Bounds α) (start : Option (ScoreTree α)) (value : LinearExpr α V) :
    KeepsMemo (equalTo model role t bounds start value) :=
  (takeLabel_keepsMemo role t).bind fun _ => emit_keepsMemo _

theorem group_keepsMemo (model : SolverModel α V σ) (e : Extremum) (role : VariableRole) (t : Nat)
    (start : Option (ScoreTree α)) (operands : List (Encoded α V)) :
    KeepsMemo (group model e role t start operands) :=
  context_keepsMemo.bind fun _ => (takeLabel_keepsMemo role t).bind fun _ => emit_keepsMemo _

/-- Encodes a node that is not remembered. -/
def compute (model : SolverModel α V σ) (f : Formula α) (t : Nat) (start : Option (ScoreTree α)) :
    Encode α V σ (Encoded α V) := do
  let plan ← f.plan (← context).settings t start
  carryOut model t start (task model) plan

/-- Where an encoding fails, it has not found the node remembered, and it does not remember it. -/
theorem compute_of_formula_eq_error {model : SolverModel α V σ} {f : Formula α} {t : Nat}
    {start : Option (ScoreTree α)} {s s' : Session α V σ} {e : Fault α}
    (h : formula model f t start s = (.error e, s')) :
    s.context.encoded? f t = none ∧ compute model f t start s = (.error e, s') := by
  rw [formula_eq, memoized] at h
  rcases run_bind_eq_error h with h | ⟨_, _, hcontext, h⟩
  · cases h
  · cases hcontext
    cases hmemo : s.context.encoded? f t with
    | some hit =>
      rw [hmemo] at h
      cases h
    | none =>
      rw [hmemo] at h
      rcases run_bind_eq_error h with h | ⟨_, _, -, h⟩
      · exact ⟨rfl, h⟩
      · cases h

end Encode

/-! ## Runs -/

section Runs

variable {model : SolverModel α V σ} {lib : FormulaLibrary α} {n : Nat}

/-- Encodings of formulas smaller than `n`, followed through sessions with an intact memo of
formulas of the library. Any of them may fail. -/
def keeping (lib : FormulaLibrary α) (n : Nat) : RunLogic (Session α V σ)
    { s : Session α V σ // s.context.Intact ∧ s.context.Within lib } where
  state := Subtype.val
  later s s' := s.val.context.Grows n s'.val.context
  tidy s s' := s.val.context.Grows n s'.val.context
  fails := True
  tidy_refl _ := .of_eq rfl rfl
  tidy_trans := .trans
  later_of_tidy := id
  later_trans := .trans

variable {w : { s : Session α V σ // s.context.Intact ∧ s.context.Within lib }}

theorem leads_of_keepsMemo {act : Encode α V σ β} (h : Encode.KeepsMemo act) :
    (keeping lib n).Leads w act fun _ _ => True := by
  obtain ⟨hsettings, hmemo⟩ := h w.val
  let w' : { s : Session α V σ // s.context.Intact ∧ s.context.Within lib } :=
    ⟨(act w.val).2, w.property.1.congr hsettings hmemo,
      fun site entry he => w.property.2 site entry (hmemo ▸ he)⟩
  have hgrows : w.val.context.Grows n w'.val.context := .of_eq hsettings hmemo
  rcases hrun : act w.val with ⟨e | b, s⟩
  · exact (leads_of_error hrun).mpr ⟨trivial, w', congrArg Prod.snd hrun, hgrows⟩
  · exact (leads_of_ok hrun).mpr ⟨w', congrArg Prod.snd hrun, hgrows, trivial⟩

theorem keeping_emits (model : SolverModel α V σ) : Encode.Emits (keeping lib n) model where
  negation _ _ _ _ := leads_of_keepsMemo (Encode.equalTo_keepsMemo _ _ _ _ _ _)
  group _ _ _ _ _ _ _ := leads_of_keepsMemo (Encode.group_keepsMemo _ _ _ _ _ _)

theorem leads_predicate_keeping {source : Signal α} {t : Nat} {start : Option (ScoreTree α)} :
    (keeping lib n).Leads w (Encode.predicate model source t start) fun _ _ =>
      t < w.val.context.settings.horizon := by
  rw [Encode.predicate_eq]
  refine leads_bind (Encode.leads_context (leads_bind (leads_lift (fun value hvalue => ?_)
    (.inl trivial))))
  exact (leads_of_keepsMemo (Encode.equalTo_keepsMemo _ _ _ _ _ _)).mono fun _ _ _ _ =>
    EncodingContext.lt_of_linearForm hvalue

/-- Carrying out a plan leaves its formula supported. -/
theorem leads_plan_keeping (model : SolverModel α V σ) {f : Formula α} {t : Nat}
    {start : Option (ScoreTree α)} {plan : Plan α}
    (hplan : f.plan w.val.context.settings t start = .ok plan)
    (hvisit : ∀ k ∈ plan.tasks, ∀ v, (keeping lib n).Leads v (Encode.task model k) fun _ v' =>
      v'.val.context.isEncoded k.formula k.index = true) :
    (keeping lib n).Leads w (Encode.carryOut model t start (Encode.task model) plan) fun _ v =>
      v.val.context.Supports f t ∧ t < v.val.context.settings.horizon := by
  refine Leads.mono (Encode.leads_carryOut
    (fun k v => v.val.context.isEncoded k.formula k.index = true)
    (fun _ => t < w.val.context.settings.horizon) (keeping_emits model) (.inl trivial)
    (fun h => h.isEncoded) (fun _ _ => leads_predicate_keeping) fun k hk v _ => hvisit k hk v)
    fun _ v hgrows ⟨hsignal, htasks⟩ => ?_
  rw [← hgrows.settings_eq] at hplan hsignal
  refine ⟨EncodingContext.supports_of_plan v.property.1.horizon_le hplan htasks, ?_⟩
  refine Formula.index_lt_of_plan v.property.1.horizon_le hplan hsignal fun k hk => ?_
  obtain ⟨entry, hentry⟩ := EncodingContext.isEncoded_iff.mp (htasks k hk)
  exact v.property.1.inside hentry

/-- A formula may be remembered after its plan: the nodes that the plan has added are smaller, so
its place is still free. -/
theorem leads_remember_keeping {f : Formula α} {t : Nat} {act : Encode α V σ (Encoded α V)}
    {post : Encoded α V → { s : Session α V σ // s.context.Intact ∧ s.context.Within lib } → Prop}
    (hn : sizeOf f < n) (hf : f ∈ lib.formulas) (hmiss : w.val.context.encoded? f t = none)
    (hact : (keeping lib (sizeOf f)).Leads w act fun x v =>
      (v.val.context.Supports f t ∧ t < v.val.context.settings.horizon) ∧
        ∀ v', v'.val = ⟨v.val.solver, v.val.context.remember f t x⟩ →
          v.val.context.memo[f.site t]? = none → post x v') :
    (keeping lib n).Leads w (do
      let x ← act
      Encode.modifyContext (·.remember f t x)
      return x) post := by
  refine leads_bind (Leads.mono (L := keeping lib n) (hact.transfer rfl id
    (fun _ h => h.widen hn.le) fun _ h => h.widen hn.le)
    fun x v _ ⟨hgrows, ⟨hsupports, hinside⟩, hpost⟩ => ?_)
  have hfree := hgrows.free v.property.1 v.property.2 hf (Option.map_eq_none_iff.mp hmiss)
  refine leads_bind (leads_modify ⟨⟨v.val.solver, v.val.context.remember f t x⟩,
    v.property.1.remember hfree hinside hsupports, v.property.2.remember hf⟩ rfl
    (EncodingContext.grows_remember x hfree hn) (leads_pure ?_))
  exact hpost _ rfl hfree

/-- **An encoded node is remembered together with all it rests on**, also if other encodings on the
way have failed. -/
theorem leads_formula_keeping (f : Formula α) (t : Nat) (start : Option (ScoreTree α)) (n : Nat)
    (w : { s : Session α V σ // s.context.Intact ∧ s.context.Within lib }) (hn : sizeOf f < n)
    (hf : f ∈ lib.formulas) :
    (keeping lib n).Leads w (Encode.formula model f t start) fun _ v =>
      v.val.context.isEncoded f t = true := by
  induction f, t, start using Formula.induction_on_plan generalizing n w with
  | step f t start ih =>
    refine Encode.leads_formula_of_memo (.inl trivial) ?_ ?_
    · intro encoded hmemo
      obtain ⟨entry, hentry, rfl⟩ := Option.map_eq_some_iff.mp hmemo
      exact ⟨⟨{ w.val with context := w.val.context.countHit }, w.property.1.congr rfl rfl,
        w.property.2⟩, rfl, .of_eq rfl rfl, EncodingContext.isEncoded_iff.mpr ⟨entry, hentry⟩⟩
    · intro plan hplan hmiss
      have hbody := leads_plan_keeping (n := sizeOf f) (w := w) model hplan
        fun k hk v => ih _ plan hplan k hk _ v (Formula.sizeOf_lt_of_plan hplan hk)
          (Formula.mem_of_plan lib.closed hf hplan hk)
      refine leads_remember_keeping hn hf hmiss (hbody.mono fun x v _ h => ⟨h, fun v' hv' _ => ?_⟩)
      rw [hv']
      exact EncodingContext.isEncoded_remember.mpr (.inl rfl)

theorem leads_carryOut_keeping (model : SolverModel α V σ) {f : Formula α} {t : Nat}
    {start : Option (ScoreTree α)} {plan : Plan α} (hf : f ∈ lib.formulas)
    (hplan : f.plan w.val.context.settings t start = .ok plan) :
    (keeping lib (sizeOf f)).Leads w (Encode.carryOut model t start (Encode.task model) plan)
      fun _ v => v.val.context.Supports f t ∧ t < v.val.context.settings.horizon :=
  leads_plan_keeping model hplan fun k hk v =>
    leads_formula_keeping k.formula k.index k.start _ v (Formula.sizeOf_lt_of_plan hplan hk)
      (Formula.mem_of_plan lib.closed hf hplan hk)

theorem leads_compute_keeping {f : Formula α} {t : Nat} (start : Option (ScoreTree α))
    (hf : f ∈ lib.formulas) :
    (keeping lib (sizeOf f)).Leads w (Encode.compute model f t start) fun _ _ => True := by
  refine leads_bind (Encode.leads_context (leads_bind (leads_lift (fun plan hplan => ?_)
    (.inl trivial))))
  exact (leads_carryOut_keeping model hf hplan).mono fun _ _ _ _ => trivial

/-- A formula whose encoding fails is not remembered. -/
theorem not_isEncoded_of_error {f : Formula α} {anchor : Nat} {start : Option (ScoreTree α)}
    {e : Fault α} {s : Session α V σ} (hf : f ∈ lib.formulas)
    (h : f.encodeAt model anchor start w.val = (.error e, s)) :
    s.context.isEncoded f anchor = false := by
  rw [Bool.eq_false_iff, ne_eq, EncodingContext.isEncoded_iff]
  rintro ⟨entry, hentry⟩
  rcases run_bind_eq_error h with hcheck | ⟨_, s₁, hcheck, h⟩ <;>
    rw [Encode.checkIndex_consults anchor w.val] at hcheck
  · obtain ⟨hinside, rfl⟩ := Prod.mk.inj hcheck
    obtain ⟨u, hu⟩ := (EncodingContext.inside_iff anchor).mpr (w.property.1.inside hentry)
    exact nomatch hinside.symm.trans hu
  · obtain ⟨-, rfl⟩ := Prod.mk.inj hcheck
    rcases run_bind_eq_error h with h | ⟨_, _, -, h⟩
    · obtain ⟨hmiss, hcompute⟩ := Encode.compute_of_formula_eq_error h
      obtain ⟨w', hw', hgrows⟩ := (leads_compute_keeping (w := w) start hf).exists_later
      have hstate : w'.val = s := hw'.trans (congrArg Prod.snd hcompute)
      have hfree := hgrows.free w'.property.1 w'.property.2 hf (Option.map_eq_none_iff.mp hmiss)
      rw [hstate, hentry] at hfree
      cases hfree
    · cases h

theorem leads_encodeAt_keeping (model : SolverModel α V σ) {f : Formula α} (anchor : Nat)
    (start : Option (ScoreTree α)) (hf : f ∈ lib.formulas) :
    (keeping lib (sizeOf f + 1)).Leads w (f.encodeAt model anchor start) fun _ _ => True := by
  refine leads_bind (Encode.leads_consults (Encode.checkIndex_consults anchor) (fun u _ => ?_)
    (.inl trivial))
  exact leads_bind ((leads_formula_keeping f anchor start _ w (Nat.lt_succ_self _) hf).mono
    fun _ _ _ _ => leads_pure trivial)

end Runs

/-! ## Sessions -/

namespace Session

/-- What a caller does with a session. The model is the caller's, too, who may change it between
encodings. -/
inductive Act (α V σ : Type) [Scalar α] where
  | encode (task : Task α)
  | bind (sample : Sample) (var : V)
  | adjust (change : σ → σ)

/-- The session after an act. An encoding that fails leaves behind what it has done by then. -/
def after (model : SolverModel α V σ) (s : Session α V σ) : Act α V σ → Session α V σ
  | .encode k => (k.formula.encodeAt model k.index k.start s).2
  | .bind sample var => { s with context := s.context.bind sample var }
  | .adjust change => { s with solver := change s.solver }

/-- The session after some acts. -/
def run (model : SolverModel α V σ) (s : Session α V σ) (acts : List (Act α V σ)) : Session α V σ :=
  acts.foldl (after model) s

/-- Each formula is told from the remembered ones when its turn comes. -/
def Admits (model : SolverModel α V σ) : Session α V σ → List (Act α V σ) → Prop
  | _, [] => True
  | s, act :: rest =>
    (∀ k, act = .encode k → s.context.Identifies k.formula) ∧ (s.after model act).Admits model rest

variable {model : SolverModel α V σ} {s : Session α V σ}

theorem keeping_encode (model : SolverModel α V σ) {lib : FormulaLibrary α} (h : s.context.Intact)
    (hwithin : s.context.Within lib) {k : Task α} (hk : k.formula ∈ lib.formulas) :
    (s.after model (.encode k)).context.Intact ∧ (s.after model (.encode k)).context.Within lib ∧
      s.context.Grows (sizeOf k.formula + 1) (s.after model (.encode k)).context := by
  obtain ⟨w, hw, hgrows⟩ :=
    (leads_encodeAt_keeping (w := ⟨s, h, hwithin⟩) model k.index k.start hk).exists_later
  have hstate : w.val = s.after model (.encode k) := hw
  exact hstate ▸ ⟨w.property.1, w.property.2, hgrows⟩

theorem admits_append {acts more : List (Act α V σ)} : s.Admits model (acts ++ more) ↔
    s.Admits model acts ∧ (s.run model acts).Admits model more := by
  induction acts generalizing s with
  | nil => exact (and_iff_right trivial).symm
  | cons act rest ih => exact (and_congr_right fun _ => ih).trans and_assoc.symm

/-- An act leaves the memo intact and everything that is in it. -/
theorem intact_after (h : s.context.Intact) {act : Act α V σ}
    (hact : ∀ k, act = .encode k → s.context.Identifies k.formula) :
    (s.after model act).context.Intact ∧
      ∃ n, s.context.Grows n (s.after model act).context := by
  cases act with
  | encode k =>
    obtain ⟨lib, hk, hwithin⟩ := hact k rfl
    obtain ⟨hnext, -, hgrows⟩ := keeping_encode model h hwithin hk
    exact ⟨hnext, _, hgrows⟩
  | bind => exact ⟨h.congr rfl rfl, 0, .of_eq rfl rfl⟩
  | adjust => exact ⟨h, 0, .of_eq rfl rfl⟩

/-- Formulas of one library are told apart. -/
theorem admits_of_library (model : SolverModel α V σ) {lib : FormulaLibrary α}
    (h : s.context.Intact) (hwithin : s.context.Within lib) (acts : List (Act α V σ))
    (hacts : ∀ k, .encode k ∈ acts → k.formula ∈ lib.formulas) :
    s.Admits model acts ∧ (s.run model acts).context.Within lib := by
  induction acts generalizing s with
  | nil => exact ⟨trivial, hwithin⟩
  | cons act rest ih =>
    have hrest : ∀ k, .encode k ∈ rest → k.formula ∈ lib.formulas :=
      fun k hk => hacts k (List.mem_cons_of_mem _ hk)
    cases act with
    | encode k =>
      have hk := hacts k (by simp)
      obtain ⟨hnext, hwithin', -⟩ := keeping_encode model h hwithin hk
      obtain ⟨hadmits, hlast⟩ := ih hnext hwithin' hrest
      exact ⟨⟨fun _ he => Act.encode.inj he ▸ ⟨lib, hk, hwithin⟩, hadmits⟩, hlast⟩
    | bind sample var =>
      obtain ⟨hadmits, hlast⟩ := ih (s := s.after model (.bind sample var)) (h.congr rfl rfl)
        hwithin hrest
      exact ⟨⟨nofun, hadmits⟩, hlast⟩
    | adjust change =>
      obtain ⟨hadmits, hlast⟩ := ih (s := s.after model (.adjust change)) h hwithin hrest
      exact ⟨⟨nofun, hadmits⟩, hlast⟩

theorem intact_run (h : s.context.Intact) {acts : List (Act α V σ)} (hacts : s.Admits model acts) :
    (s.run model acts).context.Intact ∧
      ∀ {site : Site} {entry : MemoEntry α V}, s.context.memo[site]? = some entry →
        (s.run model acts).context.memo[site]? = some entry := by
  induction acts generalizing s with
  | nil => exact ⟨h, id⟩
  | cons act rest ih =>
    obtain ⟨hnext, n, hgrows⟩ := intact_after h hacts.1
    obtain ⟨hlast, hkept⟩ := ih hnext hacts.2
    exact ⟨hlast, fun he => hkept (hgrows.kept he)⟩

end Session

theorem EncodingContext.ofOptions?_eq_ok {options : EncodingOptions α} {ctx : EncodingContext α V} :
    ofOptions? options = .ok ctx ↔ ∃ settings, options.settings? = .ok settings ∧
      ctx = { settings } := by
  rw [ofOptions?, Except.bind_eq_ok]
  exact exists_congr fun _ => and_congr_right fun _ => Except.pure_eq_ok.trans eq_comm

/-- Nothing is wrong with an empty memo. -/
theorem EncodingContext.intact_of_memo_eq {ctx : EncodingContext α V} (h : ctx.memo = ∅)
    (hhorizon : ctx.settings.horizon ≤ Index.last) :
    ctx.Intact ∧ ∀ lib, ctx.Within lib := by
  have hempty {site : Site} {entry : MemoEntry α V} : ctx.memo[site]? ≠ some entry := by simp [h]
  exact ⟨⟨hhorizon, fun he => absurd he hempty, fun he => absurd he hempty,
    fun he => absurd he hempty⟩, fun _ _ _ he => absurd he hempty⟩

/-- Nothing is remembered in a new context. -/
theorem EncodingContext.intact_of_ofOptions? {options : EncodingOptions α}
    {ctx : EncodingContext α V} (h : ofOptions? options = .ok ctx)
    (hhorizon : ctx.settings.horizon ≤ Index.last) :
    ctx.Intact ∧ ∀ lib, ctx.Within lib := by
  obtain ⟨settings, -, rfl⟩ := ofOptions?_eq_ok.mp h
  exact intact_of_memo_eq rfl hhorizon

/-- **The memo is intact throughout a session**, on every solver model and whatever it refuses. What
is remembered of a formula at an index stays as it is, all it rests on is remembered as well, and
after an encoding that fails the formula is not remembered at the anchor. -/
theorem memo_intact {options : EncodingOptions α} {ctx : EncodingContext α V}
    (hctx : EncodingContext.ofOptions? options = .ok ctx)
    (hhorizon : ctx.settings.horizon ≤ Index.last) (model : SolverModel α V σ) (solver : σ)
    (acts : List (Session.Act α V σ))
    (hacts : Session.Admits model ⟨solver, ctx⟩ acts) :
    let s := Session.run model ⟨solver, ctx⟩ acts
    (∀ more, s.Admits model more → ∀ f t x, s.context.encoded? f t = some x →
      (s.run model more).context.encoded? f t = some x) ∧
    (∀ f t, s.context.Identifies f → s.context.isEncoded f t = true → s.context.Supports f t) ∧
    ∀ f anchor start, s.context.Identifies f → ∀ fault s',
      f.encodeAt model anchor start s = (.error fault, s') →
        s'.context.isEncoded f anchor = false := by
  intro s
  have hfresh : ctx.Intact := (EncodingContext.intact_of_ofOptions? hctx hhorizon).1
  have hintact : s.context.Intact := (Session.intact_run hfresh hacts).1
  refine ⟨fun more hmore f t x hx => ?_, fun f t ⟨lib, hf, hwithin⟩ hencoded => ?_,
    fun f anchor start ⟨lib, hf, hwithin⟩ fault s' h => ?_⟩
  · obtain ⟨entry, hentry, rfl⟩ := Option.map_eq_some_iff.mp hx
    exact Option.map_eq_some_iff.mpr ⟨entry, (Session.intact_run hintact hmore).2 hentry, rfl⟩
  · obtain ⟨entry, hentry⟩ := EncodingContext.isEncoded_iff.mp hencoded
    have hsame := lib.unique _ (hwithin _ _ hentry) f hf (hintact.node_eq hentry)
    exact hsame ▸ hintact.supports hentry
  · exact not_isEncoded_of_error (w := ⟨s, hintact, hwithin⟩) hf h

/-- The settings of `threeSampleSession`, as options. -/
def threeSampleOptions : EncodingOptions Exact where
  bigM := some (.constant (.fin 10))
  horizon := some 3

/-- A session over an empty journal, in which nothing is bound. -/
def unboundSession : Session Exact String (Journal Exact) where
  solver := #[]
  context := { settings := threeSampleSession.context.settings }

/-- Variables for the three samples. -/
def threeBindings : List (Session.Act Exact String (Journal Exact)) :=
  [.bind ⟨"x", 0⟩ "x[0]", .bind ⟨"x", 1⟩ "x[1]", .bind ⟨"x", 2⟩ "x[2]"]

/-- One more attempt, in a new journal. -/
def secondAttempt : List (Session.Act Exact String (Journal Exact)) :=
  [.adjust fun _ => #[], .encode ⟨aheadThroughout, 0, none⟩]

/-- With room for eleven calls the twelfth one fails, which is the last one that the formula needs:
it is not remembered. Its argument is, and still has the same variable when a second attempt has
succeeded. -/
theorem memo_intact_of_aheadThroughout :
    let model := Journal.solver ⟨true, some 11, none⟩
    let failed := (aheadThroughout.encodeAt model 0 none (unboundSession.run model threeBindings)).2
    let later := failed.run model secondAttempt
    failed.context.isEncoded aheadThroughout 0 = false ∧
    (∀ g ∈ aheadThroughout.children, ∃ x, failed.context.encoded? g 0 = some x ∧
      later.context.encoded? g 0 = some x) ∧
    later.context.Supports aheadThroughout 0 := by
  intro model failed later
  have hctx : EncodingContext.ofOptions? threeSampleOptions = .ok unboundSession.context := rfl
  obtain ⟨hintact, hwithin⟩ := EncodingContext.intact_of_ofOptions? hctx (by decide)
  let first : List (Session.Act Exact String (Journal Exact)) :=
    threeBindings ++ [.encode ⟨aheadThroughout, 0, none⟩]
  have hadmits (acts : List (Session.Act Exact String (Journal Exact)))
      (hacts : acts ⊆ first ++ secondAttempt) :=
    Session.admits_of_library model hintact (hwithin aheadLibrary) acts fun k hk => by
      have hk : k = ⟨aheadThroughout, 0, none⟩ := by
        simpa [first, threeBindings, secondAttempt] using hacts hk
      exact hk ▸ .inl rfl
  have hspec (acts : List (Session.Act Exact String (Journal Exact)))
      (hacts : acts ⊆ first ++ secondAttempt) :=
    memo_intact hctx (by decide) model #[] acts (hadmits acts hacts).1
  refine ⟨?_, fun g hg => ?_, ?_⟩
  · have hbindings : threeBindings ⊆ first ++ secondAttempt := by simp [first]
    have hfault : (aheadThroughout.encodeAt model 0 none
        (unboundSession.run model threeBindings)).1.isOk = false := by decide +kernel
    cases hresult : (aheadThroughout.encodeAt model 0 none
        (unboundSession.run model threeBindings)).1 with
    | ok v =>
      rw [hresult] at hfault
      cases hfault
    | error fault =>
      exact (hspec threeBindings hbindings).2.2 aheadThroughout 0 none
        ⟨aheadLibrary, .inl rfl, (hadmits threeBindings hbindings).2⟩ fault failed
        (Prod.ext hresult rfl)
  · have hencoded : failed.context.isEncoded g 0 = true := by
      cases List.mem_singleton.mp hg
      decide +kernel
    obtain ⟨entry, hentry⟩ := EncodingContext.isEncoded_iff.mp hencoded
    have hmore := (Session.admits_append.mp (hadmits (first ++ secondAttempt) fun _ h => h).1).2
    exact ⟨entry.encoded, Option.map_eq_some_iff.mpr ⟨entry, hentry, rfl⟩,
      (hspec first (List.subset_append_left _ _)).1 secondAttempt hmore g 0 entry.encoded
        (Option.map_eq_some_iff.mpr ⟨entry, hentry, rfl⟩)⟩
  · have hlater : unboundSession.run model (first ++ secondAttempt) = later := List.foldl_append
    have hsupported := (hspec (first ++ secondAttempt) fun _ h => h).2.1 aheadThroughout 0
      ⟨aheadLibrary, .inl rfl, (hadmits (first ++ secondAttempt) fun _ h => h).2⟩
    rw [show Session.run model ⟨#[], unboundSession.context⟩ (first ++ secondAttempt) = later from
      hlater] at hsupported
    exact hsupported (by decide +kernel)

end SignalTemporalLogic
