import SignalTemporalLogic.Proofs.Contexts
import SignalTemporalLogic.Proofs.Labels
import SignalTemporalLogic.Proofs.Priming
import SignalTemporalLogic.Proofs.Readings
import SignalTemporalLogic.Proofs.StartTrees

/-!
Sessions in which every variable that stands for a node starts from the score of the node. With the
session goes an assignment that the model is primed with. A step that adds a variable extends the
assignment by the value of the new variable and touches nothing else, and a node is remembered in
the same breath as its variable is added, so that no session in between has a variable unaccounted
for.
-/

namespace SignalTemporalLogic

open RunLogic

/-! ## What a signal reads -/

/-- The signal is affine, and its coefficients and its constant are rationals. -/
def SignalForm.Rational (form : SignalForm Exact) : Prop :=
  ∃ labelled constant, form.affinePart = .ok (labelled, constant) ∧
    (∀ term ∈ labelled, Scalar.IsFinite term.1) ∧ Scalar.IsFinite constant

section Reading

variable {ctx : EncodingContext Exact VarId} {signal : Signal Exact} {t : Nat}
  {value : LinearExpr Exact VarId}

theorem EncodingContext.resolves_of_resolve {input : Exact × Sample} {term : Exact × VarId}
    (h : ctx.resolve input = .ok term) : ctx.Resolves input term := by
  obtain ⟨u, hu, h⟩ := Except.bind_eq_ok.mp h
  obtain ⟨v, hv, h⟩ := Except.bind_eq_ok.mp h
  cases h
  exact ⟨rfl, (EncodingContext.inside_iff _).mp ⟨u, hu⟩, EncodingContext.boundVariable_eq_ok.mp hv⟩

theorem EncodingContext.reads_of_linearForm (h : ctx.linearForm signal t = .ok value) :
    ctx.Reads signal t value.terms value.constant := by
  obtain ⟨part, hpart, h⟩ := Except.bind_eq_ok.mp h
  obtain ⟨u, hu, h⟩ := Except.bind_eq_ok.mp h
  obtain ⟨samples, hsamples, h⟩ := Except.bind_eq_ok.mp h
  obtain ⟨terms, hterms, h⟩ := Except.bind_eq_ok.mp h
  cases h
  exact ⟨(EncodingContext.inside_iff t).mp ⟨u, hu⟩, part.1, samples, hpart, hsamples,
    (Except.mapM_eq_ok.mp hterms).imp fun _ _ => EncodingContext.resolves_of_resolve⟩

/-- What is read of a signal over rationals is finite. -/
theorem EncodingContext.Reads.finite {terms : List (Exact × VarId)} {constant : Exact}
    (h : ctx.Reads signal t terms constant) (hform : signal.form.Rational) :
    (∀ term ∈ terms, Scalar.IsFinite term.1) ∧ Scalar.IsFinite constant := by
  obtain ⟨-, labelled, samples, hpart, -, hresolves⟩ := h
  obtain ⟨labelled', constant', hpart', hfinite, hconstant⟩ := hform
  obtain ⟨rfl, rfl⟩ := Prod.mk.inj (Except.ok.inj (hpart.symm.trans hpart'))
  refine ⟨fun term hterm => ?_, hconstant⟩
  obtain ⟨input, hinput, hcoefficient, -, -⟩ := (exists_of_forall₂ hresolves).2 term hterm
  obtain ⟨label, hlabel, hfst⟩ := List.mem_map.mp (List.of_mem_zip hinput).1
  rw [hcoefficient, ← hfst]
  exact hfinite label hlabel

end Reading

/-! ## Ranges and values -/

/-- The big-M policy suits the ranges, gives finite constants only, and gives one for all operands
in their ranges unless runs may fail. -/
structure BigM.Serves (bigM : BigM Exact) (R : Bounds Exact → Rat → Prop) (fails : Prop) : Prop
    extends bigM.Suits R where
  finite {bounds : List (Bounds Exact)} {m : Exact} : bigM.resolve bounds = .ok m →
    Scalar.IsFinite m
  resolves : fails ∨ ∀ (bounds : List (Bounds Exact)) (values : List Rat), bounds ≠ [] →
    List.Forall₂ R bounds values → ∃ m, bigM.resolve bounds = .ok m

/-- The variable is one of the model and has the value, which is in its range. -/
structure Encoded.Carries (R : Bounds Exact → Rat → Prop) (size : Nat) (p : Assignment)
    (y : Encoded Exact VarId) (q : Rat) : Prop where
  known : y.var.index < size
  value_eq : p y.var = q
  ranges : R y.bounds q

theorem Encoded.Carries.mono {R : Bounds Exact → Rat → Prop} {size size' : Nat} {p p' : Assignment}
    {y : Encoded Exact VarId} {q : Rat} (h : y.Carries R size p q) (hsize : size ≤ size')
    (hvalue : ∀ v : VarId, v.index < size → p' v = p v) : y.Carries R size' p' q :=
  ⟨h.known.trans_le hsize, (hvalue _ h.known).trans h.value_eq, h.ranges⟩

/-- The name is that of a variable for an operand within an until. -/
def UntilOperand (stem name : String) : Prop :=
  ∃ n t, name = EncodingContext.labelText stem .untilBefore n t ∨
    name = EncodingContext.labelText stem .untilTerm n t

/-- Names tell the variables for operands within an until from all others of a session. -/
theorem untilOperand_labelText_iff {stem : String} {role : VariableRole} {n t : Nat} :
    UntilOperand stem (EncodingContext.labelText stem role n t) ↔
      role = .untilBefore ∨ role = .untilTerm := by
  constructor
  · intro ⟨n', t', h⟩
    -- what comes after the tag starts with a digit, so that no tag runs on into another
    obtain ⟨c, rest, hdigits, hdigit⟩ := exists_toDigits_eq_cons n
    have hc : c ≠ '_' := by
      rintro rfl
      cases hdigit
    have htexts {other : VariableRole} (h : EncodingContext.labelText stem role n t =
        EncodingContext.labelText stem other n' t') :
        role.tag.toList ++ (c :: rest ++ '_' :: 't' :: Nat.toDigits 10 t) =
          other.tag.toList ++ (Nat.toDigits 10 n' ++ '_' :: 't' :: Nat.toDigits 10 t') := by
      replace h := congrArg String.toList h
      rw [EncodingContext.toList_labelText, EncodingContext.toList_labelText, hdigits] at h
      exact (List.cons.inj (List.append_cancel_left h)).2
    rcases h with h | h <;> replace h := htexts h <;> cases role <;>
      simp [VariableRole.tag, hc] at h ⊢
  · intro hrole
    exact ⟨n, t, hrole.imp (fun h => by rw [h]) fun h => by rw [h]⟩

/-- The variable is bound to a sample, belongs to an operand within an until, or has a start value
and belongs to a remembered node. -/
def Session.Accounts (s : StoredSession) (v : VarId) (var : Variable Exact) : Prop :=
  (∃ sample : Sample, s.context.bindings[sample]? = some v) ∨
    UntilOperand s.context.settings.labelStem var.name ∨
    (∃ a, var.start = some a) ∧
      ∃ (site : Site) (entry : MemoEntry Exact VarId), s.context.memo[site]? = some entry ∧
        entry.encoded.var = v

/-- What is remembered stays. -/
def EncodingContext.MemoGrows (ctx ctx' : EncodingContext Exact VarId) : Prop :=
  ∀ (site : Site) (entry : MemoEntry Exact VarId), ctx.memo[site]? = some entry →
    ctx'.memo[site]? = some entry

theorem Session.Accounts.mono {s s' : StoredSession} {v : VarId} {var : Variable Exact}
    (h : s.Accounts v var) (hsettings : s'.context.settings = s.context.settings)
    (hbindings : s'.context.bindings = s.context.bindings)
    (hmemo : s.context.MemoGrows s'.context) : s'.Accounts v var := by
  unfold Session.Accounts
  rw [hsettings, hbindings]
  refine h.imp_right (Or.imp_right ?_)
  intro ⟨hstart, site, entry, hentry, hvar⟩
  exact ⟨hstart, site, entry, hmemo site entry hentry, hvar⟩

/-- The tree is that of the formula at `t`, and its score is the robustness there. -/
structure Formula.ScoredBy (policy : WindowPolicy) (x : Trajectory Exact) (f : Formula Exact)
    (t : Nat) (tree : ScoreTree Exact) : Prop where
  tree_eq : f.treeAt policy x t = .ok tree
  score_eq : f.robustness policy x t = .ok tree.score

/-- What is remembered of a formula at an index is a variable with its score. -/
def MemoEntry.Scored (lib : FormulaLibrary Exact) (policy : WindowPolicy) (x : Trajectory Exact)
    (R : Bounds Exact → Rat → Prop) (size : Nat) (p : Assignment) (site : Site)
    (entry : MemoEntry Exact VarId) : Prop :=
  entry.formula ∈ lib.formulas ∧ entry.formula.id = site.node ∧
    ∃ tree q, entry.formula.ScoredBy policy x site.index tree ∧ tree.score = .fin q ∧
      entry.encoded.Carries R size p q

/-- A session whose model is primed with an assignment that follows a trajectory. -/
structure WarmSession (lib : FormulaLibrary Exact) (policy : WindowPolicy) (x : Trajectory Exact)
    (bigM : BigM Exact) (R : Bounds Exact → Rat → Prop) where
  session : StoredSession
  value : Assignment
  serves : session.context.Serves policy x
  bigM_eq : session.context.settings.bigM = bigM
  limit_eq : session.solver.variableLimit = none
  bound (sample : Sample) (v : VarId) : session.context.bindings[sample]? = some v →
    v.index < session.solver.vars.size ∧ x.value sample = .ok (.fin (value v))
  primed : session.solver.Primed value
  remembered (site : Site) (entry : MemoEntry Exact VarId) :
    session.context.memo[site]? = some entry →
    entry.Scored lib policy x R session.solver.vars.size value site
  accounted (v : VarId) (var : Variable Exact) : session.solver.lookup? v = some var →
    var.kind = .continuous → session.Accounts v var

namespace WarmSession

variable {lib : FormulaLibrary Exact} {policy : WindowPolicy} {x : Trajectory Exact}
  {bigM : BigM Exact} {R : Bounds Exact → Rat → Prop}

abbrev model (w : WarmSession lib policy x bigM R) : StoredModel Exact := w.session.solver

abbrev context (w : WarmSession lib policy x bigM R) : EncodingContext Exact VarId :=
  w.session.context

/-- The variable has the value in the session. -/
abbrev Carries (w : WarmSession lib policy x bigM R) (y : Encoded Exact VarId) (q : Rat) : Prop :=
  y.Carries R w.model.vars.size w.value q

/-- The formula is not encoded at the index. -/
def Free (w : WarmSession lib policy x bigM R) (f : Formula Exact) (t : Nat) : Prop :=
  w.context.encoded? f t = none

/-- A run may have added variables, and may have remembered nodes of formulas smaller than `n`. -/
structure Tidy (n : Nat) (w v : WarmSession lib policy x bigM R) : Prop where
  settings_eq : v.context.settings = w.context.settings
  bindings_eq : v.context.bindings = w.context.bindings
  size_le : w.model.vars.size ≤ v.model.vars.size
  value_eq (u : VarId) : u.index < w.model.vars.size → v.value u = w.value u
  free {f : Formula Exact} (t : Nat) : f ∈ lib.formulas → n ≤ sizeOf f → w.Free f t → v.Free f t

namespace Tidy

variable {n : Nat} {u v w : WarmSession lib policy x bigM R}

theorem refl (w : WarmSession lib policy x bigM R) : Tidy n w w where
  settings_eq := rfl
  bindings_eq := rfl
  size_le := Nat.le_refl _
  value_eq _ _ := rfl
  free _ _ _ h := h

theorem trans (h : Tidy n u v) (k : Tidy n v w) : Tidy n u w where
  settings_eq := k.settings_eq.trans h.settings_eq
  bindings_eq := k.bindings_eq.trans h.bindings_eq
  size_le := h.size_le.trans k.size_le
  value_eq a ha := (k.value_eq a (ha.trans_le h.size_le)).trans (h.value_eq a ha)
  free t hf hn hfree := k.free t hf hn (h.free t hf hn hfree)

theorem widen {n' : Nat} (h : Tidy n w v) (hle : n ≤ n') : Tidy n' w v :=
  { h with free := fun t hf hn => h.free t hf (hle.trans hn) }

theorem carries (h : Tidy n w v) {y : Encoded Exact VarId} {q : Rat} (hy : w.Carries y q) :
    v.Carries y q :=
  hy.mono h.size_le h.value_eq

end Tidy

/-- Encodings of formulas smaller than `n`, followed through warm sessions. -/
def logic (lib : FormulaLibrary Exact) (policy : WindowPolicy) (x : Trajectory Exact)
    (bigM : BigM Exact) (R : Bounds Exact → Rat → Prop) (n : Nat) (fails : Prop) :
    RunLogic StoredSession (WarmSession lib policy x bigM R) where
  state := session
  later := Tidy n
  tidy := Tidy n
  fails := fails
  tidy_refl := .refl
  tidy_trans := .trans
  later_of_tidy := id
  later_trans := .trans

/-! ## Next sessions -/

/-- A step has given a variable the value `q`. Of continuous variables it has added at most this
one, with the role and the start value as given. -/
structure Step (w : WarmSession lib policy x bigM R) (role : VariableRole) (t : Nat)
    (start : Option Exact) (s' : StoredSession) (y : Encoded Exact VarId) (q : Rat) : Prop where
  agrees : w.context.Agrees s'.context
  limit_eq : s'.solver.variableLimit = none
  exists_value : ∃ p, s'.solver.Primed p ∧
    (∀ v : VarId, v.index < w.model.vars.size → p v = w.value v) ∧
    y.Carries R s'.solver.vars.size p q
  exists_new : ∃ new, s'.solver.vars.toList = w.model.vars.toList ++ new ∧
    ∀ i var, new[i]? = some var → var.kind = .continuous →
      y.var.index = w.model.vars.size + i ∧ var.start = start ∧
        ∃ n, var.name = EncodingContext.labelText w.context.settings.labelStem role n t

section Next

variable {w : WarmSession lib policy x bigM R} {role : VariableRole} {t n : Nat}
  {start : Option Exact} {s' : StoredSession} {y : Encoded Exact VarId} {q : Rat}

/-- A warm session after a step, with what the step has added to the memo. -/
theorem Step.exists_next (h : w.Step role t start s' y q) {s'' : StoredSession}
    (hsolver : s''.solver = s'.solver) (hsettings : s''.context.settings = s'.context.settings)
    (hbindings : s''.context.bindings = s'.context.bindings)
    (hmemo : w.context.MemoGrows s''.context)
    (hremembered : ∀ p, y.Carries R s'.solver.vars.size p q → ∀ (site : Site) entry,
      s''.context.memo[site]? = some entry → w.context.memo[site]? = some entry ∨
        entry.Scored lib policy x R s'.solver.vars.size p site)
    (hnew : ∀ var : Variable Exact, var.start = start →
      (∃ n, var.name = EncodingContext.labelText w.context.settings.labelStem role n t) →
      s''.Accounts y.var var)
    (hfree : ∀ {f : Formula Exact} (u : Nat), f ∈ lib.formulas → n ≤ sizeOf f → w.Free f u →
      s''.context.encoded? f u = none) :
    ∃ v : WarmSession lib policy x bigM R, v.session = s'' ∧ Tidy n w v ∧ v.Carries y q := by
  obtain ⟨hagrees, hlimit, ⟨p, hprimed, hvalue, hcarries⟩, new, hvars, hkinds⟩ := h
  have hsize : w.model.vars.size ≤ s''.solver.vars.size := by
    rw [hsolver, StoredModel.size_of_added hvars]
    exact Nat.le_add_right _ _
  have hsettings' := hsettings.trans hagrees.settings_eq
  have hbindings' := hbindings.trans hagrees.bindings_eq
  rw [← hsolver] at hlimit hprimed hcarries hvars hremembered
  refine ⟨{
    session := s''
    value := p
    serves := w.serves.congr hsettings' hbindings'
    bigM_eq := (congrArg EncodingSettings.bigM hsettings').trans w.bigM_eq
    limit_eq := hlimit
    bound := fun sample v hv => ?_
    primed := hprimed
    remembered := fun site entry hentry => ?_
    accounted := fun v var hv hkind => ?_ }, rfl,
    ⟨hsettings', hbindings', hsize, hvalue, hfree⟩, hcarries⟩
  · obtain ⟨hknown, hsample⟩ := w.bound sample v (hbindings' ▸ hv)
    exact ⟨hknown.trans_le hsize, (hvalue v hknown).symm ▸ hsample⟩
  · rcases hremembered p hcarries site entry hentry with hold | hscored
    · obtain ⟨hlib, hid, tree, r, htree, hr, hentryCarries⟩ := w.remembered site entry hold
      exact ⟨hlib, hid, tree, r, htree, hr, hentryCarries.mono hsize hvalue⟩
    · exact hscored
  · rw [StoredModel.lookup?_of_added hvars] at hv
    split at hv
    · exact (w.accounted v var hv hkind).mono hsettings' hbindings' hmemo
    · next hge =>
      obtain ⟨hindex, hstart, hname⟩ := hkinds _ var hv hkind
      have hy : y.var = v := by
        obtain ⟨i⟩ := v
        obtain ⟨⟨j⟩, _⟩ := y
        simp only [VarId.mk.injEq] at hge hindex ⊢
        omega
      exact hy ▸ hnew var hstart hname

/-- A variable for an operand within an until belongs to no node. -/
theorem Step.exists_operand (h : w.Step role t start s' y q)
    (hrole : role = .untilBefore ∨ role = .untilTerm) :
    ∃ v : WarmSession lib policy x bigM R, v.session = s' ∧ Tidy n w v ∧ v.Carries y q := by
  refine h.exists_next rfl rfl rfl (fun _ _ hentry => h.agrees.memo_eq ▸ hentry)
    (fun _ _ _ _ hentry => .inl (h.agrees.memo_eq ▸ hentry)) ?_ ?_
  · intro var _ ⟨n, hname⟩
    rw [Session.Accounts, hname, h.agrees.settings_eq]
    exact .inr (.inl (untilOperand_labelText_iff.mpr hrole))
  · intro f u _ _ hfree
    unfold Free at hfree
    rwa [EncodingContext.encoded?, h.agrees.memo_eq]

/-- A node is remembered with the variable that has its score. -/
theorem Step.exists_remembered {f : Formula Exact} {tree : ScoreTree Exact} {a : Exact}
    (h : w.Step role t (some a) s' y q) (hf : f ∈ lib.formulas) (hn : sizeOf f < n)
    (hfree : w.Free f t) (htree : f.ScoredBy policy x t tree) (hscore : tree.score = .fin q) :
    ∃ v : WarmSession lib policy x bigM R, v.session = Ledger.remembering s' f t y ∧
      Tidy n w v ∧ v.Carries y q := by
  have hmemo (site : Site) : (Ledger.remembering s' f t y).context.memo[site]? =
      if f.site t = site then some ⟨f, y⟩ else w.context.memo[site]? := by
    rw [Ledger.remembering, EncodingContext.getElem?_remember, h.agrees.memo_eq]
  have hnone : w.context.memo[f.site t]? = none := by
    simpa [Free, EncodingContext.encoded?] using hfree
  refine h.exists_next rfl rfl rfl ?_ ?_ ?_ ?_
  · intro site entry hentry
    rw [hmemo, if_neg]
    · exact hentry
    · rintro rfl
      rw [hnone] at hentry
      cases hentry
  · intro p hcarries site entry hentry
    rw [hmemo] at hentry
    split at hentry
    · next hsite =>
      obtain rfl := Option.some.inj hentry
      subst hsite
      exact .inr ⟨hf, rfl, tree, q, htree, hscore, hcarries⟩
    · exact .inl hentry
  · intro var hstart _
    exact .inr (.inr ⟨⟨a, hstart⟩, f.site t, ⟨f, y⟩, by rw [hmemo, if_pos rfl], rfl⟩)
  · intro g u hg hsize hgfree
    have hne : f.site t ≠ g.site u := by
      intro hsite
      have hfg := lib.unique f hf g hg (congrArg Site.node hsite)
      rw [hfg] at hn
      omega
    simpa [EncodingContext.encoded?, hmemo, hne, Free] using hgfree

/-- A warm session in which only labels and counts have changed. -/
theorem exists_relabelled (w : WarmSession lib policy x bigM R)
    (hagrees : w.context.Agrees s'.context) (hsolver : s'.solver = w.model) :
    ∃ v : WarmSession lib policy x bigM R, v.session = s' ∧ Tidy n w v ∧
      ∀ y q, w.Carries y q → v.Carries y q := by
  obtain ⟨solver, context⟩ := s'
  obtain rfl : solver = w.model := hsolver
  obtain ⟨hsettings, hbindings, hmemo⟩ := hagrees
  refine ⟨{
    session := ⟨w.model, context⟩
    value := w.value
    serves := w.serves.congr hsettings hbindings
    bigM_eq := (congrArg EncodingSettings.bigM hsettings).trans w.bigM_eq
    limit_eq := w.limit_eq
    bound := fun sample v hv => w.bound sample v (hbindings ▸ hv)
    primed := w.primed
    remembered := fun site entry hentry => w.remembered site entry (hmemo ▸ hentry)
    accounted := fun v var hv hkind => (w.accounted v var hv hkind).mono hsettings hbindings
      fun site entry hentry => hmemo ▸ hentry }, rfl,
    ⟨hsettings, hbindings, Nat.le_refl _, fun _ _ => rfl, fun {f} u _ _ hfree => ?_⟩,
    fun _ _ hy => hy⟩
  unfold Free at hfree ⊢
  rwa [EncodingContext.encoded?, hmemo]

/-- A step that adds nothing. -/
theorem step_of_carries (h : w.Carries y q) (hagrees : w.context.Agrees s'.context)
    (hsolver : s'.solver = w.model) : w.Step role t start s' y q := by
  refine ⟨hagrees, hsolver ▸ w.limit_eq, ⟨w.value, ?_, fun _ _ => rfl, ?_⟩, [], ?_, by simp⟩
  · rw [hsolver]
    exact w.primed
  · rw [hsolver]
    exact h
  · rw [hsolver, List.append_nil]

end Next

/-! ## Steps -/

section Steps

variable {w : WarmSession lib policy x bigM R} {role : VariableRole} {t n : Nat} {fails : Prop}
  {start : Option (ScoreTree Exact)} {s' : StoredSession}

/-- A step that adds a gate, if the result starts from its value, and the selectors from theirs. -/
theorem step_of_gains (hsuits : bigM.Suits R) {g : Gate} {others : List (Variable Exact)}
    (h : w.session.Gains s' g) (hformed : g.Formed bigM)
    (hindex : g.output.var.index = w.model.vars.size)
    (hoperands : ∀ y ∈ g.operands, ∃ q, w.Carries y q)
    (hsources : ∀ v ∈ g.sources, v.index < w.model.vars.size)
    (hsignal : ∀ source t terms constant y, g = .signal source t terms constant y →
      R source.bounds (weigh w.value terms + constant.toRat))
    (hvars : s'.solver.vars.toList = w.model.vars.toList ++
      w.session.labelled role t g.output.bounds start :: others)
    (hothers : ∀ i (var : Variable Exact), others[i]? = some var → var.kind = .binary ∧
      ∀ a, var.start = some a → a = .fin (if i = g.attained w.value then 0 else 1))
    (hstart : ∀ tree, start = some tree → tree.score = .fin (g.result w.value)) :
    w.Step role t (start.map ScoreTree.score) s' g.output (g.result w.value) := by
  obtain ⟨hagrees, hextends⟩ := h
  have hgrown := hextends
  obtain ⟨constraints, -, hgrows⟩ := hgrown
  have hcount : others.length + 1 = g.shapes.length := by
    have hsize := (StoredModel.size_of_added hvars).symm.trans hgrows.size_eq
    exact Nat.add_left_cancel hsize
  have hstarts : ∀ i (var : Variable Exact) a,
      (w.session.labelled role t g.output.bounds start :: others)[i]? = some var →
      var.start = some a → a = .fin (g.settle w.value ⟨w.model.vars.size + i⟩) := by
    intro i var a hvar ha
    rw [← hindex]
    cases i with
    | zero =>
      cases hvar
      obtain ⟨tree, htree, rfl⟩ := Option.map_eq_some_iff.mp ha
      rw [hstart tree htree]
      exact congrArg Exact.fin Gate.settle_output.symm
    | succ i =>
      rw [List.getElem?_cons_succ] at hvar
      have hi := (List.getElem?_eq_some_iff.mp hvar).1
      rw [(hothers i var hvar).2 a ha, show g.output.var.index + (i + 1) =
        g.output.var.index + 1 + i by omega, Gate.settle_selector (by omega)]
  obtain ⟨hprimed, hrange⟩ := w.primed.settle hsuits hextends hformed hindex
    (fun y hy => (hoperands y hy).elim fun q h => ⟨h.known, h.value_eq.symm ▸ h.ranges⟩) hsources
    hsignal hvars hstarts
  refine ⟨hagrees, hgrows.variableLimit_eq.trans w.limit_eq, ⟨g.settle w.value, hprimed,
    fun v hv => Gate.settle_of_not_adds fun hadds => ?_, ?_, Gate.settle_output, hrange⟩, _, hvars,
    fun i var hvar hkind => ?_⟩
  · have := hadds.1
    omega
  · have hlast := g.adds_output.2
    rw [hgrows.size_eq, hindex]
    exact Nat.lt_add_of_pos_right (by omega)
  · cases i with
    | zero =>
      cases hvar
      exact ⟨hindex, rfl, _, rfl⟩
    | succ i =>
      rw [(hothers i var hvar).1] at hkind
      cases hkind

/-- The run of the computation is a step that gives its result the value, or it fails before it has
added anything. -/
def Steps (w : WarmSession lib policy x bigM R) (fails : Prop) (role : VariableRole) (t : Nat)
    (start : Option (ScoreTree Exact))
    (act : Encode Exact VarId (StoredModel Exact) (Encoded Exact VarId)) (q : Rat) : Prop :=
  (∃ y s', act w.session = (.ok y, s') ∧ w.Step role t (start.map ScoreTree.score) s' y q) ∨
    fails ∧ ∃ fault s', act w.session = (.error fault, s') ∧ w.context.Agrees s'.context ∧
      s'.solver = w.model

theorem follows (w : WarmSession lib policy x bigM R) : w.context.Follows x w.value where
  length_eq := w.serves.horizon_eq.symm
  spacing_eq := w.serves.spacing_eq.symm
  value_eq sample v hv _ := (w.bound sample v hv).2

/-- The value of a signal over rationals is a rational, as are the samples. -/
theorem exists_signalValue_eq (w : WarmSession lib policy x bigM R) {source : Signal Exact}
    {a : Exact} (hform : source.form.Rational) (h : x.signalValue source t = .ok a) :
    ∃ q, a = .fin q := by
  have haffine : ∃ part, source.form.affinePart = .ok part :=
    hform.elim fun _ ⟨_, hpart, _⟩ => ⟨_, hpart⟩
  obtain ⟨value, hvalue⟩ := (w.serves.linearForm_iff source t).mpr ⟨haffine, a, h⟩
  have hreads := EncodingContext.reads_of_linearForm hvalue
  obtain ⟨hterms, hconstant⟩ := hreads.finite hform
  exact ⟨_, Except.ok.inj (h.symm.trans (hreads.signalValue_eq w.follows hterms hconstant))⟩

theorem signal_steps (hsuits : bigM.Suits R) {source : Signal Exact}
    (hform : source.form.Rational) {value : LinearExpr Exact VarId}
    (hvalue : w.context.linearForm source t = .ok value) {q : Rat}
    (hq : x.signalValue source t = .ok (.fin q)) (hrange : R source.bounds q)
    (hstart : ∀ tree, start = some tree → tree.score = .fin q) :
    w.Steps fails .predicate t start
      (Encode.equalTo StoredModel.solver .predicate t source.bounds start value) q := by
  have hreads := EncodingContext.reads_of_linearForm hvalue
  obtain ⟨hterms, hconstant⟩ := hreads.finite hform
  have hknown : ∀ term ∈ value.terms, term.2.index < w.model.vars.size := by
    intro term hterm
    obtain ⟨-, _, _, -, -, hresolves⟩ := hreads
    obtain ⟨input, -, -, -, hbound⟩ := (exists_of_forall₂ hresolves).2 term hterm
    exact (w.bound _ _ hbound).1
  have hweigh : weigh w.value value.terms + value.constant.toRat = q := by
    have h := hreads.signalValue_eq w.follows hterms hconstant
    exact Exact.fin.inj (Except.ok.inj (h.symm.trans hq))
  obtain ⟨c, s', hrun, hagrees, hstores, hgrows, hvars⟩ :=
    equalTo_run .predicate t start w.limit_eq (hsuits.contains hrange).lower_le_upper
      (fun term hterm => ⟨hterms term hterm, hknown term hterm⟩) hconstant
  let g : Gate := .signal source t value.terms value.constant ⟨w.model.vars.size⟩
  have hresult : g.result w.value = q := hweigh
  have hstep : w.Step .predicate t (start.map ScoreTree.score) s' g.output (g.result w.value) := by
    refine step_of_gains hsuits ⟨hagrees, [c], .cons hstores .nil, hgrows⟩ trivial rfl
      (by simp [g, Gate.operands]) (fun v hv => ?_) ?_ hvars (by simp) (hresult.symm ▸ hstart)
    · obtain ⟨term, hterm, rfl⟩ := List.mem_map.mp hv
      exact hknown term hterm
    · intro source' t' terms' constant' y' hg
      obtain ⟨rfl, rfl, rfl, rfl, rfl⟩ := Gate.signal.inj hg
      exact hweigh.symm ▸ hrange
  exact .inl ⟨_, s', hrun, hresult ▸ hstep⟩

theorem negation_steps (hsuits : bigM.Suits R) {y : Encoded Exact VarId} {q : Rat}
    (hy : w.Carries y q) (hstart : ∀ tree, start = some tree → tree.score = .fin (-q)) :
    w.Steps fails .not t start (Encode.negation StoredModel.solver t start y) (-q) := by
  have hbounds := (hsuits.contains (hsuits.negate hy.ranges)).lower_le_upper
  obtain ⟨c, s', hrun, hagrees, hstores, hgrows, hvars⟩ :=
    equalTo_run .not t start w.limit_eq hbounds
      (show ∀ term ∈ (LinearExpr.term (-1) y.var).terms, _ by
        simpa [LinearExpr.term] using hy.known) (by simp [LinearExpr.term])
  let g : Gate := .negation y ⟨w.model.vars.size⟩
  have hresult : g.result w.value = -q := congrArg Neg.neg hy.value_eq
  have hstep : w.Step .not t (start.map ScoreTree.score) s' g.output (g.result w.value) := by
    refine step_of_gains hsuits ⟨hagrees, [c], .cons hstores .nil, hgrows⟩ trivial rfl
      (fun z hz => ?_) (by simp [g, Gate.sources]) (by simp [g]) hvars (by simp)
      (hresult.symm ▸ hstart)
    exact ⟨q, List.mem_singleton.mp hz ▸ hy⟩
  exact .inl ⟨_, s', hrun, hresult ▸ hstep⟩

theorem values_of_carries {ys : List (Encoded Exact VarId)} {qs : List Rat}
    (hys : List.Forall₂ w.Carries ys qs) : ys.map (fun y => w.value y.var) = qs := by
  induction hys with
  | nil => rfl
  | cons hy _ ih => rw [List.map_cons, hy.value_eq, ih]

/-- A group is a step that gives its result the extreme of the operands. If it starts from a score,
it starts from this one, and its selectors from the position at which this is first attained. -/
theorem group_steps (hserves : bigM.Serves R fails) (e : Extremum)
    {ys : List (Encoded Exact VarId)} {qs : List Rat} (hys : List.Forall₂ w.Carries ys qs)
    (hne : ys ≠ []) (hstart : ∀ tree, start = some tree → tree.score = .fin (e.pick qs) ∧
      tree.chosen = some (qs.idxOf (e.pick qs))) :
    w.Steps fails role t start (Encode.group StoredModel.solver e role t start ys)
      (e.pick qs) := by
  rcases Nat.lt_or_ge ys.length 2 with hshort | htwo
  · match ys, hys with
    | [], _ => exact absurd rfl hne
    | [y], .cons hy .nil =>
      obtain ⟨s', hrun, hagrees, hsolver⟩ := group_single e role t start y
      exact .inl ⟨y, s', hrun, step_of_carries hy hagrees hsolver⟩
  have hvalues := values_of_carries hys
  have hranges : List.Forall₂ R (ys.map Encoded.bounds) qs :=
    List.forall₂_map_left_iff.mpr (hys.imp fun _ _ h => h.ranges)
  have hbigM := w.bigM_eq
  cases hm : bigM.resolve (ys.map Encoded.bounds) with
  | error fault =>
    obtain ⟨s', hrun, hagrees, hsolver⟩ :=
      group_refused e role t start htwo (hbigM.symm ▸ hm)
    refine .inr ⟨hserves.resolves.resolve_right fun h => ?_, fault, s', hrun, hagrees, hsolver⟩
    obtain ⟨m, hm'⟩ := h _ _ (by simpa using hne) hranges
    rw [hm] at hm'
    cases hm'
  | ok m =>
    have hfinite := hserves.finite hm
    have hoperand : ∀ y ∈ ys, ∃ q, w.Carries y q := fun y hy =>
      ((exists_of_forall₂ hys).1 y hy).imp fun _ h => h.2
    obtain ⟨label, s', hrun, hgains, hvars⟩ := group_run e role t start htwo w.limit_eq
      (fun y hy => (hoperand y hy).elim fun q h =>
        ⟨h.known, (hserves.contains h.ranges).lower_le_upper⟩) (hbigM.symm ▸ hm) hfinite
    let g : Gate := .extreme e m ys ⟨w.model.vars.size⟩
      ((List.range' (w.model.vars.size + 1) ys.length).map VarId.mk)
    have hresult : g.result w.value = e.pick qs := congrArg e.pick hvalues
    have hattained : g.attained w.value = qs.idxOf (e.pick qs) := by
      show (ys.map fun y => w.value y.var).idxOf (g.result w.value) = _
      rw [hresult, hvalues]
    have hstep : w.Step role t (start.map ScoreTree.score) s' g.output (g.result w.value) := by
      refine step_of_gains hserves.toSuits hgains ⟨htwo, rfl, hm, hfinite⟩ rfl hoperand
        (by simp [g, Gate.sources]) (by simp [g]) hvars (fun i var hvar => ?_)
        (hresult.symm ▸ fun tree htree => (hstart tree htree).1)
      obtain ⟨hkind, hselector⟩ := Extremum.getElem?_selectors hvar
      refine ⟨hkind, fun a ha => ?_⟩
      cases start with
      | none => rw [hselector] at ha; cases ha
      | some tree =>
        rw [hselector, Option.bind_some, (hstart tree rfl).2, Nat.zero_add] at ha
        rw [hattained, ← Option.some.inj ha]
        exact (apply_ite Exact.fin _ _ _).symm
    exact .inl ⟨_, s', hrun, hresult ▸ hstep⟩

end Steps

end WarmSession

end SignalTemporalLogic
