import SignalTemporalLogic.Proofs.Elections

/-!
Values that a check accepts, where these may be infinite. Ranges and inequalities admit infinite
values, as infinite sums compare like any others. A model of gates over fixed samples does not: some
constraint of each gate limits its result from above and some constraint from below, by variables
that come before.
-/

namespace SignalTemporalLogic

namespace Exact

def Infinite (x : Exact) : Prop := x = posInf ∨ x = negInf

variable {x : Exact} {a b : Rat}

theorem add_fin_add_fin : x + fin a + fin b = x + fin (a + b) := by
  cases x with
  | fin q => simp only [fin_add_fin, add_assoc]
  | nan | negInf | posInf => rfl

theorem fin_one_mul : fin 1 * x = x := by
  cases x with
  | fin q => exact congrArg fin (one_mul q)
  | nan => rfl
  | negInf | posInf => decide +kernel

theorem Infinite.fin_add (h : x.Infinite) : fin a + x = x := by
  rcases h with rfl | rfl <;> rfl

theorem Infinite.add_fin (h : x.Infinite) : x + fin a = x := by
  rcases h with rfl | rfl <;> rfl

end Exact

section Sums

variable {values : Array Exact} {terms : List (Exact × VarId)} {c : Constraint Exact}
  {y : VarId}

/-- Finite summands add up to a rational. -/
theorem exists_foldl_eq (h : ∀ t ∈ terms, Scalar.IsFinite t.1 ∧
      Scalar.IsFinite (values.getD t.2.index 0)) (first : Exact) :
    ∃ q, terms.foldl (fun sum (a, v) => sum + a * values.getD v.index 0) first =
      first + .fin q := by
  induction terms generalizing first with
  | nil => exact ⟨0, (Exact.add_fin_zero first).symm⟩
  | cons head rest ih =>
    obtain ⟨a, v⟩ := head
    obtain ⟨⟨hcoefficient, hvalue⟩, hrest⟩ := List.forall_mem_cons.mp h
    obtain ⟨a, rfl⟩ := Exact.isFinite_iff.mp hcoefficient
    obtain ⟨b, hb⟩ := Exact.isFinite_iff.mp hvalue
    obtain ⟨q, hq⟩ := ih hrest (first + .fin a * values.getD v.index 0)
    refine ⟨a * b + q, ?_⟩
    rw [List.foldl_cons, hq, hb, Exact.fin_mul_fin, Exact.add_fin_add_fin]

/-- A sum with one infinite summand is infinite. -/
theorem Constraint.sumAt_eq_of_infinite {count : Nat} (hnormal : c.Normal count)
    (hmem : (.fin 1, y) ∈ c.terms)
    (hothers : ∀ t ∈ c.terms, t.2 ≠ y → Scalar.IsFinite (values.getD t.2.index 0))
    (hinfinite : (values.getD y.index 0).Infinite) : c.sumAt values = values.getD y.index 0 := by
  obtain ⟨before, after, hterms⟩ := List.append_of_mem hmem
  have hapart := (hterms ▸ hnormal.toNormalTerms).ne_of_append
  have hfinite : ∀ t ∈ before ++ after, Scalar.IsFinite t.1 ∧
      Scalar.IsFinite (values.getD t.2.index 0) := by
    intro t ht
    have hmem : t ∈ c.terms := by
      rw [hterms]
      rcases List.mem_append.mp ht with ht | ht
      · exact List.mem_append_left _ ht
      · exact List.mem_append_right _ (List.mem_cons_of_mem _ ht)
    exact ⟨hnormal.finite t hmem, hothers t hmem (hapart t ht)⟩
  obtain ⟨hbefore, hafter⟩ := List.forall_mem_append.mp hfinite
  obtain ⟨a, ha⟩ := exists_foldl_eq hbefore 0
  obtain ⟨b, hb⟩ := exists_foldl_eq hafter (0 + .fin a + .fin 1 * values.getD y.index 0)
  have hzero : (0 : Exact) + .fin a = .fin a := congrArg Exact.fin (zero_add a)
  rw [Constraint.sumAt, hterms, List.foldl_append, List.foldl_cons, ha, hb, Exact.fin_one_mul,
    hzero, hinfinite.fin_add, hinfinite.add_fin]

/-- An infinite sum is not limited from its own side. -/
theorem Constraint.relation_of_infinite {count : Nat} (hnormal : c.Normal count)
    (hholds : c.holdsAt (.fin 0) values = true) :
    (c.sumAt values = .posInf → c.relation = .greaterEqual) ∧
      (c.sumAt values = .negInf → c.relation = .lessEqual) := by
  obtain ⟨q, hq⟩ := Exact.isFinite_iff.mp hnormal.finite_rhs
  have hslack : Exact.fin 0 * (1 + Scalar.abs (.fin q)) = .fin 0 := by
    rw [Exact.abs_fin]
    exact congrArg Exact.fin (zero_mul _)
  simp only [Constraint.holdsAt, hq, hslack] at hholds
  constructor <;> intro hsum <;> rw [hsum] at hholds
  · cases hrelation : c.relation with
    | greaterEqual => rfl
    | lessEqual | equal => rw [hrelation] at hholds; exact False.elim (of_decide_eq_true hholds)
  · cases hrelation : c.relation with
    | lessEqual => rfl
    | greaterEqual | equal => rw [hrelation] at hholds; exact False.elim (of_decide_eq_true hholds)

end Sums

/-! ## Ranges -/

section Ranges

variable {var : Variable Exact} {x : Exact}

theorem Variable.ne_nan_of_admits (h : var.admits (.fin 0) x = true) : x ≠ .nan := by
  rintro rfl
  simp only [admits, Bool.and_eq_true, decide_eq_true_eq] at h
  cases hlower : var.bounds.lower - .fin 0 <;> rw [hlower] at h <;> exact h.1.1

/-- A finite range admits only finite values. -/
theorem Variable.isFinite_of_admits (h : var.admits (.fin 0) x = true) {lo hi : Rat}
    (hbounds : var.bounds = ⟨.fin lo, .fin hi⟩) : Scalar.IsFinite x := by
  simp only [admits, hbounds, Bool.and_eq_true, decide_eq_true_eq] at h
  cases x with
  | fin q => exact Exact.isFinite_fin
  | nan | negInf => exact False.elim h.1.1
  | posInf => exact False.elim h.1.2

end Ranges

/-! ## Gates -/

namespace Gate

/-- Of either inequality, a gate has a constraint on its result that says something else. -/
theorem exists_limit {bigM : BigM Exact} {g : Gate} (hformed : g.Formed bigM) {relation : Relation}
    (hrelation : relation ≠ .equal) :
    ∃ s ∈ g.statements, s.lhs = .ofVar g.output.var ∧ s.relation ≠ relation ∧
      ∀ t ∈ s.rhs.terms, g.Consults t.2 := by
  cases g with
  | signal source t terms constant y =>
    exact ⟨_, List.mem_singleton_self _, rfl, hrelation.symm,
      fun t ht => .inl (List.mem_map_of_mem ht)⟩
  | negation operand y =>
    refine ⟨_, List.mem_singleton_self _, rfl, hrelation.symm, fun t ht => ?_⟩
    rw [List.mem_singleton.mp ht]
    exact .inr (.inl ⟨operand, List.mem_singleton_self _, rfl⟩)
  | extreme e m inputs r selectors =>
    obtain ⟨hcount, hselectors, -, -⟩ := id hformed
    have hd : (⟨r.index + 1⟩ : VarId) ∈ selectors := by
      rw [hselectors]
      exact List.mem_map_of_mem (List.mem_range'_1.mpr ⟨le_refl _, by omega⟩)
    obtain ⟨x, hx, hpair⟩ := (exists_pair hformed).1 _ hd
    have hconsults : ∀ v ∈ [x.var, ⟨r.index + 1⟩],
        (extreme e m inputs r selectors).Consults v := fun v hv => by
      rcases List.mem_pair.mp hv with rfl | rfl
      · exact .inr (.inl ⟨x, hx, rfl⟩)
      · exact .inr (.inr hd)
    have hmem : ∀ s ∈ pairStatements e m r x.var ⟨r.index + 1⟩,
        s ∈ (extreme e m inputs r selectors).statements := fun s hs =>
      List.mem_append_left _ (List.mem_flatMap.mpr ⟨_, hpair, hs⟩)
    by_cases hbound : e.bound = relation
    · refine ⟨_, hmem _ (List.mem_cons_of_mem _ List.mem_cons_self), rfl, ?_, fun t ht =>
        hconsults _ (List.mem_map_of_mem ht)⟩
      rw [← hbound]
      cases e <;> nofun
    · refine ⟨_, hmem _ List.mem_cons_self, rfl, hbound, fun t ht => ?_⟩
      rw [List.mem_singleton.mp ht]
      exact hconsults _ List.mem_cons_self

end Gate

namespace StoredModel

variable {m : StoredModel Exact} {bigM : BigM Exact} {gates : List Gate} {g : Gate}
  {values : Array Exact}

/-- The constraints on the result of a gate limit it from both sides. -/
theorem Wired.exists_limit (h : m.Wired bigM gates) (hg : g ∈ gates) (relation : Relation)
    (hrelation : relation ≠ .equal) :
    ∃ c ∈ m.constraints, c.relation ≠ relation ∧ (.fin 1, g.output.var) ∈ c.terms ∧
      ∀ t ∈ c.terms, t.2 ≠ g.output.var → g.Consults t.2 := by
  obtain ⟨s, hs, hlhs, hother, hrhs⟩ := Gate.exists_limit (h.laid.formed g hg) hrelation
  obtain ⟨c, hc, hstored⟩ := (exists_of_forall₂ h.stored).1 s (List.mem_flatMap.mpr ⟨g, hg, hs⟩)
  refine ⟨c, Array.mem_toList_iff.mp hc, hstored.relation_eq.symm ▸ hother,
    hstored.mem_terms hlhs fun t ht => h.laid.ne_output_of_consults hg (hrhs t ht),
    fun t ht hne => ?_⟩
  obtain ⟨u, hu, he⟩ := hstored.exists_term ht
  exact he ▸ (Gate.consults_of_statement hs hu).resolve_left (he.symm ▸ hne)

section Accepted

variable (h : m.Wired bigM gates) (hcheck : m.check values = true)

include h hcheck

/-- A result is finite if the gate consults finite values only. -/
theorem Wired.isFinite_output (hg : g ∈ gates)
    (hconsults : ∀ v, g.Consults v → Scalar.IsFinite (values.getD v.index 0)) :
    Scalar.IsFinite (values.getD g.output.var.index 0) := by
  obtain ⟨-, hadmits, hholds⟩ := check_eq_true hcheck
  rw [h.tolerance_eq] at hadmits hholds
  have hsum : (values.getD g.output.var.index 0).Infinite → ∀ relation : Relation,
      relation ≠ .equal → ∃ c ∈ m.constraints, c.relation ≠ relation ∧
        c.sumAt values = values.getD g.output.var.index 0 := by
    intro hinfinite relation hrelation
    obtain ⟨c, hc, hother, hmem, hterms⟩ := h.exists_limit hg relation hrelation
    exact ⟨c, hc, hother, Constraint.sumAt_eq_of_infinite (h.normal c hc) hmem
      (fun t ht hne => hconsults _ (hterms t ht hne)) hinfinite⟩
  cases hvalue : values.getD g.output.var.index 0 with
  | fin q => exact Exact.isFinite_fin
  | nan =>
    obtain ⟨c, hc, -, hmem, -⟩ := h.exists_limit hg .lessEqual nofun
    exact absurd hvalue
      (Variable.ne_nan_of_admits (hadmits _ ((h.normal c hc).known _ hmem)))
  | posInf =>
    obtain ⟨c, hc, hother, hsum⟩ := hsum (.inl hvalue) .greaterEqual nofun
    exact absurd ((Constraint.relation_of_infinite (h.normal c hc) (hholds c hc)).1
      (hsum.trans hvalue)) hother
  | negInf =>
    obtain ⟨c, hc, hother, hsum⟩ := hsum (.inr hvalue) .lessEqual nofun
    exact absurd ((Constraint.relation_of_infinite (h.normal c hc) (hholds c hc)).2
      (hsum.trans hvalue)) hother

theorem Wired.isFinite_switch (hg : g ∈ gates) {d : VarId} (hd : d ∈ g.switches) :
    Scalar.IsFinite (values.getD d.index 0) := by
  obtain ⟨-, hadmits, -⟩ := check_eq_true hcheck
  have hlt := lt_of_shape (h.selector g hg d hd)
  exact Variable.isFinite_of_admits (h.tolerance_eq ▸ hadmits _ hlt)
    (bounds_eq_of_shape hlt (h.selector g hg d hd))

/-- **Results are finite over finite samples**, gate after gate. -/
theorem Wired.isFinite_outputs
    (hsources : ∀ g ∈ gates, ∀ v ∈ g.sources, Scalar.IsFinite (values.getD v.index 0)) :
    ∀ g ∈ gates, Scalar.IsFinite (values.getD g.output.var.index 0) := by
  intro g hg
  induction hindex : g.output.var.index using Nat.strong_induction_on generalizing g with
  | _ i ih =>
    subst hindex
    refine h.isFinite_output hcheck hg fun v hv => ?_
    rcases hv with hv | ⟨x, hx, rfl⟩ | hv
    · exact hsources g hg v hv
    · obtain ⟨hlt, g', hg', rfl⟩ := h.laid.operands g hg x hx
      exact ih _ hlt g' hg' rfl
    · exact h.isFinite_switch hcheck hg hv

end Accepted

end StoredModel

namespace Ledger.Pinned

variable {lib : FormulaLibrary Exact} {l : Ledger lib} {own : List VarId}

/-- The model of a ledger over fixed samples consists of its gates. -/
theorem wired (h : l.Pinned own) : l.model.Wired l.context.settings.bigM l.gates where
  tolerance_eq := l.tolerance_eq
  normal := l.normal
  laid := h.laid
  stored := h.stored
  selector _ hg _ hd := l.shape_of_switch hg hd
  binary v hbinary := by
    obtain ⟨shape, hshape, hkind⟩ := StoredModel.isBinary_iff.mp hbinary
    have hreal : ∀ bounds, l.model.shapes[v.index]? ≠ some (.real bounds) := fun bounds h => by
      obtain rfl := Option.some.inj (hshape.symm.trans h)
      cases hkind
    rcases h.variable_cases (StoredModel.lt_of_shape hshape) with hv | ⟨g, hg, rfl | hd⟩
    · exact absurd (h.fixed v hv).choose_spec (hreal _)
    · exact absurd (l.shape_of_output hg) (hreal _)
    · exact ⟨g, hg, hd⟩
  known _ hg v hv := h.owned.known v (h.own_of_source hg hv)

/-- **A model over fixed samples accepts rationals only.** -/
theorem exists_rationals (h : l.Pinned own) {values : Array Exact}
    (hcheck : l.model.check values = true) :
    ∃ rationals : Array Rat, values = rationals.map .fin := by
  obtain ⟨hsize, hadmits, -⟩ := StoredModel.check_eq_true hcheck
  rw [l.tolerance_eq] at hadmits
  have hown : ∀ v ∈ own, Scalar.IsFinite (values.getD v.index 0) := fun v hv => by
    obtain ⟨q, hq⟩ := h.fixed v hv
    have hlt := StoredModel.lt_of_shape hq
    exact Variable.isFinite_of_admits (hadmits _ hlt) (StoredModel.bounds_eq_of_shape hlt hq)
  have houtputs := h.wired.isFinite_outputs hcheck fun g hg v hv => hown v (h.own_of_source hg hv)
  refine StoredModel.exists_map_fin fun i hi => ?_
  rcases h.variable_cases (v := ⟨i⟩) (hsize ▸ hi) with hv | ⟨g, hg, hv | hd⟩
  · exact hown ⟨i⟩ hv
  · rw [show i = g.output.var.index from congrArg VarId.index hv]
    exact houtputs g hg
  · exact h.wired.isFinite_switch hcheck hg hd

end Ledger.Pinned

end SignalTemporalLogic
