import SignalTemporalLogic.Proofs.SafePropagation

/-!
What propagation leaves if there is no tolerance. Every value that is left to a variable belongs to
an assignment of the old box that satisfies the constraint; an equation says so from both sides. No
range is left empty, and the mark of a narrowing tells whether anything was taken away.
-/

namespace SignalTemporalLogic.StoredModel

variable {m : StoredModel Exact} {box : Box Exact} {bound : Rat}
  {terms before after : List (Exact × VarId)} {t : Exact × VarId} {n n₁ n' : Narrowing Exact}

/-! ## One term -/

/-- What a limit on a sum leaves to the variable of one term: what goes together with the least
values of the other terms. -/
structure Trims (m : StoredModel Exact) (box : Box Exact) (bound : Rat)
    (others : List (Exact × VarId)) (t : Exact × VarId) (range : Bounds Exact) (cuts : Bool) :
    Prop where
  member : ∃ x, range.Contains x
  shrinks (x : Rat) : range.Contains x → (box.range t.2).Contains x
  limited (x : Rat) : range.Contains x → box.Limits others →
    t.1.toRat * x ≤ bound - box.leastSum others
  integral : m.isBinary t.2 = true → (box.range t.2).IntegralEnds → range.IntegralEnds
  same : cuts = false → range = box.range t.2
  loses : cuts = true → ∃ x, (box.range t.2).Contains x ∧ ¬ range.Contains x

theorem trims_of_trim? (htolerance : m.tolerance = .fin 0) {activity : LeastActivity Exact}
    (hactivity : activity.Of box (before ++ t :: after))
    (hterms : Box.Separate (before ++ t :: after)) (hmember : ∃ x, (box.range t.2).Contains x)
    {range : Bounds Exact} {cuts : Bool}
    (h : m.trim? activity (.fin bound) box (t, before.length) = some (range, cuts)) :
    m.Trims box bound (before ++ after) t range cuts := by
  obtain ⟨⟨hfinite, hnonzero⟩, -, -⟩ := separate_middle hterms
  obtain ⟨c, v⟩ := t
  obtain ⟨a, rfl⟩ := Exact.isFinite_iff.mp hfinite
  replace hnonzero : a ≠ 0 := hnonzero
  obtain ⟨y, hy⟩ := hmember
  unfold trim? at h
  dsimp only at h
  rcases LeastActivity.without?_cases hactivity with ⟨hrest, hlimits⟩ | ⟨hrest, hlimits⟩
  · rw [show activity.without? before.length (leastTerm (.fin a) (box.range v)) = _ from hrest] at h
    simp only [Exact.fin_sub_fin, Exact.fin_div_fin hnonzero, Option.map_eq_some_iff] at h
    obtain ⟨_, hsettle, he⟩ := h
    obtain ⟨rfl, rfl⟩ := Prod.mk.inj he
    have hcuts := cut_cutsTo (l := bound - box.leastSum (before ++ after)) htolerance hy hnonzero
      (m.isBinary v)
    obtain ⟨rfl, hleft⟩ := settle?_eq_some htolerance hcuts.real hsettle
    exact ⟨hleft, fun x hx => (hcuts.shrinks x hx).1, fun x hx _ => (hcuts.shrinks x hx).2,
      hcuts.integral, hcuts.same, hcuts.loses⟩
  · rw [show activity.without? before.length (leastTerm (.fin a) (box.range v)) = _ from hrest] at h
    obtain ⟨rfl, rfl⟩ := Prod.mk.inj (Option.some.inj h)
    exact ⟨⟨y, hy⟩, fun _ hx => hx, fun _ _ h => absurd h hlimits, fun _ h => h, fun _ => rfl, nofun⟩

/-- Every value that is left goes together with values of the others. -/
theorem Trims.exists_weigh_le {range : Bounds Exact} {cuts : Bool}
    (h : m.Trims box bound (before ++ after) t range cuts)
    (hterms : Box.Separate (before ++ t :: after)) (hpopulated : box.Populated) {x : Rat}
    (hx : range.Contains x) :
    ∃ q, box.Has q ∧ q t.2 = x ∧ weigh q (before ++ t :: after) ≤ bound := by
  obtain ⟨-, hothers, hdistinct⟩ := separate_middle hterms
  have hrest : box.Limits (before ++ after) →
      box.leastSum (before ++ after) ≤ bound - t.1.toRat * x :=
    fun hlimits => by linarith [h.limited x hx hlimits]
  obtain ⟨q, hq, hqx, hle⟩ :=
    Box.exists_weigh_le hpopulated hothers (h.shrinks x hx) hdistinct hrest
  exact ⟨q, hq, hqx, by rw [weigh_middle, hqx]; linarith⟩

/-! ## One limit -/

/-- The second box is what is left of the first one. -/
structure Narrows (m : StoredModel Exact) (box box' : Box Exact) : Prop where
  size_eq : box'.size = box.size
  shrinks (v : VarId) (x : Rat) : (box'.range v).Contains x → (box.range v).Contains x
  populated : box'.Populated
  integral (v : VarId) : m.isBinary v = true → (box.range v).IntegralEnds →
    (box'.range v).IntegralEnds

/-- A box is narrowed, and marked if anything is taken away. -/
structure Tightens (m : StoredModel Exact) (n n' : Narrowing Exact) : Prop extends
    Narrows m n.box n'.box where
  same : n'.changed = false → n.changed = false ∧ ∀ v, n'.box.range v = n.box.range v
  loses : n'.changed = true → n.changed = true ∨
    ∃ v x, (n.box.range v).Contains x ∧ ¬ (n'.box.range v).Contains x

theorem Narrows.refl (h : box.Populated) : m.Narrows box box :=
  ⟨rfl, fun _ _ h => h, h, fun _ _ h => h⟩

theorem Narrows.trans {box₁ box' : Box Exact} (h : m.Narrows box box₁) (k : m.Narrows box₁ box') :
    m.Narrows box box' :=
  ⟨k.size_eq.trans h.size_eq, fun v x hx => h.shrinks v x (k.shrinks v x hx), k.populated,
    fun v hbinary hends => k.integral v hbinary (h.integral v hbinary hends)⟩

theorem Tightens.refl (h : n.box.Populated) : m.Tightens n n :=
  ⟨.refl h, fun hsame => ⟨hsame, fun _ => rfl⟩, .inl⟩

theorem Tightens.trans (h : m.Tightens n n₁) (k : m.Tightens n₁ n') : m.Tightens n n' := by
  refine ⟨h.toNarrows.trans k.toNarrows, fun hsame => ?_, fun hchanged => ?_⟩
  · obtain ⟨hsame₁, hranges⟩ := k.same hsame
    obtain ⟨hsame, hranges₁⟩ := h.same hsame₁
    exact ⟨hsame, fun v => (hranges v).trans (hranges₁ v)⟩
  · rcases k.loses hchanged with hchanged₁ | ⟨v, x, hx, hlost⟩
    · refine (h.loses hchanged₁).imp_right ?_
      rintro ⟨v, x, hx, hlost⟩
      exact ⟨v, x, hx, fun hx' => hlost (k.shrinks v x hx')⟩
    · exact .inr ⟨v, x, h.shrinks v x hx, hlost⟩

section Limits

variable (htolerance : m.tolerance = .fin 0) (hterms : Box.Separate terms)
  (hknown : ∀ t ∈ terms, t.2.index < n.box.size) (hpopulated : n.box.Populated)
  (h : m.tighten terms (.fin bound) n = some n')

include htolerance h in
/-- A limit that is not exceeded by the least value of its sum goes through the terms. -/
theorem foldlM_of_tighten : (n.box.Limits terms → n.box.leastSum terms ≤ bound) ∧
    terms.zipIdx.foldlM
      (m.tightenTerm (LeastActivity.ofTerms n.box terms) (.fin bound)) n = some n' := by
  have hactivity := LeastActivity.ofTerms_of n.box terms
  unfold tighten at h
  dsimp only at h
  split at h
  · cases h
  · next hfeasible =>
    refine ⟨fun hlimits => not_lt.mp fun hlt => hfeasible ⟨hactivity.limits_iff.mpr hlimits, ?_⟩, h⟩
    rw [htolerance, Exact.abs_fin, Exact.one_def, Exact.fin_add_fin, Exact.fin_mul_fin, zero_mul,
      Exact.fin_add_fin, add_zero, hactivity.finite]
    exact hlt

include htolerance hterms hknown h in
theorem trimsAll_of_tighten :
    m.TrimsAll (LeastActivity.ofTerms n.box terms) (.fin bound) terms.zipIdx n n' :=
  trimsAll_of_foldlM hterms.zipIdx_distinct
    (fun t ht => hknown t.1 (List.fst_mem_of_mem_zipIdx ht)) (foldlM_of_tighten htolerance h).2

include htolerance hterms hpopulated in
theorem trims_of_mem {t : (Exact × VarId) × Nat} (ht : t ∈ terms.zipIdx) {range : Bounds Exact}
    {cuts : Bool} (htrim : m.trim? (LeastActivity.ofTerms n.box terms) (.fin bound) n.box t =
      some (range, cuts)) :
    ∃ before after, terms = before ++ t.1 :: after ∧
      m.Trims n.box bound (before ++ after) t.1 range cuts := by
  obtain ⟨before, after, hsplit, he⟩ := exists_split_of_mem_zipIdx ht
  have hactivity := LeastActivity.ofTerms_of n.box terms
  rw [he] at htrim
  exact ⟨before, after, hsplit,
    trims_of_trim? htolerance (hsplit ▸ hactivity) (hsplit ▸ hterms) (hpopulated t.1.2) htrim⟩

include htolerance hterms hknown hpopulated h

/-- The range of a variable is trimmed by its term, or stays. -/
theorem range_cases (v : VarId) :
    (∃ before t after cuts, terms = before ++ t :: after ∧ t.2 = v ∧
      m.Trims n.box bound (before ++ after) t (n'.box.range v) cuts ∧
      (cuts = true → n'.changed = true)) ∨
    (∀ t ∈ terms, t.2 ≠ v) ∧ n'.box.range v = n.box.range v := by
  have hall := trimsAll_of_tighten htolerance hterms hknown h
  by_cases hv : ∃ t ∈ terms.zipIdx, t.1.2 = v
  · obtain ⟨t, ht, rfl⟩ := hv
    obtain ⟨cuts, htrim, hmark⟩ := hall.trims t ht
    obtain ⟨before, after, hsplit, htrims⟩ := trims_of_mem htolerance hterms hpopulated ht htrim
    exact .inl ⟨before, t.1, after, cuts, hsplit, rfl, htrims, hmark⟩
  · refine .inr ⟨fun t ht htv => ?_, hall.frame v fun t ht htv => hv ⟨t, ht, htv⟩⟩
    obtain ⟨k, hk, rfl⟩ := List.mem_iff_getElem.mp ht
    exact hv ⟨(terms[k], k), List.mem_zipIdx_iff_getElem?.mpr (List.getElem?_eq_getElem hk), htv⟩

theorem narrows_of_tighten : m.Narrows n.box n'.box := by
  have hcases := range_cases htolerance hterms hknown hpopulated h
  have hsize := (trimsAll_of_tighten htolerance hterms hknown h).size_eq
  refine ⟨hsize, fun v x hx => ?_, fun v => ?_, fun v hbinary hends => ?_⟩ <;>
    rcases hcases v with ⟨before, t, after, cuts, -, rfl, htrims, -⟩ | ⟨-, hframe⟩
  · exact htrims.shrinks x hx
  · exact hframe ▸ hx
  · exact htrims.member
  · exact hframe.symm ▸ hpopulated v
  · exact htrims.integral hbinary hends
  · exact hframe.symm ▸ hends

theorem tightens_of_tighten : m.Tightens n n' := by
  have hall := trimsAll_of_tighten htolerance hterms hknown h
  refine ⟨narrows_of_tighten htolerance hterms hknown hpopulated h, fun hsame => ⟨?_, fun v => ?_⟩,
    fun hchanged => ?_⟩
  · exact Bool.eq_false_iff.mpr fun hn =>
      Bool.false_ne_true (hsame.symm.trans (hall.changed_of_changed hn))
  · rcases range_cases htolerance hterms hknown hpopulated h v with
      ⟨before, t, after, cuts, -, rfl, htrims, hmark⟩ | ⟨-, hframe⟩
    · exact htrims.same (Bool.eq_false_iff.mpr fun hcuts =>
        Bool.false_ne_true (hsame.symm.trans (hmark hcuts)))
    · exact hframe
  · refine (hall.changed hchanged).imp_right ?_
    rintro ⟨t, ht, htrim⟩
    obtain ⟨before, after, -, htrims⟩ := trims_of_mem htolerance hterms hpopulated ht htrim
    exact ⟨t.1.2, htrims.loses rfl⟩

/-- **What is left to a variable** goes together with values of the others that satisfy the limit. -/
theorem exists_weigh_le_of_tighten {v : VarId} {x : Rat} (hx : (n'.box.range v).Contains x) :
    ∃ q, n.box.Has q ∧ q v = x ∧ weigh q terms ≤ bound := by
  rcases range_cases htolerance hterms hknown hpopulated h v with
    ⟨before, t, after, cuts, rfl, rfl, htrims, -⟩ | ⟨hne, hframe⟩
  · exact htrims.exists_weigh_le hterms hpopulated hx
  · exact Box.exists_weigh_le hpopulated hterms (hframe ▸ hx) hne (foldlM_of_tighten htolerance h).1

end Limits

/-! ## Constraints and rounds -/

/-- What a constraint does to a box. -/
structure Applies (m : StoredModel Exact) (c : Constraint Exact) (n n' : Narrowing Exact) :
    Prop extends Tightens m n n' where
  below (v : VarId) (x : Rat) : c.relation ≠ .greaterEqual → (n'.box.range v).Contains x →
    ∃ q, n.box.Has q ∧ q v = x ∧ weigh q c.terms ≤ c.rhs.toRat
  above (v : VarId) (x : Rat) : c.relation ≠ .lessEqual → (n'.box.range v).Contains x →
    ∃ q, n.box.Has q ∧ q v = x ∧ c.rhs.toRat ≤ weigh q c.terms

theorem known_negated {terms : List (Exact × VarId)} {count : Nat}
    (h : ∀ t ∈ terms, t.2.index < count) :
    ∀ t ∈ terms.map fun (a, v) => (-a, v), t.2.index < count :=
  List.forall_mem_map.mpr h

section Sides

variable {c : Constraint Exact} (htolerance : m.tolerance = .fin 0) (hc : c.Normal n.box.size)
  (hpopulated : n.box.Populated)

include htolerance hc hpopulated

/-- A constraint as a limit from above. -/
theorem supports_of_tighten (h : m.tighten c.terms c.rhs n = some n') :
    m.Tightens n n' ∧ ∀ v x, (n'.box.range v).Contains x →
      ∃ q, n.box.Has q ∧ q v = x ∧ weigh q c.terms ≤ c.rhs.toRat := by
  obtain ⟨bound, hbound⟩ := Exact.isFinite_iff.mp hc.finite_rhs
  rw [hbound] at h ⊢
  have hterms := separate_of_normal hc
  exact ⟨tightens_of_tighten htolerance hterms hc.known hpopulated h,
    fun v x => exists_weigh_le_of_tighten htolerance hterms hc.known hpopulated h⟩

/-- A constraint as a limit from below. -/
theorem supports_of_tighten_negated
    (h : m.tighten (c.terms.map fun (a, v) => (-a, v)) (-c.rhs) n = some n') :
    m.Tightens n n' ∧ ∀ v x, (n'.box.range v).Contains x →
      ∃ q, n.box.Has q ∧ q v = x ∧ c.rhs.toRat ≤ weigh q c.terms := by
  obtain ⟨bound, hbound⟩ := Exact.isFinite_iff.mp hc.finite_rhs
  simp only [← weigh_negated_le_iff hc]
  rw [hbound] at h ⊢
  have hterms := separate_negated (separate_of_normal hc)
  have hknown := known_negated hc.known
  exact ⟨tightens_of_tighten htolerance hterms hknown hpopulated h,
    fun v x => exists_weigh_le_of_tighten htolerance hterms hknown hpopulated h⟩

end Sides

theorem applies_of_tightenConstraint (htolerance : m.tolerance = .fin 0) {c : Constraint Exact}
    (hc : c.Normal n.box.size) (hpopulated : n.box.Populated)
    (h : m.tightenConstraint n c = some n') : m.Applies c n n' := by
  unfold tightenConstraint at h
  cases hrelation : c.relation <;> rw [hrelation] at h
  case lessEqual =>
    obtain ⟨htightens, hsupports⟩ := supports_of_tighten htolerance hc hpopulated h
    exact ⟨htightens, fun v x _ => hsupports v x, fun _ _ hne => absurd hrelation hne⟩
  case greaterEqual =>
    obtain ⟨htightens, hsupports⟩ := supports_of_tighten_negated htolerance hc hpopulated h
    exact ⟨htightens, fun _ _ hne => absurd hrelation hne, fun v x _ => hsupports v x⟩
  case equal =>
    obtain ⟨n₁, hrun₁, hrun⟩ := Option.bind_eq_some_iff.mp h
    obtain ⟨h₁, hsupports₁⟩ := supports_of_tighten htolerance hc hpopulated hrun₁
    obtain ⟨h₂, hsupports₂⟩ :=
      supports_of_tighten_negated htolerance (h₁.size_eq.symm ▸ hc) h₁.populated hrun
    refine ⟨h₁.trans h₂, fun v x _ hx => hsupports₁ v x (h₂.shrinks v x hx), fun v x _ hx => ?_⟩
    obtain ⟨q, hq, hqx, hle⟩ := hsupports₂ v x hx
    exact ⟨q, fun u => h₁.shrinks u _ (hq u), hqx, hle⟩

/-- One constraint after the other is applied. -/
inductive Passes (m : StoredModel Exact) :
    List (Constraint Exact) → Narrowing Exact → Narrowing Exact → Prop
  | nil (n : Narrowing Exact) : Passes m [] n n
  | cons {c : Constraint Exact} {rest : List (Constraint Exact)} {n n₁ n' : Narrowing Exact}
    (h : m.Applies c n n₁) (hrest : Passes m rest n₁ n') : Passes m (c :: rest) n n'

theorem Passes.tightens {cs : List (Constraint Exact)} (h : m.Passes cs n n')
    (hpopulated : n.box.Populated) : m.Tightens n n' := by
  induction h with
  | nil n => exact .refl hpopulated
  | cons h _ ih => exact h.toTightens.trans (ih h.populated)

theorem passes_of_foldlM (htolerance : m.tolerance = .fin 0) {cs : List (Constraint Exact)}
    (hnormal : ∀ c ∈ cs, c.Normal n.box.size) (hpopulated : n.box.Populated)
    (h : cs.foldlM m.tightenConstraint n = some n') : m.Passes cs n n' := by
  induction cs generalizing n with
  | nil =>
    obtain rfl : n = n' := Option.some.inj h
    exact .nil n
  | cons c rest ih =>
    obtain ⟨hc, hrest⟩ := List.forall_mem_cons.mp hnormal
    rw [List.foldlM_cons, Option.bind_eq_bind, Option.bind_eq_some_iff] at h
    obtain ⟨n₁, hrun₁, hrun⟩ := h
    have happlies := applies_of_tightenConstraint htolerance hc hpopulated hrun₁
    exact .cons happlies (ih (happlies.size_eq.symm ▸ hrest) happlies.populated hrun)

section Rounds

variable (htolerance : m.tolerance = .fin 0) (hnormal : m.Normal)

include htolerance hnormal

theorem passes_of_propagateRound (hsize : box.size = m.vars.size) (hpopulated : box.Populated)
    (h : m.propagateRound box = some n') : m.Passes m.constraints.toList ⟨box, false⟩ n' := by
  unfold propagateRound at h
  rw [← Array.foldlM_toList] at h
  exact passes_of_foldlM (n := ⟨box, false⟩) htolerance
    (fun c hc => hsize.symm ▸ hnormal c (Array.mem_toList_iff.mp hc)) hpopulated h

/-- **Whatever the number of rounds**, what is left is part of the box. -/
theorem narrows_of_propagateFor (rounds : Nat) (hsize : box.size = m.vars.size)
    (hpopulated : box.Populated) {box' : Box Exact} (h : m.propagateFor rounds box = some box') :
    m.Narrows box box' := by
  induction rounds generalizing box with
  | zero =>
    obtain rfl : box = box' := Option.some.inj h
    exact .refl hpopulated
  | succ rounds ih =>
    rw [propagateFor, Option.bind_eq_bind, Option.bind_eq_some_iff] at h
    obtain ⟨n, hround, h⟩ := h
    have hnarrows : m.Narrows box n.box :=
      ((passes_of_propagateRound htolerance hnormal hsize hpopulated hround).tightens
        hpopulated).toNarrows
    split at h
    · exact hnarrows.trans (ih (hnarrows.size_eq.trans hsize) hnarrows.populated h)
    · obtain rfl : n.box = box' := Option.some.inj h
      exact hnarrows

end Rounds

end SignalTemporalLogic.StoredModel
