import SignalTemporalLogic.Proofs.Switches

/-!
Variables to which propagation leaves a single value. If all variables of a constraint but one have
one value, then what is left to the other one satisfies the constraint together with these values.
This needs a number in every range. A range that lies below all numbers is found out by an equation
over numbers, and a range that is a point stays one, whatever the other ranges are.
-/

namespace SignalTemporalLogic

namespace Bounds

instance : DecidableEq (Bounds Exact) := fun ⟨a, b⟩ ⟨c, d⟩ =>
  decidable_of_iff (a = c ∧ b = d) (by rw [Bounds.mk.injEq])

variable {b : Bounds Exact} {q : Rat}

theorem eq_point_of_single (hq : b.Contains q) (h : ∀ x, b.Contains x → x = q) :
    b = .point (.fin q) := by
  have hends := hq.realEnds
  obtain ⟨lower, upper⟩ := b
  obtain ⟨hlower, hupper⟩ := hq
  obtain rfl | ⟨l, rfl⟩ : lower = .negInf ∨ ∃ l, lower = .fin l := hends.lower
  · have hbelow := h (q - 1) ⟨trivial, OrderedScalar.le_trans
      (Exact.fin_le_fin.mpr (sub_le_self q zero_le_one)) hupper⟩
    linarith
  obtain rfl | ⟨u, rfl⟩ : upper = .posInf ∨ ∃ u, upper = .fin u := hends.upper
  · have habove := h (q + 1) ⟨OrderedScalar.le_trans hlower
      (Exact.fin_le_fin.mpr (le_add_of_nonneg_right zero_le_one)), trivial⟩
    linarith
  have hle : l ≤ u := (Exact.fin_le_fin.mp hlower).trans (Exact.fin_le_fin.mp hupper)
  obtain rfl := h l (contains_fin.mpr ⟨le_refl l, hle⟩)
  obtain rfl := h u (contains_fin.mpr ⟨hle, le_refl u⟩)
  rfl

/-- The range below all numbers. -/
def sunken : Bounds Exact := ⟨.negInf, .negInf⟩

/-- A range that does not start above all numbers contains a number or lies below all of them. -/
theorem contains_or_sunken (h : b.lower ≤ b.upper) (hlower : b.lower ≠ .posInf) :
    (∃ x, b.Contains x) ∨ b = sunken := by
  obtain ⟨lower, upper⟩ := b
  cases lower with
  | nan => exact h.elim
  | posInf => exact absurd rfl hlower
  | fin l => exact .inl ⟨l, le_refl l, h⟩
  | negInf =>
    cases upper with
    | nan => exact h.elim
    | negInf => exact .inr rfl
    | fin u => exact .inl ⟨u, trivial, le_refl u⟩
    | posInf => exact .inl ⟨0, trivial, trivial⟩

end Bounds

/-- No value but this one is left to the variable. -/
def Box.Pins (box : Box Exact) (v : VarId) (q : Rat) : Prop := ∀ x, (box.range v).Contains x → x = q

theorem Box.pins_of_point {box : Box Exact} {v : VarId} {q : Rat}
    (h : box.range v = .point (.fin q)) : box.Pins v q :=
  fun _ hx => Bounds.contains_point.mp (h ▸ hx)

/-- A box that leaves one value to every variable is a vector. -/
theorem Box.exists_values {box : Box Exact} (hpopulated : box.Populated)
    (hpins : ∀ v, v.index < box.size → ∃ q, box.Pins v q) :
    ∃ values : Array Rat,
      box = values.map (fun q => .point (.fin q)) ∧ box.Has (assignmentOf values) := by
  choose p hp using hpopulated
  have hpoint : ∀ v, v.index < box.size → box.range v = .point (.fin (p v)) := by
    intro v hv
    obtain ⟨q, hq⟩ := hpins v hv
    exact Bounds.eq_point_of_single (hp v) (hq _ (hp v) ▸ hq)
  refine ⟨Array.ofFn fun i : Fin box.size => p ⟨i⟩, Array.ext (by simp) fun i hi _ => ?_,
    fun v => ?_⟩
  · rw [← Box.range_of_lt (v := ⟨i⟩) hi, hpoint ⟨i⟩ hi]
    simp
  · rcases Nat.lt_or_ge v.index box.size with hv | hv
    · simpa [assignmentOf, hv] using hp v
    · exact Box.range_of_size_le hv ▸ Bounds.contains_unbounded _

namespace StoredModel

variable {m : StoredModel Exact} {box box' : Box Exact} {n n₁ n' : Narrowing Exact} {v : VarId}
  {p : Assignment} {x : Rat}

theorem Narrows.pins (h : m.Narrows box box') {q : Rat} (hq : box.Pins v q) : box'.Pins v q :=
  fun x hx => hq x (h.shrinks v x hx)

/-! ## One variable is open -/

/-- **What is left to the open variable satisfies the constraint.** -/
theorem Applies.holds_update {c : Constraint Exact} (h : m.Applies c n n')
    (hpins : ∀ t ∈ c.terms, t.2 ≠ v → n.box.Pins t.2 (p t.2)) (hx : (n'.box.range v).Contains x) :
    c.Holds (Function.update p v x) := by
  have hweigh : ∀ q, n.box.Has q → q v = x →
      weigh q c.terms = weigh (Function.update p v x) c.terms := by
    intro q hq hqx
    refine weigh_congr fun t ht => ?_
    by_cases htv : t.2 = v
    · rw [htv, hqx, Function.update_self]
    · rw [Function.update_of_ne htv]
      exact hpins t ht htv _ (hq t.2)
  have hbelow : c.relation ≠ .greaterEqual →
      weigh (Function.update p v x) c.terms ≤ c.rhs.toRat := by
    intro hne
    obtain ⟨q, hq, hqx, hle⟩ := h.below v x hne hx
    exact hweigh q hq hqx ▸ hle
  have habove : c.relation ≠ .lessEqual →
      c.rhs.toRat ≤ weigh (Function.update p v x) c.terms := by
    intro hne
    obtain ⟨q, hq, hqx, hle⟩ := h.above v x hne hx
    exact hweigh q hq hqx ▸ hle
  unfold Constraint.Holds
  cases hrelation : c.relation with
  | lessEqual => exact hbelow (hrelation ▸ nofun)
  | greaterEqual => exact habove (hrelation ▸ nofun)
  | equal => exact le_antisymm (hbelow (hrelation ▸ nofun)) (habove (hrelation ▸ nofun))

theorem Passes.holds_update {cs : List (Constraint Exact)} (h : m.Passes cs n n')
    (hpopulated : n.box.Populated)
    (hpins : ∀ c ∈ cs, ∀ t ∈ c.terms, t.2 ≠ v → n.box.Pins t.2 (p t.2))
    (hx : (n'.box.range v).Contains x) : ∀ c ∈ cs, c.Holds (Function.update p v x) := by
  induction h with
  | nil => exact fun c hc => absurd hc List.not_mem_nil
  | cons h hrest ih =>
    obtain ⟨hfirst, hothers⟩ := List.forall_mem_cons.mp hpins
    refine List.forall_mem_cons.mpr ⟨h.holds_update hfirst ?_, ih h.populated (fun c hc t ht htv =>
      h.toNarrows.pins (hothers c hc t ht htv)) hx⟩
    exact (hrest.tightens h.populated).shrinks v x hx

theorem Passes.of_append {cs cs' : List (Constraint Exact)} (h : m.Passes (cs ++ cs') n n') :
    ∃ n₁, m.Passes cs n n₁ ∧ m.Passes cs' n₁ n' := by
  induction cs generalizing n with
  | nil => exact ⟨n, .nil n, h⟩
  | cons c rest ih =>
    cases h with
    | cons h hrest =>
      obtain ⟨n₁, h₁, h₂⟩ := ih hrest
      exact ⟨n₁, .cons h h₁, h₂⟩

/-! ## What is spared -/

/-- Ranges stay as they are if their variable is not among the given ones, or if they are points. -/
structure Spares (vars : List VarId) (box box' : Box Exact) : Prop where
  size_eq : box'.size = box.size
  frame : ∀ v ∉ vars, box'.range v = box.range v
  point (v : VarId) (q : Rat) : box.range v = .point (.fin q) → box'.range v = .point (.fin q)

theorem Spares.trans {vars vars' : List VarId} {box₁ : Box Exact} (h : Spares vars box box₁)
    (k : Spares vars' box₁ box') : Spares (vars ++ vars') box box' where
  size_eq := k.size_eq.trans h.size_eq
  frame v hv := by
    obtain ⟨hv, hv'⟩ := not_or.mp fun hmem => hv (List.mem_append.mpr hmem)
    exact (k.frame v hv').trans (h.frame v hv)
  point v q hq := k.point v q (h.point v q hq)

theorem negated_split {terms before after : List (Exact × VarId)} {a : Rat}
    (h : terms = before ++ (.fin a, v) :: after) :
    (terms.map fun (a, v) => (-a, v)) =
      (before.map fun (a, v) => (-a, v)) ++ (.fin (-a), v) :: after.map fun (a, v) => (-a, v) := by
  rw [h]
  simp

theorem limits_negated {box : Box Exact} {before after : List (Exact × VarId)}
    (h : ∀ t ∈ before ++ after, Scalar.IsFinite (box.least (-t.1, t.2))) :
    box.Limits ((before.map fun (a, v) => (-a, v)) ++ after.map fun (a, v) => (-a, v)) := by
  rw [← List.map_append]
  exact List.forall_mem_map.mpr h

variable (htolerance : m.tolerance = .fin 0)

include htolerance

theorem spares_of_tighten {terms : List (Exact × VarId)} {bound : Rat}
    (hterms : Box.Separate terms) (hknown : ∀ t ∈ terms, t.2.index < n.box.size)
    (h : m.tighten terms (.fin bound) n = some n') :
    Spares (terms.map Prod.snd) n.box n'.box := by
  have hall := trimsAll_of_tighten htolerance hterms hknown h
  refine ⟨hall.size_eq, fun v hv => hall.frame v fun t ht htv => hv ?_, fun v q hq => ?_⟩
  · exact List.mem_map.mpr ⟨t.1, List.fst_mem_of_mem_zipIdx ht, htv⟩
  by_cases hv : ∃ t ∈ terms.zipIdx, t.1.2 = v
  · obtain ⟨t, ht, rfl⟩ := hv
    obtain ⟨cuts, htrim, -⟩ := hall.trims t ht
    obtain ⟨before, after, hsplit, he⟩ := exists_split_of_mem_zipIdx ht
    rw [he] at htrim
    obtain ⟨⟨y, hy⟩, hshrinks, -, -, -, -⟩ := trims_of_trim? htolerance
      (hsplit ▸ LeastActivity.ofTerms_of n.box terms) (hsplit ▸ hterms)
      ⟨q, hq ▸ Bounds.contains_point.mpr rfl⟩ htrim
    have hsingle : ∀ x, (n'.box.range t.1.2).Contains x → x = q :=
      fun x hx => Bounds.contains_point.mp (hq ▸ hshrinks x hx)
    exact Bounds.eq_point_of_single (hsingle y hy ▸ hy) hsingle
  · exact (hall.frame v fun t ht htv => hv ⟨t, ht, htv⟩).trans hq

theorem spares_of_tighten_negated {terms : List (Exact × VarId)} {bound : Rat}
    (hterms : Box.Separate terms) (hknown : ∀ t ∈ terms, t.2.index < n.box.size)
    (h : m.tighten (terms.map fun (a, v) => (-a, v)) (.fin bound) n = some n') :
    Spares (terms.map Prod.snd) n.box n'.box := by
  have hspares :=
    spares_of_tighten htolerance (separate_negated hterms) (known_negated hknown) h
  rwa [List.map_map] at hspares

theorem spares_of_tightenConstraint {c : Constraint Exact} (hc : c.Normal n.box.size)
    (h : m.tightenConstraint n c = some n') : Spares (c.terms.map Prod.snd) n.box n'.box := by
  obtain ⟨bound, hbound⟩ := Exact.isFinite_iff.mp hc.finite_rhs
  have hterms := separate_of_normal hc
  unfold tightenConstraint at h
  rw [hbound] at h
  cases hrelation : c.relation <;> rw [hrelation] at h
  case lessEqual => exact spares_of_tighten htolerance hterms hc.known h
  case greaterEqual => exact spares_of_tighten_negated htolerance hterms hc.known h
  case equal =>
    obtain ⟨n₁, hrun₁, hrun⟩ := Option.bind_eq_some_iff.mp h
    have h₁ := spares_of_tighten htolerance hterms hc.known hrun₁
    have h₂ := spares_of_tighten_negated htolerance hterms
      (fun t ht => h₁.size_eq.symm ▸ hc.known t ht) hrun
    obtain ⟨hsize, hframe, hpoint⟩ := h₁.trans h₂
    exact ⟨hsize, fun v hv => hframe v fun hmem => hv (or_self_iff.mp (List.mem_append.mp hmem)),
      hpoint⟩

theorem spares_of_foldlM {cs : List (Constraint Exact)} (hnormal : ∀ c ∈ cs, c.Normal n.box.size)
    (h : cs.foldlM m.tightenConstraint n = some n') :
    Spares (cs.flatMap fun c => c.terms.map Prod.snd) n.box n'.box := by
  induction cs generalizing n with
  | nil =>
    obtain rfl : n = n' := Option.some.inj h
    exact ⟨rfl, fun _ _ => rfl, fun _ _ => id⟩
  | cons c rest ih =>
    obtain ⟨hc, hrest⟩ := List.forall_mem_cons.mp hnormal
    rw [List.foldlM_cons, Option.bind_eq_bind, Option.bind_eq_some_iff] at h
    obtain ⟨n₁, hrun₁, hrun⟩ := h
    have hfirst := spares_of_tightenConstraint htolerance hc hrun₁
    exact hfirst.trans (ih (hfirst.size_eq.symm ▸ hrest) hrun)

/-! ## Sunken ranges -/

/-- A sunken range cannot be cut from above, and is found to be inverted if it is cut from below. -/
theorem settle?_cut_sunken {a : Rat} (bound : Rat) (binary : Bool) :
    (m.settle? ((m.cut (.fin a) (.fin bound) binary .sunken).getD .sunken)).map
      (·, (m.cut (.fin a) (.fin bound) binary .sunken).isSome) =
        if 0 < a then some (.sunken, false) else none := by
  have hslack : ∀ b : Rat, m.tolerance * (1 + Scalar.abs (.fin b)) = .fin 0 := fun b => by
    rw [htolerance, Exact.abs_fin, Exact.one_def, Exact.fin_add_fin, Exact.fin_mul_fin, zero_mul]
  have hinverted : ∀ b : Rat, m.settle? ⟨.fin b, .negInf⟩ = none := by
    intro b
    unfold settle?
    dsimp only
    rw [hslack]
    exact if_pos trivial
  have hnan : ∀ b : Exact, ¬ b < .nan := fun b => by cases b <;> exact not_false
  have hsettled : m.settle? .sunken = some .sunken := (if_neg (hnan _)).trans (if_neg (hnan _))
  have hcap : ∀ b : Rat, ¬ .fin b < Bounds.sunken.upper := fun b => not_lt_negInf _
  have hraise : ∀ b : Rat, Bounds.sunken.lower < .fin b := fun b => trivial
  rw [cut_eq htolerance]
  by_cases hpos : 0 < a
  · rw [if_pos hpos, if_pos hpos, if_neg (hcap _), Option.getD_none, hsettled]
    rfl
  · rw [if_neg hpos, if_neg hpos, if_pos (hraise _), Option.getD_some, Bounds.raiseTo,
      if_pos (hraise _)]
    exact congrArg (Option.map _) (hinverted _)

/-- A limit whose other terms have least values spares a sunken range if it is from above, and is
found to have no solution if it is from below. -/
theorem pos_of_tighten_sunken {terms before after : List (Exact × VarId)} {a bound : Rat}
    (hterms : Box.Separate terms) (hknown : ∀ t ∈ terms, t.2.index < n.box.size)
    (hsplit : terms = before ++ (.fin a, v) :: after) (hlimits : n.box.Limits (before ++ after))
    (hrange : n.box.range v = .sunken) (h : m.tighten terms (.fin bound) n = some n') :
    0 < a ∧ n'.box.range v = .sunken := by
  have hactivity : (LeastActivity.ofTerms n.box terms).Of n.box (before ++ (.fin a, v) :: after) :=
    hsplit ▸ LeastActivity.ofTerms_of n.box terms
  obtain ⟨⟨-, hnonzero⟩, -, -⟩ := separate_middle (hsplit ▸ hterms)
  replace hnonzero : a ≠ 0 := hnonzero
  obtain ⟨hrest, -⟩ := (LeastActivity.without?_cases hactivity).resolve_right
    fun hnone => hnone.2 hlimits
  have hmem : (((Exact.fin a, v), before.length) : (Exact × VarId) × Nat) ∈ terms.zipIdx := by
    rw [List.mem_zipIdx_iff_getElem?, hsplit]
    simp
  obtain ⟨cuts, htrim, -⟩ := (trimsAll_of_tighten htolerance hterms hknown h).trims _ hmem
  unfold trim? at htrim
  dsimp only at htrim
  rw [show (LeastActivity.ofTerms n.box terms).without? before.length
    (leastTerm (.fin a) (n.box.range v)) = _ from hrest, hrange] at htrim
  simp only [Exact.fin_sub_fin, Exact.fin_div_fin hnonzero] at htrim
  rw [settle?_cut_sunken htolerance] at htrim
  split at htrim
  · next hpos => exact ⟨hpos, (Prod.mk.inj (Option.some.inj htrim)).1.symm⟩
  · cases htrim

/-- **An equation finds out a sunken range**, if its other variables are points. -/
theorem tightenConstraint_eq_none {c : Constraint Exact} (hc : c.Normal n.box.size)
    (hrelation : c.relation = .equal) (hmem : ∃ t ∈ c.terms, t.2 = v)
    (hrange : n.box.range v = .sunken)
    (hpoints : ∀ t ∈ c.terms, t.2 ≠ v → ∃ q, n.box.range t.2 = .point (.fin q)) :
    m.tightenConstraint n c = none := by
  obtain ⟨bound, hbound⟩ := Exact.isFinite_iff.mp hc.finite_rhs
  have hterms := separate_of_normal hc
  obtain ⟨⟨a, v⟩, ht, rfl⟩ := hmem
  obtain ⟨before, after, hsplit⟩ := List.append_of_mem ht
  obtain ⟨⟨hfinite, -⟩, -, hdistinct⟩ := separate_middle (hsplit ▸ hterms)
  obtain ⟨a, rfl⟩ := Exact.isFinite_iff.mp hfinite
  -- the least value of a term whose variable is a point, with its coefficient or with its opposite
  have hleast : ∀ {box : Box Exact} {c : Exact} {u : VarId} {q : Rat}, Scalar.IsFinite c →
      box.range u = .point (.fin q) → Scalar.IsFinite (box.least (c, u)) := by
    intro box c u q hfinite hu
    obtain ⟨r, rfl⟩ := Exact.isFinite_iff.mp hfinite
    unfold Box.least leastTerm
    rw [hu]
    exact Exact.isFinite_iff.mpr ⟨r * q, ite_self _⟩
  have hothers : ∀ t ∈ before ++ after, Scalar.IsFinite t.1 ∧
      ∃ q, n.box.range t.2 = .point (.fin q) := by
    intro t ht
    have hmem : t ∈ c.terms := by
      rw [hsplit]
      simp only [List.mem_append, List.mem_cons] at ht ⊢
      tauto
    exact ⟨hterms.finite t hmem, hpoints t hmem (hdistinct t ht)⟩
  rw [tightenConstraint, hrelation, hbound]
  refine Option.bind_eq_none_iff.mpr fun n₁ hrun₁ => ?_
  by_contra hsome
  obtain ⟨n', hrun⟩ := Option.ne_none_iff_exists'.mp hsome
  obtain ⟨hpos, hrange₁⟩ := pos_of_tighten_sunken htolerance hterms hc.known hsplit (fun t ht => by
    obtain ⟨hfinite, q, hq⟩ := hothers t ht
    exact hleast hfinite hq) hrange hrun₁
  have hspares := spares_of_tighten htolerance hterms hc.known hrun₁
  obtain ⟨hneg, -⟩ := pos_of_tighten_sunken htolerance (separate_negated hterms)
    (known_negated fun t ht => hspares.size_eq.symm ▸ hc.known t ht) (negated_split hsplit)
    (limits_negated fun t ht => by
      obtain ⟨hfinite, q, hq⟩ := hothers t ht
      exact hleast (isFinite_neg.mpr hfinite) (hspares.point _ _ hq)) hrange₁ hrun
  linarith

end StoredModel

end SignalTemporalLogic
