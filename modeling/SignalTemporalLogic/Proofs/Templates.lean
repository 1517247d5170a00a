import SignalTemporalLogic.Proofs.Additions
import SignalTemporalLogic.Proofs.Settling

/-!
Minimum and maximum templates outside of a session. What a template adds to a model is satisfied by
values of the operands that are no further apart than the big-M constant and whose extreme lies in
the range of the result, and by no others. The result then is the extreme, and the one selector that
is off is that of an operand that attains it.
-/

namespace SignalTemporalLogic

open RunLogic

/-! ## What is on top of a model -/

namespace StoredModel

/-- The values satisfy what the second model has on top of the first one. -/
structure SatisfiesAdded (m m' : StoredModel Exact) (p : Assignment) : Prop where
  allows : ∀ i (h : i < m'.vars.size), m.vars.size ≤ i → m'.vars[i].Allows (p ⟨i⟩)
  holds : ∀ c ∈ m'.constraints.toList.drop m.constraints.size, c.Holds p

variable {m m' : StoredModel Exact} {shapes : List Shape} {constraints : List (Constraint Exact)}
  {p : Assignment}

theorem Grows.satisfiesAdded_iff (h : m.Grows m' shapes constraints) :
    m.SatisfiesAdded m' p ↔
      (∀ i (shape : Shape), shapes[i]? = some shape → shape.Allows (p ⟨m.vars.size + i⟩)) ∧
      ∀ c ∈ constraints, c.Holds p := by
  have hdrop : m'.constraints.toList.drop m.constraints.size = constraints := by
    rw [h.constraints_eq, ← Array.length_toList, List.drop_left]
  have hallows : (∀ i (hi : i < m'.vars.size), m.vars.size ≤ i → m'.vars[i].Allows (p ⟨i⟩)) ↔
      ∀ i (shape : Shape), shapes[i]? = some shape → shape.Allows (p ⟨m.vars.size + i⟩) := by
    constructor
    · intro hvars i shape hshape
      rw [← h.shape_of_added] at hshape
      obtain ⟨hlt, rfl⟩ := List.getElem?_eq_some_iff.mp hshape
      rw [length_shapes] at hlt
      have hvar := hvars _ hlt (Nat.le_add_right _ i)
      simp only [StoredModel.shapes, List.getElem_map, Array.getElem_toList]
      exact ⟨hvar.contains, hvar.integral⟩
    · intro hshapes i hi hle
      obtain ⟨k, rfl⟩ := Nat.exists_eq_add_of_le hle
      have hadded : shapes[k]? = some m'.vars[m.vars.size + k].shape := by
        rw [← h.shape_of_added, StoredModel.shapes, List.getElem?_map, Array.getElem?_toList,
          Array.getElem?_eq_getElem hi, Option.map_some]
      have hshape := hshapes k _ hadded
      exact ⟨hshape.contains, hshape.integral⟩
  exact ⟨fun hadded => ⟨hallows.mp hadded.allows, hdrop ▸ hadded.holds⟩,
    fun hadded => ⟨hallows.mpr hadded.1, hdrop ▸ hadded.2⟩⟩

/-- What satisfies a model that has grown satisfies the model and what it has grown by. -/
theorem Grows.satisfies_iff (h : m.Grows m' shapes constraints) :
    m'.Satisfies p ↔ m.Satisfies p ∧ m.SatisfiesAdded m' p := by
  rw [h.satisfiesAdded_iff, StoredModel.satisfies_iff, StoredModel.satisfies_iff]
  simp only [← Array.mem_toList_iff, h.constraints_eq, List.forall_mem_append, h.shapes_eq]
  constructor
  · rintro ⟨hshapes, hold, hadded⟩
    refine ⟨⟨fun i shape hi => ?_, hold⟩, fun i shape hi => ?_, hadded⟩
    · exact hshapes i shape
        (by rw [List.getElem?_append_left (List.getElem?_eq_some_iff.mp hi).1, hi])
    · exact hshapes _ shape (by
        rw [List.getElem?_append_right (by simp), length_shapes, Nat.add_sub_cancel_left, hi])
  · rintro ⟨⟨hold, hholds⟩, hadded, hnew⟩
    refine ⟨fun i shape hi => ?_, hholds, hnew⟩
    rcases Nat.lt_or_ge i m.shapes.length with hlt | hge
    · exact hold i shape (by rwa [List.getElem?_append_left hlt] at hi)
    · rw [List.getElem?_append_right hge] at hi
      obtain ⟨k, rfl⟩ := Nat.exists_eq_add_of_le hge
      rw [Nat.add_sub_cancel_left] at hi
      simpa using hadded k shape hi

end StoredModel

namespace Gate

variable {m m' : StoredModel Exact} {p : Assignment}

theorem Extends.satisfiesAdded_iff {g : Gate} (h : g.Extends m m') :
    m.SatisfiesAdded m' p ↔
      (∀ i (shape : Shape), g.shapes[i]? = some shape → shape.Allows (p ⟨m.vars.size + i⟩)) ∧
      g.Holds p := by
  obtain ⟨constraints, hstores, hgrows⟩ := h
  rw [hgrows.satisfiesAdded_iff, Statement.stores_hold hstores]
  exact Iff.rfl

end Gate

/-! ## Selectors and spreads -/

/-- Numbers that are zero or one miss their count by the number of zeros. -/
theorem sum_add_count_zero {values : List Rat} (h : ∀ v ∈ values, v = 0 ∨ v = 1) :
    values.sum + values.count 0 = values.length := by
  induction values with
  | nil => simp
  | cons v rest ih =>
    obtain ⟨hv, hrest⟩ := List.forall_mem_cons.mp h
    have hsum := ih hrest
    rcases hv with rfl | rfl
    · rw [List.sum_cons, List.count_cons_self, List.length_cons]
      push_cast
      linarith
    · rw [List.sum_cons, List.count_cons_of_ne (by norm_num), List.length_cons]
      push_cast
      linarith

namespace Extremum

variable {e : Extremum} {values : List Rat} {r limit : Rat}

/-- The spread of a list is bounded by how far its members are from either extreme. -/
theorem spread_le_of_picks (hr : e.Picks values r)
    (h : ∀ x ∈ values, e.sign * x ≤ e.sign * r + limit) :
    max.pick values - min.pick values ≤ limit := by
  have hne : values ≠ [] := List.ne_nil_of_mem hr.1
  obtain rfl := hr.eq_pick
  cases e with
  | min =>
    have hmax := h _ (max.pick_picks values hne).1
    simp only [sign, one_mul] at hmax
    linarith
  | max =>
    have hmin := h _ (min.pick_picks values hne).1
    simp only [sign] at hmin
    linarith

theorem sub_le_of_spread (h : max.pick values - min.pick values ≤ limit) :
    ∀ x ∈ values, ∀ y ∈ values, x - y ≤ limit := by
  intro x hx y hy
  have hne : values ≠ [] := List.ne_nil_of_mem hx
  have hmax := (picks_max_iff.mp (max.pick_picks values hne)).2 x hx
  have hmin := (picks_min_iff.mp (min.pick_picks values hne)).2 y hy
  linarith

end Extremum

/-! ## A single gate -/

namespace Gate

/-- The gate of an extreme of operands that are already there, right behind the `count` variables
of a model. -/
def template (e : Extremum) (limit : Rat) (operands : List (Encoded Exact VarId)) (count : Nat) :
    Gate :=
  .extreme e (.fin limit) operands ⟨count⟩ ((List.range' (count + 1) operands.length).map VarId.mk)

variable {e : Extremum} {limit : Rat} {operands : List (Encoded Exact VarId)} {bigM : BigM Exact}
  {m m' : StoredModel Exact} {p q : Assignment}

theorem template_formed (count : Nat) (htwo : 2 ≤ operands.length)
    (hresolve : bigM.resolve (operands.map Encoded.bounds) = .ok (.fin limit)) :
    (template e limit operands count).Formed bigM :=
  ⟨htwo, rfl, hresolve, Exact.isFinite_fin⟩

/-- A solution of the gate is decided, and the result is in its range. -/
theorem Extends.allows_template (h : (template e limit operands m.vars.size).Extends m m')
    (hadded : m.SatisfiesAdded m' p) :
    (template e limit operands m.vars.size).Decided p ∧
      (e.boundsOf (operands.map Encoded.bounds)).Contains (p ⟨m.vars.size⟩) := by
  obtain ⟨hallows, -⟩ := h.satisfiesAdded_iff.mp hadded
  refine ⟨fun d hd => ?_, Shape.real_allows_iff.mp (hallows 0 _ rfl)⟩
  obtain ⟨i, hi, rfl⟩ := List.mem_map.mp hd
  obtain ⟨k, hk, rfl⟩ := List.mem_range'.mp hi
  have hselector : (template e limit operands m.vars.size).shapes[k + 1]? = some .selector := by
    simp [template, shapes, hk]
  have hallowed := Shape.selector_allows_iff.mp (hallows (k + 1) _ hselector)
  rwa [show m.vars.size + (k + 1) = m.vars.size + 1 + 1 * k by omega] at hallowed

/-- **What a solution looks like.** -/
theorem Extends.solution (h : (template e limit operands m.vars.size).Extends m m')
    (hformed : (template e limit operands m.vars.size).Formed bigM) (hlimit : 0 ≤ limit)
    (hadded : m.SatisfiesAdded m' p) :
    e.Picks (operands.map fun x => p x.var) (p ⟨m.vars.size⟩) ∧
      (∀ x ∈ operands, e.sign * p x.var ≤ e.sign * p ⟨m.vars.size⟩ + limit) ∧
      (((List.range' (m.vars.size + 1) operands.length).map VarId.mk).map p).count 0 = 1 ∧
      ∀ x d, (x, d) ∈ operands.zip ((List.range' (m.vars.size + 1) operands.length).map VarId.mk) →
        p d = 0 → p x.var = p ⟨m.vars.size⟩ := by
  obtain ⟨hdecided, -⟩ := h.allows_template hadded
  obtain ⟨-, hholds⟩ := h.satisfiesAdded_iff.mp hadded
  have hpicks : e.Picks (operands.map fun x => p x.var) (p ⟨m.vars.size⟩) :=
    computes_of_holds hformed hholds hdecided
  have htwo : 2 ≤ operands.length := hformed.1
  generalize hselectors : (List.range' (m.vars.size + 1) operands.length).map VarId.mk = selectors
  rw [template, hselectors] at hdecided hholds
  have hlength : selectors.length = operands.length := by simp [← hselectors]
  obtain ⟨hpairs, hsum⟩ := (holds_extreme (List.length_pos_iff.mp (by omega))).mp hholds
  refine ⟨hpicks, fun x hx => ?_, ?_, fun x d hmem hzero => ?_⟩
  · obtain ⟨i, hi, rfl⟩ := List.mem_iff_getElem.mp hx
    have hselector : i < selectors.length := hlength ▸ hi
    have hmem : (operands[i], selectors[i]) ∈ operands.zip selectors :=
      List.mem_iff_getElem.mpr ⟨i, by simp [hlength, hi], by simp⟩
    have hrelaxed := (hpairs _ _ hmem).2
    rcases hdecided _ (List.getElem_mem hselector) with hd | hd <;> rw [hd] at hrelaxed <;>
      linarith
  · have hcount : (selectors.map p).sum + (selectors.map p).count 0 = (selectors.map p).length :=
      sum_add_count_zero (List.forall_mem_map.mpr hdecided)
    rw [hsum, List.length_map] at hcount
    exact_mod_cast (by linarith : (((selectors.map p).count 0 : Nat) : Rat) = 1)
  · obtain ⟨hbound, hrelaxed⟩ := hpairs x d hmem
    rw [hzero, mul_zero, add_zero] at hrelaxed
    exact Extremum.sign_mul_injective (le_antisymm hrelaxed hbound)

/-- **Which operands have a solution.** -/
theorem Extends.settled (h : (template e limit operands m.vars.size).Extends m m')
    (hformed : (template e limit operands m.vars.size).Formed bigM)
    (hknown : ∀ x ∈ operands, x.var.index < m.vars.size)
    (hspread : Extremum.max.pick (operands.map fun x => p x.var) -
      Extremum.min.pick (operands.map fun x => p x.var) ≤ limit)
    (hcontains : (e.boundsOf (operands.map Encoded.bounds)).Contains
      (e.pick (operands.map fun x => p x.var))) :
    m.SatisfiesAdded m' ((template e limit operands m.vars.size).settle p) := by
  refine h.satisfiesAdded_iff.mpr ⟨fun i shape hi => settle_allowed ?_ hi, ?_⟩
  · rw [settle_output]
    exact hcontains
  · refine settle_holds hformed (fun x hx hadds => Nat.not_le.mpr (hknown x hx) hadds.1) nofun ?_
    exact fun x hx y hy => Extremum.sub_le_of_spread hspread _ (List.mem_map_of_mem hx) _
      (List.mem_map_of_mem hy)

end Gate

/-! ## Adding an extreme -/

/-- The selectors of a template, which come after its result. -/
def templateSelectors (m : StoredModel Exact) (count : Nat) : List VarId :=
  (List.range' (m.vars.size + 1) count).map VarId.mk

namespace Extremum

variable {e : Extremum} {label : String} {operands : List (Encoded Exact VarId)}
  {bigM : BigM Exact} {m m' : StoredModel Exact} {r : Encoded Exact VarId}

/-- The policy is checked first, and then a group without start values is emitted. -/
theorem addTo_eq_ok : e.addTo StoredModel.solver label operands bigM m = (.ok r, m') ↔
    bigM.validate = .ok () ∧ ∃ stats,
      e.emit StoredModel.solver label operands bigM none ⟨m, {}⟩ = (.ok r, ⟨m', stats⟩) := by
  have hrun : e.addTo StoredModel.solver label operands bigM m =
      match bigM.validate with
      | .error fault => (.error fault, m)
      | .ok () =>
        ((e.emit StoredModel.solver label operands bigM none ⟨m, {}⟩).1,
          (e.emit StoredModel.solver label operands bigM none ⟨m, {}⟩).2.solver) := by
    cases hvalid : bigM.validate <;> simp only [addTo, hvalid] <;> rfl
  rw [hrun]
  cases bigM.validate with
  | error fault => exact ⟨fun h => absurd (Prod.mk.inj h).1 nofun, fun h => absurd h.1 nofun⟩
  | ok =>
    rcases e.emit StoredModel.solver label operands bigM none ⟨m, {}⟩ with ⟨result, m'', stats⟩
    refine ⟨fun h => ⟨rfl, stats, ?_⟩, fun ⟨_, _, h⟩ => ?_⟩
    · obtain ⟨rfl, rfl⟩ := Prod.mk.inj h
      rfl
    · cases h
      rfl

/-- A template that is added is a gate on top of the model, for which there was room. -/
theorem extends_of_addTo {limit : Rat} (htwo : 2 ≤ operands.length)
    (hresolve : bigM.resolve (operands.map Encoded.bounds) = .ok (.fin limit))
    (h : e.addTo StoredModel.solver label operands bigM m = (.ok r, m')) :
    r = ⟨⟨m.vars.size⟩, e.boundsOf (operands.map Encoded.bounds)⟩ ∧
      m.HasRoom (operands.length + 1) ∧
      (Gate.template e limit operands m.vars.size).Extends m m' ∧
      m'.vars.toList = m.vars.toList ++ ⟨label, .continuous, r.bounds, none⟩ ::
        selectors label none 0 operands.length := by
  obtain ⟨-, stats, hrun⟩ := addTo_eq_ok.mp h
  have hleads : (emission True).Leads ⟨m, {}⟩
      (e.emit StoredModel.solver label operands bigM none) fun r e' =>
        r = ⟨⟨m.vars.size⟩, e.boundsOf (operands.map Encoded.bounds)⟩ ∧
        m.HasRoom (operands.length + 1) ∧
        (Gate.template e limit operands m.vars.size).Extends m e'.solver := by
    refine leads_emit (.inl trivial) ?_ fun limit' e' hlimit' _ hroom _ hextends => ?_
    · rintro x rfl
      exact absurd htwo (Nat.not_succ_le_self 1)
    · obtain rfl := Except.ok.inj (hresolve.symm.trans hlimit')
      exact ⟨rfl, hroom, hextends⟩
  have houtcome : (outcomes _).Leads ⟨m, {}⟩
      (e.emit StoredModel.solver label operands bigM none) fun _ e' =>
        e'.solver.vars.toList = m.vars.toList ++
          ⟨label, .continuous, e.boundsOf (operands.map Encoded.bounds), none⟩ ::
            selectors label none 0 operands.length := leads_emit_outcome htwo
  obtain ⟨_, rfl, -, hr, hroom, hextends⟩ := (leads_of_ok hrun).mp hleads
  obtain ⟨_, rfl, -, hvars⟩ := (leads_of_ok hrun).mp houtcome
  exact ⟨hr, hroom, hextends, hr ▸ hvars⟩

theorem exists_addTo {limit : Exact} (htwo : 2 ≤ operands.length)
    (hoperands : ∀ x ∈ operands, x.var.index < m.vars.size ∧ x.bounds.lower ≤ x.bounds.upper)
    (hresolve : bigM.resolve (operands.map Encoded.bounds) = .ok limit)
    (hfinite : Scalar.IsFinite limit) (hvalid : bigM.validate = .ok ())
    (hroom : m.HasRoom (operands.length + 1)) :
    ∃ r m', e.addTo StoredModel.solver label operands bigM m = (.ok r, m') := by
  have hleads : (emission False).Leads ⟨m, {}⟩
      (e.emit StoredModel.solver label operands bigM none) fun _ _ => True :=
    leads_emit (.inr ⟨List.ne_nil_of_length_pos (by omega), hroom, hoperands, limit, hresolve,
      hfinite⟩) (fun _ _ => trivial) fun _ _ _ _ _ _ _ => trivial
  obtain ⟨r, hr⟩ := hleads.exists_ok not_false
  exact ⟨r, _, addTo_eq_ok.mpr ⟨hvalid, _, Prod.ext hr rfl⟩⟩

/-- **What a template admits.** An extreme of two operands or more is added if the policy is valid
and there is room for the result and the selectors. Values of the variables that were there before
extend to a solution of what has been added if and only if the operands are no further apart than
the big-M constant and their extreme lies in the range of the result. In every solution the result
is the extreme, and exactly one selector is off, that of an operand that attains the extreme. -/
theorem addTo_exact (e : Extremum) (label : String) (operands : List (Encoded Exact VarId))
    (bigM : BigM Exact) (m : StoredModel Exact) (limit : Rat) (htwo : 2 ≤ operands.length)
    (hoperands : ∀ x ∈ operands, x.var.index < m.vars.size ∧ x.bounds.lower ≤ x.bounds.upper)
    (hresolve : bigM.resolve (operands.map Encoded.bounds) = .ok (.fin limit))
    (hlimit : 0 ≤ limit) :
    ((∃ r m', e.addTo StoredModel.solver label operands bigM m = (.ok r, m')) ↔
      bigM.validate = .ok () ∧ m.HasRoom (operands.length + 1)) ∧
    ∀ r m', e.addTo StoredModel.solver label operands bigM m = (.ok r, m') →
      r = ⟨⟨m.vars.size⟩, e.boundsOf (operands.map Encoded.bounds)⟩ ∧
      m'.vars.toList = m.vars.toList ++ ⟨label, .continuous, r.bounds, none⟩ ::
        selectors label none 0 operands.length ∧
      m.constraints.toList <+: m'.constraints.toList ∧
      (∀ p : Assignment,
        (∃ q : Assignment, (∀ v : VarId, v.index < m.vars.size → q v = p v) ∧
          m.SatisfiesAdded m' q) ↔
        max.pick (operands.map fun x => p x.var) - min.pick (operands.map fun x => p x.var) ≤
          limit ∧
        r.bounds.Contains (e.pick (operands.map fun x => p x.var))) ∧
      ∀ q : Assignment, m.SatisfiesAdded m' q →
        q r.var = e.pick (operands.map fun x => q x.var) ∧
        ((templateSelectors m operands.length).map q).count 0 = 1 ∧
        ∀ x d, (x, d) ∈ operands.zip (templateSelectors m operands.length) → q d = 0 →
          q x.var = q r.var := by
  refine ⟨⟨fun ⟨r, m', hrun⟩ => ?_, fun ⟨hvalid, hroom⟩ => ?_⟩, fun r m' hrun => ?_⟩
  · exact ⟨(addTo_eq_ok.mp hrun).1, (extends_of_addTo htwo hresolve hrun).2.1⟩
  · exact exists_addTo htwo hoperands hresolve Exact.isFinite_fin hvalid hroom
  obtain ⟨rfl, -, hextends, hvars⟩ := extends_of_addTo htwo hresolve hrun
  have hformed := Gate.template_formed (e := e) m.vars.size htwo hresolve
  have hsolution := fun q => hextends.solution (p := q) hformed hlimit
  refine ⟨rfl, hvars, ?_, fun p => ⟨?_, fun ⟨hspread, hcontains⟩ => ?_⟩, fun q hadded => ?_⟩
  · obtain ⟨constraints, -, hgrows⟩ := hextends
    exact ⟨constraints, hgrows.constraints_eq.symm⟩
  · rintro ⟨q, hsame, hadded⟩
    have hvalues : (operands.map fun x => q x.var) = operands.map fun x => p x.var :=
      List.map_congr_left fun x hx => hsame _ (hoperands x hx).1
    obtain ⟨hpicks, hclose, -, -⟩ := hsolution q hadded
    rw [← hvalues]
    refine ⟨spread_le_of_picks hpicks (List.forall_mem_map.mpr hclose), ?_⟩
    rw [← hpicks.eq_pick]
    exact (hextends.allows_template hadded).2
  · exact ⟨(Gate.template e limit operands m.vars.size).settle p,
      fun v hv => Gate.settle_of_not_adds fun hadds => Nat.not_le.mpr hv hadds.1,
      hextends.settled hformed (fun x hx => (hoperands x hx).1) hspread hcontains⟩
  · obtain ⟨hpicks, -, hcount, hattains⟩ := hsolution q hadded
    exact ⟨hpicks.eq_pick, hcount, hattains⟩

/-- A model with two real variables. -/
def twoReals : StoredModel Exact :=
  { StoredModel.empty with
    vars := #[⟨"x", .continuous, ⟨.fin 0, .fin 4⟩, none⟩,
      ⟨"y", .continuous, ⟨.fin 1, .fin 3⟩, none⟩] }

/-- The minimum of the two variables, with a constant that is smaller than the spread of their
ranges. Values that are close are admitted, and values that are not are cut off. -/
theorem addTo_exact_of_twoReals :
    ∃ r m', min.addTo StoredModel.solver "r" [⟨⟨0⟩, ⟨.fin 0, .fin 4⟩⟩, ⟨⟨1⟩, ⟨.fin 1, .fin 3⟩⟩]
        (.constant (.fin 2)) twoReals = (.ok r, m') ∧
      (∃ q : Assignment, q ⟨0⟩ = 4 ∧ q ⟨1⟩ = 3 ∧ twoReals.SatisfiesAdded m' q) ∧
      ¬ ∃ q : Assignment, q ⟨0⟩ = 0 ∧ q ⟨1⟩ = 3 ∧ twoReals.SatisfiesAdded m' q := by
  obtain ⟨hadds, hadded⟩ := addTo_exact .min "r"
    [⟨⟨0⟩, ⟨.fin 0, .fin 4⟩⟩, ⟨⟨1⟩, ⟨.fin 1, .fin 3⟩⟩] (.constant (.fin 2)) twoReals 2 (by decide)
    (by simp [twoReals]) rfl (by norm_num)
  obtain ⟨r, m', hrun⟩ := hadds.mpr ⟨rfl, .of_none rfl _⟩
  obtain ⟨hr, -, -, hiff, -⟩ := hadded r m' hrun
  have hbounds : r.bounds = ⟨.fin 0, .fin 3⟩ := by
    rw [hr]
    rfl
  refine ⟨r, m', hrun, ?_, ?_⟩
  · obtain ⟨q, hsame, hq⟩ := (hiff fun v => if v.index = 0 then 4 else 3).mpr
      (by rw [hbounds]; norm_num [pick, sign])
    exact ⟨q, hsame ⟨0⟩ (by decide), hsame ⟨1⟩ (by decide), hq⟩
  · rintro ⟨q, hx, hy, hq⟩
    have hspread := ((hiff q).mp ⟨q, fun _ _ => rfl, hq⟩).1
    norm_num [pick, sign, hx, hy] at hspread

end Extremum

end SignalTemporalLogic
