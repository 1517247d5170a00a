import SignalTemporalLogic.Proofs.Elections
import SignalTemporalLogic.Proofs.SwitchSearch

/-!
Cascades: how far propagation gets in so many rounds. A gate whose operands have one value needs
three rounds: the first one limits its result by all operands, the second one decides its selectors,
and the third one leaves a single value to the result. The next layer of gates begins two rounds
later. So a number of rounds settles half as many layers, up to the first selector that is truly
free.
-/

namespace SignalTemporalLogic

/-- The result of an extreme is no less extreme than its operands. -/
def Gate.Capped (p : Assignment) : Gate → Prop
  | extreme e _ inputs r _ => ∀ x ∈ inputs, e.sign * p r ≤ e.sign * p x.var
  | _ => True

namespace Gate

/-- The result stands for an expression of at most so many layers. -/
def Within (gates : List Gate) (g : Gate) (layers : Nat) : Prop :=
  ∃ u : Unrolled Exact, u.DenotedBy gates g.output ∧ u.layers ≤ layers

namespace Laid

variable {bigM : BigM Exact} {gates : List Gate} {g : Gate} {layers : Nat}

theorem eq_of_output (h : Laid bigM gates) (hg : g ∈ gates) {g' : Gate} (hg' : g' ∈ gates)
    (he : g.output.var = g'.output.var) : g = g' :=
  h.eq_of_adds hg hg' g.adds_output (he ▸ g'.adds_output)

/-- The operands of an extreme are a layer below it. -/
theorem within_of_extreme (h : Laid bigM gates) {e : Extremum} {m : Exact}
    {inputs : List (Encoded Exact VarId)} {r : VarId} {selectors : List VarId}
    (hg : .extreme e m inputs r selectors ∈ gates)
    (hwithin : (extreme e m inputs r selectors).Within gates layers) :
    ∃ below, layers = below + 1 ∧
      ∀ g' : Gate, g'.output ∈ inputs → g'.Within gates below := by
  obtain ⟨u, hu, hle⟩ := hwithin
  cases u with
  | signal source t =>
    obtain ⟨terms, constant, y, hmem, hy⟩ := hu
    cases h.eq_of_output hg hmem (congrArg Encoded.var hy)
  | negation arg =>
    obtain ⟨operand, y, hmem, -, hy⟩ := hu
    cases h.eq_of_output hg hmem (congrArg Encoded.var hy)
  | extreme e' args =>
    obtain ⟨m', inputs', r', selectors', hmem, hargs, hr⟩ := hu
    cases h.eq_of_output hg hmem (congrArg Encoded.var hr)
    have hpos : Unrolled.listLayers args + 1 ≤ layers := hle
    refine ⟨layers - 1, by omega, fun g' hx => ?_⟩
    obtain ⟨arg, harg, hdenoted⟩ :=
      (exists_of_forall₂ (Unrolled.listDenotedBy_iff.mp hargs)).2 _ hx
    exact ⟨arg, hdenoted,
      (Unrolled.listLayers_le_iff.mp (Nat.le_refl _) arg harg).trans (by omega)⟩

theorem within_of_operand (h : Laid bigM gates) (hg : g ∈ gates) (hwithin : g.Within gates layers)
    {g' : Gate} (hx : g'.output ∈ g.operands) : g'.Within gates layers := by
  cases g with
  | signal => cases hx
  | negation operand y =>
    obtain he := List.mem_singleton.mp hx
    obtain ⟨u, hu, hle⟩ := hwithin
    cases u with
    | signal source t =>
      obtain ⟨terms, constant, y, hmem, hy⟩ := hu
      cases h.eq_of_output hg hmem (congrArg Encoded.var hy)
    | negation arg =>
      obtain ⟨operand', y', hmem, harg, hy⟩ := hu
      cases h.eq_of_output hg hmem (congrArg Encoded.var hy)
      exact ⟨arg, he ▸ harg, hle⟩
    | extreme e' args =>
      obtain ⟨m', inputs', r', selectors', hmem, -, hr⟩ := hu
      cases h.eq_of_output hg hmem (congrArg Encoded.var hr)
  | extreme e m inputs r selectors =>
    obtain ⟨below, rfl, hbelow⟩ := h.within_of_extreme hg hwithin
    obtain ⟨u, hu, hle⟩ := hbelow g' hx
    exact ⟨u, hu, hle.trans (Nat.le_succ below)⟩

end Laid

end Gate

/-- A switch is open, or it has a single value. -/
theorem Bounds.Switch.eq_or_point {b : Bounds Exact} (h : b.Switch) {x : Rat}
    (hx : b.Contains x) : b = ⟨.fin 0, .fin 1⟩ ∨ b = .point (.fin x) := by
  rcases h with rfl | ⟨n, rfl⟩
  · exact .inl rfl
  · rw [contains_point.mp hx]
    exact .inr rfl

namespace StoredModel

variable {m : StoredModel Exact} {bigM : BigM Exact} {gates : List Gate} {g : Gate}
  {cs cs' : List (Constraint Exact)} {n n' : Narrowing Exact} {box box' : Box Exact}
  {p : Assignment} {d v : VarId} {x : Rat}

/-! ## Sweeps -/

theorem Passes.exists_applies (h : m.Passes cs n n') (hpopulated : n.box.Populated)
    {c : Constraint Exact} (hc : c ∈ cs) : ∃ n₁ n₂, m.Narrows n.box n₁.box ∧ m.Applies c n₁ n₂ ∧
      m.Narrows n₂.box n'.box := by
  obtain ⟨before, after, rfl⟩ := List.append_of_mem hc
  obtain ⟨n₁, h₁, h₂⟩ := h.of_append
  have hnarrows := (h₁.tightens hpopulated).toNarrows
  cases h₂ with
  | cons happlies hrest =>
    exact ⟨n₁, _, hnarrows, happlies, (hrest.tightens happlies.populated).toNarrows⟩

section Values

variable (h : m.Passes cs n n') (hpopulated : n.box.Populated) {s : Statement}
  {statements : List Statement} (hstores : List.Forall₂ Statement.Stores statements cs)
  (hs : s ∈ statements) (hx : (n'.box.range v).Contains x)

include h hpopulated hstores hs hx

/-- Every value that is left goes together with values that satisfy an inequality. -/
theorem Passes.exists_holds (hrelation : s.relation ≠ .equal) :
    ∃ q, n.box.Has q ∧ q v = x ∧ s.Holds q := by
  obtain ⟨c, hc, hstored⟩ := (exists_of_forall₂ hstores).1 s hs
  obtain ⟨n₁, n₂, hbefore, happlies, hafter⟩ := h.exists_applies hpopulated hc
  have hx₂ := hafter.shrinks v x hx
  obtain ⟨q, hq, hqx, hholds⟩ : ∃ q, n₁.box.Has q ∧ q v = x ∧ c.Holds q := by
    unfold Constraint.Holds
    rw [← hstored.relation_eq] at hrelation
    cases hc : c.relation with
    | equal => exact absurd hc hrelation
    | lessEqual => exact happlies.below v x (hc ▸ nofun) hx₂
    | greaterEqual => exact happlies.above v x (hc ▸ nofun) hx₂
  exact ⟨q, fun u => hbefore.shrinks u _ (hq u), hqx, (hstored.holds_iff q).mp hholds⟩

/-- An equation limits from both sides. -/
theorem Passes.exists_le_and_ge (hrelation : s.relation = .equal) :
    (∃ q, n.box.Has q ∧ q v = x ∧ s.lhs.valueAt q ≤ s.rhs.valueAt q) ∧
      ∃ q, n.box.Has q ∧ q v = x ∧ s.rhs.valueAt q ≤ s.lhs.valueAt q := by
  obtain ⟨c, hc, hstored⟩ := (exists_of_forall₂ hstores).1 s hs
  obtain ⟨n₁, n₂, hbefore, happlies, hafter⟩ := h.exists_applies hpopulated hc
  have hx₂ := hafter.shrinks v x hx
  have hequal : c.relation = .equal := hstored.relation_eq.trans hrelation
  obtain ⟨q, hq, hqx, hbelow⟩ := happlies.below v x (hequal ▸ nofun) hx₂
  obtain ⟨r, hr, hrx, habove⟩ := happlies.above v x (hequal ▸ nofun) hx₂
  have hsubq := hstored.sub_eq q
  have hsubr := hstored.sub_eq r
  exact ⟨⟨q, fun u => hbefore.shrinks u _ (hq u), hqx, by linarith⟩,
    ⟨r, fun u => hbefore.shrinks u _ (hr u), hrx, by linarith⟩⟩

end Values

/-- Constraints of the model are applied to a box. -/
structure Sweeps (m : StoredModel Exact) (cs : List (Constraint Exact)) (n n' : Narrowing Exact) :
    Prop where
  run : cs.foldlM m.tightenConstraint n = some n'
  stored : ∀ c ∈ cs, c ∈ m.constraints
  size_eq : n.box.size = m.vars.size
  populated : n.box.Populated

namespace Sweeps

section Basics

variable (hwired : m.Wired bigM gates)

include hwired

theorem passes (h : m.Sweeps cs n n') : m.Passes cs n n' :=
  passes_of_foldlM hwired.tolerance_eq
    (fun c hc => h.size_eq.symm ▸ hwired.normal c (h.stored c hc)) h.populated h.run

theorem narrows (h : m.Sweeps cs n n') : m.Narrows n.box n'.box :=
  ((h.passes hwired).tightens h.populated).toNarrows

/-- Solutions stay. -/
theorem keeps (h : m.Sweeps cs n n') (hsat : m.Satisfies p) (hp : n.box.Has p) : n'.box.Has p := by
  have htolerance : (0 : Exact) ≤ m.tolerance :=
    hwired.tolerance_eq ▸ Exact.fin_le_fin.mpr (le_refl 0)
  obtain ⟨n₁, hrun, -, hp₁⟩ := exists_foldlM_of_step
    (P := fun n : Narrowing Exact => n.box.size = m.vars.size ∧ n.box.Has p)
    (fun n ⟨hsize, hp⟩ c hc => by
      obtain ⟨n', hrun, hsize', hp'⟩ := tightenConstraint_keeps htolerance
        (hsize.symm ▸ hwired.normal c (h.stored c hc)) hp hsat.whole (hsat.holds c (h.stored c hc))
      exact ⟨n', hrun, hsize'.trans hsize, hp'⟩) ⟨h.size_eq, hp⟩
  obtain rfl := Option.some.inj (hrun.symm.trans h.run)
  exact hp₁

theorem of_append (h : m.Sweeps (cs ++ cs') n n') :
    ∃ n₁, m.Sweeps cs n n₁ ∧ m.Sweeps cs' n₁ n' := by
  obtain ⟨hrun, hstored, hsize, hpopulated⟩ := h
  obtain ⟨hstored₁, hstored₂⟩ := List.forall_mem_append.mp hstored
  rw [List.foldlM_append, Option.bind_eq_bind, Option.bind_eq_some_iff] at hrun
  obtain ⟨n₁, hrun₁, hrun₂⟩ := hrun
  have h₁ : m.Sweeps cs n n₁ := ⟨hrun₁, hstored₁, hsize, hpopulated⟩
  have hnarrows := h₁.narrows hwired
  exact ⟨n₁, h₁, hrun₂, hstored₂, hnarrows.size_eq.trans hsize, hnarrows.populated⟩

end Basics

end Sweeps

/-! ## Boxes of switches -/

/-- Both values of the variable have a solution in the box. -/
def Undecided (m : StoredModel Exact) (box : Box Exact) (v : VarId) : Prop :=
  (∃ p, m.Satisfies p ∧ box.Has p ∧ p v = 0) ∧ ∃ p, m.Satisfies p ∧ box.Has p ∧ p v = 1

/-- A box with a solution, in which selectors are switches, and all that no gate adds has one
value. -/
structure Alive (m : StoredModel Exact) (gates : List Gate) (box : Box Exact) : Prop where
  size_eq : box.size = m.vars.size
  solved : ∃ p, m.Satisfies p ∧ box.Has p
  fixed : ∀ v, v.index < m.vars.size → (∀ g ∈ gates, ¬ g.Adds v) → ∃ q, box.Pins v q
  switches : ∀ g ∈ gates, ∀ d ∈ g.switches, (box.range d).Switch

theorem Undecided.mono (h : m.Undecided box v)
    (hkeeps : ∀ p, m.Satisfies p → box.Has p → box'.Has p) : m.Undecided box' v := by
  obtain ⟨⟨p, hsat, hp, hzero⟩, q, hsat', hq, hone⟩ := h
  exact ⟨⟨p, hsat, hkeeps p hsat hp, hzero⟩, q, hsat', hkeeps q hsat' hq, hone⟩

namespace Alive

theorem populated (h : m.Alive gates box) : box.Populated := by
  obtain ⟨p, -, hp⟩ := h.solved
  exact fun v => ⟨p v, hp v⟩

theorem sources (h : m.Alive gates box) (hwired : m.Wired bigM gates) (hg : g ∈ gates)
    (hv : v ∈ g.sources) : ∃ q, box.Pins v q :=
  h.fixed v (hwired.known g hg v hv) (hwired.laid.apart g hg v hv)

theorem narrowed (h : m.Alive gates box) (hwired : m.Wired bigM gates)
    (hnarrows : m.Narrows box box') (hkeeps : ∀ p, m.Satisfies p → box.Has p → box'.Has p) :
    m.Alive gates box' where
  size_eq := hnarrows.size_eq.trans h.size_eq
  solved := h.solved.imp fun p ⟨hsat, hp⟩ => ⟨hsat, hkeeps p hsat hp⟩
  fixed v hv hadds := (h.fixed v hv hadds).imp fun _ hq => hnarrows.pins hq
  switches g hg d hd := (h.switches g hg d hd).of_part
    (hnarrows.integral d (hwired.isBinary hg hd) (h.switches g hg d hd).integralEnds)
    (hnarrows.populated d) (hnarrows.shrinks d)

theorem swept (h : m.Alive gates n.box) (hwired : m.Wired bigM gates) (hsweeps : m.Sweeps cs n n') :
    m.Alive gates n'.box :=
  h.narrowed hwired (hsweeps.narrows hwired) fun _ hsat hp => hsweeps.keeps hwired hsat hp

/-- A selector is decided, or its range is still that from zero to one. -/
theorem pins_or_open (h : m.Alive gates box) (hwired : m.Wired bigM gates) (hg : g ∈ gates)
    (hd : d ∈ g.switches) :
    (box.Pins d 0 ∨ box.Pins d 1) ∨ box.range d = ⟨.fin 0, .fin 1⟩ := by
  obtain ⟨p, hsat, hp⟩ := h.solved
  rcases (h.switches g hg d hd).eq_or_point (hp d) with hopen | hpoint
  · exact .inr hopen
  · have hpins := Box.pins_of_point hpoint
    rcases hwired.decided hsat hg d hd with hzero | hone
    · exact .inl (.inl (hzero ▸ hpins))
    · exact .inl (.inr (hone ▸ hpins))

end Alive

/-! ## One gate -/

section Pairs

variable (hwired : m.Wired bigM gates) {e : Extremum} {big : Exact}
  {inputs : List (Encoded Exact VarId)} {r : VarId} {selectors : List VarId}
  (hg : .extreme e big inputs r selectors ∈ gates)
  (hstores : List.Forall₂ Statement.Stores
    ((inputs.zip selectors).flatMap fun (x, d) => Gate.pairStatements e big r x.var d) cs)
  (h : m.Sweeps cs n n') (hinputs : ∀ x ∈ inputs, ∃ q, n.box.Pins x.var q)

include hwired hg hstores h hinputs

/-- The first round limits the result by all operands. -/
theorem Sweeps.caps {q : Assignment} (hq : n'.box.Has q) :
    (Gate.extreme e big inputs r selectors).Capped q := by
  intro x hx
  have hlength : selectors.length = inputs.length := by
    obtain ⟨-, hselectors, -, -⟩ := hwired.laid.formed _ hg
    simp [hselectors]
  obtain ⟨i, hi, rfl⟩ := List.mem_iff_getElem.mp hx
  have hpair : (inputs[i], selectors[i]) ∈ inputs.zip selectors :=
    List.mem_iff_getElem.mpr ⟨i, by simp; omega, by simp⟩
  obtain ⟨q', hq', hr, hholds⟩ := (h.passes hwired).exists_holds h.populated hstores
    (List.mem_flatMap.mpr ⟨_, hpair, List.mem_cons_self⟩) (hq r) (by cases e <;> nofun)
  obtain ⟨a, ha⟩ := hinputs _ hx
  have hsame : q' inputs[i].var = q inputs[i].var :=
    (ha _ (hq' _)).trans (ha _ ((h.narrows hwired).shrinks _ _ (hq _))).symm
  rw [Gate.bound_holds, hr, hsame] at hholds
  exact hholds

/-- Only selectors of operands that attain the extreme are left the value zero. -/
theorem Sweeps.attains_of_zero
    (hcapped : ∀ q, n.box.Has q → (Gate.extreme e big inputs r selectors).Capped q)
    {x : Encoded Exact VarId} (hpair : (x, d) ∈ inputs.zip selectors)
    (hzero : (n'.box.range d).Contains 0) (hsat : m.Satisfies p) (hp : n.box.Has p) :
    e.sign * p x.var ≤ e.sign * p r := by
  have hformed := hwired.laid.formed _ hg
  obtain ⟨-, -, -, hfinite⟩ := id hformed
  obtain ⟨b, rfl⟩ := Exact.isFinite_iff.mp hfinite
  have hsame : ∀ q, n.box.Has q → ∀ x ∈ inputs, q x.var = p x.var := fun q hq x hx => by
    obtain ⟨a, ha⟩ := hinputs x hx
    exact (ha _ (hq _)).trans (ha _ (hp _)).symm
  obtain ⟨q, hq, hqd, hholds⟩ := (h.passes hwired).exists_holds h.populated hstores
    (List.mem_flatMap.mpr ⟨_, hpair, List.mem_cons_of_mem _ List.mem_cons_self⟩) hzero
    (by cases e <;> nofun)
  rw [Gate.relaxed_holds, hqd, mul_zero, add_zero, hsame q hq x (List.of_mem_zip hpair).1] at hholds
  -- the result of the solution is one of the operands, which limits all results in the box
  obtain ⟨y, hy, hyr⟩ := List.mem_map.mp (Gate.computes_of_holds hformed (hwired.holds hsat hg)
    (hwired.decided hsat hg)).1
  have hcap := hcapped q hq y hy
  rw [hsame q hq y hy, hyr] at hcap
  exact hholds.trans hcap

/-- If one selector is left zero and the others are left one, then a solution in the box says so. -/
theorem Sweeps.exists_elect (halive : m.Alive gates n.box)
    (hcapped : ∀ q, n.box.Has q → (Gate.extreme e big inputs r selectors).Capped q)
    (hd : d ∈ selectors) (hzero : (n'.box.range d).Contains 0)
    (hone : ∀ v ∈ selectors, v ≠ d → (n'.box.range v).Contains 1) :
    ∃ p, m.Satisfies p ∧ n'.box.Has p ∧ p d = 0 ∧ ∀ v ∈ selectors, v ≠ d → p v = 1 := by
  obtain ⟨p, hsat, hp⟩ := halive.solved
  obtain ⟨x, -, hpair⟩ := (Gate.exists_pair (hwired.laid.formed _ hg)).1 d hd
  have hattains := h.attains_of_zero hwired hg hstores hinputs hcapped hpair hzero hsat hp
  set g := Gate.extreme e big inputs r selectors with hdef
  have hself : g.elect p d d = 0 := Gate.elect_self hd
  have hothers : ∀ v ∈ selectors, v ≠ d → g.elect p d v = 1 := fun v hv hne =>
    Gate.elect_of_ne hv hne
  refine ⟨g.elect p d, hwired.satisfies_elect hg hsat hpair hattains, fun v => ?_, hself, hothers⟩
  by_cases hv : v ∈ g.switches
  · by_cases hvd : v = d
    · rw [hvd, hself]
      exact hzero
    · rw [hothers v hv hvd]
      exact hone v hv hvd
  · rw [Gate.elect_of_not_mem hv]
    exact h.keeps hwired hsat hp v

end Pairs

section Choice

variable (hwired : m.Wired bigM gates) {e : Extremum} {big : Exact}
  {inputs : List (Encoded Exact VarId)} {r : VarId} {selectors : List VarId}
  (hg : .extreme e big inputs r selectors ∈ gates)

include hwired hg

/-- No more than one is left to a selector, and less than one only together with zero. -/
theorem Alive.contains_switch (h : m.Alive gates box) (hd : d ∈ selectors)
    (hx : (box.range d).Contains x) : x ≤ 1 ∧ (x < 1 → (box.range d).Contains 0) := by
  rcases h.pins_or_open hwired hg hd with (hzero | hone) | hopen
  · obtain rfl := hzero x hx
    exact ⟨zero_le_one, fun _ => hx⟩
  · obtain rfl := hone x hx
    exact ⟨le_refl 1, fun hlt => absurd hlt (lt_irrefl 1)⟩
  · rw [hopen, Bounds.contains_fin] at hx ⊢
    exact ⟨hx.2, fun _ => ⟨le_refl 0, zero_le_one⟩⟩

/-- What the count of the selectors leaves open, it leaves with one for all others and with zero for
one of them. -/
theorem Sweeps.leaves_others
    (hstores : List.Forall₂ Statement.Stores [Gate.countStatement selectors] cs)
    (h : m.Sweeps cs n n') (halive : m.Alive gates n.box) (hd : d ∈ selectors)
    (hzero : (n'.box.range d).Contains 0) (hone : (n'.box.range d).Contains 1) :
    (∀ v ∈ selectors, v ≠ d → (n.box.range v).Contains 1) ∧
      ∃ v ∈ selectors, v ≠ d ∧ (n.box.range v).Contains 0 := by
  have hpasses := h.passes hwired
  obtain ⟨-, q, hq, hqd, hge⟩ := hpasses.exists_le_and_ge h.populated hstores
    (List.mem_singleton_self _) hzero rfl
  obtain ⟨⟨q', hq', hqd', hle⟩, -⟩ := hpasses.exists_le_and_ge h.populated hstores
    (List.mem_singleton_self _) hone rfl
  have hne : selectors ≠ [] := List.ne_nil_of_mem hd
  rw [Gate.countStatement_lhs, Gate.countStatement_rhs hne] at hge hle
  constructor
  · intro v hv hvd
    have hvalue := eq_one_of_sum_ge hd hqd
      (fun v hv => (halive.contains_switch hwired hg hv (hq v)).1) hge hv hvd
    exact hvalue ▸ hq v
  · obtain ⟨other, hother, hlt⟩ := exists_lt_one_of_sum_le hle
    refine ⟨other, hother, ?_, (halive.contains_switch hwired hg hother (hq' other)).2 hlt⟩
    rintro rfl
    rw [hqd'] at hlt
    exact lt_irrefl 1 hlt

/-- **The second round decides a selector, or it is truly free.** -/
theorem Sweeps.ripens
    (hstores : List.Forall₂ Statement.Stores (Gate.extreme e big inputs r selectors).statements cs)
    (h : m.Sweeps cs n n') (halive : m.Alive gates n.box)
    (hinputs : ∀ x ∈ inputs, ∃ q, n.box.Pins x.var q)
    (hcapped : ∀ q, n.box.Has q → (Gate.extreme e big inputs r selectors).Capped q)
    (hd : d ∈ selectors) :
    (n'.box.Pins d 0 ∨ n'.box.Pins d 1) ∨ m.Undecided n'.box d := by
  obtain ⟨pairs, count, rfl, hpairs, hcount⟩ := exists_append_of_forall₂ hstores
  obtain ⟨n₁, hfirst, hlast⟩ := h.of_append hwired
  have halive₁ := halive.swept hwired hfirst
  have hshrinks := (hlast.narrows hwired).shrinks
  refine ((halive₁.swept hwired hlast).pins_or_open hwired hg hd).imp_right fun hopen => ?_
  have hzero : (n'.box.range d).Contains 0 := by
    rw [hopen, Bounds.contains_fin]
    exact ⟨le_refl 0, zero_le_one⟩
  have hone : (n'.box.range d).Contains 1 := by
    rw [hopen, Bounds.contains_fin]
    exact ⟨zero_le_one, le_refl 1⟩
  obtain ⟨hones, other, hother, hod, hleft⟩ :=
    hlast.leaves_others hwired hg hcount halive₁ hd hzero hone
  obtain ⟨p, hsat, hp, hpd, -⟩ := hfirst.exists_elect hwired hg hpairs hinputs halive hcapped hd
    (hshrinks d _ hzero) hones
  -- the solution in which the selector is one has its zero elsewhere
  have hones' : ∀ v ∈ selectors, v ≠ other → (n₁.box.range v).Contains 1 := by
    intro v hv _
    by_cases hvd : v = d
    · exact hvd ▸ hshrinks d _ hone
    · exact hones v hv hvd
  obtain ⟨p', hsat', hp', -, hothers⟩ :=
    hfirst.exists_elect hwired hg hpairs hinputs halive hcapped hother hleft hones'
  exact ⟨⟨p, hsat, hlast.keeps hwired hsat hp, hpd⟩,
    p', hsat', hlast.keeps hwired hsat' hp', hothers d hd hod.symm⟩

end Choice

/-! ## Layers -/

/-- No binary variable below the index is truly free. -/
def Calm (m : StoredModel Exact) (box : Box Exact) (i : Nat) : Prop :=
  ∀ v, v.index < i → m.isBinary v = true → ¬ m.Undecided box v

theorem Calm.mono {i j : Nat} (h : m.Calm box' j)
    (hkeeps : ∀ p, m.Satisfies p → box.Has p → box'.Has p) (hle : i ≤ j) : m.Calm box i :=
  fun v hv hbinary hundecided => h v (hv.trans_le hle) hbinary (hundecided.mono hkeeps)

/-- How far propagation got with a gate, unless a selector before the gate is truly free. -/
structure Advanced (m : StoredModel Exact) (box : Box Exact) (g : Gate) (stage : Nat) : Prop where
  capped : 1 ≤ stage → m.Calm box g.output.var.index → ∀ q, box.Has q → g.Capped q
  ripe : 2 ≤ stage → m.Calm box g.output.var.index →
    ∀ d ∈ g.switches, (box.Pins d 0 ∨ box.Pins d 1) ∨ m.Undecided box d
  settled : 3 ≤ stage → m.Calm box (g.output.var.index + g.shapes.length) →
    ∃ q, box.Pins g.output.var q

theorem Advanced.later {stage : Nat} (h : m.Advanced box g stage) (hnarrows : m.Narrows box box')
    (hkeeps : ∀ p, m.Satisfies p → box.Has p → box'.Has p) : m.Advanced box' g stage where
  capped hstage hcalm q hq :=
    h.capped hstage (hcalm.mono hkeeps (le_refl _)) q fun v => hnarrows.shrinks v _ (hq v)
  ripe hstage hcalm d hd :=
    (h.ripe hstage (hcalm.mono hkeeps (le_refl _)) d hd).imp
      (Or.imp (fun h => hnarrows.pins h) fun h => hnarrows.pins h) fun h => h.mono hkeeps
  settled hstage hcalm :=
    (h.settled hstage (hcalm.mono hkeeps (le_refl _))).imp fun _ hq => hnarrows.pins hq

theorem Advanced.sooner {stage earlier : Nat} (h : m.Advanced box g stage)
    (hle : earlier ≤ stage) : m.Advanced box g earlier where
  capped hstage := h.capped (hstage.trans hle)
  ripe hstage := h.ripe (hstage.trans hle)
  settled hstage := h.settled (hstage.trans hle)

section OneGate

variable (hwired : m.Wired bigM gates) (hg : g ∈ gates)

include hwired hg

/-- The operands of a gate have one value once their gates are settled. -/
theorem pins_operands (hcalm : m.Calm box g.output.var.index)
    (h : ∀ g' ∈ gates, g'.output ∈ g.operands → m.Advanced box g' 3) :
    ∀ x ∈ g.operands, ∃ q, box.Pins x.var q := by
  intro x hx
  obtain ⟨hlt, g', hg', rfl⟩ := hwired.laid.operands g hg x hx
  exact (h g' hg' hx).settled (le_refl 3)
    (hcalm.mono (fun _ _ hp => hp) (hwired.laid.ends_le hg' hg hlt))

/-- A gate whose selectors are ripe has decided them, unless one of its own is truly free. -/
theorem Advanced.pins_switches (h : m.Advanced box g 2)
    (hcalm : m.Calm box (g.output.var.index + g.shapes.length)) :
    ∀ d ∈ g.switches, box.Pins d 0 ∨ box.Pins d 1 := by
  intro d hd
  have hbefore := hcalm.mono (fun _ _ hp => hp) (Nat.le_add_right _ _)
  have hlt := (Gate.adds_of_switch (hwired.laid.formed g hg) hd).1.2
  exact (h.ripe (le_refl 2) hbefore d hd).resolve_right (hcalm d hlt (hwired.isBinary hg hd))

/-- **The third round leaves one value to the result.** -/
theorem Sweeps.settles (hstores : List.Forall₂ Statement.Stores g.statements cs)
    (h : m.Sweeps cs n n') (halive : m.Alive gates n.box)
    (hoperands : ∀ x ∈ g.operands, ∃ q, n.box.Pins x.var q)
    (hswitches : ∀ d ∈ g.switches, n.box.Pins d 0 ∨ n.box.Pins d 1) :
    ∃ q, n'.box.Pins g.output.var q := by
  obtain ⟨p, -, hp⟩ := halive.solved
  have hpins : ∀ v, g.Consults v → n.box.Pins v (p v) := by
    intro v hv
    obtain ⟨q, hq⟩ : ∃ q, n.box.Pins v q := by
      rcases hv with hv | ⟨x, hx, rfl⟩ | hv
      · exact halive.sources hwired hg hv
      · exact hoperands x hx
      · exact (hswitches v hv).elim (fun h => ⟨0, h⟩) fun h => ⟨1, h⟩
    exact hq _ (hp v) ▸ hq
  have hdecided : ∀ d ∈ g.switches, p d = 0 ∨ p d = 1 := fun d hd =>
    (hswitches d hd).imp (fun h => h _ (hp d)) fun h => h _ (hp d)
  exact ⟨_, (h.passes hwired).pins_output hwired.laid hg hstores h.populated hpins hdecided⟩

/-- **One gate in one round.** If the operands are ahead, then the gate gets a stage further. -/
theorem Sweeps.advances {layers rounds : Nat} (hwithin : g.Within gates layers)
    (hstores : List.Forall₂ Statement.Stores g.statements cs) (h : m.Sweeps cs n n')
    (halive : m.Alive gates n.box)
    (hbefore : m.Advanced n.box g (rounds + 2 - 2 * layers))
    (hoperands : ∀ g' ∈ gates, g'.output ∈ g.operands → ∀ below, g'.Within gates below →
      m.Advanced n.box g' (rounds + 3 - 2 * below)) :
    m.Advanced n'.box g (rounds + 3 - 2 * layers) := by
  have hkeeps : ∀ p, m.Satisfies p → n.box.Has p → n'.box.Has p :=
    fun p hsat hp => h.keeps hwired hsat hp
  have hpinned : ∀ below, 2 * below ≤ rounds →
      (∀ g' : Gate, g'.output ∈ g.operands → g'.Within gates below) →
      m.Calm n'.box g.output.var.index → ∀ x ∈ g.operands, ∃ q, n.box.Pins x.var q :=
    fun below hstage hbelow hcalm =>
      pins_operands hwired hg (hcalm.mono hkeeps (le_refl _)) fun g' hg' hx =>
        (hoperands g' hg' hx below (hbelow g' hx)).sooner (by omega)
  refine ⟨fun hstage hcalm q hq => ?_, fun hstage hcalm d hd => ?_, fun hstage hcalm => ?_⟩
  · -- the operands of an extreme are settled already, a layer below
    cases g with
    | signal | negation => trivial
    | extreme e big inputs r selectors =>
      obtain ⟨below, rfl, hbelow⟩ := hwired.laid.within_of_extreme hg hwithin
      have hinputs := hpinned below (by omega) hbelow hcalm
      obtain ⟨pairs, count, rfl, hpairs, -⟩ := exists_append_of_forall₂ hstores
      obtain ⟨n₁, hfirst, hlast⟩ := h.of_append hwired
      exact hfirst.caps hwired hg hpairs hinputs fun v => (hlast.narrows hwired).shrinks v _ (hq v)
  · cases g with
    | signal | negation => cases hd
    | extreme e big inputs r selectors =>
      obtain ⟨below, rfl, hbelow⟩ := hwired.laid.within_of_extreme hg hwithin
      exact h.ripens hwired hg hstores halive (hpinned below (by omega) hbelow hcalm)
        (hbefore.capped (by omega) (hcalm.mono hkeeps (le_refl _))) hd
  · have hinputs := hpinned layers (by omega)
      (fun g' hx => hwired.laid.within_of_operand hg hwithin hx)
      (hcalm.mono (fun _ _ hp => hp) (Nat.le_add_right _ _))
    have hripe : m.Advanced n.box g 2 := hbefore.sooner (by omega)
    exact h.settles hwired hg hstores halive hinputs
      (hripe.pins_switches hwired hg (hcalm.mono hkeeps (le_refl _)))

end OneGate

/-- Every gate is as far as so many rounds take it. -/
def Reached (m : StoredModel Exact) (gates : List Gate) (box : Box Exact) (rounds : Nat) : Prop :=
  ∀ g ∈ gates, ∀ layers, g.Within gates layers → m.Advanced box g (rounds + 2 - 2 * layers)

/-- **One round takes every gate a stage further**, in the order of the gates. -/
theorem Sweeps.reached (hwired : m.Wired bigM gates) {before after : List Gate} {rounds : Nat}
    (hgates : gates = before ++ after)
    (hstores : List.Forall₂ Statement.Stores (before.flatMap Gate.statements) cs)
    (h : m.Sweeps cs n n') (halive : m.Alive gates n.box) (hstart : m.Reached gates n.box rounds) :
    ∀ g ∈ before, ∀ layers, g.Within gates layers →
      m.Advanced n'.box g (rounds + 3 - 2 * layers) := by
  induction before using List.reverseRecOn generalizing cs n' after with
  | nil => simp
  | append_singleton before g ih =>
    have hg : g ∈ gates := by simp [hgates]
    rw [List.flatMap_append, List.flatMap_singleton] at hstores
    obtain ⟨earlier, own, rfl, hearlier, hown⟩ := exists_append_of_forall₂ hstores
    obtain ⟨n₁, h₁, h₂⟩ := h.of_append hwired
    have hold := ih (by rw [hgates, List.append_assoc]) hearlier h₁
    have hlater : ∀ g' stage, m.Advanced n₁.box g' stage → m.Advanced n'.box g' stage :=
      fun g' stage hadvanced => hadvanced.later (h₂.narrows hwired) fun _ hsat hp =>
        h₂.keeps hwired hsat hp
    refine List.forall_mem_append.mpr ⟨fun g' hg' layers hwithin =>
      hlater g' _ (hold g' hg' layers hwithin), List.forall_mem_singleton.mpr fun layers hwithin =>
      h₂.advances hwired hg hwithin hown (halive.swept hwired h₁)
        ((hstart g hg layers hwithin).later (h₁.narrows hwired) fun _ hsat hp =>
          h₁.keeps hwired hsat hp) fun g' hg' hx below hbelow => hold g' ?_ below hbelow⟩
    -- the gate of an operand comes before
    have hlt := (hwired.laid.operands g hg _ hx).1
    have hincreasing := hwired.laid.increasing
    rw [hgates] at hg' hincreasing
    refine (List.mem_append.mp
      ((List.mem_append.mp hg').resolve_right fun hmem => ?_)).resolve_right fun hmem => ?_
    · have hle := (List.pairwise_append.mp hincreasing).2.2 g (by simp) g' hmem
      omega
    · rw [List.mem_singleton.mp hmem] at hlt
      exact Nat.lt_irrefl _ hlt

section Rounds

variable (hwired : m.Wired bigM gates) {rounds : Nat}

theorem Alive.sweeps (h : m.Alive gates box) (hround : m.propagateRound box = some n') :
    m.Sweeps m.constraints.toList ⟨box, false⟩ n' where
  run := by
    rw [← hround, propagateRound, ← Array.foldlM_toList]
  stored _ hc := Array.mem_toList_iff.mp hc
  size_eq := h.size_eq
  populated := h.populated

include hwired

theorem Alive.reached_round (h : m.Alive gates box) (hround : m.propagateRound box = some n')
    (hreached : m.Reached gates box rounds) : m.Reached gates n'.box (rounds + 1) :=
  fun g hg layers hwithin => by
    have hadvanced := (h.sweeps hround).reached hwired (List.append_nil gates).symm
      hwired.stored h hreached g hg layers hwithin
    rwa [Nat.add_right_comm]

/-- Rounds that change nothing take every gate further all the same. -/
theorem Alive.reached_of_same (h : m.Alive gates box) (hround : m.propagateRound box = some n')
    (hsame : n'.changed = false) (hreached : m.Reached gates box rounds) (more : Nat) :
    n'.box = box ∧ m.Reached gates box (rounds + more) := by
  have hranges := (((h.sweeps hround).passes hwired).tightens h.populated)
  have hbox : n'.box = box := by
    refine Array.ext hranges.size_eq fun i hi hi' => ?_
    have hrange := (hranges.same hsame).2 ⟨i⟩
    rwa [Box.range_of_lt hi, Box.range_of_lt (v := ⟨i⟩) hi'] at hrange
  refine ⟨hbox, ?_⟩
  induction more with
  | zero => exact hreached
  | succ more ih => exact hbox ▸ h.reached_round hwired hround ih

/-- **Every round takes every gate a stage further.** -/
theorem Alive.reached_of_propagateFor (h : m.Alive gates box) (more : Nat)
    (hreached : m.Reached gates box rounds) (hrun : m.propagateFor more box = some box') :
    m.Alive gates box' ∧ m.Reached gates box' (rounds + more) := by
  induction more generalizing box rounds with
  | zero =>
    obtain rfl : box = box' := Option.some.inj hrun
    exact ⟨h, hreached⟩
  | succ more ih =>
    rw [propagateFor, Option.bind_eq_bind, Option.bind_eq_some_iff] at hrun
    obtain ⟨n, hround, hrun⟩ := hrun
    have halive : m.Alive gates n.box := h.swept hwired (h.sweeps hround)
    split at hrun
    · rw [← Nat.add_assoc, Nat.add_right_comm]
      exact ih halive (h.reached_round hwired hround hreached) hrun
    · next hsame =>
      obtain rfl : n.box = box' := Option.some.inj hrun
      obtain ⟨hbox, hreached⟩ :=
        h.reached_of_same hwired hround (by simpa using hsame) hreached (more + 1)
      exact ⟨halive, hbox ▸ hreached⟩

theorem reached_zero : m.Reached gates box 0 := by
  intro g hg layers hwithin
  cases g with
  | signal | negation =>
    exact ⟨fun _ _ _ _ => trivial, fun _ _ _ hd => absurd hd List.not_mem_nil,
      fun hstage => absurd hstage (by omega)⟩
  | extreme e big inputs r selectors =>
    obtain ⟨below, rfl, -⟩ := hwired.laid.within_of_extreme hg hwithin
    exact ⟨fun hstage => absurd hstage (by omega), fun hstage => absurd hstage (by omega),
      fun hstage => absurd hstage (by omega)⟩

end Rounds

/-! ## What propagation leaves open -/

/-- A box that propagation is done with, up to the first binary variable that is truly free. -/
structure Stable (m : StoredModel Exact) (gates : List Gate) (box : Box Exact) : Prop extends
    Alive m gates box where
  advanced : ∀ g ∈ gates, m.Advanced box g 3

/-- Propagation has the rounds for the layers. -/
theorem Alive.stable_of_propagate (h : m.Alive gates box) (hwired : m.Wired bigM gates)
    {layers : Nat} (hlayers : 2 * layers < maxRounds)
    (hwithin : ∀ g ∈ gates, g.Within gates layers) (hrun : m.propagate box = some box') :
    m.Stable gates box' := by
  obtain ⟨halive, hreached⟩ :=
    h.reached_of_propagateFor hwired maxRounds (reached_zero hwired) hrun
  refine ⟨halive, fun g hg => ?_⟩
  have hadvanced := hreached g hg layers (hwithin g hg)
  exact ⟨fun _ => hadvanced.capped (by omega), fun _ => hadvanced.ripe (by omega),
    fun _ => hadvanced.settled (by omega)⟩

theorem calm_of_pins {i : Nat}
    (h : ∀ v, v.index < i → m.isBinary v = true → ∃ q, box.Pins v q) : m.Calm box i := by
  rintro v hv hbinary ⟨⟨p, -, hp, hzero⟩, p', -, hp', hone⟩
  obtain ⟨q, hq⟩ := h v hv hbinary
  have hsame : p v = p' v := (hq _ (hp v)).trans (hq _ (hp' v)).symm
  rw [hzero, hone] at hsame
  exact zero_ne_one hsame

namespace Stable

/-- **The first binary variable that is left open is truly free.** -/
theorem undecided (h : m.Stable gates box) (hwired : m.Wired bigM gates)
    (hbinary : m.isBinary v = true) (hopen : ¬ ∃ q, box.Pins v q)
    (hfirst : ∀ u, u.index < v.index → m.isBinary u = true → ∃ q, box.Pins u q) :
    m.Undecided box v := by
  obtain ⟨g, hg, hd⟩ := hwired.binary v hbinary
  have hle := (Gate.adds_of_switch (hwired.laid.formed g hg) hd).1.1
  refine ((h.advanced g hg).ripe (by omega)
    ((calm_of_pins hfirst).mono (fun _ _ hp => hp) hle) v hd).resolve_left fun hpins => hopen ?_
  exact hpins.elim (fun h => ⟨0, h⟩) fun h => ⟨1, h⟩

/-- Once all binary variables have one value, so have all variables. -/
theorem pins (h : m.Stable gates box) (hwired : m.Wired bigM gates)
    (hclosed : ∀ u, m.isBinary u = true → ∃ q, box.Pins u q) (hv : v.index < m.vars.size) :
    ∃ q, box.Pins v q := by
  by_cases hadded : ∃ g ∈ gates, g.Adds v
  · obtain ⟨g, hg, hadds⟩ := hadded
    rcases Gate.output_or_switch (hwired.laid.formed g hg) hadds with rfl | hd
    · exact (h.advanced g hg).settled (le_refl 3) (calm_of_pins fun u _ => hclosed u)
    · exact hclosed v (hwired.isBinary hg hd)
  · exact h.fixed v hv fun g hg hadds => hadded ⟨g, hg, hadds⟩

end Stable

end StoredModel

end SignalTemporalLogic
