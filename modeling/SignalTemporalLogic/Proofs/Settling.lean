import Mathlib.Data.List.Induction
import SignalTemporalLogic.Proofs.Ledger

/-!
Settling gates: how values of the samples extend to all variables of a model. One gate after the
other, the result gets its value, the selector of the first operand that attains it zero, and the
other selectors one. This satisfies the gate if the big-M constant spans its operands, and a later
gate changes nothing that an earlier one has to do with.
-/

namespace SignalTemporalLogic

namespace Gate

/-- The variables of samples that the gate reads. -/
def sources : Gate → List VarId
  | signal _ _ terms _ _ => terms.map Prod.snd
  | _ => []

/-- The result for the given values of the operands. -/
def result (p : Assignment) : Gate → Rat
  | signal _ _ terms constant _ => weigh p terms + constant.toRat
  | negation operand _ => -p operand.var
  | extreme e _ inputs _ _ => e.pick (inputs.map fun x => p x.var)

/-- The position of the first operand that attains the result. -/
def attained (p : Assignment) : Gate → Nat
  | extreme e m inputs r selectors =>
    (inputs.map fun x => p x.var).idxOf ((extreme e m inputs r selectors).result p)
  | _ => 0

instance (g : Gate) (v : VarId) : Decidable (g.Adds v) := inferInstanceAs (Decidable (_ ∧ _))

/-- The assignment in which the variables of the gate have their values. -/
def settle (p : Assignment) (g : Gate) : Assignment := fun v =>
  if g.Adds v then
    if v.index = g.output.var.index then g.result p
    else if v.index = g.output.var.index + 1 + g.attained p then 0 else 1
  else p v

variable {p q : Assignment} {g : Gate} {bigM : BigM Exact}

theorem adds_output (g : Gate) : g.Adds g.output.var :=
  ⟨Nat.le_refl _, by cases g <;> simp [shapes]⟩

theorem settle_of_not_adds {v : VarId} (h : ¬ g.Adds v) : g.settle p v = p v := if_neg h

theorem settle_output : g.settle p g.output.var = g.result p := by
  rw [settle, if_pos g.adds_output, if_pos rfl]

theorem settle_selector {i : Nat} (h : i + 1 < g.shapes.length) :
    g.settle p ⟨g.output.var.index + 1 + i⟩ = if i = g.attained p then 0 else 1 := by
  have hadds : g.Adds ⟨g.output.var.index + 1 + i⟩ := ⟨by simp; omega, by simp; omega⟩
  rw [settle, if_pos hadds, if_neg (by simp; omega)]
  simp

/-- The gate says something of its own variables, its operands and its sources only. -/
theorem Holds.congr (h : g.Holds p) (hformed : g.Formed bigM) (hadds : ∀ v, g.Adds v → q v = p v)
    (hoperands : ∀ x ∈ g.operands, q x.var = p x.var) (hsources : ∀ v ∈ g.sources, q v = p v) :
    g.Holds q := by
  have houtput := hadds _ g.adds_output
  cases g with
  | signal source t terms constant y =>
    have hweigh : weigh q terms = weigh p terms :=
      weigh_congr fun t ht => hsources t.2 (List.mem_map_of_mem ht)
    exact holds_signal.mpr (houtput.trans ((holds_signal.mp h).trans (by rw [hweigh])))
  | negation operand y =>
    have hoperand := hoperands operand (List.mem_singleton.mpr rfl)
    exact holds_negation.mpr (houtput.trans ((holds_negation.mp h).trans (by rw [hoperand])))
  | extreme e m inputs r selectors =>
    obtain ⟨htwo, hselectors, -, hm⟩ := hformed
    obtain ⟨m, rfl⟩ := Exact.isFinite_iff.mp hm
    have hlength : selectors.length = inputs.length := by simp [hselectors]
    have hne : selectors ≠ [] := List.length_pos_iff.mp (by omega)
    have hselector : ∀ d ∈ selectors, q d = p d := by
      intro d hd
      rw [hselectors] at hd
      obtain ⟨i, hi, rfl⟩ := List.mem_map.mp hd
      obtain ⟨hle, hlt⟩ := List.mem_range'_1.mp hi
      refine hadds _ ⟨?_, ?_⟩
      · simp only [output]
        omega
      · simp only [output, shapes, List.length_cons, List.length_replicate, hlength]
        omega
    obtain ⟨hpairs, hsum⟩ := (holds_extreme hne).mp h
    refine (holds_extreme hne).mpr ⟨fun x d hmem => ?_, ?_⟩
    · have hpair := hpairs x d hmem
      obtain ⟨hx, hd⟩ := List.of_mem_zip hmem
      rwa [show q r = p r from houtput, hoperands x hx, hselector d hd]
    · rwa [List.map_congr_left hselector]

/-- The big-M constant is at least the difference of any two operands. -/
def Spans (p : Assignment) : Gate → Prop
  | extreme _ m inputs _ _ => ∀ x ∈ inputs, ∀ y ∈ inputs, p x.var - p y.var ≤ m.toRat
  | _ => True

theorem sum_all_but_one {k n : Nat} (h : k < n) :
    ((List.range n).map fun i => if i = k then (0 : Rat) else 1).sum = n - 1 := by
  induction n with
  | zero => omega
  | succ n ih =>
    rw [List.range_succ, List.map_append, List.sum_append]
    rcases Nat.lt_succ_iff_lt_or_eq.mp h with hk | rfl
    · rw [ih hk]
      simp [Nat.ne_of_gt hk]
    · have hone : ((List.range k).map fun i => if i = k then (0 : Rat) else 1) =
          List.replicate k 1 := by
        refine List.eq_replicate_iff.mpr ⟨by simp, fun q hq => ?_⟩
        obtain ⟨i, hi, rfl⟩ := List.mem_map.mp hq
        rw [if_neg (Nat.ne_of_lt (List.mem_range.mp hi))]
      simp [hone]

/-- **Settling a gate satisfies it**, if its constant spans the operands. -/
theorem settle_holds (hformed : g.Formed bigM) (hoperands : ∀ x ∈ g.operands, ¬ g.Adds x.var)
    (hsources : ∀ v ∈ g.sources, ¬ g.Adds v) (hspans : g.Spans p) : g.Holds (g.settle p) := by
  have houtput : g.settle p g.output.var = g.result p := settle_output
  cases g with
  | signal source t terms constant y =>
    refine holds_signal.mpr (houtput.trans (congrArg (· + constant.toRat) (weigh_congr ?_)))
    exact fun t ht => (settle_of_not_adds (hsources t.2 (List.mem_map_of_mem ht))).symm
  | negation operand y =>
    refine holds_negation.mpr (houtput.trans (congrArg Neg.neg ?_))
    exact (settle_of_not_adds (hoperands operand (List.mem_singleton.mpr rfl))).symm
  | extreme e m inputs r selectors =>
    set g := extreme e m inputs r selectors with hg
    obtain ⟨htwo, hselectors, -, hm⟩ := hformed
    obtain ⟨m, rfl⟩ := Exact.isFinite_iff.mp hm
    have hlength : selectors.length = inputs.length := by simp [hselectors]
    have hne : selectors ≠ [] := List.length_pos_iff.mp (by omega)
    have hinputs : inputs.map (fun x => p x.var) ≠ [] := by
      rw [ne_eq, List.map_eq_nil_iff, ← List.length_eq_zero_iff]
      omega
    have hpicks : e.Picks (inputs.map fun x => p x.var) (g.result p) := e.pick_picks _ hinputs
    have hfound : g.attained p < (inputs.map fun x => p x.var).length :=
      List.idxOf_lt_length_of_mem hpicks.1
    have hvalue : (inputs.map fun x => p x.var)[g.attained p] = g.result p :=
      List.getElem_idxOf hfound
    have hattained : g.attained p < inputs.length := by simpa using hfound
    have hselector : ∀ i, i < inputs.length →
        g.settle p ⟨r.index + 1 + i⟩ = if i = g.attained p then 0 else 1 :=
      fun i hi => settle_selector (by simp [hg, shapes, hlength, hi])
    have hinput : ∀ x ∈ inputs, g.settle p x.var = p x.var :=
      fun x hx => settle_of_not_adds (hoperands x hx)
    refine (holds_extreme hne).mpr ⟨fun x d hmem => ?_, ?_⟩
    · obtain ⟨i, hi, he⟩ := List.mem_iff_getElem.mp hmem
      obtain ⟨rfl, rfl⟩ := Prod.mk.inj ((List.getElem_zip).symm.trans he)
      have hi' : i < inputs.length := by simp at hi; omega
      have hx : inputs[i] ∈ inputs := List.getElem_mem _
      have hd : g.settle p selectors[i] = if i = g.attained p then 0 else 1 := by
        rw [← hselector i hi']
        simp [hselectors]
      rw [hd, hinput _ hx, show g.settle p r = g.result p from houtput]
      refine ⟨hpicks.2 _ (List.mem_map_of_mem hx), ?_⟩
      by_cases hfirst : i = g.attained p
      · subst hfirst
        rw [List.getElem_map] at hvalue
        simp [hvalue]
      · obtain ⟨y, hy, hyr⟩ := List.mem_map.mp hpicks.1
        have hxy := hspans _ hx y hy
        have hyx := hspans y hy _ hx
        rw [if_neg hfirst, ← hyr, Exact.toRat_fin] at *
        cases e <;> simp only [Extremum.sign] <;> linarith
    · have hmap : selectors.map (g.settle p) =
          (List.range inputs.length).map fun i => if i = g.attained p then 0 else 1 := by
        rw [hselectors, List.range'_eq_map_range, List.map_map, List.map_map]
        exact List.map_congr_left fun i hi => hselector i (List.mem_range.mp hi)
      rw [hmap, sum_all_but_one hattained, hlength]

end Gate

/-! ## Ranges that big-M constants span -/

namespace BigM

/-- Values in the relation to their ranges lie within them, stay in the relation through all gates,
and differ by no more than the big-M constant of their group. -/
structure Suits (bigM : BigM Exact) (R : Bounds Exact → Rat → Prop) : Prop where
  contains {b : Bounds Exact} {q : Rat} : R b q → b.Contains q
  negate {b : Bounds Exact} {q : Rat} : R b q → R b.negate (-q)
  extreme {e : Extremum} {bounds : List (Bounds Exact)} {values : List Rat} {r : Rat} :
    List.Forall₂ R bounds values → e.Picks values r → R (e.boundsOf bounds) r
  spans {bounds : List (Bounds Exact)} {values : List Rat} {m : Exact} :
    bigM.resolve bounds = .ok m → Scalar.IsFinite m → List.Forall₂ R bounds values →
      ∀ x ∈ values, ∀ y ∈ values, x - y ≤ m.toRat

/-- The spread of the operands' ranges spans the operands. -/
theorem suits_fromBounds : fromBounds.Suits Bounds.Contains where
  contains h := h
  negate h := h.negate
  extreme := Extremum.boundsOf_contains
  spans {bounds values m} hresolve hm h x hx y hy := by
    obtain ⟨hvalue, hbound⟩ := exists_of_forall₂ h
    obtain ⟨b, hb, hbx⟩ := hbound x hx
    obtain ⟨c, hc, hcy⟩ := hbound y hy
    obtain ⟨hll, -, -, hgu⟩ := Extremum.folds_of_ordered (List.ne_nil_of_mem hb) fun b hb => by
      obtain ⟨x, -, hx⟩ := hvalue b hb
      exact hx.lower_le_upper
    have hupper := OrderedScalar.le_trans hbx.2 (hgu.2 (List.mem_map_of_mem hb))
    have hlower := OrderedScalar.le_trans (hll.2 (List.mem_map_of_mem hc)) hcy.1
    simp only [resolve] at hresolve
    split at hresolve
    · next hspread =>
      obtain rfl := Except.ok.inj hresolve
      obtain ⟨hu, hl⟩ := StoredModel.isFinite_of_sub hspread
      obtain ⟨u, hu⟩ := Exact.isFinite_iff.mp hu
      obtain ⟨l, hl⟩ := Exact.isFinite_iff.mp hl
      rw [hu] at hupper
      rw [hl] at hlower
      rw [hu, hl, Exact.fin_sub_fin, Exact.toRat_fin]
      exact sub_le_sub (Exact.fin_le_fin.mp hupper) (Exact.fin_le_fin.mp hlower)
    · cases hresolve

/-- A constant spans values that are no larger than half of it. -/
theorem suits_constant {m limit : Rat} (h : 2 * limit ≤ m) :
    (constant (.fin m)).Suits fun b q => b.Contains q ∧ |q| ≤ limit where
  contains h := h.1
  negate h := ⟨h.1.negate, (abs_neg _).trans_le h.2⟩
  extreme h hr := by
    obtain ⟨-, hlimit⟩ := exists_of_forall₂ h
    obtain ⟨_, -, -, hle⟩ := hlimit _ hr.1
    exact ⟨Extremum.boundsOf_contains (h.imp fun _ _ h => h.1) hr, hle⟩
  spans hresolve _ hvalues x hx y hy := by
    obtain rfl := Except.ok.inj hresolve
    obtain ⟨-, hlimit⟩ := exists_of_forall₂ hvalues
    obtain ⟨_, -, -, hxle⟩ := hlimit x hx
    obtain ⟨_, -, -, hyle⟩ := hlimit y hy
    rw [Exact.toRat_fin]
    linarith [(abs_le.mp hxle).2, (abs_le.mp hyle).1]

end BigM

/-! ## All gates -/

namespace Gate

/-- Gates in the order in which they were added. -/
structure Arranged (gates : List Gate) : Prop where
  increasing : gates.Pairwise fun g g' =>
    g.output.var.index + g.shapes.length ≤ g'.output.var.index
  operands : ∀ g ∈ gates, ∀ x ∈ g.operands,
    x.var.index < g.output.var.index ∧ ∃ g' ∈ gates, g'.output = x

/-- The second assignment gives all gates their values and agrees with the first one elsewhere. -/
structure Settled (gates : List Gate) (R : Bounds Exact → Rat → Prop) (p q : Assignment) :
    Prop where
  kept : ∀ v, (∀ g ∈ gates, ¬ g.Adds v) → q v = p v
  holds : ∀ g ∈ gates, g.Holds q
  ranges : ∀ g ∈ gates, R g.output.bounds (q g.output.var)
  allowed : ∀ g ∈ gates, ∀ i (shape : Shape), g.shapes[i]? = some shape →
    shape.Allows (q ⟨g.output.var.index + i⟩)

variable {gates : List Gate} {g : Gate} {bigM : BigM Exact} {R : Bounds Exact → Rat → Prop}
  {p q : Assignment}

theorem Arranged.apart (h : Arranged (gates ++ [g])) {g' : Gate} (hg' : g' ∈ gates) {v : VarId}
    (hv : g'.Adds v) : ¬ g.Adds v := by
  have hle := (List.pairwise_append.mp h.increasing).2.2 g' hg' g (List.mem_singleton.mpr rfl)
  obtain ⟨-, hlt⟩ := hv
  exact fun hadds => Nat.not_le.mpr hlt (hle.trans hadds.1)

theorem Arranged.of_append (h : Arranged (gates ++ [g])) : Arranged gates := by
  refine ⟨(List.pairwise_append.mp h.increasing).1, fun g₁ hg₁ x hx => ?_⟩
  obtain ⟨hlt, g₂, hg₂, rfl⟩ := h.operands g₁ (List.mem_append_left _ hg₁) x hx
  refine ⟨hlt, g₂, ?_, rfl⟩
  rcases List.mem_append.mp hg₂ with hg₂ | hg₂
  · exact hg₂
  · obtain rfl := List.mem_singleton.mp hg₂
    have hle := (List.pairwise_append.mp h.increasing).2.2 g₁ hg₁ g₂ (List.mem_singleton.mpr rfl)
    omega

theorem Arranged.operands_of_last (h : Arranged (gates ++ [g])) :
    ∀ x ∈ g.operands, ¬ g.Adds x.var ∧ ∃ g' ∈ gates, g'.output = x := by
  intro x hx
  obtain ⟨hlt, g', hg', rfl⟩ := h.operands g (by simp) x hx
  refine ⟨fun hadds => Nat.not_le.mpr hlt hadds.1, g', ?_, rfl⟩
  rcases List.mem_append.mp hg' with hg' | hg'
  · exact hg'
  · rw [List.mem_singleton.mp hg'] at hlt
    exact absurd hlt (Nat.lt_irrefl _)

/-- Gates that come one after the other are arranged. -/
theorem Arranged.append {gates' : List Gate} {count : Nat} (h : Arranged gates)
    (hends : ∀ g ∈ gates, g.output.var.index + g.shapes.length ≤ count)
    (hsequence : Sequence gates count gates') : Arranged (gates ++ gates') := by
  induction gates' generalizing gates count with
  | nil => simpa using h
  | cons g rest ih =>
    obtain ⟨rfl, hoperands, hrest⟩ := hsequence
    have hnext : Arranged (gates ++ [g]) := by
      refine ⟨List.pairwise_append.mpr ⟨h.increasing, List.pairwise_singleton _ _, ?_⟩, ?_⟩
      · exact fun g' hg' g'' hg'' => List.mem_singleton.mp hg'' ▸ hends g' hg'
      · refine List.forall_mem_append.mpr ⟨fun g' hg' x hx => ?_,
          List.forall_mem_singleton.mpr fun x hx => ?_⟩
        · obtain ⟨hlt, g'', hg'', hx⟩ := h.operands g' hg' x hx
          exact ⟨hlt, g'', List.mem_append_left _ hg'', hx⟩
        · obtain ⟨hlt, g'', hg'', hx⟩ := hoperands x hx
          exact ⟨hlt, g'', List.mem_append_left _ hg'', hx⟩
    rw [List.append_cons]
    refine ih hnext (List.forall_mem_append.mpr ⟨fun g' hg' => (hends g' hg').trans ?_,
      List.forall_mem_singleton.mpr (Nat.le_refl _)⟩) hrest
    exact Nat.le_add_right _ _

/-- Gates that come one after the other leave no variable out. -/
theorem Sequence.exists_adds {earlier : List Gate} {count : Nat} (h : Sequence earlier count gates)
    {v : VarId} (hle : count ≤ v.index)
    (hlt : v.index < count + (gates.flatMap Gate.shapes).length) : ∃ g ∈ gates, g.Adds v := by
  induction gates generalizing earlier count with
  | nil => simp at hlt; omega
  | cons g rest ih =>
    obtain ⟨rfl, -, hrest⟩ := h
    by_cases hv : v.index < g.output.var.index + g.shapes.length
    · exact ⟨g, by simp, hle, hv⟩
    · simp only [List.flatMap_cons, List.length_append] at hlt
      obtain ⟨g', hg', hadds⟩ := ih hrest (by omega) (by omega)
      exact ⟨g', List.mem_cons_of_mem _ hg', hadds⟩

/-- The result of a gate over operands in their ranges is in its range. -/
theorem result_ranges (hsuits : bigM.Suits R) (hformed : g.Formed bigM)
    (hoperands : ∀ x ∈ g.operands, R x.bounds (p x.var))
    (hsignal : ∀ source t terms constant y, g = .signal source t terms constant y →
      R source.bounds (weigh p terms + constant.toRat)) :
    R g.output.bounds (g.result p) ∧ g.Spans p := by
  cases g with
  | signal source t terms constant y => exact ⟨hsignal source t terms constant y rfl, trivial⟩
  | negation operand y =>
    exact ⟨hsuits.negate (hoperands operand (List.mem_singleton.mpr rfl)), trivial⟩
  | extreme e m inputs r selectors =>
    obtain ⟨htwo, -, hresolve, hm⟩ := hformed
    have hranges : List.Forall₂ R (inputs.map Encoded.bounds) (inputs.map fun x => p x.var) := by
      rw [List.forall₂_map_left_iff, List.forall₂_map_right_iff, List.forall₂_same]
      exact hoperands
    have hne : inputs.map (fun x => p x.var) ≠ [] := by
      rw [ne_eq, List.map_eq_nil_iff, ← List.length_eq_zero_iff]
      omega
    refine ⟨hsuits.extreme hranges (e.pick_picks _ hne), fun x hx y hy => ?_⟩
    exact hsuits.spans hresolve hm hranges _ (List.mem_map_of_mem hx) _ (List.mem_map_of_mem hy)

theorem settle_allowed (hcontains : g.output.bounds.Contains (g.settle p g.output.var))
    {i : Nat} {shape : Shape} (h : g.shapes[i]? = some shape) :
    shape.Allows (g.settle p ⟨g.output.var.index + i⟩) := by
  cases i with
  | zero =>
    have hshape : shape = .real g.output.bounds := by
      cases g <;> exact (Option.some.inj h).symm
    exact hshape ▸ Shape.real_allows_iff.mpr hcontains
  | succ i =>
    have hlt := (List.getElem?_eq_some_iff.mp h).1
    have hshape : shape = .selector := by
      cases g with
      | signal => simp [shapes] at h
      | negation => simp [shapes] at h
      | extreme e m inputs r selectors =>
        simp only [shapes, List.getElem?_cons_succ] at h
        exact List.eq_of_mem_replicate (List.mem_of_getElem? h)
    rw [show g.output.var.index + (i + 1) = g.output.var.index + 1 + i by omega,
      settle_selector hlt, hshape, Shape.selector_allows_iff]
    split <;> simp

/-- **All gates can be settled**, whatever values the samples have, if those of the signals are in
their ranges. -/
theorem settled (hsuits : bigM.Suits R) (harranged : Arranged gates)
    (hformed : ∀ g ∈ gates, g.Formed bigM)
    (hsources : ∀ g ∈ gates, ∀ v ∈ g.sources, ∀ g' ∈ gates, ¬ g'.Adds v)
    (hsignals : ∀ source t terms constant y, .signal source t terms constant y ∈ gates →
      R source.bounds (weigh p terms + constant.toRat)) :
    Settled gates R p (gates.foldl settle p) := by
  induction gates using List.reverseRecOn with
  | nil => exact ⟨fun _ _ => rfl, by simp, by simp, by simp⟩
  | append_singleton gates g ih =>
    obtain ⟨hkept, hholds, hranges, hallowed⟩ := ih harranged.of_append
      (fun g' hg' => hformed g' (List.mem_append_left _ hg'))
      (fun g₁ hg₁ v hv g₂ hg₂ => hsources g₁ (List.mem_append_left _ hg₁) v hv g₂
        (List.mem_append_left _ hg₂))
      (fun source t terms constant y h =>
        hsignals source t terms constant y (List.mem_append_left _ h))
    have hlast : g ∈ gates ++ [g] := by simp
    have hoperands := harranged.operands_of_last
    have hsource : ∀ v ∈ g.sources, ¬ g.Adds v := fun v hv => hsources g hlast v hv g hlast
    obtain ⟨hresult, hspans⟩ := result_ranges (p := gates.foldl settle p) hsuits (hformed g hlast)
      (fun x hx => by
        obtain ⟨-, g', hg', rfl⟩ := hoperands x hx
        exact hranges g' hg')
      (fun source t terms constant y hg => by
        rw [weigh_congr fun t ht => hkept t.2 fun g' hg' => hsources g hlast t.2
          (hg ▸ List.mem_map_of_mem ht) g' (List.mem_append_left _ hg')]
        exact hsignals source t terms constant y (hg ▸ hlast))
    rw [List.foldl_append, List.foldl_cons, List.foldl_nil]
    set q := gates.foldl settle p with hq
    have hsame : ∀ g' ∈ gates, ∀ v, g'.Adds v → g.settle q v = q v :=
      fun g' hg' v hv => settle_of_not_adds (harranged.apart hg' hv)
    have hrange : R g.output.bounds (g.settle q g.output.var) := settle_output.symm ▸ hresult
    refine ⟨fun v hv => ?_, ?_, ?_, ?_⟩
    · rw [settle_of_not_adds (hv g hlast)]
      exact hkept v fun g' hg' => hv g' (List.mem_append_left _ hg')
    · refine List.forall_mem_append.mpr ⟨fun g' hg' => ?_, List.forall_mem_singleton.mpr ?_⟩
      · refine (hholds g' hg').congr (hformed g' (List.mem_append_left _ hg')) (hsame g' hg')
          (fun x hx => ?_) (fun v hv => ?_)
        · obtain ⟨-, g'', hg'', rfl⟩ := harranged.of_append.operands g' hg' x hx
          exact hsame g'' hg'' _ g''.adds_output
        · exact settle_of_not_adds (hsources g' (List.mem_append_left _ hg') v hv g hlast)
      · exact settle_holds (hformed g hlast) (fun x hx => (hoperands x hx).1) hsource hspans
    · refine List.forall_mem_append.mpr ⟨fun g' hg' => ?_, List.forall_mem_singleton.mpr hrange⟩
      rw [hsame g' hg' _ g'.adds_output]
      exact hranges g' hg'
    · refine List.forall_mem_append.mpr ⟨fun g' hg' i shape hi => ?_,
        List.forall_mem_singleton.mpr fun i shape hi =>
          settle_allowed (hsuits.contains hrange) hi⟩
      have hadds : g'.Adds ⟨g'.output.var.index + i⟩ := by
        have hlt := (List.getElem?_eq_some_iff.mp hi).1
        exact ⟨by simp, by simpa using hlt⟩
      rw [hsame g' hg' _ hadds]
      exact hallowed g' hg' i shape hi

end Gate

end SignalTemporalLogic
