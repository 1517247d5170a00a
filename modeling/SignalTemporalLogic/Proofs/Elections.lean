import SignalTemporalLogic.Proofs.Determination

/-!
Elections: which operand the selectors of an extreme single out. A solution may as well single out
any other operand that attains the extreme, as nothing else in the model depends on the selectors.
So once all operands have one value and the result is known to be no less extreme than any of them,
one round decides every selector, or leaves both of its values to it and a solution for each.
-/

namespace SignalTemporalLogic

/-! ## Sums of zeros and ones -/

section Sums

variable {p : Assignment} {l : List VarId} {d v : VarId}

/-- If one of some numbers up to one is zero and only one is missing from their sum, then the others
are one. -/
theorem eq_one_of_sum_ge (hd : d ∈ l) (hzero : p d = 0) (hle : ∀ v ∈ l, p v ≤ 1)
    (hsum : l.length - 1 ≤ (l.map p).sum) (hv : v ∈ l) (hne : v ≠ d) : p v = 1 := by
  have hmissing : (l.map fun v => 1 - p v).sum ≤ 1 := by
    have hsub : (l.map fun v => 1 - p v).sum = l.length - (l.map p).sum := by
      clear hd hle hsum hv
      induction l with
      | nil => simp
      | cons head rest ih => simp [ih]; ring
    linarith
  have hothers : 1 - p v ≤ ((l.erase d).map fun v => 1 - p v).sum :=
    List.single_le_sum (List.forall_mem_map.mpr fun u hu =>
      sub_nonneg.mpr (hle u (List.mem_of_mem_erase hu))) _
        (List.mem_map_of_mem ((List.mem_erase_of_ne hne).mpr hv))
  rw [((List.perm_cons_erase hd).map _).sum_eq, List.map_cons, List.sum_cons, hzero] at hmissing
  exact le_antisymm (hle v hv) (by linarith)

/-- If the sum is below the number of summands, then one of them is below one. -/
theorem exists_lt_one_of_sum_le (hsum : (l.map p).sum ≤ l.length - 1) :
    ∃ v ∈ l, p v < 1 := by
  by_contra hnone
  push Not at hnone
  have hall : (l.length : Rat) ≤ (l.map p).sum := by
    have hle := List.card_nsmul_le_sum (l.map p) 1 (List.forall_mem_map.mpr hnone)
    simpa using hle
  linarith

end Sums

/-! ## Choosing an operand -/

namespace Gate

variable {g : Gate} {gates : List Gate} {bigM : BigM Exact} {p : Assignment} {d v : VarId}

/-- The assignment in which the selectors of the gate single out the operand of one of them. -/
def elect (p : Assignment) (g : Gate) (d : VarId) : Assignment := fun v =>
  if v ∈ g.switches then if v = d then 0 else 1 else p v

theorem elect_of_not_mem (h : v ∉ g.switches) : g.elect p d v = p v := if_neg h

theorem elect_self (h : d ∈ g.switches) : g.elect p d d = 0 := by
  rw [elect, if_pos h, if_pos rfl]

theorem elect_of_ne (h : v ∈ g.switches) (hne : v ≠ d) : g.elect p d v = 1 := by
  rw [elect, if_pos h, if_neg hne]

theorem nodup_switches (hformed : g.Formed bigM) : g.switches.Nodup := by
  cases g with
  | signal | negation => exact List.nodup_nil
  | extreme e m inputs r selectors =>
    obtain ⟨-, hselectors, -, -⟩ := hformed
    rw [switches, hselectors]
    exact List.Nodup.map (fun i j h => congrArg VarId.index h) List.nodup_range'

theorem sum_elect (hformed : g.Formed bigM) (hd : d ∈ g.switches) :
    (g.switches.map (g.elect p d)).sum = g.switches.length - 1 := by
  have hothers : (g.switches.erase d).map (g.elect p d) =
      List.replicate (g.switches.length - 1) 1 := by
    refine List.eq_replicate_iff.mpr ⟨by simp [List.length_erase_of_mem hd], fun q hq => ?_⟩
    obtain ⟨v, hv, rfl⟩ := List.mem_map.mp hq
    obtain ⟨hne, hv⟩ := (nodup_switches hformed).mem_erase_iff.mp hv
    exact elect_of_ne hv hne
  have hpos : 1 ≤ g.switches.length := List.length_pos_of_mem hd
  rw [((List.perm_cons_erase hd).map _).sum_eq, List.map_cons, List.sum_cons, elect_self hd,
    hothers]
  simp [hpos]

section Extremes

variable {e : Extremum} {m : Exact} {inputs : List (Encoded Exact VarId)} {r : VarId}
  {selectors : List VarId}

/-- The operand and the selector belong together. -/
theorem exists_pair (hformed : (extreme e m inputs r selectors).Formed bigM) :
    (∀ d ∈ selectors, ∃ x ∈ inputs, (x, d) ∈ inputs.zip selectors) ∧
      ∀ x d y, (x, d) ∈ inputs.zip selectors → (y, d) ∈ inputs.zip selectors → x = y := by
  have hnodup : selectors.Nodup := nodup_switches hformed
  have hlength : selectors.length = inputs.length := by
    obtain ⟨-, hselectors, -, -⟩ := hformed
    simp [hselectors]
  constructor
  · intro d hd
    obtain ⟨i, hi, rfl⟩ := List.mem_iff_getElem.mp hd
    have hi' : i < inputs.length := hlength ▸ hi
    exact ⟨inputs[i], List.getElem_mem _, List.mem_iff_getElem.mpr ⟨i, by simp; omega, by simp⟩⟩
  · intro x d y hx hy
    obtain ⟨i, hi, hxd⟩ := List.mem_iff_getElem.mp hx
    obtain ⟨j, hj, hyd⟩ := List.mem_iff_getElem.mp hy
    obtain ⟨rfl, hdi⟩ := Prod.mk.inj ((List.getElem_zip).symm.trans hxd)
    obtain ⟨rfl, hdj⟩ := Prod.mk.inj ((List.getElem_zip).symm.trans hyd)
    obtain rfl := (List.Nodup.getElem_inj_iff hnodup).mp (hdi.trans hdj.symm)
    rfl

/-- The big-M constant of a gate that holds is not negative: it spans what is not singled out. -/
theorem nonneg_of_holds (hformed : (extreme e (.fin q) inputs r selectors).Formed bigM)
    (hholds : (extreme e (.fin q) inputs r selectors).Holds p)
    (hdecided : ∀ d ∈ selectors, p d = 0 ∨ p d = 1) : 0 ≤ q := by
  obtain ⟨htwo, hselectors, -, -⟩ := id hformed
  have hlength : selectors.length = inputs.length := by simp [hselectors]
  have hne : selectors ≠ [] := List.length_pos_iff.mp (by omega)
  obtain ⟨hpairs, hsum⟩ := (holds_extreme hne).mp hholds
  obtain ⟨d, hd, hone⟩ : ∃ d ∈ selectors, p d = 1 := by
    by_contra hnone
    push Not at hnone
    have hzero : selectors.map p = List.replicate selectors.length 0 := by
      refine List.eq_replicate_iff.mpr ⟨by simp, fun q hq => ?_⟩
      obtain ⟨d, hd, rfl⟩ := List.mem_map.mp hq
      exact (hdecided d hd).resolve_right (hnone d hd)
    have htwo' : (2 : Rat) ≤ selectors.length := by exact_mod_cast hlength.symm ▸ htwo
    rw [hzero, List.sum_replicate, nsmul_zero] at hsum
    linarith
  obtain ⟨x, -, hmem⟩ := (exists_pair hformed).1 d hd
  obtain ⟨hbound, hrelaxed⟩ := hpairs x d hmem
  rw [hone, mul_one] at hrelaxed
  linarith

/-- **Any operand that attains the extreme can be singled out.** -/
theorem elect_holds (hformed : (extreme e m inputs r selectors).Formed bigM)
    (hr : r ∉ selectors) (hinputs : ∀ x ∈ inputs, x.var ∉ selectors)
    (hholds : (extreme e m inputs r selectors).Holds p)
    (hdecided : ∀ d ∈ selectors, p d = 0 ∨ p d = 1) {x : Encoded Exact VarId}
    (hmem : (x, d) ∈ inputs.zip selectors) (hattains : e.sign * p x.var ≤ e.sign * p r) :
    (extreme e m inputs r selectors).Holds ((extreme e m inputs r selectors).elect p d) := by
  obtain ⟨-, -, -, hm⟩ := id hformed
  obtain ⟨q, rfl⟩ := Exact.isFinite_iff.mp hm
  have hd : d ∈ selectors := (List.of_mem_zip hmem).2
  have hne : selectors ≠ [] := List.ne_nil_of_mem hd
  have hnonneg := nonneg_of_holds hformed hholds hdecided
  obtain ⟨hpairs, -⟩ := (holds_extreme hne).mp hholds
  refine (holds_extreme hne).mpr ⟨fun y d' hmem' => ?_, sum_elect hformed hd⟩
  obtain ⟨hy, hd'⟩ := List.of_mem_zip hmem'
  obtain ⟨hbound, hrelaxed⟩ := hpairs y d' hmem'
  rw [elect_of_not_mem (g := extreme e (.fin q) inputs r selectors) hr,
    elect_of_not_mem (g := extreme e (.fin q) inputs r selectors) (hinputs y hy)]
  refine ⟨hbound, ?_⟩
  by_cases hdd : d' = d
  · subst hdd
    obtain rfl := (exists_pair hformed).2 _ _ _ hmem hmem'
    rw [elect_self (g := extreme e (.fin q) inputs r selectors) hd']
    linarith
  · rw [elect_of_ne (g := extreme e (.fin q) inputs r selectors) hd' hdd]
    rcases hdecided d' hd' with hzero | hone
    · rw [hzero] at hrelaxed
      linarith
    · rwa [hone] at hrelaxed

end Extremes

namespace Laid

/-- Of two gates one comes after the other. -/
theorem before_or_after (h : Laid bigM gates) {g' : Gate} (hg : g ∈ gates) (hg' : g' ∈ gates)
    (hne : g ≠ g') : g.output.var.index + g.shapes.length ≤ g'.output.var.index ∨
      g'.output.var.index + g'.shapes.length ≤ g.output.var.index := by
  have hpairwise : gates.Pairwise fun a b =>
      a.output.var.index + a.shapes.length ≤ b.output.var.index ∨
        b.output.var.index + b.shapes.length ≤ a.output.var.index := h.increasing.imp Or.inl
  have hsymm : Std.Symm fun a b : Gate =>
      a.output.var.index + a.shapes.length ≤ b.output.var.index ∨
        b.output.var.index + b.shapes.length ≤ a.output.var.index := ⟨fun _ _ => Or.symm⟩
  exact hpairwise.forall hg hg' hne

/-- No variable is added by two gates. -/
theorem eq_of_adds (h : Laid bigM gates) {g' : Gate} (hg : g ∈ gates) (hg' : g' ∈ gates)
    (hv : g.Adds v) (hv' : g'.Adds v) : g = g' := by
  by_contra hne
  obtain ⟨hge, hlt⟩ := hv
  obtain ⟨hge', hlt'⟩ := hv'
  have hapart := h.before_or_after hg hg' hne
  omega

/-- A gate ends before the result of the next one. -/
theorem ends_le (h : Laid bigM gates) {g' : Gate} (hg : g ∈ gates) (hg' : g' ∈ gates)
    (hlt : g.output.var.index < g'.output.var.index) :
    g.output.var.index + g.shapes.length ≤ g'.output.var.index := by
  have hne : g ≠ g' := fun he => by
    rw [he] at hlt
    exact Nat.lt_irrefl _ hlt
  have hapart := h.before_or_after hg hg' hne
  omega

/-- The selectors of a gate are neither its operands nor its sources, and have no part in other
gates. -/
theorem switches_apart (h : Laid bigM gates) (hg : g ∈ gates) (hd : d ∈ g.switches) :
    d ≠ g.output.var ∧ (∀ x ∈ g.operands, x.var ≠ d) ∧ ∀ g' ∈ gates, ∀ v ∈ g'.sources, v ≠ d := by
  obtain ⟨hadds, hne⟩ := adds_of_switch (h.formed g hg) hd
  refine ⟨hne, fun x hx he => ?_, fun g' hg' v hv he => h.apart g' hg' v hv g hg (he ▸ hadds)⟩
  have hlt := (h.operands g hg x hx).1
  rw [he] at hlt
  exact absurd hadds.1 (Nat.not_le.mpr hlt)

end Laid

end Gate

/-! ## Models of gates -/

namespace StoredModel

variable {m : StoredModel Exact} {bigM : BigM Exact} {gates : List Gate} {g : Gate}
  {p : Assignment} {box : Box Exact} {d v : VarId}

theorem isBinary_iff : m.isBinary v = true ↔
    ∃ shape, m.shapes[v.index]? = some shape ∧ shape.kind = .binary := by
  simp [StoredModel.isBinary, lookup?, shapes, Variable.shape, Option.any_eq_true]

/-- The model consists of gates over samples, without a tolerance, and only selectors are binary. -/
structure Wired (m : StoredModel Exact) (bigM : BigM Exact) (gates : List Gate) : Prop where
  tolerance_eq : m.tolerance = .fin 0
  normal : m.Normal
  laid : Gate.Laid bigM gates
  stored : List.Forall₂ Statement.Stores (gates.flatMap Gate.statements) m.constraints.toList
  selector : ∀ g ∈ gates, ∀ d ∈ g.switches, m.shapes[d.index]? = some .selector
  binary : ∀ v, m.isBinary v = true → ∃ g ∈ gates, v ∈ g.switches
  known : ∀ g ∈ gates, ∀ v ∈ g.sources, v.index < m.vars.size

namespace Wired

theorem isBinary (h : m.Wired bigM gates) (hg : g ∈ gates) (hd : d ∈ g.switches) :
    m.isBinary d = true :=
  isBinary_iff.mpr ⟨.selector, h.selector g hg d hd, rfl⟩

theorem decided (h : m.Wired bigM gates) (hsat : m.Satisfies p) (hg : g ∈ gates) :
    ∀ d ∈ g.switches, p d = 0 ∨ p d = 1 := fun d hd =>
  Shape.selector_allows_iff.mp ((satisfies_iff.mp hsat).1 _ _ (h.selector g hg d hd))

theorem holds (h : m.Wired bigM gates) (hsat : m.Satisfies p) (hg : g ∈ gates) : g.Holds p := by
  intro s hs
  obtain ⟨c, hc, hstored⟩ := (exists_of_forall₂ h.stored).1 s (List.mem_flatMap.mpr ⟨g, hg, hs⟩)
  exact (hstored.holds_iff p).mp (hsat.holds c (Array.mem_toList_iff.mp hc))

/-- **Solutions differ in which operand they single out**, out of those that attain the extreme. -/
theorem satisfies_elect (h : m.Wired bigM gates) {e : Extremum} {q : Exact}
    {inputs : List (Encoded Exact VarId)} {r : VarId} {selectors : List VarId}
    (hg : .extreme e q inputs r selectors ∈ gates) (hsat : m.Satisfies p) {x : Encoded Exact VarId}
    (hmem : (x, d) ∈ inputs.zip selectors) (hattains : e.sign * p x.var ≤ e.sign * p r) :
    m.Satisfies ((Gate.extreme e q inputs r selectors).elect p d) := by
  set g := Gate.extreme e q inputs r selectors with hdef
  have hformed := h.laid.formed g hg
  have happart : ∀ d ∈ g.switches, _ := fun d hd => h.laid.switches_apart hg hd
  refine satisfies_iff.mpr ⟨fun i shape hshape => ?_, fun c hc => ?_⟩
  · by_cases hi : (⟨i⟩ : VarId) ∈ g.switches
    · obtain rfl := Option.some.inj (hshape.symm.trans (h.selector g hg _ hi))
      refine Shape.selector_allows_iff.mpr ?_
      rw [Gate.elect, if_pos hi]
      split
      · exact .inl rfl
      · exact .inr rfl
    · rw [Gate.elect_of_not_mem hi]
      exact (satisfies_iff.mp hsat).1 i shape hshape
  · obtain ⟨s, hs, hstored⟩ := (exists_of_forall₂ h.stored).2 c (Array.mem_toList_iff.mpr hc)
    obtain ⟨g', hg', hs⟩ := List.mem_flatMap.mp hs
    refine (hstored.holds_iff _).mpr ?_
    by_cases hgg : g' = g
    · subst hgg
      exact Gate.elect_holds hformed (fun hr => (happart r hr).1 rfl)
        (fun y hy hmem => (happart _ hmem).2.1 y hy rfl) (h.holds hsat hg) (h.decided hsat hg) hmem
        hattains s hs
    · refine (h.holds hsat hg').congr (h.laid.formed g' hg') (fun v hv => ?_) (fun y hy => ?_)
        (fun v hv => ?_) s hs
      · refine Gate.elect_of_not_mem fun hmem => hgg ?_
        exact h.laid.eq_of_adds hg' hg hv (Gate.adds_of_switch hformed hmem).1
      · obtain ⟨-, g'', hg'', rfl⟩ := h.laid.operands g' hg' y hy
        refine Gate.elect_of_not_mem fun hmem => ?_
        obtain rfl := h.laid.eq_of_adds hg hg'' (Gate.adds_of_switch hformed hmem).1 g''.adds_output
        exact (happart _ hmem).1 rfl
      · exact Gate.elect_of_not_mem fun hmem => (happart v hmem).2.2 g' hg' v hv rfl

end Wired

end StoredModel

end SignalTemporalLogic
