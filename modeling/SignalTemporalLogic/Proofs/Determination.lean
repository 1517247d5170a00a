import SignalTemporalLogic.Proofs.Completeness
import SignalTemporalLogic.Proofs.PinnedRanges
import SignalTemporalLogic.Proofs.Soundness

/-!
Encodings over fixed samples, and why the search need not branch on anything but selectors. The
constraints of a gate come after those of its operands, so that one round of propagation meets gate
after gate with a single open variable, the result. What is left of it is the value of the gate, and
a choice of selectors that does not fit leaves nothing. The one thing that propagation does not
find out is a predicate whose range lies above all numbers.
-/

namespace SignalTemporalLogic

theorem exists_append_of_forall₂ {α β : Type} {R : α → β → Prop} {xs xs' : List α} {ys : List β}
    (h : List.Forall₂ R (xs ++ xs') ys) :
    ∃ zs zs', ys = zs ++ zs' ∧ List.Forall₂ R xs zs ∧ List.Forall₂ R xs' zs' := by
  induction xs generalizing ys with
  | nil => exact ⟨[], ys, rfl, .nil, h⟩
  | cons x rest ih =>
    cases h with
    | cons hfirst hrest =>
      obtain ⟨zs, zs', rfl, h₁, h₂⟩ := ih hrest
      exact ⟨_ :: zs, zs', rfl, .cons hfirst h₁, h₂⟩

namespace Gate

/-! ## What a gate is about -/

def switches : Gate → List VarId
  | extreme _ _ _ _ selectors => selectors
  | _ => []

/-- The variables that are known before the result is. -/
def Consults (g : Gate) (v : VarId) : Prop :=
  v ∈ g.sources ∨ (∃ x ∈ g.operands, x.var = v) ∨ v ∈ g.switches

variable {g : Gate} {gates : List Gate} {bigM : BigM Exact} {p q : Assignment}

theorem vars_of_pairStatement {e : Extremum} {m : Exact} {r operand selector v : VarId}
    {s : Statement} (hs : s ∈ pairStatements e m r operand selector)
    (hv : v ∈ (s.lhs.terms ++ s.rhs.terms).map Prod.snd) :
    v = r ∨ v = operand ∨ v = selector := by
  rcases List.mem_cons.mp hs with rfl | hs
  · have hv : v ∈ [r, operand] := hv
    exact (List.mem_pair.mp hv).imp_right .inl
  · obtain rfl := List.mem_singleton.mp hs
    have hv : v ∈ [r, operand, selector] := hv
    simpa using hv

theorem consults_of_statement {s : Statement} (hs : s ∈ g.statements) {t : Exact × VarId}
    (ht : t ∈ s.lhs.terms ++ s.rhs.terms) : t.2 = g.output.var ∨ g.Consults t.2 := by
  cases g with
  | signal source t terms constant y =>
    obtain rfl := List.mem_singleton.mp hs
    rcases List.mem_append.mp ht with ht | ht
    · exact .inl (congrArg Prod.snd (List.mem_singleton.mp ht))
    · exact .inr (.inl (List.mem_map_of_mem ht))
  | negation operand y =>
    obtain rfl := List.mem_singleton.mp hs
    rcases List.mem_append.mp ht with ht | ht
    · exact .inl (congrArg Prod.snd (List.mem_singleton.mp ht))
    · refine .inr (.inr (.inl ⟨operand, List.mem_singleton.mpr rfl, ?_⟩))
      exact (congrArg Prod.snd (List.mem_singleton.mp ht)).symm
  | extreme e m inputs r selectors =>
    rcases List.mem_append.mp hs with hs | hs
    · obtain ⟨⟨x, d⟩, hmem, hs⟩ := List.mem_flatMap.mp hs
      obtain ⟨hx, hd⟩ := List.of_mem_zip hmem
      rcases vars_of_pairStatement hs (List.mem_map_of_mem ht) with h | h | h
      · exact .inl h
      · exact .inr (.inr (.inl ⟨x, hx, h.symm⟩))
      · exact .inr (.inr (.inr (h ▸ hd)))
    · obtain rfl := List.mem_singleton.mp hs
      simp only [countStatement, LinearExpr.sum, LinearExpr.ofConstant, List.append_nil,
        List.mem_map] at ht
      obtain ⟨d, hd, rfl⟩ := ht
      exact .inr (.inr (.inr hd))

theorem adds_of_switch (hformed : g.Formed bigM) {d : VarId} (hd : d ∈ g.switches) :
    g.Adds d ∧ d ≠ g.output.var := by
  cases g with
  | signal => cases hd
  | negation => cases hd
  | extreme e m inputs r selectors =>
    obtain ⟨-, hselectors, -, -⟩ := hformed
    have hlength : selectors.length = inputs.length := by simp [hselectors]
    rw [switches, hselectors] at hd
    obtain ⟨i, hi, rfl⟩ := List.mem_map.mp hd
    obtain ⟨hle, hlt⟩ := List.mem_range'_1.mp hi
    refine ⟨⟨?_, ?_⟩, fun he => ?_⟩
    · simp only [output]
      omega
    · simp only [output, shapes, List.length_cons, List.length_replicate, hlength]
      omega
    · have hindex : i = r.index := congrArg VarId.index he
      omega

/-- A variable that a gate adds is its result or one of its selectors. -/
theorem output_or_switch (hformed : g.Formed bigM) {v : VarId} (hv : g.Adds v) :
    v = g.output.var ∨ v ∈ g.switches := by
  obtain ⟨i⟩ := v
  obtain ⟨hle, hlt⟩ := hv
  rcases Nat.eq_or_lt_of_le hle with he | hgt
  · exact .inl (congrArg VarId.mk he.symm)
  cases g with
  | signal => simp [output, shapes] at hlt hgt; omega
  | negation => simp [output, shapes] at hlt hgt; omega
  | extreme e m inputs r selectors =>
    obtain ⟨-, hselectors, -, -⟩ := hformed
    have hlength : selectors.length = inputs.length := by simp [hselectors]
    refine .inr ?_
    simp only [output, shapes, List.length_cons, List.length_replicate, hlength] at hlt hgt
    rw [switches, hselectors]
    exact List.mem_map.mpr ⟨i, List.mem_range'_1.mpr ⟨hgt, by omega⟩, rfl⟩

theorem decided_of_switches (h : ∀ d ∈ g.switches, p d = 0 ∨ p d = 1) : g.Decided p := by
  cases g with
  | signal | negation => trivial
  | extreme => exact h

theorem Computes.eq_result (h : g.Computes p) : p g.output.var = g.result p := by
  cases g with
  | signal | negation => exact h
  | extreme e m inputs r selectors => exact Extremum.Picks.eq_pick h

/-- The result depends on what the gate consults. -/
theorem result_congr (h : ∀ v, g.Consults v → q v = p v) : g.result q = g.result p := by
  cases g with
  | signal source t terms constant y =>
    exact congrArg (· + constant.toRat)
      (weigh_congr fun t ht => h t.2 (.inl (List.mem_map_of_mem ht)))
  | negation operand y =>
    exact congrArg Neg.neg (h _ (.inr (.inl ⟨operand, List.mem_singleton.mpr rfl, rfl⟩)))
  | extreme e m inputs r selectors =>
    exact congrArg e.pick (List.map_congr_left fun x hx => h x.var (.inr (.inl ⟨x, hx, rfl⟩)))

/-! ## Gates over samples -/

/-- Gates in the order in which they were added, over samples that no gate adds. -/
structure Laid (bigM : BigM Exact) (gates : List Gate) : Prop extends Arranged gates where
  formed : ∀ g ∈ gates, g.Formed bigM
  apart : ∀ g ∈ gates, ∀ v ∈ g.sources, ∀ g' ∈ gates, ¬ g'.Adds v

namespace Laid

theorem of_append (h : Laid bigM (gates ++ [g])) : Laid bigM gates where
  toArranged := h.toArranged.of_append
  formed g' hg' := h.formed g' (List.mem_append_left _ hg')
  apart g₁ hg₁ v hv g₂ hg₂ :=
    h.apart g₁ (List.mem_append_left _ hg₁) v hv g₂ (List.mem_append_left _ hg₂)

/-- A gate does not consult its own result. -/
theorem ne_output_of_consults (h : Laid bigM gates) (hg : g ∈ gates) {v : VarId}
    (hv : g.Consults v) : v ≠ g.output.var := by
  rintro rfl
  rcases hv with hv | ⟨x, hx, he⟩ | hv
  · exact h.apart g hg _ hv g hg g.adds_output
  · have hlt := (h.operands g hg x hx).1
    rw [he] at hlt
    omega
  · exact (adds_of_switch (h.formed g hg) hv).2 rfl

/-- The statements of a gate are not about the results of later gates. -/
theorem ne_output_of_earlier {before after : List Gate} (h : Laid bigM (before ++ g :: after))
    {g' : Gate} (hg' : g' ∈ before) {s : Statement} (hs : s ∈ g'.statements)
    {t : Exact × VarId} (ht : t ∈ s.lhs.terms ++ s.rhs.terms) : t.2 ≠ g.output.var := by
  intro he
  have hmem' : g' ∈ before ++ g :: after := List.mem_append_left _ hg'
  have hmem : g ∈ before ++ g :: after := List.mem_append_right _ List.mem_cons_self
  have hle : g'.output.var.index + g'.shapes.length ≤ g.output.var.index :=
    (List.pairwise_append.mp h.increasing).2.2 g' hg' g List.mem_cons_self
  have hlt := g'.adds_output.2
  rcases consults_of_statement hs ht with hv | hv | ⟨x, hx, hv⟩ | hv
  · rw [← he, hv] at hle
    omega
  · exact h.apart g' hmem' _ hv g hmem (he ▸ g.adds_output)
  · have hx := (h.operands g' hmem' x hx).1
    rw [hv, he] at hx
    omega
  · have hd := (adds_of_switch (h.formed g' hmem') hv).1.2
    rw [he] at hd
    omega

/-- If the signals have ranges with numbers, then so have all results. -/
theorem exists_contains_output (h : Laid bigM gates)
    (hsignals : ∀ source t terms constant y, .signal source t terms constant y ∈ gates →
      ∃ x, source.bounds.Contains x) : ∀ g ∈ gates, ∃ x, g.output.bounds.Contains x := by
  induction gates using List.reverseRecOn with
  | nil => simp
  | append_singleton gates g ih =>
    have hlast : g ∈ gates ++ [g] := by simp
    have hold := ih h.of_append fun source t terms constant y hg =>
      hsignals _ _ _ _ _ (List.mem_append_left _ hg)
    have hoperand : ∀ x ∈ g.operands, ∃ a, x.bounds.Contains a := by
      intro x hx
      obtain ⟨-, g', hg', rfl⟩ := h.operands_of_last x hx
      exact hold g' hg'
    refine List.forall_mem_append.mpr ⟨hold, List.forall_mem_singleton.mpr ?_⟩
    cases g with
    | signal source t terms constant y => exact hsignals _ _ _ _ _ hlast
    | negation operand y =>
      obtain ⟨a, ha⟩ := hoperand operand (List.mem_singleton.mpr rfl)
      exact ⟨-a, ha.negate⟩
    | extreme e m inputs r selectors =>
      choose! a ha using hoperand
      have hne : inputs.map a ≠ [] := by
        have htwo : 2 ≤ inputs.length := (h.formed _ hlast).1
        exact List.ne_nil_of_length_pos (by rw [List.length_map]; omega)
      refine ⟨e.pick (inputs.map a), Extremum.boundsOf_contains ?_ (e.pick_picks _ hne)⟩
      rw [List.forall₂_map_left_iff, List.forall₂_map_right_iff, List.forall₂_same]
      exact ha

end Laid

end Gate

/-! ## One round -/

namespace StoredModel

variable {m : StoredModel Exact} {n n' : Narrowing Exact} {g : Gate} {gates : List Gate}
  {bigM : BigM Exact} {cs : List (Constraint Exact)} {p : Assignment}

/-- What is left to the result of a gate satisfies the gate, if all else has one value. -/
theorem Passes.holds_gate (h : m.Passes cs n n')
    (hstores : List.Forall₂ Statement.Stores g.statements cs) (hpopulated : n.box.Populated)
    (hpins : ∀ v, g.Consults v → n.box.Pins v (p v)) {x : Rat}
    (hx : (n'.box.range g.output.var).Contains x) :
    g.Holds (Function.update p g.output.var x) := by
  refine (Statement.stores_hold hstores).mp (h.holds_update hpopulated (fun c hc t ht hne => ?_) hx)
  obtain ⟨s, hs, hstored⟩ := (exists_of_forall₂ hstores).2 c hc
  obtain ⟨u, hu, he⟩ := hstored.exists_term ht
  rw [← he] at hne ⊢
  exact hpins _ ((Gate.consults_of_statement hs hu).resolve_left hne)

/-- What the round leaves to the result of a gate is what the gate makes of the other values. -/
theorem Passes.pins_output (h : m.Passes cs n n') (hlaid : Gate.Laid bigM gates) (hg : g ∈ gates)
    (hstores : List.Forall₂ Statement.Stores g.statements cs) (hpopulated : n.box.Populated)
    (hpins : ∀ v, g.Consults v → n.box.Pins v (p v))
    (hswitches : ∀ d ∈ g.switches, p d = 0 ∨ p d = 1) :
    n'.box.Pins g.output.var (g.result p) := by
  intro x hx
  have hsame : ∀ v, g.Consults v → Function.update p g.output.var x v = p v := fun v hv =>
    Function.update_of_ne (hlaid.ne_output_of_consults hg hv) _ _
  have hdecided : g.Decided (Function.update p g.output.var x) :=
    Gate.decided_of_switches fun d hd => (hsame d (.inr (.inr hd))).symm ▸ hswitches d hd
  have hcomputes := Gate.computes_of_holds (hlaid.formed g hg)
    (h.holds_gate hstores hpopulated hpins hx) hdecided
  rw [← Gate.result_congr hsame, ← hcomputes.eq_result, Function.update_self]

/-- **One round goes through all gates.** It leaves one value to every result, and only solutions of
the gates. -/
theorem Passes.resolves (hlaid : Gate.Laid bigM gates)
    (hstores : List.Forall₂ Statement.Stores (gates.flatMap Gate.statements) cs)
    (h : m.Passes cs n n') (hpopulated : n.box.Populated)
    (hsources : ∀ g ∈ gates, ∀ v ∈ g.sources, ∃ q, n.box.Pins v q)
    (hswitches : ∀ g ∈ gates, ∀ d ∈ g.switches, n.box.Pins d 0 ∨ n.box.Pins d 1) :
    ∀ g ∈ gates, (∃ q, n'.box.Pins g.output.var q) ∧ ∀ p, n'.box.Has p → g.Holds p := by
  induction gates using List.reverseRecOn generalizing cs n' with
  | nil => simp
  | append_singleton gates g ih =>
    have hlast : g ∈ gates ++ [g] := by simp
    rw [List.flatMap_append, List.flatMap_singleton] at hstores
    obtain ⟨before, own, rfl, hbefore, hown⟩ := exists_append_of_forall₂ hstores
    obtain ⟨n₁, h₁, h₂⟩ := h.of_append
    have hnarrows₁ := (h₁.tightens hpopulated).toNarrows
    have hnarrows₂ := (h₂.tightens hnarrows₁.populated).toNarrows
    have hold := ih hlaid.of_append hbefore h₁
      (fun g' hg' => hsources g' (List.mem_append_left _ hg'))
      fun g' hg' => hswitches g' (List.mem_append_left _ hg')
    -- what the last gate consults has one value by now
    have hpins : ∀ p, n₁.box.Has p → ∀ v, g.Consults v → n₁.box.Pins v (p v) := by
      intro p hp v hv
      obtain ⟨q, hq⟩ : ∃ q, n₁.box.Pins v q := by
        rcases hv with hv | ⟨x, hx, rfl⟩ | hv
        · exact (hsources g hlast v hv).imp fun q hq => hnarrows₁.pins hq
        · obtain ⟨-, g', hg', rfl⟩ := hlaid.operands_of_last x hx
          exact (hold g' hg').1
        · exact (hswitches g hlast v hv).elim (fun h => ⟨0, hnarrows₁.pins h⟩)
            fun h => ⟨1, hnarrows₁.pins h⟩
      exact hq _ (hp v) ▸ hq
    refine List.forall_mem_append.mpr ⟨fun g' hg' => ?_, List.forall_mem_singleton.mpr ⟨?_, ?_⟩⟩
    · obtain ⟨⟨q, hq⟩, hall⟩ := hold g' hg'
      exact ⟨⟨q, hnarrows₂.pins hq⟩, fun p hp => hall p fun v => hnarrows₂.shrinks v _ (hp v)⟩
    · choose p hp using hnarrows₁.populated
      have hdecided : ∀ d ∈ g.switches, p d = 0 ∨ p d = 1 := fun d hd =>
        (hswitches g hlast d hd).imp (fun h => hnarrows₁.pins h _ (hp d))
          fun h => hnarrows₁.pins h _ (hp d)
      exact ⟨_, h₂.pins_output hlaid hlast hown hnarrows₁.populated (hpins p hp) hdecided⟩
    · intro p hp
      have hhad : n₁.box.Has p := fun v => hnarrows₂.shrinks v _ (hp v)
      rw [← Function.update_eq_self g.output.var p]
      exact h₂.holds_gate hown hnarrows₁.populated (hpins p hhad) (hp _)

/-! ## Ranges below all numbers -/

/-- A round that ends has met no predicate over samples that are points whose range lies below all
numbers. -/
theorem range_ne_sunken (htolerance : m.tolerance = .fin 0) (hlaid : Gate.Laid bigM gates)
    (hstores : List.Forall₂ Statement.Stores (gates.flatMap Gate.statements) cs)
    (hnormal : ∀ c ∈ cs, c.Normal n.box.size) (hrun : cs.foldlM m.tightenConstraint n = some n')
    (hpoints : ∀ g ∈ gates, ∀ v ∈ g.sources, ∃ q, n.box.range v = .point (.fin q))
    {source : Signal Exact} {t : Nat} {terms : List (Exact × VarId)} {constant : Exact} {y : VarId}
    (hg : .signal source t terms constant y ∈ gates) : n.box.range y ≠ .sunken := by
  intro hsunken
  have hself : ∀ t ∈ terms, t.2 ≠ y := fun t ht =>
    hlaid.ne_output_of_consults hg (.inl (List.mem_map_of_mem ht))
  -- the round up to the equation of the predicate, and the equation
  obtain ⟨before, after, rfl⟩ := List.append_of_mem hg
  rw [List.flatMap_append, List.flatMap_cons] at hstores
  obtain ⟨cs₁, cs₂, rfl, hbefore, hrest⟩ := exists_append_of_forall₂ hstores
  cases hrest with
  | @cons _ c _ cs₂ hc hrest =>
  obtain ⟨hnormal₁, hnormal₂⟩ := List.forall_mem_append.mp hnormal
  rw [List.foldlM_append, Option.bind_eq_bind, Option.bind_eq_some_iff] at hrun
  obtain ⟨n₁, hrun₁, hrun⟩ := hrun
  rw [List.foldlM_cons, Option.bind_eq_bind, Option.bind_eq_some_iff] at hrun
  obtain ⟨n₂, hrun, -⟩ := hrun
  have hspares := spares_of_foldlM htolerance hnormal₁ hrun₁
  have hy : y ∉ cs₁.flatMap fun c => c.terms.map Prod.snd := by
    intro hmem
    obtain ⟨c', hc', hmem⟩ := List.mem_flatMap.mp hmem
    obtain ⟨u, hu, rfl⟩ := List.mem_map.mp hmem
    obtain ⟨s, hs, hstored⟩ := (exists_of_forall₂ hbefore).2 c' hc'
    obtain ⟨g', hg', hs⟩ := List.mem_flatMap.mp hs
    obtain ⟨u', hu', he⟩ := hstored.exists_term hu
    exact hlaid.ne_output_of_earlier hg' hs hu' he
  have hnone := tightenConstraint_eq_none htolerance
    (hspares.size_eq.symm ▸ hnormal₂ c List.mem_cons_self) hc.relation_eq
    ⟨_, hc.mem_terms rfl hself, rfl⟩ ((hspares.frame y hy).trans hsunken) fun t ht hne => by
      obtain ⟨u, hu, he⟩ := hc.exists_term ht
      rcases List.mem_append.mp hu with hu | hu
      · exact absurd (he.symm.trans (congrArg Prod.snd (List.mem_singleton.mp hu))) hne
      · obtain ⟨q, hq⟩ := hpoints _ hg t.2 (he ▸ List.mem_map_of_mem hu)
        exact ⟨q, hspares.point _ _ hq⟩
  exact absurd (hnone.symm.trans hrun) (by simp)

/-! ## Boxes with decided binaries -/

/-- The declared box with every binary variable at its choice. -/
def decidedBox (m : StoredModel Exact) (choice : VarId → Bool) : Box Exact :=
  m.vars.mapIdx fun i var =>
    match var.kind with
    | .binary => .point (if choice ⟨i⟩ then 1 else 0)
    | .continuous => var.bounds

variable {choice : VarId → Bool} {v : VarId}

@[simp] theorem size_decidedBox : (m.decidedBox choice).size = m.vars.size := Array.size_mapIdx

theorem range_decidedBox {shape : Shape} (h : m.shapes[v.index]? = some shape) :
    (m.decidedBox choice).range v =
      match shape.kind with
      | .binary => .point (if choice v then 1 else 0)
      | .continuous => shape.bounds := by
  have hlt := lt_of_shape h
  obtain ⟨_, rfl⟩ := List.getElem?_eq_some_iff.mp h
  rw [Box.range_of_lt (by simpa using hlt)]
  simp only [decidedBox, Array.getElem_mapIdx, shapes, List.getElem_map, Array.getElem_toList]
  rfl

/-- Propagation begins with a round, and whatever it does afterwards narrows what that leaves. -/
theorem exists_round_of_propagate (htolerance : m.tolerance = .fin 0) (hnormal : m.Normal)
    {box box' : Box Exact} (h : m.propagate box = some box') :
    ∃ n, m.propagateRound box = some n ∧
      (n.box.size = m.vars.size → n.box.Populated → m.Narrows n.box box') := by
  replace h : m.propagateFor (199 + 1) box = some box' := h
  rw [propagateFor, Option.bind_eq_bind, Option.bind_eq_some_iff] at h
  obtain ⟨n, hround, h⟩ := h
  refine ⟨n, hround, fun hsize hpopulated => ?_⟩
  split at h
  · exact narrows_of_propagateFor htolerance hnormal 199 hsize hpopulated h
  · obtain rfl : n.box = box' := Option.some.inj h
    exact .refl hpopulated

/-- Fixing a variable keeps the constraints and which variables are real. -/
theorem fix_keeps (v : VarId) (value : Exact) :
    (fix v value m).2.constraints = m.constraints ∧
      ∀ (u : Nat) (bounds : Bounds Exact), m.shapes[u]? = some (.real bounds) →
        ∃ bounds, (fix v value m).2.shapes[u]? = some (.real bounds) := by
  rcases fix_cases (m := m) v value with ⟨-, -, hrun⟩ | ⟨_, hrun⟩ <;> rw [hrun]
  · refine ⟨rfl, fun u bounds hu => ?_⟩
    simp only [shapes, List.getElem?_map, Array.getElem?_toList, Array.getElem?_modify] at hu ⊢
    obtain ⟨var, hvar, hshape⟩ := Option.map_eq_some_iff.mp hu
    split
    · refine ⟨.point value, ?_⟩
      rw [hvar]
      exact congrArg (fun kind => some (Shape.mk kind (.point value)))
        (congrArg Shape.kind hshape)
    · exact ⟨bounds, hu⟩
  · exact ⟨rfl, fun u bounds hu => ⟨bounds, hu⟩⟩

end StoredModel

/-! ## Sessions over fixed samples -/

/-- The caller adds real variables, binds them to samples, fixes them, and encodes formulas of the
library. Every encoding returns. -/
def Call.Pinning (lib : FormulaLibrary Exact) (w : Workspace) (c : Call) : Prop :=
  c.Plain lib w ∨ ∃ v value, c = .fix v value ∧ v ∈ w.own

namespace Ledger

variable {lib : FormulaLibrary Exact} {l : Ledger lib}

/-- Fixing variables of the caller keeps to the account. -/
theorem exists_pinning_after {w : Workspace} (hsession : l.session = w.session) (hown : l.Own w.own)
    (haccounts : l.Accounts w.own) {c : Call} (hc : c.Pinning lib w) :
    ∃ l' : Ledger lib, l'.session = (w.after c).session ∧ l'.Own (w.after c).own ∧
      l'.Accounts (w.after c).own := by
  rcases hc with hc | ⟨v, value, rfl, hv⟩
  · exact exists_plain_after hsession hown haccounts hc
  obtain ⟨session, own⟩ := w
  obtain rfl : l.session = session := hsession
  obtain ⟨l', hl', hgates, hsize⟩ := l.exists_fixed value (hown.apart v hv)
  have hmodel : l'.model = (StoredModel.fix v value l.model).2 := by rw [Ledger.model, hl']
  obtain ⟨harranged, hstored, hcovered, hreal, hbound⟩ := haccounts
  obtain ⟨hconstraints, hkind⟩ := StoredModel.fix_keeps (m := l.model) v value
  refine ⟨l', hl', ⟨fun u hu => hsize ▸ hown.known u hu, fun u hu => hgates ▸ hown.apart u hu⟩,
    hgates ▸ harranged, ?_, fun u hu => hgates ▸ hcovered u (hsize ▸ hu), fun u hu => ?_,
    fun sample u hu => hbound sample u (by rwa [Ledger.context, hl'] at hu)⟩
  · rw [hgates, hmodel, hconstraints]
    exact hstored
  · obtain ⟨bounds, hbounds⟩ := hreal u hu
    rw [hmodel]
    exact hkind u.index bounds hbounds

/-! ## What is known of the start -/

theorem shape_of_output {g : Gate} (hg : g ∈ l.gates) :
    l.model.shapes[g.output.var.index]? = some (.real g.output.bounds) :=
  (l.recorded g hg).placed 0 _ (by cases g <;> rfl)

theorem shape_of_switch {g : Gate} (hg : g ∈ l.gates) {d : VarId} (hd : d ∈ g.switches) :
    l.model.shapes[d.index]? = some .selector := by
  obtain ⟨⟨hle, hlt⟩, hne⟩ := Gate.adds_of_switch (l.recorded g hg).formed hd
  obtain ⟨i, hi⟩ := Nat.exists_eq_add_of_le hle
  have hpos : i ≠ 0 := by
    rintro rfl
    obtain ⟨k⟩ := d
    exact hne (congrArg VarId.mk hi)
  obtain ⟨k, rfl⟩ := Nat.exists_eq_succ_of_ne_zero hpos
  rw [hi]
  refine (l.recorded g hg).placed (k + 1) _ ?_
  cases g with
  | signal | negation => cases hd
  | extreme e m inputs r selectors =>
    simp only [Gate.shapes, Gate.output, List.length_cons, List.length_replicate] at hlt hi ⊢
    rw [List.getElem?_cons_succ, List.getElem?_replicate, if_pos (by omega)]

theorem range_output (choice : VarId → Bool) {g : Gate} (hg : g ∈ l.gates) :
    (l.model.decidedBox choice).range g.output.var = g.output.bounds :=
  StoredModel.range_decidedBox (l.shape_of_output hg)

theorem range_switch (choice : VarId → Bool) {g : Gate} (hg : g ∈ l.gates) {d : VarId}
    (hd : d ∈ g.switches) :
    (l.model.decidedBox choice).range d = .point (.fin (if choice d then 1 else 0)) := by
  rw [StoredModel.range_decidedBox (l.shape_of_switch hg hd)]
  cases choice d <;> rfl

variable (l) in
/-- The model consists of gates over variables of the caller that are fixed to numbers. -/
structure Pinned (own : List VarId) : Prop extends l.Accounts own where
  owned : l.Own own
  fixed : ∀ v ∈ own, ∃ q, l.model.shapes[v.index]? = some (.real (.point (.fin q)))

/-- Every predicate in the model satisfies the property. -/
def Signals (l : Ledger lib) (P : Signal Exact → Prop) : Prop :=
  ∀ source t terms constant y, .signal source t terms constant y ∈ l.gates → P source

namespace Pinned

variable {own : List VarId} (h : l.Pinned own) {choice : VarId → Bool} {v : VarId} {p : Assignment}

include h

theorem laid : Gate.Laid l.context.settings.bigM l.gates where
  toArranged := h.arranged
  formed g hg := (l.recorded g hg).formed
  apart _ hg v hv := h.owned.apart v (h.own_of_source hg hv)

/-- A variable of the model is one of the caller, a result, or a selector. -/
theorem variable_cases (hv : v.index < l.model.vars.size) :
    v ∈ own ∨ ∃ g ∈ l.gates, v = g.output.var ∨ v ∈ g.switches :=
  (h.covered v hv).imp_right fun ⟨g, hg, hadds⟩ =>
    ⟨g, hg, Gate.output_or_switch (h.laid.formed g hg) hadds⟩

theorem range_own (hv : v ∈ own) : ∃ q, (l.model.decidedBox choice).range v = .point (.fin q) := by
  obtain ⟨q, hq⟩ := h.fixed v hv
  exact ⟨q, StoredModel.range_decidedBox hq⟩

theorem populated_start (hsignals : l.Signals fun source => ∃ x, source.bounds.Contains x) :
    (l.model.decidedBox choice).Populated := by
  intro v
  rcases Nat.lt_or_ge v.index l.model.vars.size with hv | hv
  · rcases h.variable_cases hv with hv | ⟨g, hg, rfl | hd⟩
    · obtain ⟨q, hq⟩ := h.range_own hv
      exact ⟨q, hq ▸ Bounds.contains_point.mpr rfl⟩
    · exact range_output choice hg ▸ h.laid.exists_contains_output hsignals g hg
    · exact ⟨_, range_switch choice hg hd ▸ Bounds.contains_point.mpr rfl⟩
  · exact ⟨0, Box.range_of_size_le (StoredModel.size_decidedBox ▸ hv) ▸
      Bounds.contains_unbounded 0⟩

/-- If a round leaves anything, then all signals have ranges with numbers, as long as none of them
starts above all numbers. -/
theorem exists_contains_of_round (hlower : l.Signals fun source => source.bounds.lower ≠ .posInf)
    {n : Narrowing Exact} (hround : l.model.propagateRound (l.model.decidedBox choice) = some n) :
    l.Signals fun source => ∃ x, source.bounds.Contains x := by
  intro source t terms constant y hg
  refine (Bounds.contains_or_sunken (l.recorded _ hg).ordered
    (hlower source t terms constant y hg)).resolve_right fun hsunken => ?_
  unfold StoredModel.propagateRound at hround
  rw [← Array.foldlM_toList] at hround
  refine StoredModel.range_ne_sunken l.tolerance_eq h.laid h.stored (fun c hc => ?_) hround
    (fun g hg v hv => h.range_own (h.own_of_source hg hv)) hg
    ((range_output choice hg).trans hsunken)
  exact StoredModel.size_decidedBox.symm ▸ l.normal c (Array.mem_toList_iff.mp hc)

/-- Solutions of the gates within the declared ranges satisfy the model. -/
theorem satisfies (hhas : (l.model.decidedBox choice).Has p) (hholds : ∀ g ∈ l.gates, g.Holds p) :
    l.model.Satisfies p := by
  refine StoredModel.satisfies_iff.mpr ⟨fun i shape hshape => ?_, fun c hc => ?_⟩
  · have hreal : ∀ bounds, l.model.shapes[i]? = some (.real bounds) → shape.Allows (p ⟨i⟩) := by
      intro bounds hbounds
      have hcontains := hhas ⟨i⟩
      rw [StoredModel.range_decidedBox hbounds] at hcontains
      obtain rfl := Option.some.inj (hshape.symm.trans hbounds)
      exact Shape.real_allows_iff.mpr hcontains
    rcases h.variable_cases (v := ⟨i⟩) (StoredModel.lt_of_shape hshape) with hv | ⟨g, hg, hv | hd⟩
    · obtain ⟨q, hq⟩ := h.fixed _ hv
      exact hreal _ hq
    · exact hreal _ (congrArg VarId.index hv ▸ l.shape_of_output hg)
    · obtain rfl := Option.some.inj (hshape.symm.trans (l.shape_of_switch hg hd))
      have hvalue := Box.pins_of_point (range_switch choice hg hd) _ (hhas _)
      refine Shape.selector_allows_iff.mpr ?_
      rw [hvalue]
      cases choice ⟨i⟩
      · exact .inl rfl
      · exact .inr rfl
  · obtain ⟨s, hs, hstored⟩ := (exists_of_forall₂ h.stored).2 c (Array.mem_toList_iff.mpr hc)
    obtain ⟨g, hg, hs⟩ := List.mem_flatMap.mp hs
    exact (hstored.holds_iff _).mpr (hholds g hg s hs)

/-- What propagation leaves is a single vector, which satisfies the model. -/
theorem exists_values (hlower : l.Signals fun source => source.bounds.lower ≠ .posInf)
    {box : Box Exact} (hbox : l.model.propagate (l.model.decidedBox choice) = some box) :
    ∃ values : Array Rat, box = values.map (fun q => .point (.fin q)) ∧
      values.size = l.model.vars.size ∧ l.model.Satisfies (assignmentOf values) := by
  have hsize : (l.model.decidedBox choice).size = l.model.vars.size := StoredModel.size_decidedBox
  obtain ⟨n, hround, hrest⟩ := StoredModel.exists_round_of_propagate l.tolerance_eq l.normal hbox
  have hpopulated : (l.model.decidedBox choice).Populated :=
    h.populated_start (h.exists_contains_of_round hlower hround)
  have hpasses :=
    StoredModel.passes_of_propagateRound l.tolerance_eq l.normal hsize hpopulated hround
  have hfirst := (hpasses.tightens hpopulated).toNarrows
  have hlast := hrest (hfirst.size_eq.trans hsize) hfirst.populated
  have hnarrows := hfirst.trans hlast
  have hown : ∀ v ∈ own, ∃ q, (l.model.decidedBox choice).Pins v q := fun v hv =>
    (h.range_own hv).imp fun q hq => Box.pins_of_point hq
  have hswitch : ∀ g ∈ l.gates, ∀ d ∈ g.switches,
      (l.model.decidedBox choice).Pins d 0 ∨ (l.model.decidedBox choice).Pins d 1 := by
    intro g hg d hd
    have hpins := Box.pins_of_point (range_switch choice hg hd)
    cases hchoice : choice d <;> rw [hchoice] at hpins
    · exact .inl hpins
    · exact .inr hpins
  have hresolved := hpasses.resolves h.laid h.stored hpopulated
    (fun g hg v hv => hown v (h.own_of_source hg hv)) hswitch
  have hsize' : box.size = l.model.vars.size := hnarrows.size_eq.trans hsize
  have hpins : ∀ v, v.index < box.size → ∃ q, box.Pins v q := by
    intro v hv
    rcases h.variable_cases (hsize' ▸ hv) with hv | ⟨g, hg, rfl | hd⟩
    · exact (hown v hv).imp fun q hq => hnarrows.pins hq
    · exact (hresolved g hg).1.imp fun q hq => hlast.pins hq
    · exact (hswitch g hg v hd).elim (fun h => ⟨0, hnarrows.pins h⟩)
        fun h => ⟨1, hnarrows.pins h⟩
  obtain ⟨values, rfl, hhas⟩ := Box.exists_values hlast.populated hpins
  have hstart : (l.model.decidedBox choice).Has (assignmentOf values) :=
    fun v => hnarrows.shrinks v _ (hhas v)
  exact ⟨values, rfl, by simpa using hsize', h.satisfies hstart fun g hg =>
    (hresolved g hg).2 _ fun v => hlast.shrinks v _ (hhas v)⟩

end Pinned

/-- In a vector that satisfies the model, the variable of an encoded formula is its robustness. -/
theorem exists_robustness {values : Array Rat} (hsize : values.size = l.model.vars.size)
    (hsat : l.model.Satisfies (assignmentOf values)) (hbinds : l.BindsKnown) {f : Formula Exact}
    (hf : f ∈ lib.formulas) {t : Nat} (hencoded : l.context.isEncoded f t = true) :
    ∃ v q, (l.context.encoded? f t).map Encoded.var = some v ∧ values[v.index]? = some q ∧
      f.robustness l.context.settings.policy (l.context.trajectory values) t = .ok (.fin q) := by
  obtain ⟨entry, hentry⟩ : ∃ entry, l.context.memo[f.site t]? = some entry := by
    rw [← Option.isSome_iff_exists, ← Std.TreeMap.contains_eq_isSome_getElem?]
    exact hencoded
  obtain ⟨hlib, hid, u, hu, hdenoted⟩ := l.remembered _ entry hentry
  obtain rfl : entry.formula = f := lib.unique _ hlib _ hf hid
  have hmemo : l.context.encoded? entry.formula t = some entry.encoded := by
    rw [EncodingContext.encoded?, hentry]
    rfl
  have hfollows : l.context.Follows (l.context.trajectory values) (assignmentOf values) :=
    EncodingContext.trajectory_followed fun sample v hv => hsize ▸ hbinds sample v hv
  obtain ⟨g, hg, houtput⟩ := hdenoted.exists_output
  have hindex : entry.encoded.var.index < values.size := hsize ▸ houtput ▸ l.index_lt hg
  have hvalue : values[entry.encoded.var.index]? =
      some (assignmentOf values entry.encoded.var) := by
    simp [assignmentOf, hindex]
  exact ⟨_, _, by rw [hmemo, Option.map_some], hvalue, robustness_eq hsat hfollows hu hdenoted⟩

end Ledger

/-- **Selectors determine an encoding.** In a session in which the caller adds, binds, fixes and
encodes, and no encoding fails, let all of the caller's variables be fixed to numbers, and let no
encoded predicate have a range that starts above all numbers. Then for every choice of the binary
variables, propagation from the declared ranges either finds out that the choice has no solution,
or it leaves one value to every variable: to the caller's what it is fixed to, and to the variable
of an encoded formula the robustness of the formula. -/
theorem selectors_determine {lib : FormulaLibrary Exact} {w : Workspace}
    (h : w.Reached (Call.Pinning lib))
    (hfixed : ∀ v ∈ w.own, ∃ var q, w.model.lookup? v = some var ∧ var.bounds = .point (.fin q))
    (hlower : ∀ id source t, .predicate id source ∈ lib.formulas →
      w.context.isEncoded (.predicate id source) t = true → source.bounds.lower ≠ .posInf)
    (choice : VarId → Bool) :
    w.model.propagate (w.model.decidedBox choice) = none ∨
    ∃ values : Array Rat,
      w.model.propagate (w.model.decidedBox choice) =
        some (values.map fun q => .point (.fin q)) ∧
      (∀ v ∈ w.own, ∃ var q, w.model.lookup? v = some var ∧ var.bounds = .point (.fin q) ∧
        values[v.index]? = some q) ∧
      ∀ f ∈ lib.formulas, ∀ t, w.context.isEncoded f t = true →
        ∃ v q, (w.context.encoded? f t).map Encoded.var = some v ∧ values[v.index]? = some q ∧
          f.robustness w.context.settings.policy (w.context.trajectory values) t =
            .ok (.fin q) := by
  obtain ⟨session, own⟩ := w
  obtain ⟨l, hl, hown, haccounts⟩ := h.exists_account_by fun hl hown haccounts hc =>
    Ledger.exists_pinning_after hl hown haccounts hc
  obtain rfl : l.session = session := hl
  have hpinned : l.Pinned own := ⟨haccounts, hown, fun v hv => by
    obtain ⟨var, q, hvar, hpoint⟩ := hfixed v hv
    obtain ⟨bounds, hbounds⟩ := haccounts.real v hv
    have hshape : l.model.shapes[v.index]? = some var.shape := by
      simpa [StoredModel.shapes] using ⟨var, hvar, rfl⟩
    have hsame : var.bounds = bounds :=
      congrArg Shape.bounds (Option.some.inj (hshape.symm.trans hbounds))
    exact ⟨q, by rw [hbounds, ← hsame, hpoint]⟩⟩
  have hsignals : l.Signals fun source => source.bounds.lower ≠ .posInf := by
    intro source t terms constant y hg
    obtain ⟨id, hlib, hencoded⟩ := l.named source t terms constant y hg
    exact hlower id source t hlib hencoded
  have hbinds : l.BindsKnown := fun sample v hv => hown.known v (haccounts.bound sample v hv)
  cases hbox : l.model.propagate (l.model.decidedBox choice) with
  | none => exact .inl rfl
  | some box =>
    obtain ⟨values, rfl, hsize, hsat⟩ := hpinned.exists_values hsignals hbox
    refine .inr ⟨values, rfl, fun v hv => ?_, fun f hf t hencoded =>
      Ledger.exists_robustness hsize hsat hbinds hf hencoded⟩
    obtain ⟨var, q, hvar, hpoint⟩ := hfixed v hv
    obtain ⟨hlt, rfl⟩ := Array.getElem?_eq_some_iff.mp hvar
    have hcontains := (hsat.allows v.index hlt).contains
    rw [hpoint, Bounds.contains_point] at hcontains
    refine ⟨_, q, hvar, hpoint, ?_⟩
    rw [← hcontains]
    simp [assignmentOf, hsize, hlt]

theorem steadyContext_reached {lib : FormulaLibrary Exact} :
    (Workspace.fresh steadyContext none 100).Reached (Call.Pinning lib) :=
  @Workspace.Reached.fresh _ { bigM := some (.constant (.fin 1)), horizon := some 2 }
    steadyContext none 100 rfl (by decide)

/-- Both samples are fixed before the formula is encoded. -/
def pinnedCalls : List Call :=
  [.addVariable "x[0]" .continuous .unbounded, .addVariable "x[1]" .continuous .unbounded,
    .bind ⟨"x", 0⟩ ⟨0⟩, .bind ⟨"x", 1⟩ ⟨1⟩, .fix ⟨0⟩ (.fin 3), .fix ⟨1⟩ (.fin (5 / 2)),
    .encodeAt steady 0 none]

def pinnedSession : Workspace :=
  pinnedCalls.foldl Workspace.after (.fresh steadyContext none 100)

theorem pinnedSession_reached : pinnedSession.Reached (Call.Pinning steadyLibrary) := by
  refine steadyContext_reached.run ⟨.inl rfl, .inl rfl, .inl ⟨?_, ?_⟩, .inl ⟨?_, ?_⟩, .inr ⟨_, _, rfl, ?_⟩,
    .inr ⟨_, _, rfl, ?_⟩, .inl ⟨.inl rfl, ⟨4⟩, ?_⟩, trivial⟩
  all_goals decide +kernel

theorem pinnedSession_fixed {v : VarId} (hv : v ∈ pinnedSession.own) : ∃ var q,
    pinnedSession.model.lookup? v = some var ∧ var.bounds = .point (.fin q) := by
  have hbounds : ∀ v ∈ pinnedSession.own, ∃ q ∈ [3, (5 / 2 : Rat)],
      (pinnedSession.model.lookup? v).map Variable.bounds = some (.point (.fin q)) := by
    decide +kernel
  obtain ⟨q, -, hq⟩ := hbounds v hv
  obtain ⟨var, hvar, hpoint⟩ := Option.map_eq_some_iff.mp hq
  exact ⟨var, q, hvar, hpoint⟩

/-- With the selector of the first sample on, the result is the value at the second one. -/
theorem selectors_determine_of_pinnedSession :
    ∃ values : Array Rat,
      pinnedSession.model.propagate (pinnedSession.model.decidedBox fun v => v = ⟨5⟩) =
        some (values.map fun q => .point (.fin q)) ∧
      values[4]? = some (5 / 2) ∧
      steady.robustness .strict (pinnedSession.context.trajectory values) 0 =
        .ok (.fin (5 / 2)) := by
  have hbox : (pinnedSession.model.propagate
      (pinnedSession.model.decidedBox fun v => v = ⟨5⟩)).map (·[4]?) =
        some (some (.point (.fin (5 / 2)))) := by decide +kernel
  have hencoded : pinnedSession.context.isEncoded steady 0 = true := by decide +kernel
  have hvar : (pinnedSession.context.encoded? steady 0).map Encoded.var = some ⟨4⟩ := by
    decide +kernel
  have hpolicy : pinnedSession.context.settings.policy = .strict := by decide +kernel
  rcases selectors_determine pinnedSession_reached (fun v hv => pinnedSession_fixed hv)
    (fun id source t hlib _ => by
      rcases hlib with h | h
      · cases h
      · rw [(Formula.predicate.inj h).2]
        decide)
    (fun v => v = ⟨5⟩) with hnone | ⟨values, hvalues, -, hformulas⟩
  · rw [hnone] at hbox
    cases hbox
  · obtain ⟨v, q, hv, hq, hrobustness⟩ := hformulas steady (.inl rfl) 0 hencoded
    obtain rfl : v = ⟨4⟩ := Option.some.inj (hv.symm.trans hvar)
    obtain rfl : q = 5 / 2 := by
      rw [hvalues] at hbox
      simpa [hq, Bounds.point] using hbox
    exact ⟨values, hvalues, hq, hpolicy ▸ hrobustness⟩

/-- With the other selector on, the result would be the larger value. -/
example : pinnedSession.model.propagate (pinnedSession.model.decidedBox fun v => v = ⟨6⟩) = none := by
  decide +kernel

/-- If a round changes nothing but reports a change, then propagation goes on until the rounds are
used up, and leaves the box as it is. -/
theorem StoredModel.propagateFor_of_stuck {m : StoredModel Exact} {box : Box Exact}
    (h : m.propagateRound box = some ⟨box, true⟩) (rounds : Nat) :
    m.propagateFor rounds box = some box := by
  induction rounds with
  | zero => rfl
  | succ rounds ih =>
    rw [propagateFor, h]
    exact ih

/-- `x > 0`, declared to lie above all numbers. -/
def lofty : Signal Exact := ⟨.above "x" (.fin 0), ⟨.posInf, .posInf⟩⟩

def loftyLibrary : FormulaLibrary Exact :=
  .over (.not ⟨0⟩ (.predicate ⟨1⟩ lofty)) ⟨1⟩ lofty rfl (by decide)

def loftyCalls : List Call :=
  [.addVariable "x[0]" .continuous .unbounded, .bind ⟨"x", 0⟩ ⟨0⟩, .fix ⟨0⟩ (.fin 0),
    .encodeAt (.predicate ⟨1⟩ lofty) 0 none]

def loftySession : Workspace :=
  loftyCalls.foldl Workspace.after (.fresh steadyContext none 100)

/-- A predicate whose range lies above all numbers keeps it, whatever its value is: the gap between
the two is infinite, but a tolerance of zero times infinity is not a number, and the gap is not
larger than that. -/
theorem selectors_leave_lofty :
    loftySession.Reached (Call.Pinning loftyLibrary) ∧
      (∀ v ∈ loftySession.own,
        (loftySession.model.lookup? v).map Variable.bounds = some (.point (.fin 0))) ∧
      (loftySession.context.encoded? (.predicate ⟨1⟩ lofty) 0).map Encoded.var = some ⟨1⟩ ∧
      loftySession.model.propagate (loftySession.model.decidedBox fun _ => false) =
        some #[.point (.fin 0), ⟨.posInf, .posInf⟩] ∧
      (Formula.predicate ⟨1⟩ lofty).robustness .strict (loftySession.context.trajectory #[0]) 0 =
        .ok (.fin 0) := by
  have hreached : loftySession.Reached (Call.Pinning loftyLibrary) := by
    refine steadyContext_reached.run ⟨.inl rfl, .inl ⟨?_, ?_⟩, .inr ⟨_, _, rfl, ?_⟩, .inl ⟨.inr rfl, ⟨1⟩, ?_⟩,
      trivial⟩
    all_goals decide +kernel
  have hstart : loftySession.model.decidedBox (fun _ => false) =
      #[.point (.fin 0), ⟨.posInf, .posInf⟩] := by decide +kernel
  have hround : (loftySession.model.propagateRound #[.point (.fin 0), ⟨.posInf, .posInf⟩]).map
      (fun n => (n.box, n.changed)) =
        some (#[.point (.fin 0), ⟨.posInf, .posInf⟩], true) := by decide +kernel
  refine ⟨hreached, by decide +kernel, by decide +kernel, ?_, by decide +kernel⟩
  obtain ⟨n, hn, hpair⟩ := Option.map_eq_some_iff.mp hround
  obtain ⟨hbox, hchanged⟩ := Prod.mk.inj hpair
  rw [hstart]
  refine StoredModel.propagateFor_of_stuck (hn.trans (congrArg some ?_)) _
  obtain ⟨box, changed⟩ := n
  exact congrArg₂ Narrowing.mk hbox hchanged

end SignalTemporalLogic
