import Mathlib.Algebra.BigOperators.Group.List.Basic
import SignalTemporalLogic.Encoding.Encode
import SignalTemporalLogic.Proofs.ModelGrowth
import SignalTemporalLogic.Proofs.Unrolling

/-!
Gates: what an encoding is made of. A gate adds one result variable, for an extreme also the
selectors, and the constraints that tie the result to its operands. An assignment that satisfies the
constraints computes the result. For an extreme this holds of every big-M constant, as the one
selector that is zero pins the result to an operand, and no other constraint lets it pass another.
-/

namespace SignalTemporalLogic

/-- A piece of an encoding, with the variables it adds at the end. -/
inductive Gate where
  /-- A signal at an index, as a sum over variables. -/
  | signal (source : Signal Exact) (t : Nat) (terms : List (Exact × VarId)) (constant : Exact)
      (y : VarId)
  | negation (operand : Encoded Exact VarId) (y : VarId)
  /-- An extreme of the inputs with the big-M constant `m`. -/
  | extreme (e : Extremum) (m : Exact) (inputs : List (Encoded Exact VarId)) (r : VarId)
      (selectors : List VarId)

namespace Gate

/-- The result variable with its range. -/
def output : Gate → Encoded Exact VarId
  | signal source _ _ _ y => ⟨y, source.bounds⟩
  | negation operand y => ⟨y, operand.bounds.negate⟩
  | extreme e _ inputs r _ => ⟨r, e.boundsOf (inputs.map Encoded.bounds)⟩

/-- The operands that are results of other gates. -/
def operands : Gate → List (Encoded Exact VarId)
  | signal .. => []
  | negation operand _ => [operand]
  | extreme _ _ inputs _ _ => inputs

/-- The variables that the gate adds. -/
def shapes : Gate → List Shape
  | signal source _ _ _ _ => [.real source.bounds]
  | negation operand _ => [.real operand.bounds.negate]
  | extreme e _ inputs _ selectors =>
    .real (e.boundsOf (inputs.map Encoded.bounds)) :: List.replicate selectors.length .selector

/-- The variable is one of those that the gate adds. -/
def Adds (g : Gate) (v : VarId) : Prop :=
  g.output.var.index ≤ v.index ∧ v.index < g.output.var.index + g.shapes.length

/-- The result is at least as extreme as the operand, and no more extreme than that by more than the
constant times the selector. -/
def pairStatements (e : Extremum) (m : Exact) (r operand selector : VarId) : List Statement :=
  [⟨.ofVar r, e.bound, .ofVar operand⟩,
    ⟨.ofVar r, e.relaxed, (LinearExpr.ofVar operand).plus (e.slack m) selector⟩]

/-- All selectors but one are on. -/
def countStatement (selectors : List VarId) : Statement :=
  ⟨.sum selectors, .equal, .ofConstant (Scalar.ofNat (selectors.length - 1))⟩

/-- The constraints that the gate adds. -/
def statements : Gate → List Statement
  | signal _ _ terms constant y => [⟨.ofVar y, .equal, ⟨terms, constant⟩⟩]
  | negation operand y => [⟨.ofVar y, .equal, .term (-1) operand.var⟩]
  | extreme e m inputs r selectors =>
    ((inputs.zip selectors).flatMap fun (x, d) => pairStatements e m r x.var d) ++
      [countStatement selectors]

/-- An extreme has two operands or more, each with a selector right after the result, and a constant
that follows from the policy. -/
def Formed (bigM : BigM Exact) : Gate → Prop
  | extreme _ m inputs r selectors =>
    2 ≤ inputs.length ∧ selectors = (List.range' (r.index + 1) inputs.length).map VarId.mk ∧
      bigM.resolve (inputs.map Encoded.bounds) = .ok m ∧ Scalar.IsFinite m
  | _ => True

/-- The assignment satisfies the constraints. -/
def Holds (g : Gate) (p : Assignment) : Prop := ∀ s ∈ g.statements, s.Holds p

/-- Every selector is zero or one. -/
def Decided (p : Assignment) : Gate → Prop
  | extreme _ _ _ _ selectors => ∀ d ∈ selectors, p d = 0 ∨ p d = 1
  | _ => True

/-- The result is what the gate stands for. -/
def Computes (p : Assignment) : Gate → Prop
  | signal _ _ terms constant y => p y = weigh p terms + constant.toRat
  | negation operand y => p y = -p operand.var
  | extreme e _ inputs r _ => e.Picks (inputs.map fun x => p x.var) (p r)

/-! ## What the constraints of a gate say -/

variable {p : Assignment}

theorem holds_signal {source : Signal Exact} {t : Nat} {terms : List (Exact × VarId)}
    {constant : Exact} {y : VarId} :
    (signal source t terms constant y).Holds p ↔ p y = weigh p terms + constant.toRat := by
  simp only [Holds, statements, List.forall_mem_singleton, Statement.Holds, Relation.Holds,
    LinearExpr.valueAt_ofVar]
  exact Iff.rfl

theorem holds_negation {operand : Encoded Exact VarId} {y : VarId} :
    (negation operand y).Holds p ↔ p y = -p operand.var := by
  simp [Holds, statements, Statement.Holds, Relation.Holds]

theorem bound_holds {e : Extremum} {r x : VarId} :
    (⟨.ofVar r, e.bound, .ofVar x⟩ : Statement).Holds p ↔ e.sign * p r ≤ e.sign * p x := by
  cases e <;> simp [Statement.Holds, Extremum.bound, Extremum.sign, Relation.Holds]

theorem relaxed_holds {e : Extremum} {m : Rat} {r x d : VarId} :
    (⟨.ofVar r, e.relaxed, (LinearExpr.ofVar x).plus (e.slack (.fin m)) d⟩ : Statement).Holds p ↔
      e.sign * p x ≤ e.sign * p r + m * p d := by
  cases e <;>
    simp [Statement.Holds, Extremum.relaxed, Extremum.slack, Extremum.sign, Relation.Holds]
  exact ⟨fun _ => by linarith, fun _ => by linarith⟩

theorem pairStatements_hold {e : Extremum} {m : Rat} {r x d : VarId} :
    (∀ s ∈ pairStatements e (.fin m) r x d, s.Holds p) ↔
      e.sign * p r ≤ e.sign * p x ∧ e.sign * p x ≤ e.sign * p r + m * p d := by
  rw [pairStatements, List.forall_mem_cons, List.forall_mem_singleton, bound_holds, relaxed_holds]

theorem countStatement_lhs {selectors : List VarId} :
    (countStatement selectors).lhs.valueAt p = (selectors.map p).sum := by
  simp [countStatement]

theorem countStatement_rhs {selectors : List VarId} (h : selectors ≠ []) :
    (countStatement selectors).rhs.valueAt p = selectors.length - 1 := by
  have hlength : 1 ≤ selectors.length := List.length_pos_iff.mpr h
  have hcount : (Scalar.ofNat (selectors.length - 1) : Exact) = .fin (selectors.length - 1) :=
    congrArg Exact.fin (by push_cast [hlength]; ring)
  simp [countStatement, hcount]

theorem countStatement_holds {selectors : List VarId} (h : selectors ≠ []) :
    (countStatement selectors).Holds p ↔ (selectors.map p).sum = selectors.length - 1 := by
  rw [← countStatement_lhs, ← countStatement_rhs h]
  rfl

theorem holds_extreme {e : Extremum} {m : Rat} {inputs : List (Encoded Exact VarId)} {r : VarId}
    {selectors : List VarId} (h : selectors ≠ []) :
    (extreme e (.fin m) inputs r selectors).Holds p ↔
      (∀ x d, (x, d) ∈ inputs.zip selectors → e.sign * p r ≤ e.sign * p x.var ∧
        e.sign * p x.var ≤ e.sign * p r + m * p d) ∧
      (selectors.map p).sum = selectors.length - 1 := by
  have hpairs : (∀ s ∈ (inputs.zip selectors).flatMap
      fun (x, d) => pairStatements e (.fin m) r x.var d, s.Holds p) ↔
      ∀ x d, (x, d) ∈ inputs.zip selectors → e.sign * p r ≤ e.sign * p x.var ∧
        e.sign * p x.var ≤ e.sign * p r + m * p d := by
    simp only [List.mem_flatMap, ← pairStatements_hold]
    exact ⟨fun h x d hmem s hs => h s ⟨(x, d), hmem, hs⟩,
      fun h s ⟨⟨x, d⟩, hmem, hs⟩ => h x d hmem s hs⟩
  simp only [Holds, statements, List.forall_mem_append, List.forall_mem_singleton, hpairs,
    countStatement_holds h]

/-- Of selectors that are zero or one and sum up to all but one, one is zero. -/
theorem exists_eq_zero {selectors : List VarId} (hdecided : ∀ d ∈ selectors, p d = 0 ∨ p d = 1)
    (hsum : (selectors.map p).sum = selectors.length - 1) : ∃ d ∈ selectors, p d = 0 := by
  by_contra hnone
  push Not at hnone
  have hone : selectors.map p = List.replicate selectors.length 1 := by
    refine List.eq_replicate_iff.mpr ⟨by simp, fun q hq => ?_⟩
    obtain ⟨d, hd, rfl⟩ := List.mem_map.mp hq
    exact (hdecided d hd).resolve_left (hnone d hd)
  rw [hone, List.sum_replicate, nsmul_eq_mul] at hsum
  linarith

/-- **A gate computes its result.** Whatever the big-M constant is, an assignment that satisfies the
constraints and decides the selectors gives the result the value that the gate stands for. -/
theorem computes_of_holds {g : Gate} {bigM : BigM Exact} (hformed : g.Formed bigM) (hholds : g.Holds p)
    (hdecided : g.Decided p) : g.Computes p := by
  cases g with
  | signal source t terms constant y => exact holds_signal.mp hholds
  | negation operand y => exact holds_negation.mp hholds
  | extreme e m inputs r selectors =>
    obtain ⟨htwo, hselectors, -, hm⟩ := hformed
    obtain ⟨q, rfl⟩ := Exact.isFinite_iff.mp hm
    have hlength : selectors.length = inputs.length := by simp [hselectors]
    have hne : selectors ≠ [] := List.length_pos_iff.mp (by omega)
    obtain ⟨hpairs, hsum⟩ := (holds_extreme hne).mp hholds
    have hpair : ∀ i (hi : i < inputs.length) (hd : i < selectors.length),
        e.sign * p r ≤ e.sign * p inputs[i].var ∧
          e.sign * p inputs[i].var ≤ e.sign * p r + q * p selectors[i] := by
      intro i hi hd
      exact hpairs _ _ (List.mem_iff_getElem.mpr ⟨i, by simp; omega, by simp⟩)
    have hbound : ∀ x ∈ inputs, e.sign * p r ≤ e.sign * p x.var := by
      intro x hx
      obtain ⟨i, hi, rfl⟩ := List.mem_iff_getElem.mp hx
      exact (hpair i hi (by omega)).1
    obtain ⟨d, hd, hzero⟩ := exists_eq_zero hdecided hsum
    obtain ⟨i, hi, rfl⟩ := List.mem_iff_getElem.mp hd
    have hi' : i < inputs.length := by omega
    have hx : inputs[i] ∈ inputs := List.getElem_mem _
    have hrelaxed := (hpair i hi' hi).2
    rw [hzero, mul_zero, add_zero] at hrelaxed
    have heq := Extremum.sign_mul_injective (le_antisymm (hbound _ hx) hrelaxed)
    refine ⟨List.mem_map.mpr ⟨_, hx, heq.symm⟩, fun v hv => ?_⟩
    obtain ⟨x, hx, rfl⟩ := List.mem_map.mp hv
    exact hbound x hx

end Gate

/-! ## What gates denote -/

namespace Unrolled

mutual

/-- The gates make the variable stand for the expression. -/
def DenotedBy (gates : List Gate) : Unrolled Exact → Encoded Exact VarId → Prop
  | signal source t, x =>
    ∃ terms constant y, .signal source t terms constant y ∈ gates ∧ x = ⟨y, source.bounds⟩
  | negation arg, x =>
    ∃ operand y, .negation operand y ∈ gates ∧ arg.DenotedBy gates operand ∧
      x = ⟨y, operand.bounds.negate⟩
  | extreme e args, x =>
    ∃ m inputs r selectors, .extreme e m inputs r selectors ∈ gates ∧
      ListDenotedBy gates args inputs ∧ x = ⟨r, e.boundsOf (inputs.map Encoded.bounds)⟩

def ListDenotedBy (gates : List Gate) :
    List (Unrolled Exact) → List (Encoded Exact VarId) → Prop
  | [], xs => xs = []
  | u :: rest, xs =>
    ∃ x others, xs = x :: others ∧ u.DenotedBy gates x ∧ ListDenotedBy gates rest others

end

theorem listDenotedBy_iff {gates : List Gate} {us : List (Unrolled Exact)}
    {xs : List (Encoded Exact VarId)} :
    ListDenotedBy gates us xs ↔ List.Forall₂ (DenotedBy gates) us xs := by
  induction us generalizing xs with
  | nil => simp [ListDenotedBy, List.forall₂_nil_left_iff]
  | cons u rest ih =>
    simp only [ListDenotedBy, ih, List.forall₂_cons_left_iff]
    exact ⟨fun ⟨x, others, he, hu, hrest⟩ => ⟨x, others, hu, hrest, he⟩,
      fun ⟨x, others, hu, hrest, he⟩ => ⟨x, others, he, hu, hrest⟩⟩

section Denotation

variable {gates gates' : List Gate}

mutual

theorem DenotedBy.mono (h : gates ⊆ gates') :
    ∀ (u : Unrolled Exact) (x : Encoded Exact VarId), u.DenotedBy gates x → u.DenotedBy gates' x
  | signal _ _, _, ⟨terms, constant, y, hmem, he⟩ => ⟨terms, constant, y, h hmem, he⟩
  | negation arg, _, ⟨operand, y, hmem, harg, he⟩ =>
    ⟨operand, y, h hmem, DenotedBy.mono h arg operand harg, he⟩
  | extreme _ args, _, ⟨m, inputs, r, selectors, hmem, hargs, he⟩ =>
    ⟨m, inputs, r, selectors, h hmem, ListDenotedBy.mono h args inputs hargs, he⟩

theorem ListDenotedBy.mono (h : gates ⊆ gates') :
    ∀ (us : List (Unrolled Exact)) (xs : List (Encoded Exact VarId)),
      ListDenotedBy gates us xs → ListDenotedBy gates' us xs
  | [], _, hxs => hxs
  | u :: rest, _, ⟨x, others, he, hu, hrest⟩ =>
    ⟨x, others, he, DenotedBy.mono h u x hu, ListDenotedBy.mono h rest others hrest⟩

end

/-- What is denoted is the result of a gate. -/
theorem DenotedBy.exists_output {u : Unrolled Exact} {x : Encoded Exact VarId}
    (h : u.DenotedBy gates x) : ∃ g ∈ gates, g.output = x := by
  cases u with
  | signal source t =>
    obtain ⟨terms, constant, y, hmem, rfl⟩ := h
    exact ⟨_, hmem, rfl⟩
  | negation arg =>
    obtain ⟨operand, y, hmem, -, rfl⟩ := h
    exact ⟨_, hmem, rfl⟩
  | extreme e args =>
    obtain ⟨m, inputs, r, selectors, hmem, -, rfl⟩ := h
    exact ⟨_, hmem, rfl⟩

mutual

/-- Every signal that is read has a gate. -/
theorem DenotedBy.all {P : Signal Exact → Nat → Prop}
    (h : ∀ source t terms constant y, .signal source t terms constant y ∈ gates → P source t) :
    ∀ (u : Unrolled Exact) (x : Encoded Exact VarId), u.DenotedBy gates x → u.All P
  | signal source t, _, ⟨terms, constant, y, hmem, _⟩ => h source t terms constant y hmem
  | negation arg, _, ⟨operand, _, _, harg, _⟩ => DenotedBy.all h arg operand harg
  | extreme _ args, _, ⟨_, inputs, _, _, _, hargs, _⟩ => ListDenotedBy.all h args inputs hargs

theorem ListDenotedBy.all {P : Signal Exact → Nat → Prop}
    (h : ∀ source t terms constant y, .signal source t terms constant y ∈ gates → P source t) :
    ∀ (us : List (Unrolled Exact)) (xs : List (Encoded Exact VarId)), ListDenotedBy gates us xs →
      ListAll P us
  | [], _, _ => trivial
  | u :: rest, _, ⟨x, others, _, hu, hrest⟩ =>
    ⟨DenotedBy.all h u x hu, ListDenotedBy.all h rest others hrest⟩

end

mutual

/-- **A variable that stands for an expression has its value**, if all gates compute their results
and signals have the values that their gates give them. -/
theorem DenotedBy.value_eq {p : Assignment} {read : Signal Exact → Nat → Rat}
    (hcomputes : ∀ g ∈ gates, g.Computes p)
    (hread : ∀ source t terms constant y, .signal source t terms constant y ∈ gates →
      weigh p terms + constant.toRat = read source t) :
    ∀ (u : Unrolled Exact) (x : Encoded Exact VarId), u.DenotedBy gates x →
      p x.var = u.value read
  | signal source t, _, ⟨terms, constant, y, hmem, he⟩ => by
    subst he
    exact (hcomputes _ hmem).trans (hread source t terms constant y hmem)
  | negation arg, _, ⟨operand, y, hmem, harg, he⟩ => by
    subst he
    have ih := DenotedBy.value_eq hcomputes hread arg operand harg
    exact (hcomputes _ hmem).trans (congrArg Neg.neg ih)
  | extreme e args, _, ⟨m, inputs, r, selectors, hmem, hargs, he⟩ => by
    subst he
    have ih := ListDenotedBy.values_eq hcomputes hread args inputs hargs
    have hpicks : e.Picks (inputs.map fun x => p x.var) (p r) := hcomputes _ hmem
    exact hpicks.eq_pick.trans (congrArg e.pick ih)

theorem ListDenotedBy.values_eq {p : Assignment} {read : Signal Exact → Nat → Rat}
    (hcomputes : ∀ g ∈ gates, g.Computes p)
    (hread : ∀ source t terms constant y, .signal source t terms constant y ∈ gates →
      weigh p terms + constant.toRat = read source t) :
    ∀ (us : List (Unrolled Exact)) (xs : List (Encoded Exact VarId)), ListDenotedBy gates us xs →
      xs.map (fun x => p x.var) = values read us
  | [], _, hxs => by
    obtain rfl : _ = [] := hxs
    rfl
  | u :: rest, _, ⟨x, others, he, hu, hrest⟩ => by
    subst he
    rw [List.map_cons, values, DenotedBy.value_eq hcomputes hread u x hu,
      ListDenotedBy.values_eq hcomputes hread rest others hrest]

end

end Denotation

end Unrolled

end SignalTemporalLogic
