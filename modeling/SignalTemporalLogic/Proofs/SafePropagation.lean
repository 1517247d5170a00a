import Mathlib
import SignalTemporalLogic.Proofs.BuiltModels
import SignalTemporalLogic.Proofs.Trimming

/-!
Propagation is safe. With any tolerance, from one term to all rounds, a box with a solution is never
given up, and the solution stays inside. All that is asked of the constraints is their normal form.
-/

namespace SignalTemporalLogic

/-- A fold goes through if each step does under an invariant that the step keeps. -/
theorem exists_foldlM_of_step {β γ : Type} {P : β → Prop} {f : β → γ → Option β} {l : List γ}
    (step : ∀ b, P b → ∀ c ∈ l, ∃ b', f b c = some b' ∧ P b') {b : β} (hb : P b) :
    ∃ b', l.foldlM f b = some b' ∧ P b' := by
  induction l generalizing b with
  | nil => exact ⟨b, rfl, hb⟩
  | cons c rest ih =>
    obtain ⟨b₁, hrun, hb₁⟩ := step b hb c List.mem_cons_self
    rw [List.foldlM_cons, hrun]
    exact ih (fun b hb c hc => step b hb c (List.mem_cons_of_mem _ hc)) hb₁

namespace StoredModel

/-! ## One limit -/

variable {m : StoredModel Exact} {box : Box Exact} {bound : Rat} {p : Assignment}
  {terms before after : List (Exact × VarId)} {t : Exact × VarId} {n : Narrowing Exact}

/-- The assignment gives whole numbers to the binary variables. -/
def Whole (m : StoredModel Exact) (p : Assignment) : Prop :=
  ∀ v, m.isBinary v = true → ∃ n : Int, p v = n

/-- A term is left the value that it has in a solution. -/
theorem trim?_keeps (htolerance : 0 ≤ m.tolerance) {activity : LeastActivity Exact}
    (hactivity : activity.Of box (before ++ t :: after))
    (hterms : Box.Separate (before ++ t :: after)) (hp : box.Has p) (hwhole : m.Whole p)
    (hle : weigh p (before ++ t :: after) ≤ bound) :
    ∃ r, m.trim? activity (.fin bound) box (t, before.length) = some r ∧ r.1.Contains (p t.2) := by
  obtain ⟨⟨hfinite, hnonzero⟩, hothers, -⟩ := separate_middle hterms
  obtain ⟨c, v⟩ := t
  obtain ⟨a, rfl⟩ := Exact.isFinite_iff.mp hfinite
  replace hnonzero : a ≠ 0 := hnonzero
  unfold trim?
  dsimp only
  rcases LeastActivity.without?_cases hactivity with ⟨hrest, hlimits⟩ | ⟨hrest, -⟩
  · rw [show activity.without? before.length (leastTerm (.fin a) (box.range v)) = _ from hrest]
    simp only [Exact.fin_sub_fin, Exact.fin_div_fin hnonzero]
    have hleast := Box.leastSum_le_weigh hothers hlimits hp
    rw [weigh_middle, Exact.toRat_fin] at hle
    have hkept := cut_keeps (l := bound - box.leastSum (before ++ after)) htolerance hnonzero
      (hp v) (by linarith) (hwhole v)
    rw [settle?_of_contains htolerance hkept]
    exact ⟨_, rfl, hkept⟩
  · rw [show activity.without? before.length (leastTerm (.fin a) (box.range v)) = _ from hrest]
    exact ⟨_, rfl, hp v⟩

/-- A limit that is satisfied is not found to be exceeded. -/
theorem not_exceeds (htolerance : 0 ≤ m.tolerance) (hterms : Box.Separate terms)
    (hp : box.Has p) (hle : weigh p terms ≤ bound) :
    ¬ ((LeastActivity.ofTerms box terms).unbounded = 0 ∧
      Exact.fin bound + m.tolerance * (1 + Scalar.abs (.fin bound)) <
        (LeastActivity.ofTerms box terms).finite) := by
  rintro ⟨hzero, hlt⟩
  have hactivity := LeastActivity.ofTerms_of box terms
  have hleast := Box.leastSum_le_weigh hterms (hactivity.limits_iff.mp hzero) hp
  rw [hactivity.finite] at hlt
  rcases slack_cases htolerance bound with heq | ⟨c, hc, heq⟩
  · rw [heq] at hlt
    exact hlt
  · rw [heq, Exact.fin_add_fin, Exact.fin_lt_fin] at hlt
    linarith

theorem tighten_keeps (htolerance : 0 ≤ m.tolerance) (hterms : Box.Separate terms)
    (hknown : ∀ t ∈ terms, t.2.index < n.box.size) (hp : n.box.Has p) (hwhole : m.Whole p)
    (hle : weigh p terms ≤ bound) :
    ∃ n', m.tighten terms (.fin bound) n = some n' ∧ n'.box.size = n.box.size ∧ n'.box.Has p := by
  have htrim : ∀ t ∈ terms.zipIdx, ∃ r,
      m.trim? (LeastActivity.ofTerms n.box terms) (.fin bound) n.box t = some r ∧
        r.1.Contains (p t.1.2) := by
    intro t ht
    obtain ⟨before, after, hsplit, heq⟩ := exists_split_of_mem_zipIdx ht
    rw [heq]
    exact trim?_keeps htolerance (hsplit ▸ LeastActivity.ofTerms_of n.box terms)
      (hsplit ▸ hterms) hp hwhole (hsplit ▸ hle)
  obtain ⟨n', hrun⟩ := exists_foldlM_tightenTerm hterms.zipIdx_distinct fun t ht =>
    (htrim t ht).imp fun _ h => h.1
  have hall := trimsAll_of_foldlM hterms.zipIdx_distinct
    (fun t ht => hknown t.1 (List.fst_mem_of_mem_zipIdx ht)) hrun
  refine ⟨n', ?_, hall.size_eq, fun v => ?_⟩
  · unfold tighten
    rw [if_neg (not_exceeds htolerance hterms hp hle)]
    exact hrun
  · by_cases hv : ∃ t ∈ terms.zipIdx, t.1.2 = v
    · obtain ⟨t, ht, rfl⟩ := hv
      obtain ⟨cuts, hrange, -⟩ := hall.trims t ht
      obtain ⟨r, hr, hcontains⟩ := htrim t ht
      obtain rfl := Option.some.inj (hr.symm.trans hrange)
      exact hcontains
    · rw [hall.frame v fun t ht htv => hv ⟨t, ht, htv⟩]
      exact hp v

/-! ## Constraints and rounds -/

theorem separate_of_normal {count : Nat} {c : Constraint Exact} (h : c.Normal count) :
    Box.Separate c.terms where
  finite := h.finite
  nonzero := h.nonzero
  distinct := h.sorted.imp fun hlt heq => absurd (congrArg VarId.index heq) (Nat.ne_of_lt hlt)

theorem separate_negated (h : Box.Separate terms) :
    Box.Separate (terms.map fun (a, v) => (-a, v)) := by
  obtain ⟨hfinite, hnonzero, hdistinct⟩ := h
  refine ⟨List.forall_mem_map.mpr fun t ht => isFinite_neg.mpr (hfinite t ht),
    List.forall_mem_map.mpr fun t ht => ?_, List.pairwise_map.mpr hdistinct⟩
  obtain ⟨a, ha⟩ := Exact.isFinite_iff.mp (hfinite t ht)
  have hne := hnonzero t ht
  simp only [ha, Exact.neg_fin, Exact.toRat_fin] at hne ⊢
  exact neg_ne_zero.mpr hne

theorem weigh_negated_le_iff {count : Nat} {c : Constraint Exact} (hc : c.Normal count) :
    weigh p (c.terms.map fun (a, v) => (-a, v)) ≤ -c.rhs.toRat ↔ c.rhs.toRat ≤ weigh p c.terms := by
  rw [weigh_negated hc.finite, neg_le_neg_iff]

/-- **A constraint keeps what satisfies it.** -/
theorem tightenConstraint_keeps (htolerance : 0 ≤ m.tolerance) {c : Constraint Exact}
    (hc : c.Normal n.box.size) (hp : n.box.Has p) (hwhole : m.Whole p) (hholds : c.Holds p) :
    ∃ n', m.tightenConstraint n c = some n' ∧ n'.box.size = n.box.size ∧ n'.box.Has p := by
  obtain ⟨bound, hbound⟩ := Exact.isFinite_iff.mp hc.finite_rhs
  have hbelow (n : Narrowing Exact) (hc : c.Normal n.box.size) (hp : n.box.Has p)
      (hle : weigh p c.terms ≤ c.rhs.toRat) :
      ∃ n', m.tighten c.terms c.rhs n = some n' ∧ n'.box.size = n.box.size ∧ n'.box.Has p := by
    rw [hbound] at hle ⊢
    exact tighten_keeps htolerance (separate_of_normal hc) hc.known hp hwhole hle
  have habove (n : Narrowing Exact) (hc : c.Normal n.box.size) (hp : n.box.Has p)
      (hle : c.rhs.toRat ≤ weigh p c.terms) :
      ∃ n', m.tighten (c.terms.map fun (a, v) => (-a, v)) (-c.rhs) n = some n' ∧
        n'.box.size = n.box.size ∧ n'.box.Has p := by
    rw [← weigh_negated_le_iff hc] at hle
    rw [hbound] at hle ⊢
    exact tighten_keeps htolerance (separate_negated (separate_of_normal hc))
      (List.forall_mem_map.mpr hc.known) hp hwhole hle
  unfold tightenConstraint
  unfold Constraint.Holds at hholds
  cases hrelation : c.relation <;> rw [hrelation] at hholds
  · exact hbelow n hc hp hholds
  · exact habove n hc hp hholds
  · have hequal : weigh p c.terms = c.rhs.toRat := hholds
    obtain ⟨n₁, hrun₁, hsize₁, hp₁⟩ := hbelow n hc hp hequal.le
    obtain ⟨n', hrun, hsize, hp'⟩ := habove n₁ (hsize₁.symm ▸ hc) hp₁ hequal.ge
    refine ⟨n', ?_, hsize.trans hsize₁, hp'⟩
    simp only [hrun₁, Option.bind_eq_bind, Option.bind_some]
    exact hrun

section Rounds

variable (htolerance : 0 ≤ m.tolerance) (hnormal : m.Normal) (hwhole : m.Whole p)
  (hholds : ∀ c ∈ m.constraints, c.Holds p)

include htolerance hnormal hwhole hholds

theorem propagateRound_keeps (hsize : box.size = m.vars.size) (hp : box.Has p) :
    ∃ n, m.propagateRound box = some n ∧ n.box.size = m.vars.size ∧ n.box.Has p := by
  unfold propagateRound
  rw [← Array.foldlM_toList]
  refine exists_foldlM_of_step (P := fun n : Narrowing Exact =>
    n.box.size = m.vars.size ∧ n.box.Has p) ?_ ⟨hsize, hp⟩
  rintro n ⟨hsize, hp⟩ c hc
  have hmem := Array.mem_toList_iff.mp hc
  obtain ⟨n', hrun, hsize', hp'⟩ :=
    tightenConstraint_keeps htolerance (hsize.symm ▸ hnormal c hmem) hp hwhole (hholds c hmem)
  exact ⟨n', hrun, hsize'.trans hsize, hp'⟩

theorem propagateFor_keeps (rounds : Nat) (hsize : box.size = m.vars.size) (hp : box.Has p) :
    ∃ box', m.propagateFor rounds box = some box' ∧ box'.Has p := by
  induction rounds generalizing box with
  | zero => exact ⟨box, rfl, hp⟩
  | succ rounds ih =>
    obtain ⟨n, hrun, hsize', hp'⟩ :=
      propagateRound_keeps htolerance hnormal hwhole hholds hsize hp
    rw [propagateFor, hrun]
    cases hchanged : n.changed with
    | true => simpa [hchanged] using ih hsize' hp'
    | false => simpa [hchanged] using hp'

end Rounds

end StoredModel

/-- **Propagation is sound.** In a model that was put together by accepted calls, with any tolerance
that is not negative and for any box, an assignment in the box that satisfies all constraints exactly,
with whole numbers for the binary variables, is still inside after propagation, which does not fail. -/
theorem propagation_sound (m : StoredModel Exact) (hm : m.Built) (htolerance : 0 ≤ m.tolerance)
    (box : Box Exact) (hsize : box.size = m.vars.size) (p : Assignment) (hp : box.Has p)
    (hwhole : m.Whole p) (hholds : ∀ c ∈ m.constraints, c.Holds p) :
    ∃ box', m.propagate box = some box' ∧ box'.Has p :=
  StoredModel.propagateFor_keeps htolerance hm.normal hwhole hholds StoredModel.maxRounds hsize hp

/-- A switch `x` and a load `y` with `x + 2 y ≤ 3`, and a tolerance of an eighth. -/
def switchedLoad : StoredModel Exact :=
  let m := StoredModel.empty.withTolerance (.fin (1 / 8))
  let m := (StoredModel.addVariable "x" .binary ⟨.fin 0, .fin 1⟩ m).2
  let m := (StoredModel.addVariable "y" .continuous ⟨.fin 0, .fin 4⟩ m).2
  (StoredModel.addConstraint ⟨[(.fin 1, ⟨0⟩), (.fin 2, ⟨1⟩)], .fin 0⟩ .lessEqual
    (.ofConstant (.fin 3)) m).2

theorem switchedLoad_built : switchedLoad.Built :=
  .constrained ⟨_, _, _⟩ (.declared _ _ _ (.declared _ _ _ (.tolerant _ .empty)))

/-- The load is cut to one and a half, so that it may be one. -/
theorem propagation_sound_of_switchedLoad :
    let box : Box Exact := #[⟨.fin 0, .fin 1⟩, ⟨.fin 0, .fin 4⟩]
    switchedLoad.propagate box = some #[⟨.fin 0, .fin 1⟩, ⟨.fin 0, .fin (3 / 2)⟩] ∧
      ∃ box', switchedLoad.propagate box = some box' ∧ box'.Has fun _ => 1 := by
  intro box
  have hhas : box.Has fun _ => 1 := by
    rintro ⟨_ | _ | v⟩
    · exact (by decide +kernel : Exact.fin 0 ≤ .fin 1 ∧ Exact.fin 1 ≤ .fin 1)
    · exact (by decide +kernel : Exact.fin 0 ≤ .fin 1 ∧ Exact.fin 1 ≤ .fin 4)
    · exact (Bounds.contains_unbounded 1 : Bounds.unbounded.Contains 1)
  have hconstraints : switchedLoad.constraints =
      #[⟨[(.fin 1, ⟨0⟩), (.fin 2, ⟨1⟩)], .lessEqual, .fin 3⟩] := by cbv
  have hholds : ∀ c ∈ switchedLoad.constraints, c.Holds fun _ => 1 := by
    intro c hc
    rw [hconstraints] at hc
    obtain rfl := Array.mem_singleton.mp hc
    norm_num [Constraint.Holds, Relation.Holds]
  exact ⟨by cbv, propagation_sound switchedLoad switchedLoad_built (by decide +kernel) box rfl _ hhas
    (fun _ _ => ⟨1, rfl⟩) hholds⟩

end SignalTemporalLogic
