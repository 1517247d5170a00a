import SignalTemporalLogic.Proofs.Cascades

/-!
The search of an encoding over fixed samples. It branches on selectors that are truly free, so that
its first branch still has a solution, and it never has to take one back. What it arrives at is a
solution, unless it is out of nodes before.
-/

namespace SignalTemporalLogic.StoredModel

variable {m : StoredModel Exact} {bigM : BigM Exact} {gates : List Gate} {box box' : Box Exact}
  {v : VarId} {layers : Nat}

/-- A selector is open if more than one value is left to it. -/
theorem Alive.wide_iff (h : m.Alive gates box) (hwired : m.Wired bigM gates)
    (hbinary : m.isBinary v = true) :
    Scalar.half < (box.range v).upper - (box.range v).lower ↔ ¬ ∃ q, box.Pins v q := by
  obtain ⟨g, hg, hd⟩ := hwired.binary v hbinary
  have hswitch := h.switches g hg v hd
  rw [half_lt_iff_of_switch hswitch]
  rcases hswitch.open_or_closed with ⟨hopen, hunit⟩ | ⟨hclosed, n, hn⟩
  · refine iff_of_true hopen fun ⟨q, hq⟩ => ?_
    have hzero : (box.range v).Contains 0 := by rw [hunit, Bounds.contains_fin]; norm_num
    have hone : (box.range v).Contains 1 := by rw [hunit, Bounds.contains_fin]; norm_num
    exact zero_ne_one ((hq _ hzero).trans (hq _ hone).symm)
  · exact iff_of_false hclosed (not_not_intro ⟨n, Box.pins_of_point hn⟩)

/-- Both branches of a selector that is truly free have a solution. -/
theorem Alive.assigned (h : m.Alive gates box) (hwired : m.Wired bigM gates)
    (hbinary : m.isBinary v = true) (hundecided : m.Undecided box v) {c : Rat}
    (hc : c = 0 ∨ c = 1) : m.Alive gates (assign box v.index (.fin c)) := by
  obtain ⟨g, hg, hd⟩ := hwired.binary v hbinary
  have hlt : v.index < box.size := h.size_eq ▸ lt_of_shape (hwired.selector g hg v hd)
  have hself : Box.range (assign box v.index (.fin c)) v = .point (.fin c) :=
    range_assign_self hlt
  have hothers : ∀ u, u ≠ v → Box.range (assign box v.index (.fin c)) u = box.range u :=
    fun u hu => range_assign_of_ne hu
  refine ⟨size_assign.trans h.size_eq, ?_, fun u hu hadds => ?_, fun g' hg' d hd' => ?_⟩
  · obtain ⟨p, hsat, hp, hpv⟩ : ∃ p, m.Satisfies p ∧ box.Has p ∧ p v = c := by
      rcases hc with rfl | rfl
      · exact hundecided.1
      · exact hundecided.2
    refine ⟨p, hsat, fun u => ?_⟩
    by_cases hu : u = v
    · rw [hu, hself, hpv]
      exact Bounds.contains_point.mpr rfl
    · rw [hothers u hu]
      exact hp u
  · have hne : u ≠ v := fun he =>
      hadds g hg (he ▸ (Gate.adds_of_switch (hwired.laid.formed g hg) hd).1)
    obtain ⟨q, hq⟩ := h.fixed u hu hadds
    exact ⟨q, fun x hx => hq x (hothers u hne ▸ hx)⟩
  · by_cases hdv : d = v
    · rw [hdv, hself]
      rcases hc with rfl | rfl
      · exact .inr ⟨0, by simp⟩
      · exact .inr ⟨1, by simp⟩
    · rw [hothers d hdv]
      exact h.switches g' hg' d hd'

theorem exists_branches (m : StoredModel Exact) (box : Box Exact) (i : Nat) :
    ∃ c c' : Rat, (c = 0 ∨ c = 1) ∧
      m.branches box i = [assign box i (.fin c), assign box i (.fin c')] := by
  unfold branches
  split
  · exact ⟨1, 0, .inr rfl, rfl⟩
  · exact ⟨0, 1, .inl rfl, rfl⟩

/-- The vector of the first values. -/
theorem Stable.complete_eq (h : m.Stable gates box) (hwired : m.Wired bigM gates)
    (hclosed : m.openBinary? box = none) : ∃ p, m.Satisfies p ∧
      m.complete box = some ((Array.ofFn fun i : Fin m.vars.size => p ⟨i⟩).map .fin) := by
  obtain ⟨p, hsat, hp⟩ := h.solved
  refine ⟨p, hsat, complete_of_points hwired.tolerance_eq h.size_eq fun i hi => ?_⟩
  obtain ⟨q, hq⟩ := h.pins hwired (v := ⟨i⟩) (fun u hbinary => by
    by_contra hopen
    exact not_wide_of_openBinary?_eq_none h.size_eq hclosed hbinary
      ((h.wide_iff hwired hbinary).mpr hopen)) (h.size_eq ▸ hi)
  exact Bounds.eq_point_of_single (hp _) (hq _ (hp _) ▸ hq)

/-- **The search never turns back.** A box with a solution is searched until a solution is found or
the nodes are used up. -/
theorem Alive.explore (h : m.Alive gates box) (hwired : m.Wired bigM gates)
    (hlayers : 2 * layers < maxRounds) (hwithin : ∀ g ∈ gates, g.Within gates layers)
    (budget : Nat) (pending : List (Box Exact)) :
    m.explore budget (box :: pending) = .aborted ∨ ∃ p, m.Satisfies p ∧
      m.explore budget (box :: pending) =
        .found ((Array.ofFn fun i : Fin m.vars.size => p ⟨i⟩).map .fin) := by
  induction budget generalizing box pending with
  | zero => exact .inl rfl
  | succ budget ih =>
    obtain ⟨p, hsat, hp⟩ := h.solved
    obtain ⟨box', hrun, -⟩ := propagateFor_keeps
      (hwired.tolerance_eq ▸ Exact.fin_le_fin.mpr (le_refl 0)) hwired.normal hsat.whole hsat.holds
      maxRounds h.size_eq hp
    have hstable := h.stable_of_propagate hwired hlayers hwithin hrun
    rw [StoredModel.explore, show m.propagate box = some box' from hrun]
    cases hopen : m.openBinary? box' with
    | none =>
      obtain ⟨q, hq, hcomplete⟩ := hstable.complete_eq hwired hopen
      exact .inr ⟨q, hq, by simp only [hopen, hcomplete]⟩
    | some i =>
      obtain ⟨-, hbinary, hwide, hfirst⟩ := wide_of_openBinary?_eq_some hstable.size_eq hopen
      have hundecided := hstable.undecided hwired hbinary
        ((hstable.wide_iff hwired hbinary).mp hwide) fun u hu hu' => by
          by_contra hnone
          exact hfirst u hu hu' ((hstable.wide_iff hwired hu').mpr hnone)
      obtain ⟨c, c', hc, hbranches⟩ := exists_branches m box' i
      simp only [hopen, hbranches, List.cons_append, List.nil_append]
      exact ih (hstable.assigned hwired hbinary hundecided hc) _

/-- **A model of gates over fixed samples is solved** if it has a solution and not too many
layers. -/
theorem Wired.solve (hwired : m.Wired bigM gates) (halive : m.Alive gates m.declaredBox)
    (hlayers : 2 * layers < maxRounds) (hwithin : ∀ g ∈ gates, g.Within gates layers)
    (hnodes : m.solve.status ≠ .nodeLimit) : m.solve.status = .feasible := by
  unfold StoredModel.solve at hnodes ⊢
  rcases halive.explore hwired hlayers hwithin m.nodeLimit [] with haborted | ⟨p, hsat, hfound⟩
  · rw [haborted] at hnodes
    exact absurd rfl hnodes
  · rw [hfound]
    simp only [check_ofFn hwired.tolerance_eq hwired.normal hsat, if_true]

end SignalTemporalLogic.StoredModel
