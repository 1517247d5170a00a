import SignalTemporalLogic.Feasibility.Search
import SignalTemporalLogic.Proofs.Switches

/-!
The search of a model whose variables are all switches. Each branch closes one open range, so that
below the root there are never more open ranges than variables other than the first. As long as
propagation has a round for each of them, an assignment that the search arrives at satisfies the
constraints, and no box that holds a solution is dropped.
-/

namespace SignalTemporalLogic.StoredModel

variable {m : StoredModel Exact} {box box' : Box Exact} {p q : Assignment} {i : Nat}

/-- A box that the search may look at: one of switches within the declared bounds. -/
structure Candidate (m : StoredModel Exact) (box : Box Exact) : Prop where
  size_eq : box.size = m.vars.size
  switches : box.Switches
  declared (v : VarId) (x : Rat) : (box.range v).Contains x → (m.declaredBox.range v).Contains x

theorem range_declaredBox {i : Nat} (hi : i < m.vars.size) :
    m.declaredBox.range ⟨i⟩ = m.vars[i].bounds := by
  rw [Box.range_of_lt (by simpa [declaredBox] using hi)]
  simp [declaredBox]

theorem Candidate.propagated (h : m.Candidate box) (htolerance : m.tolerance = .fin 0)
    (hnormal : m.Normal) (hbinary : m.AllBinary) (hrun : m.propagate box = some box') :
    m.Candidate box' := by
  have hnarrows := narrows_of_propagateFor htolerance hnormal maxRounds h.size_eq
    h.switches.populated hrun
  exact ⟨hnarrows.size_eq.trans h.size_eq, hnarrows.switches hbinary h.size_eq h.switches,
    fun v x hx => h.declared v x (hnarrows.shrinks v x hx)⟩

/-! ## Branching -/

theorem mem_branches {b : Box Exact} :
    b ∈ m.branches box i ↔ b = assign box i (.fin 0) ∨ b = assign box i (.fin 1) := by
  unfold branches
  split <;> simp [or_comm]

theorem range_assign_self {c : Exact} (hi : i < box.size) :
    Box.range (assign box i c) ⟨i⟩ = .point c :=
  Box.range_set_self hi

theorem range_assign_of_ne {c : Exact} {v : VarId} (h : v ≠ ⟨i⟩) :
    Box.range (assign box i c) v = box.range v :=
  Box.range_set_of_ne h

@[simp] theorem size_assign {c : Exact} : (assign box i c).size = box.size :=
  Array.size_setIfInBounds

/-- The branches of an open switch are candidates again. -/
theorem Candidate.assigned (h : m.Candidate box) (hi : i ∈ box.openings) {c : Rat}
    (hc : c = 0 ∨ c = 1) : m.Candidate (assign box i (.fin c)) := by
  have hself := range_assign_self (c := .fin c) (Box.mem_openings.mp hi).1
  refine ⟨size_assign.trans h.size_eq, fun v hv => ?_, fun v x hx => ?_⟩ <;> by_cases hvi : v = ⟨i⟩
  · rw [hvi, hself]
    rcases hc with rfl | rfl
    · exact .inr ⟨0, by simp⟩
    · exact .inr ⟨1, by simp⟩
  · rw [range_assign_of_ne hvi]
    exact h.switches v (size_assign ▸ hv)
  · rw [hvi, hself, Bounds.contains_point] at hx
    refine h.declared v x ?_
    rw [hvi, h.switches.range_of_mem hi, Bounds.contains_fin]
    rcases hc with rfl | rfl <;> rw [hx] <;> norm_num
  · exact h.declared v x (range_assign_of_ne hvi ▸ hx)

/-- One range fewer is open in a branch. -/
theorem card_openings_assign_lt (hi : i ∈ box.openings) (c : Rat) :
    (assign box i (.fin c)).openings.card < box.openings.card := by
  obtain ⟨hlt, hopen⟩ := Box.mem_openings.mp hi
  refine Finset.card_lt_card ⟨fun j hj => ?_, fun hsubset => ?_⟩
  · obtain ⟨hjlt, hjopen⟩ := Box.mem_openings.mp hj
    refine Box.mem_openings.mpr ⟨size_assign ▸ hjlt, ?_⟩
    by_cases hji : j = i
    · rw [hji]
      exact hopen
    · rwa [range_assign_of_ne fun he => hji (congrArg VarId.index he)] at hjopen
  · have hclosed := (Box.mem_openings.mp (hsubset hi)).2
    rw [range_assign_self hlt] at hclosed
    exact absurd hclosed (lt_irrefl c)

/-- A solution follows one of the branches. -/
theorem exists_branch_has (hp : box.Has p) (hs : box.Switches) (hi : i ∈ box.openings)
    (hwhole : ∃ n : Int, p ⟨i⟩ = n) : ∃ b ∈ m.branches box i, b.Has p := by
  have hlt := (Box.mem_openings.mp hi).1
  have hcontains := hp ⟨i⟩
  rw [hs.range_of_mem hi] at hcontains
  have hvalue : p ⟨i⟩ = 0 ∨ p ⟨i⟩ = 1 :=
    Shape.selector_allows_iff.mp ⟨hcontains, fun _ => hwhole⟩
  have hhas : Box.Has (assign box i (.fin (p ⟨i⟩))) p := by
    intro v
    by_cases hvi : v = ⟨i⟩
    · rw [hvi, range_assign_self hlt]
      exact Bounds.contains_point.mpr rfl
    · rw [range_assign_of_ne hvi]
      exact hp v
  exact ⟨_, mem_branches.mpr (hvalue.imp (fun h => by rw [h]) fun h => by rw [h]), hhas⟩

theorem half_lt_iff_of_switch {b : Bounds Exact} (h : b.Switch) :
    Scalar.half < b.upper - b.lower ↔ b.lower < b.upper := by
  have hhalf : (Scalar.half : Exact) = .fin (1 / 2) := Exact.fin_div_fin (by norm_num)
  rcases h.open_or_closed with ⟨hopen, hunit⟩ | ⟨hclosed, n, hn⟩
  · refine iff_of_true ?_ hopen
    rw [hunit, hhalf, Exact.fin_sub_fin, Exact.fin_lt_fin]
    norm_num
  · refine iff_of_false ?_ hclosed
    simp only [hn, Bounds.point, hhalf, Exact.fin_sub_fin, Exact.fin_lt_fin]
    norm_num

section Open

variable (hsize : box.size = m.vars.size)

include hsize

theorem binary_and_wide_iff {i : Nat} (hi : i < (m.vars.zip box).size) :
    (decide ((m.vars.zip box)[i].1.kind = .binary) && decide (Scalar.half <
        (m.vars.zip box)[i].2.upper - (m.vars.zip box)[i].2.lower)) = true ↔
      m.isBinary ⟨i⟩ = true ∧
        Scalar.half < (box.range ⟨i⟩).upper - (box.range ⟨i⟩).lower := by
  rw [Array.size_zip, hsize, Nat.min_self] at hi
  rw [Box.range_of_lt (v := ⟨i⟩) (hsize ▸ hi)]
  simp [isBinary, lookup?, hi]

/-- If the search does not branch, then no binary variable is open. -/
theorem not_wide_of_openBinary?_eq_none (h : m.openBinary? box = none) {v : VarId}
    (hbinary : m.isBinary v = true) :
    ¬ Scalar.half < (box.range v).upper - (box.range v).lower := by
  intro hwide
  by_cases hv : v.index < m.vars.size
  · have hi : v.index < (m.vars.zip box).size := by simpa [hsize] using hv
    have hfalse := Array.findIdx?_eq_none_iff.mp h _ (Array.getElem_mem hi)
    have htrue := (binary_and_wide_iff hsize hi).mpr ⟨hbinary, hwide⟩
    exact Bool.false_ne_true (hfalse.symm.trans htrue)
  · simp [isBinary, lookup?, hv] at hbinary

/-- The search branches on the first binary variable that is open. -/
theorem wide_of_openBinary?_eq_some (h : m.openBinary? box = some i) :
    i < m.vars.size ∧ m.isBinary ⟨i⟩ = true ∧
      Scalar.half < (box.range ⟨i⟩).upper - (box.range ⟨i⟩).lower ∧
      ∀ u : VarId, u.index < i → m.isBinary u = true →
        ¬ Scalar.half < (box.range u).upper - (box.range u).lower := by
  obtain ⟨hlt, htrue, hfirst⟩ := Array.findIdx?_eq_some_iff_getElem.mp h
  obtain ⟨hbinary, hwide⟩ := (binary_and_wide_iff hsize hlt).mp htrue
  refine ⟨by simpa [hsize] using hlt, hbinary, hwide, fun u hu hbinary hwide => ?_⟩
  exact hfirst u.index hu ((binary_and_wide_iff hsize (hu.trans hlt)).mpr ⟨hbinary, hwide⟩)

end Open

/-- The search branches on an open range, and on nothing else. -/
theorem openBinary?_cases (hbinary : m.AllBinary) (h : m.Candidate box) :
    m.openBinary? box = none ∧ box.openings = ∅ ∨
      ∃ i ∈ box.openings, m.openBinary? box = some i := by
  have hwide (i : Nat) (hi : i < box.size) :
      Scalar.half < (box.range ⟨i⟩).upper - (box.range ⟨i⟩).lower ↔ i ∈ box.openings := by
    rw [Box.mem_openings, half_lt_iff_of_switch (h.switches ⟨i⟩ hi), and_iff_right hi]
  cases hindex : m.openBinary? box with
  | none =>
    refine .inl ⟨rfl, Finset.eq_empty_of_forall_notMem fun i hi => ?_⟩
    have hlt := (Box.mem_openings.mp hi).1
    exact not_wide_of_openBinary?_eq_none h.size_eq hindex (v := ⟨i⟩)
      (hbinary.isBinary (h.size_eq ▸ hlt)) ((hwide i hlt).mpr hi)
  | some i =>
    obtain ⟨hlt, -, hopen, -⟩ := wide_of_openBinary?_eq_some h.size_eq hindex
    exact .inr ⟨i, (hwide i (h.size_eq.symm ▸ hlt)).mp hopen, rfl⟩

/-! ## Leaves -/

theorem midpoint_fin_self (a : Rat) : Scalar.midpoint (Exact.fin a) (.fin a) = .fin a := by
  have hhalf : Scalar.midpoint (Exact.fin a) (.fin a) = .fin ((a + a) / 2) :=
    Exact.fin_div_fin (by norm_num)
  rw [hhalf]
  exact congrArg Exact.fin (by ring)

/-- A box of points is left as it is, and read off. -/
theorem complete_of_points (htolerance : m.tolerance = .fin 0) (hsize : box.size = m.vars.size)
    (hpoint : ∀ i < box.size, box.range ⟨i⟩ = .point (.fin (q ⟨i⟩))) :
    m.complete box = some ((Array.ofFn fun i : Fin m.vars.size => q ⟨i⟩).map .fin) := by
  have hpin : ∀ i ∈ List.range m.vars.size, m.pin box i = some box := by
    intro i hi
    unfold pin
    rw [hpoint i (hsize ▸ List.mem_range.mp hi), htolerance]
    exact if_pos (by simp [Bounds.point])
  obtain ⟨box', hrun, rfl⟩ := exists_foldlM_of_step (P := (· = box)) (f := m.pin)
    (fun b hb i hi => ⟨box, hb ▸ hpin i hi, rfl⟩) (rfl : box = box)
  unfold complete
  rw [hrun]
  refine congrArg some (Array.ext (by simp [hsize]) fun i hi _ => ?_)
  rw [Array.size_map] at hi
  have hget : box'[i] = .point (.fin (q ⟨i⟩)) := by
    rw [← hpoint i hi]
    exact (Box.range_of_lt (v := ⟨i⟩) hi).symm
  simp only [Array.getElem_map, hget, Bounds.point, midpoint_fin_self, Array.getElem_ofFn]

theorem complete_eq (htolerance : m.tolerance = .fin 0) (h : m.Candidate box)
    (hclosed : box.openings = ∅) (hq : box.Has q) :
    m.complete box = some ((Array.ofFn fun i : Fin m.vars.size => q ⟨i⟩).map .fin) := by
  refine complete_of_points htolerance h.size_eq fun i hi => ?_
  obtain ⟨n, hn, hrange⟩ :=
    h.switches.range_of_not_mem (v := ⟨i⟩) hi (hclosed ▸ Finset.notMem_empty i) hq
  rw [hn]
  exact hrange

/-- A member of a candidate that satisfies the constraints satisfies the model. -/
theorem Candidate.satisfies (h : m.Candidate box) (hclosed : box.openings = ∅) (hq : box.Has q)
    (hholds : ∀ c ∈ m.constraints, c.Holds q) : m.Satisfies q := by
  refine ⟨fun i hi => ⟨?_, fun _ => ?_⟩, hholds⟩
  · have hdeclared := h.declared ⟨i⟩ _ (hq ⟨i⟩)
    rwa [range_declaredBox hi] at hdeclared
  · obtain ⟨n, hn, -⟩ := h.switches.range_of_not_mem (v := ⟨i⟩) (h.size_eq.symm ▸ hi)
      (hclosed ▸ Finset.notMem_empty i) hq
    exact ⟨n, hn⟩

/-! ## The search -/

theorem Satisfies.whole (h : m.Satisfies p) : m.Whole p := by
  intro v hv
  unfold isBinary lookup? at hv
  cases hvar : m.vars[v.index]? with
  | none => rw [hvar] at hv; cases hv
  | some var =>
    obtain ⟨hlt, rfl⟩ := Array.getElem?_eq_some_iff.mp hvar
    rw [hvar] at hv
    exact (h.allows v.index hlt).integral (by simpa using hv)

section Search

variable (htolerance : m.tolerance = .fin 0) (hnormal : m.Normal) (hbinary : m.AllBinary)
  (hroom : m.vars.size ≤ maxRounds + 1) (hsat : m.Satisfies p)

/-- What the search knows of a box that it has still to look at: it holds the solution, or there is a
round for each of its open ranges. -/
structure Promising (m : StoredModel Exact) (p : Assignment) (box : Box Exact) : Prop where
  candidate : m.Candidate box
  possible : box.Has p ∨ box.openings.card ≤ maxRounds

include htolerance hnormal hsat

theorem Candidate.propagate_keeps (h : m.Candidate box) (hp : box.Has p) :
    ∃ box', m.propagate box = some box' ∧ box'.Has p :=
  propagateFor_keeps (htolerance ▸ Exact.fin_le_fin.mpr (le_refl 0)) hnormal hsat.whole hsat.holds
    maxRounds h.size_eq hp

include hbinary

/-- A leaf is read off, and what is read off is right. -/
theorem Promising.leaf (h : m.Promising p box) (hrun : m.propagate box = some box')
    (hclosed : box'.openings = ∅) :
    ∃ values, m.complete box' = some values ∧ m.check values = true := by
  have hbox' := h.candidate.propagated htolerance hnormal hbinary hrun
  obtain ⟨q, hq, hholds⟩ : ∃ q, box'.Has q ∧ ∀ c ∈ m.constraints, c.Holds q := by
    rcases h.possible with hp | hcount
    · obtain ⟨_, hrun', hp'⟩ := h.candidate.propagate_keeps htolerance hnormal hsat hp
      obtain rfl := Option.some.inj (hrun.symm.trans hrun')
      exact ⟨p, hp', hsat.holds⟩
    · choose q hq using hbox'.switches.populated
      exact ⟨q, hq, holds_of_propagateFor htolerance hnormal hbinary (maxRounds - 1)
        h.candidate.size_eq h.candidate.switches hcount hrun hclosed hq⟩
  exact ⟨_, complete_eq htolerance hbox' hclosed hq,
    check_ofFn htolerance hnormal (hbox'.satisfies hclosed hq hholds)⟩

omit htolerance hnormal hbinary hsat in
include hroom in
/-- Below the root there is a round for each open range. -/
theorem Candidate.promising_of_branch (h : m.Candidate box) (hi : i ∈ box.openings) :
    ∀ b ∈ m.branches box i, m.Promising p b := by
  have hcard := h.size_eq ▸ box.card_openings_le
  intro b hb
  rcases mem_branches.mp hb with rfl | rfl
  · have hlt := card_openings_assign_lt hi 0
    exact ⟨h.assigned hi (.inl rfl), .inr (by omega)⟩
  · have hlt := card_openings_assign_lt hi 1
    exact ⟨h.assigned hi (.inr rfl), .inr (by omega)⟩

include hroom

/-- **Nothing is missed.** What is found is right, and if nothing is found then none of the boxes
held the solution. -/
theorem explore_spec (budget : Nat) (pending : List (Box Exact))
    (hpending : ∀ box ∈ pending, m.Promising p box) :
    (m.explore budget pending = .exhausted → ∀ box ∈ pending, ¬ box.Has p) ∧
      ∀ values, m.explore budget pending = .found values → m.check values = true := by
  induction budget generalizing pending with
  | zero =>
    cases pending with
    | nil => simp [explore]
    | cons => simp [explore]
  | succ budget ih =>
    cases pending with
    | nil => simp [explore]
    | cons box rest =>
      obtain ⟨hbox, hrest⟩ := List.forall_mem_cons.mp hpending
      have hkeeps := hbox.candidate.propagate_keeps htolerance hnormal hsat
      rw [explore]
      cases hrun : m.propagate box with
      | none =>
        obtain ⟨hexhausted, hfound⟩ := ih rest hrest
        refine ⟨fun h => List.forall_mem_cons.mpr ⟨fun hp => ?_, hexhausted h⟩, hfound⟩
        obtain ⟨_, hrun', -⟩ := hkeeps hp
        cases hrun.symm.trans hrun'
      | some box' =>
        have hbox' := hbox.candidate.propagated htolerance hnormal hbinary hrun
        rcases openBinary?_cases hbinary hbox' with ⟨hnone, hclosed⟩ | ⟨i, hi, hsome⟩
        · obtain ⟨values, hvalues, hcheck⟩ := hbox.leaf htolerance hnormal hbinary hsat hrun hclosed
          simp only [hnone, hvalues]
          refine ⟨nofun, fun _ h => ?_⟩
          cases h
          exact hcheck
        · obtain ⟨hexhausted, hfound⟩ := ih (m.branches box' i ++ rest)
            (List.forall_mem_append.mpr ⟨hbox'.promising_of_branch hroom hi, hrest⟩)
          simp only [hsome]
          refine ⟨fun h => ?_, hfound⟩
          obtain ⟨hnobranch, hnorest⟩ := List.forall_mem_append.mp (hexhausted h)
          refine List.forall_mem_cons.mpr ⟨fun hp => ?_, hnorest⟩
          -- a solution in the box stays in it, and follows one of the branches
          obtain ⟨_, hrun', hp'⟩ := hkeeps hp
          obtain rfl := Option.some.inj (hrun.symm.trans hrun')
          have hlt : i < m.vars.size := hbox'.size_eq ▸ (Box.mem_openings.mp hi).1
          obtain ⟨b, hb, hpb⟩ := exists_branch_has (m := m) hp' hbox'.switches hi
            (hsat.whole ⟨i⟩ (hbinary.isBinary hlt))
          exact hnobranch b hb hpb

end Search

/-- Only whole numbers are accepted. -/
theorem exists_satisfies_of_check (htolerance : m.tolerance = .fin 0) (hnormal : m.Normal)
    (hbinary : m.AllBinary) {values : Array Exact} (h : m.check values = true) :
    ∃ p, m.Satisfies p := by
  obtain ⟨hsize, hadmits, -⟩ := check_eq_true h
  have hfinite : ∀ i < values.size, Scalar.IsFinite (values.getD i 0) := by
    intro i hi
    have hlt : i < m.vars.size := hsize ▸ hi
    have hadmit := hadmits i hlt
    simp only [htolerance, Variable.admits, Bool.and_eq_true, Bool.or_eq_true,
      decide_eq_true_eq] at hadmit
    have hround := hadmit.2.resolve_left fun hcontinuous => by
      rw [hbinary _ (Array.getElem_mem hlt)] at hcontinuous
      cases hcontinuous
    cases hvalue : values.getD i 0 with
    | fin q => exact Exact.isFinite_fin
    | nan | negInf | posInf => rw [hvalue] at hround; exact hround.elim
  obtain ⟨rationals, rfl⟩ := exists_map_fin hfinite
  exact ⟨_, ((check_iff htolerance hnormal _).mp h).2⟩

end SignalTemporalLogic.StoredModel

namespace SignalTemporalLogic

/-- **The search is complete on switches.** Take a model of binary variables, with tolerance zero,
in which every declared range that contains a whole number goes from zero to one or is that number,
and with at most one variable more than propagation has rounds. If the search reports that it is
infeasible, then no values are accepted. -/
theorem search_complete (m : StoredModel Exact) (hm : m.Built) (htolerance : m.tolerance = .fin 0)
    (hbinary : m.AllBinary)
    (hswitches : ∀ var ∈ m.vars, (∃ n : Int, var.bounds.Contains n) → var.bounds.Switch)
    (hroom : m.vars.size ≤ StoredModel.maxRounds + 1) (h : m.solve.status = .infeasible)
    (values : Array Exact) : m.check values = false := by
  refine Bool.eq_false_iff.mpr fun hcheck => ?_
  obtain ⟨p, hsat⟩ :=
    StoredModel.exists_satisfies_of_check htolerance hm.normal hbinary hcheck
  have hsize : m.declaredBox.size = m.vars.size := Array.size_map
  have hhas : m.declaredBox.Has p := by
    intro v
    by_cases hv : v.index < m.vars.size
    · exact StoredModel.range_declaredBox hv ▸ (hsat.allows v.index hv).contains
    · rw [Box.range_of_size_le (hsize ▸ not_lt.mp hv)]
      exact Bounds.contains_unbounded _
  have hroot : m.Candidate m.declaredBox := by
    refine ⟨hsize, fun v hv => ?_, fun _ _ hx => hx⟩
    have hv' : v.index < m.vars.size := hsize ▸ hv
    obtain ⟨n, hn⟩ := hsat.whole v (hbinary.isBinary hv')
    have hcontains := (hsat.allows v.index hv').contains
    rw [StoredModel.range_declaredBox hv']
    exact hswitches _ (Array.getElem_mem hv') ⟨n, hn ▸ hcontains⟩
  obtain ⟨hexhausted, hfound⟩ := StoredModel.explore_spec htolerance hm.normal hbinary hroom hsat
    m.nodeLimit [m.declaredBox] (List.forall_mem_singleton.mpr ⟨hroot, .inl hhas⟩)
  unfold StoredModel.solve at h
  cases houtcome : m.explore m.nodeLimit [m.declaredBox] with
  | exhausted => exact hexhausted houtcome _ (List.mem_singleton_self _) hhas
  | found values =>
    simp only [houtcome, hfound values houtcome] at h
    cases h
  | aborted =>
    simp only [houtcome] at h
    cases h

/-- Two switches, of which exactly one is on, and both are alike. -/
def oneOfTwins : StoredModel Exact :=
  let m := StoredModel.empty.withTolerance (.fin 0)
  let m := (StoredModel.addVariable "x" .binary ⟨.fin 0, .fin 1⟩ m).2
  let m := (StoredModel.addVariable "y" .binary ⟨.fin 0, .fin 1⟩ m).2
  let m := (StoredModel.addConstraint ⟨[(.fin 1, ⟨0⟩), (.fin 1, ⟨1⟩)], .fin 0⟩ .equal
    (.ofConstant (.fin 1)) m).2
  (StoredModel.addConstraint (.ofVar ⟨0⟩) .equal (.ofVar ⟨1⟩) m).2

theorem search_complete_of_oneOfTwins :
    oneOfTwins.solve.status = .infeasible ∧ oneOfTwins.check #[.fin 1, .fin 0] = false := by
  have hvars : oneOfTwins.vars = #[⟨"x", .binary, ⟨.fin 0, .fin 1⟩, none⟩,
      ⟨"y", .binary, ⟨.fin 0, .fin 1⟩, none⟩] := by cbv
  have hall : ∀ var ∈ oneOfTwins.vars, var.kind = .binary ∧ var.bounds.Switch := by
    rw [hvars]
    simp [Bounds.Switch]
  have hbuilt : oneOfTwins.Built :=
    .constrained ⟨_, _, _⟩ (.constrained ⟨_, _, _⟩ (.declared _ _ _ (.declared _ _ _
      (.tolerant _ .empty))))
  have hroom : oneOfTwins.vars.size ≤ StoredModel.maxRounds + 1 := by rw [hvars]; decide
  have hinfeasible : oneOfTwins.solve.status = .infeasible := by cbv
  exact ⟨hinfeasible, search_complete oneOfTwins hbuilt (by cbv) (fun var hvar => (hall var hvar).1)
    (fun var hvar _ => (hall var hvar).2) hroom hinfeasible _⟩

/-- A switch that is declared from a quarter to one. -/
def quarterSwitch : StoredModel Exact :=
  (StoredModel.addVariable "x" .binary ⟨.fin (1 / 4), .fin 1⟩
    (StoredModel.empty.withTolerance (.fin 0))).2

/-- The first branch is zero, which the declared range does not contain. The search takes it, and
says that there is nothing when the check turns it down. -/
theorem search_misses_one :
    quarterSwitch.Built ∧ quarterSwitch.tolerance = .fin 0 ∧ quarterSwitch.AllBinary ∧
      quarterSwitch.solve.status = .infeasible ∧ quarterSwitch.check #[.fin 1] = true := by
  have hvars : quarterSwitch.vars = #[⟨"x", .binary, ⟨.fin (1 / 4), .fin 1⟩, none⟩] := by cbv
  have hbinary : quarterSwitch.AllBinary := by
    rw [StoredModel.AllBinary, hvars]
    simp
  exact ⟨.declared _ _ _ (.tolerant _ .empty), by cbv, hbinary, by cbv, by cbv⟩

end SignalTemporalLogic
