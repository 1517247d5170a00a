import Mathlib
import SignalTemporalLogic.Proofs.SwitchSearch

/-!
How much a search can cost. A binary variable is branched on while its range is wide. Whatever
propagation does to a range, by any tolerance, it does not make it wide: a cut takes something away,
and a range that is inverted is collapsed to one value. A branch makes one more range narrow for good.
So the search tree is no deeper than there are binary variables, and a node budget decides whether the
search gets to its end, but not what it finds there.
-/

namespace SignalTemporalLogic

/-! ## Wide ranges -/

namespace Exact

variable {a b c d t : Exact}

theorem le_of_lt_sub (ht : 0 ≤ t) (h : b < a - t) : b ≤ a := by
  cases a <;> cases b <;> cases t <;> try trivial
  case fin.fin.fin q r s =>
    have hs : (0 : Rat) ≤ s := ht
    rw [fin_sub_fin, fin_lt_fin] at h
    rw [fin_le_fin]
    linarith

theorem le_of_add_lt (ht : 0 ≤ t) (h : a + t < b) : a ≤ b := by
  cases a <;> cases b <;> cases t <;> try trivial
  case fin.fin.fin q r s =>
    have hs : (0 : Rat) ≤ s := ht
    rw [fin_add_fin, fin_lt_fin] at h
    rw [fin_le_fin]
    linarith

/-- A difference that is above something grows with its ends. -/
theorem lt_sub_of_le_left (h : c < b - d) (hle : b ≤ a) : c < a - d := by
  cases c <;> cases d <;> cases b <;> cases a <;> try trivial
  case fin.fin.fin.fin =>
    simp only [fin_sub_fin, fin_lt_fin, fin_le_fin] at h hle ⊢
    linarith

theorem lt_sub_of_le_right (h : c < a - b) (hle : d ≤ b) : c < a - d := by
  cases c <;> cases b <;> cases a <;> cases d <;> try trivial
  case fin.fin.fin.fin =>
    simp only [fin_sub_fin, fin_lt_fin, fin_le_fin] at h hle ⊢
    linarith

end Exact

/-- Wide enough to be branched on. -/
def Bounds.Wide (b : Bounds Exact) : Prop := Scalar.half < b.upper - b.lower

instance (b : Bounds Exact) : Decidable b.Wide :=
  inferInstanceAs (Decidable (Scalar.half < b.upper - b.lower))

theorem Bounds.not_wide_point (a : Exact) : ¬ (Bounds.point a).Wide := by
  cases a with
  | fin q =>
    have hhalf : (Scalar.half : Exact) = .fin (1 / 2) := Exact.fin_div_fin (by norm_num)
    simp only [Wide, point, hhalf, Exact.fin_sub_fin, Exact.fin_lt_fin]
    norm_num
  | nan | negInf | posInf => exact id

namespace StoredModel

variable {m : StoredModel Exact} {range range' : Bounds Exact}

/-! ## What propagation leaves narrow -/

theorem wide_of_cut (htolerance : 0 ≤ m.tolerance) {a bound : Exact} {binary : Bool}
    (h : m.cut a bound binary range = some range') (hwide : range'.Wide) : range.Wide := by
  unfold cut at h
  dsimp only at h
  split at h
  · generalize (if binary = true then Scalar.floor (bound + m.tolerance) else bound) = limit at h
    split at h
    · next hlt =>
      cases h
      exact Exact.lt_sub_of_le_left hwide (Exact.le_of_lt_sub htolerance hlt)
    · cases h
  · generalize (if binary = true then Scalar.ceil (bound - m.tolerance) else bound) = limit at h
    split at h
    · next hlt =>
      cases h
      exact Exact.lt_sub_of_le_right hwide (Exact.le_of_add_lt htolerance hlt)
    · cases h

theorem wide_of_settle? (h : m.settle? range = some range') (hwide : range'.Wide) : range.Wide := by
  unfold settle? at h
  dsimp only at h
  split at h
  · cases h
  · split at h
    · cases h
      exact absurd hwide (Bounds.not_wide_point _)
    · cases h
      exact hwide

/-- No range of the second box is wide unless it is in the first one. -/
def StaysNarrow (box box' : Box Exact) : Prop := ∀ v, (box'.range v).Wide → (box.range v).Wide

variable {box box' box'' : Box Exact} {n n' : Narrowing Exact}

theorem StaysNarrow.refl (box : Box Exact) : StaysNarrow box box := fun _ => id

theorem StaysNarrow.trans (h : StaysNarrow box box') (k : StaysNarrow box' box'') :
    StaysNarrow box box'' :=
  fun v hwide => h v (k v hwide)

theorem staysNarrow_of_set {v : VarId} (h : range'.Wide → (box.range v).Wide) :
    StaysNarrow box (box.setIfInBounds v.index range') := by
  intro u hwide
  by_cases hu : u = v
  · subst hu
    by_cases hlt : u.index < box.size
    · rw [Box.range_set_self hlt] at hwide
      exact h hwide
    · rwa [Array.setIfInBounds_eq_of_size_le (Nat.le_of_not_lt hlt)] at hwide
  · rwa [Box.range_set_of_ne hu] at hwide

/-- What each step keeps, a fold that goes through keeps. -/
theorem foldlM_trans {β γ : Type} {R : β → β → Prop} {f : β → γ → Option β} (refl : ∀ b, R b b)
    (trans : ∀ {a b c}, R a b → R b c → R a c) (step : ∀ b c b', f b c = some b' → R b b')
    {l : List γ} {b b' : β} (h : l.foldlM f b = some b') : R b b' := by
  induction l generalizing b with
  | nil => exact Option.some.inj h ▸ refl b
  | cons c rest ih =>
    rw [List.foldlM_cons, Option.bind_eq_bind, Option.bind_eq_some_iff] at h
    obtain ⟨b₁, hfirst, hrest⟩ := h
    exact trans (step b c b₁ hfirst) (ih hrest)

section Propagation

variable (htolerance : 0 ≤ m.tolerance)

include htolerance

theorem staysNarrow_of_tightenTerm {activity : LeastActivity Exact} {rhs : Exact}
    {t : (Exact × VarId) × Nat} (h : m.tightenTerm activity rhs n t = some n') :
    StaysNarrow n.box n'.box := by
  obtain ⟨⟨a, v⟩, k⟩ := t
  unfold tightenTerm at h
  dsimp only at h
  split at h
  · cases h
    exact .refl _
  · next rest _ =>
    obtain ⟨range, hsettle, rfl⟩ := Option.map_eq_some_iff.mp h
    refine staysNarrow_of_set fun hwide => ?_
    have hcut := wide_of_settle? hsettle hwide
    cases hcase : m.cut a ((rhs - rest) / a) (m.isBinary v) (n.box.range v) with
    | none => rwa [hcase] at hcut
    | some cutRange =>
      rw [hcase] at hcut
      exact wide_of_cut htolerance hcase hcut

theorem staysNarrow_of_tighten {terms : List (Exact × VarId)} {rhs : Exact}
    (h : m.tighten terms rhs n = some n') : StaysNarrow n.box n'.box := by
  unfold tighten at h
  dsimp only at h
  split at h
  · cases h
  · exact foldlM_trans (R := fun n n' => StaysNarrow n.box n'.box) (fun n => .refl n.box)
      StaysNarrow.trans (fun _ _ _ => staysNarrow_of_tightenTerm htolerance) h

theorem staysNarrow_of_tightenConstraint {c : Constraint Exact}
    (h : m.tightenConstraint n c = some n') : StaysNarrow n.box n'.box := by
  unfold tightenConstraint at h
  dsimp only at h
  split at h
  · exact staysNarrow_of_tighten htolerance h
  · exact staysNarrow_of_tighten htolerance h
  · obtain ⟨n₁, hfirst, hsecond⟩ := Option.bind_eq_some_iff.mp h
    exact (staysNarrow_of_tighten htolerance hfirst).trans
      (staysNarrow_of_tighten htolerance hsecond)

theorem staysNarrow_of_propagateRound (h : m.propagateRound box = some n) :
    StaysNarrow box n.box := by
  unfold propagateRound at h
  rw [← Array.foldlM_toList] at h
  exact foldlM_trans (R := fun n n' => StaysNarrow n.box n'.box) (fun n => .refl n.box)
    StaysNarrow.trans (fun _ _ _ => staysNarrow_of_tightenConstraint htolerance) h

theorem staysNarrow_of_propagateFor {rounds : Nat} (h : m.propagateFor rounds box = some box') :
    StaysNarrow box box' := by
  induction rounds generalizing box with
  | zero =>
    cases h
    exact .refl _
  | succ rounds ih =>
    obtain ⟨n, hround, h⟩ := Option.bind_eq_some_iff.mp h
    have hfirst := staysNarrow_of_propagateRound htolerance hround
    split at h
    · exact hfirst.trans (ih h)
    · cases h
      exact hfirst

end Propagation

/-! ## Open binaries -/

/-- The binary variables that a box leaves open. -/
def openBinaries (m : StoredModel Exact) (box : Box Exact) : Finset Nat :=
  {i ∈ Finset.range m.vars.size | m.isBinary ⟨i⟩ = true ∧ (box.range ⟨i⟩).Wide}

theorem mem_openBinaries {i : Nat} : i ∈ m.openBinaries box ↔
    i < m.vars.size ∧ m.isBinary ⟨i⟩ = true ∧ (box.range ⟨i⟩).Wide := by
  rw [openBinaries, Finset.mem_filter, Finset.mem_range]

theorem card_filter_range_eq_countP {β : Type} (p : β → Bool) (l : List β) :
    ({i ∈ Finset.range l.length | l[i]?.any p = true} : Finset Nat).card = l.countP p := by
  induction l with
  | nil => rfl
  | cons b rest ih =>
    rw [Finset.card_filter] at ih ⊢
    rw [List.length_cons, Finset.sum_range_succ', List.countP_cons, ← ih]
    simp

theorem card_openBinaries_le : (m.openBinaries box).card ≤ m.binaryCount := by
  have hcount := card_filter_range_eq_countP (fun var : Variable Exact => decide (var.kind = .binary))
    m.vars.toList
  unfold binaryCount
  rw [← Array.countP_toList, ← hcount]
  refine Finset.card_le_card fun i hi => ?_
  obtain ⟨hlt, hbinary, -⟩ := mem_openBinaries.mp hi
  exact Finset.mem_filter.mpr ⟨Finset.mem_range.mpr hlt, by simpa [isBinary, lookup?] using hbinary⟩

theorem StaysNarrow.openBinaries_subset (h : StaysNarrow box box') :
    m.openBinaries box' ⊆ m.openBinaries box := by
  intro i hi
  obtain ⟨hlt, hbinary, hwide⟩ := mem_openBinaries.mp hi
  exact mem_openBinaries.mpr ⟨hlt, hbinary, h ⟨i⟩ hwide⟩

/-- The search branches on an open binary. -/
theorem mem_openBinaries_of_openBinary? {i : Nat} (h : m.openBinary? box = some i) :
    i ∈ m.openBinaries box ∧ i < box.size := by
  obtain ⟨hlt, htrue, -⟩ := Array.findIdx?_eq_some_iff_getElem.mp h
  rw [Array.size_zip] at hlt
  have hvars : i < m.vars.size := Nat.lt_of_lt_of_le hlt (Nat.min_le_left _ _)
  have hbox : i < box.size := Nat.lt_of_lt_of_le hlt (Nat.min_le_right _ _)
  simp only [Array.getElem_zip, Bool.and_eq_true, decide_eq_true_eq] at htrue
  refine ⟨mem_openBinaries.mpr ⟨hvars, ?_, ?_⟩, hbox⟩
  · simp [isBinary, lookup?, hvars, htrue.1]
  · rw [Box.range_of_lt (v := ⟨i⟩) hbox]
    exact htrue.2

/-- A branch has one open binary fewer. -/
theorem card_openBinaries_lt {i : Nat} (h : m.openBinary? box = some i) {b : Box Exact}
    (hb : b ∈ m.branches box i) : (m.openBinaries b).card < (m.openBinaries box).card := by
  obtain ⟨hi, hlt⟩ := mem_openBinaries_of_openBinary? h
  obtain ⟨c, rfl⟩ : ∃ c, b = assign box i c := by
    rcases mem_branches.mp hb with rfl | rfl <;> exact ⟨_, rfl⟩
  have hstays : StaysNarrow box (assign box i c) :=
    staysNarrow_of_set (v := ⟨i⟩) fun hwide => absurd hwide (Bounds.not_wide_point c)
  refine Finset.card_lt_card ⟨hstays.openBinaries_subset, fun hsubset => ?_⟩
  have hwide := (mem_openBinaries.mp (hsubset hi)).2.2
  rw [range_assign_self hlt] at hwide
  exact Bounds.not_wide_point c hwide

/-! ## One node -/

/-- What a node comes to: the values of a leaf, or the boxes that are looked at instead. -/
def expand (m : StoredModel Exact) (box : Box Exact) : List (Box Exact) ⊕ Array Exact :=
  match m.propagate box with
  | none => .inl []
  | some box =>
    match m.openBinary? box with
    | some i => .inl (m.branches box i)
    | none => (m.complete box).elim (.inl []) .inr

theorem explore_cons (budget : Nat) (box : Box Exact) (pending : List (Box Exact)) :
    m.explore (budget + 1) (box :: pending) = match m.expand box with
      | .inl next => m.explore budget (next ++ pending)
      | .inr values => .found values := by
  rw [explore, expand]
  cases m.propagate box with
  | none => rfl
  | some box =>
    cases hopen : m.openBinary? box with
    | some i => simp only [hopen]
    | none => cases hcomplete : m.complete box <;> simp [hopen, hcomplete]

/-- The number of nodes of a search tree that is as deep as there are open binaries. -/
def treeSize (m : StoredModel Exact) (box : Box Exact) : Nat :=
  2 ^ ((m.openBinaries box).card + 1) - 1

theorem treeSize_pos : 0 < m.treeSize box := by
  have := Nat.one_lt_two_pow (Nat.succ_ne_zero (m.openBinaries box).card)
  unfold treeSize
  omega

/-- The trees below a node have room for it. -/
theorem sum_treeSize_lt (htolerance : 0 ≤ m.tolerance) {next : List (Box Exact)}
    (h : m.expand box = .inl next) : (next.map m.treeSize).sum < m.treeSize box := by
  unfold expand at h
  cases hrun : m.propagate box with
  | none =>
    rw [hrun] at h
    cases h
    exact treeSize_pos
  | some box' =>
    simp only [hrun] at h
    cases hopen : m.openBinary? box' with
    | none =>
      simp only [hopen] at h
      cases hcomplete : m.complete box' <;> rw [hcomplete] at h <;> cases h
      exact treeSize_pos
    | some i =>
      simp only [hopen] at h
      cases h
      have hsubset := (staysNarrow_of_propagateFor htolerance hrun).openBinaries_subset (m := m)
      have hcard := Finset.card_le_card hsubset
      have hbranch : ∀ b ∈ m.branches box' i, m.treeSize b ≤ 2 ^ (m.openBinaries box).card - 1 := by
        intro b hb
        have hlt := card_openBinaries_lt hopen hb
        have hpow : 2 ^ ((m.openBinaries b).card + 1) ≤ 2 ^ (m.openBinaries box).card :=
          Nat.pow_le_pow_right (by decide) (by omega)
        exact Nat.sub_le_sub_right hpow 1
      have hsum := List.sum_le_card_nsmul ((m.branches box' i).map m.treeSize)
        (2 ^ (m.openBinaries box).card - 1) (List.forall_mem_map.mpr hbranch)
      have htwo : (m.branches box' i).length = 2 := by
        unfold branches
        split <;> rfl
      have hpos := Nat.one_le_two_pow (n := (m.openBinaries box).card)
      rw [List.length_map, htwo, smul_eq_mul] at hsum
      unfold treeSize at hsum ⊢
      rw [Nat.pow_succ]
      omega

/-! ## Whole searches -/

/-- **A budget for all nodes of the pending trees is enough.** -/
theorem explore_ne_aborted (htolerance : 0 ≤ m.tolerance) {budget : Nat}
    {pending : List (Box Exact)} (h : (pending.map m.treeSize).sum ≤ budget) :
    m.explore budget pending ≠ .aborted := by
  induction budget generalizing pending with
  | zero =>
    cases pending with
    | nil => exact nofun
    | cons box rest =>
      have hpos : 0 < m.treeSize box := treeSize_pos
      rw [List.map_cons, List.sum_cons] at h
      omega
  | succ budget ih =>
    cases pending with
    | nil => exact nofun
    | cons box rest =>
      rw [explore_cons]
      cases hexpand : m.expand box with
      | inr values => exact nofun
      | inl next =>
        have hlt := sum_treeSize_lt htolerance hexpand
        rw [List.map_cons, List.sum_cons] at h
        exact ih (by rw [List.map_append, List.sum_append]; omega)

/-- **More budget changes nothing once the search gets to its end.** -/
theorem explore_mono {budget budget' : Nat} (hle : budget ≤ budget') {pending : List (Box Exact)}
    (h : m.explore budget pending ≠ .aborted) :
    m.explore budget' pending = m.explore budget pending := by
  induction budget generalizing budget' pending with
  | zero =>
    cases pending with
    | nil => simp [explore]
    | cons => exact absurd rfl h
  | succ budget ih =>
    obtain ⟨more, rfl⟩ : ∃ more, budget' = more + 1 := ⟨budget' - 1, by omega⟩
    cases pending with
    | nil => simp [explore]
    | cons box rest =>
      rw [explore_cons] at h ⊢
      rw [explore_cons]
      cases hexpand : m.expand box with
      | inr values => rfl
      | inl next =>
        rw [hexpand] at h
        exact ih (by omega) h

theorem propagateFor_withNodeLimit (limit rounds : Nat) (box : Box Exact) :
    (m.withNodeLimit limit).propagateFor rounds box = m.propagateFor rounds box := by
  induction rounds generalizing box with
  | zero => rfl
  | succ rounds ih =>
    simp only [propagateFor, ih]
    rfl

theorem complete_withNodeLimit (limit : Nat) (box : Box Exact) :
    (m.withNodeLimit limit).complete box = m.complete box := by
  have hpin : (m.withNodeLimit limit).pin = m.pin := by
    funext box i
    simp only [pin, propagate, propagateFor_withNodeLimit]
    rfl
  simp only [complete, hpin]
  rfl

/-- The limit plays no part in what is explored. -/
theorem explore_withNodeLimit (limit budget : Nat) (pending : List (Box Exact)) :
    (m.withNodeLimit limit).explore budget pending = m.explore budget pending := by
  induction budget generalizing pending with
  | zero => cases pending <;> rfl
  | succ budget ih =>
    cases pending with
    | nil => rfl
    | cons box rest =>
      simp only [explore, propagate, propagateFor_withNodeLimit, complete_withNodeLimit, ih]
      rfl

/-- What a search comes to under a limit. -/
theorem solve_withNodeLimit (limit : Nat) : (m.withNodeLimit limit).solve =
    match m.explore limit [m.declaredBox] with
    | .found values => if m.check values then ⟨.feasible, values⟩ else ⟨.infeasible, #[]⟩
    | .exhausted => ⟨.infeasible, #[]⟩
    | .aborted => ⟨.nodeLimit, #[]⟩ := by
  have hcheck (values : Array Exact) : (m.withNodeLimit limit).check values = m.check values := by
    unfold check
    rfl
  have hlimit : (m.withNodeLimit limit).nodeLimit = limit := rfl
  have hbox : (m.withNodeLimit limit).declaredBox = m.declaredBox := rfl
  simp only [solve, explore_withNodeLimit, hcheck, hlimit, hbox]
  cases m.explore limit [m.declaredBox] <;> rfl

theorem status_ne_nodeLimit (limit : Nat) : (m.withNodeLimit limit).solve.status ≠ .nodeLimit ↔
    m.explore limit [m.declaredBox] ≠ .aborted := by
  rw [solve_withNodeLimit]
  cases m.explore limit [m.declaredBox] with
  | found values => dsimp only; split <;> simp
  | exhausted => simp
  | aborted => simp

end StoredModel

/-- **The node budget only decides whether the search finishes.** A search that gets to its end under
one limit has the same status and values under every greater one; and with `b` binary variables it
needs no more than `2 ^ (b + 1) - 1` nodes. -/
theorem node_budget_suffices (m : StoredModel Exact) (htolerance : 0 ≤ m.tolerance) :
    (∀ limit limit', limit ≤ limit' → (m.withNodeLimit limit).solve.status ≠ .nodeLimit →
      (m.withNodeLimit limit').solve = (m.withNodeLimit limit).solve) ∧
    ∀ limit, 2 ^ (m.binaryCount + 1) - 1 ≤ limit →
      (m.withNodeLimit limit).solve.status ≠ .nodeLimit := by
  simp only [StoredModel.status_ne_nodeLimit]
  refine ⟨fun limit limit' hle h => ?_, fun limit hle => ?_⟩
  · rw [StoredModel.solve_withNodeLimit, StoredModel.solve_withNodeLimit,
      StoredModel.explore_mono hle h]
  · refine StoredModel.explore_ne_aborted htolerance ?_
    have hcard : (m.openBinaries m.declaredBox).card ≤ m.binaryCount :=
      StoredModel.card_openBinaries_le
    have hpow : 2 ^ ((m.openBinaries m.declaredBox).card + 1) ≤ 2 ^ (m.binaryCount + 1) :=
      Nat.pow_le_pow_right (by decide) (by omega)
    rw [List.map_singleton, List.sum_singleton, StoredModel.treeSize]
    omega

/-- The search of the twins needs three nodes, and finds out nothing else with more of them. -/
theorem node_budget_suffices_of_oneOfTwins :
    (oneOfTwins.withNodeLimit 2).solve.status = .nodeLimit ∧
      (∀ limit, 3 ≤ limit → (oneOfTwins.withNodeLimit limit).solve = ⟨.infeasible, #[]⟩) ∧
      (oneOfTwins.withNodeLimit 7).solve.status ≠ .nodeLimit := by
  have htolerance : 0 ≤ oneOfTwins.tolerance := by
    rw [show oneOfTwins.tolerance = .fin 0 by cbv]
    exact Rat.le_refl
  have hthree : (oneOfTwins.withNodeLimit 3).solve = ⟨.infeasible, #[]⟩ := by cbv
  obtain ⟨hmore, henough⟩ := node_budget_suffices oneOfTwins htolerance
  refine ⟨by cbv, fun limit hle => ?_, henough 7 (by cbv)⟩
  rw [hmore 3 limit hle (by rw [hthree]; decide), hthree]

end SignalTemporalLogic
