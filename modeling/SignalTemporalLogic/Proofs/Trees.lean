import SignalTemporalLogic.Proofs.Evaluation
import SignalTemporalLogic.Proofs.FirstExtreme
import SignalTemporalLogic.Proofs.Uses
import SignalTemporalLogic.Robustness.Tree

/-!
Score trees explain the robustness. The tree is built by a second pass over the formula that chooses
by strict comparisons where the evaluator folds, and that reads the two operands of an until in
another order. Its nodes have the robustness of the evaluations that they stand for all the same,
and name the first operand that attains it.
-/

namespace SignalTemporalLogic

variable {α : Type} [Scalar α]

/-! ## What a faithful tree is -/

/-- Position `i` has the score, and no position before it has an equal one. -/
def FirstAt (HasScore : Nat → α → Prop) (score : α) (i : Nat) : Prop :=
  HasScore i score ∧ ∀ j < i, ∀ v, HasScore j v → ¬ (v ≤ score ∧ score ≤ v)

namespace ScoreTree

/-- Child number `k` has the score. -/
def ChildScore (tree : ScoreTree α) (k : Nat) (score : α) : Prop :=
  (tree.children.map ScoreTree.score)[k]? = some score

/-- Candidate `k` of an until has the score: the least of the right operand there and the left
operand before it. There are `count` candidates, and `skipped` indices before the first one. -/
def TermScore (tree : ScoreTree α) (skipped count k : Nat) (score : α) : Prop :=
  k < count ∧ IsLeast
    {v | tree.ChildScore k v ∨ ∃ j < skipped + k, tree.ChildScore (count + j) v} score

end ScoreTree

/-- The node names the first operand that its score was taken from, if it takes an extreme. -/
def Formula.Chooses (policy : WindowPolicy) (x : Trajectory α) :
    Formula α → Nat → ScoreTree α → Prop
  | .predicate _ _, _, tree | .not _ _, _, tree | .next _ _, _, tree => tree.chosen = none
  | .and _ _, _, tree | .or _ _, _, tree | .always _ _ _, _, tree | .eventually _ _ _, _, tree =>
    ∃ i, tree.chosen = some i ∧ FirstAt tree.ChildScore tree.score i
  | .holdsUntil _ interval _ _, t, tree =>
    ∃ w i, x.window policy interval t = .ok w ∧ tree.chosen = some i ∧
      FirstAt (tree.TermScore (w.first - t) w.size) tree.score i

/-- A tree is faithful to an evaluation if it is the tree of the evaluation, its score is the
robustness, its children are faithful to the evaluations that are used, in order, and it names the
first operand that the score was taken from. -/
inductive Faithful (policy : WindowPolicy) (x : Trajectory α) :
    Formula α → Nat → ScoreTree α → Prop
  | node {f : Formula α} {t : Nat} {tree : ScoreTree α} {es : List (Formula α × Nat)}
    (tree_eq : f.robustnessTree policy x t = .ok tree)
    (score_eq : f.robustness policy x t = .ok tree.score)
    (uses_eq : f.uses policy x.spacing x.length t = .ok es)
    (children : List.Forall₂ (fun e child => Faithful policy x e.1 e.2 child) es tree.children)
    (chooses : f.Chooses policy x t tree) : Faithful policy x f t tree

/-! ## One node -/

/-- The node that is made of the trees of the evaluations that the formula at `t` uses. -/
def Formula.Assembles (policy : WindowPolicy) (x : Trajectory α) :
    Formula α → Nat → List (ScoreTree α) → ScoreTree α → Prop
  | .predicate _ signal, t, children, tree =>
    children = [] ∧ ∃ a, x.signalValue signal t = .ok a ∧ tree = .leaf a
  | .not _ _, _, children, tree =>
    ∃ child, children = [child] ∧ tree = ⟨-child.score, none, [child]⟩
  | .and _ _, _, children, tree | .always _ _ _, _, children, tree => tree = .select .min children
  | .or _ _, _, children, tree | .eventually _ _ _, _, children, tree =>
    tree = .select .max children
  | .holdsUntil _ interval _ _, t, children, tree =>
    ∃ w rights lefts, x.window policy interval t = .ok w ∧ rights.length = w.size ∧
      children = rights ++ lefts ∧ tree = .selectUntil (w.first - t) rights lefts
  | .next _ _, _, children, tree =>
    ∃ child, children = [child] ∧ tree = ⟨child.score, none, [child]⟩

section Nodes

variable {policy : WindowPolicy} {x : Trajectory α} {f : Formula α} {t : Nat}
  {children : List (ScoreTree α)} {tree : ScoreTree α}

theorem Formula.Assembles.readable (h : f.Assembles policy x t children tree) :
    f.Readable x t := by
  cases f with
  | predicate => obtain ⟨-, a, ha, -⟩ := h; exact ⟨a, ha⟩
  | _ => trivial

theorem Operands.treesAt_eq_mapM :
    ∀ args : Operands α, args.treesAt policy x t = args.toList.mapM (·.treeAt policy x t)
  | .pair first second => by simp [Operands.treesAt, Operands.toList]
  | .cons first rest => by
    simp [Operands.treesAt, Operands.toList, Operands.treesAt_eq_mapM rest]

theorem Operands.valuesAt_eq_mapM {Y : Type} {S : Semantics α Y} :
    ∀ args : Operands α, args.valuesAt S policy x t = args.toList.mapM (·.valueAt S policy x t)
  | .pair first second => by simp [Operands.valuesAt, Operands.toList]
  | .cons first rest => by
    simp [Operands.valuesAt, Operands.toList, Operands.valuesAt_eq_mapM rest]

/-- A tree is the node that is made of the trees of the evaluations used. -/
theorem Formula.assembles_of_treeAt (h : f.treeAt policy x t = .ok tree) :
    ∃ es, f.uses policy x.spacing x.length t = .ok es ∧
      es.mapM (fun e => e.1.treeAt policy x e.2) = .ok tree.children ∧
      f.Assembles policy x t tree.children tree := by
  cases f with
  | predicate _ signal =>
    obtain ⟨a, ha, h⟩ := Except.bind_eq_ok.mp h
    cases h
    exact ⟨[], rfl, rfl, rfl, a, ha, rfl⟩
  | not _ arg =>
    obtain ⟨child, hchild, h⟩ := Except.bind_eq_ok.mp h
    cases h
    exact ⟨[(arg, t)], rfl, by simp [hchild], child, rfl, rfl⟩
  | and _ args | or _ args =>
    obtain ⟨children, hchildren, h⟩ := Except.bind_eq_ok.mp h
    cases h
    rw [Operands.treesAt_eq_mapM] at hchildren
    exact ⟨args.toList.map (·, t), rfl, by rw [List.mapM_map]; exact hchildren, rfl⟩
  | always _ interval arg | eventually _ interval arg =>
    obtain ⟨w, hw, h⟩ := Except.bind_eq_ok.mp h
    obtain ⟨children, hchildren, h⟩ := Except.bind_eq_ok.mp h
    cases h
    rw [Window.mapM, Index.mapRangeM_eq_mapM] at hchildren
    exact ⟨(List.range' w.first w.size).map (arg, ·), Except.bind_eq_ok.mpr ⟨w, hw, rfl⟩,
      by rw [List.mapM_map]; exact hchildren, rfl⟩
  | holdsUntil _ interval left right =>
    obtain ⟨w, hw, h⟩ := Except.bind_eq_ok.mp h
    obtain ⟨rights, hrights, h⟩ := Except.bind_eq_ok.mp h
    obtain ⟨lefts, hlefts, h⟩ := Except.bind_eq_ok.mp h
    cases h
    rw [Window.mapM, Index.mapRangeM_eq_mapM] at hrights
    rw [Index.mapRangeM_eq_mapM] at hlefts
    have hsize : rights.length = w.size := by
      rw [← (Except.mapM_eq_ok.mp hrights).length_eq, List.length_range']
    refine ⟨_, Except.bind_eq_ok.mpr ⟨w, hw, rfl⟩, ?_, w, rights, lefts, hw, hsize, rfl, rfl⟩
    rw [Except.mapM_append_eq_ok, List.mapM_map, List.mapM_map]
    exact ⟨rights, lefts, hrights, hlefts, rfl⟩
  | next _ arg =>
    obtain ⟨w, hw, h⟩ := Except.bind_eq_ok.mp h
    obtain ⟨child, hchild, h⟩ := Except.bind_eq_ok.mp h
    cases h
    exact ⟨[(arg, w.first)], Except.bind_eq_ok.mpr ⟨w, hw, rfl⟩, by simp [hchild], child, rfl, rfl⟩

/-- There is a tree if the evaluations used have trees. -/
theorem Formula.exists_treeAt {es : List (Formula α × Nat)} (hread : f.Readable x t)
    (hes : f.uses policy x.spacing x.length t = .ok es)
    (hchildren : es.mapM (fun e => e.1.treeAt policy x e.2) = .ok children) :
    ∃ tree, f.treeAt policy x t = .ok tree := by
  cases f with
  | predicate _ signal =>
    obtain ⟨a, ha⟩ := hread
    exact ⟨.leaf a, by simp [treeAt, ha]⟩
  | not _ arg =>
    cases hes
    obtain ⟨child, hchild, -⟩ := Except.mapM_singleton_eq_ok.mp hchildren
    exact ⟨_, Except.bind_eq_ok.mpr ⟨child, hchild, rfl⟩⟩
  | and _ args | or _ args =>
    cases hes
    rw [List.mapM_map] at hchildren
    exact ⟨_, Except.bind_eq_ok.mpr
      ⟨children, (Operands.treesAt_eq_mapM args).trans hchildren, rfl⟩⟩
  | always _ interval arg | eventually _ interval arg =>
    obtain ⟨w, hw, hes⟩ := Except.bind_eq_ok.mp hes
    cases hes
    rw [List.mapM_map] at hchildren
    have hvisits : (w.mapM fun u => arg.treeAt policy x u) = .ok children := by
      rw [Window.mapM, Index.mapRangeM_eq_mapM]; exact hchildren
    exact ⟨_, Except.bind_eq_ok.mpr ⟨w, hw, Except.bind_eq_ok.mpr ⟨children, hvisits, rfl⟩⟩⟩
  | holdsUntil _ interval left right =>
    obtain ⟨w, hw, hes⟩ := Except.bind_eq_ok.mp hes
    cases hes
    rw [Except.mapM_append_eq_ok, List.mapM_map, List.mapM_map] at hchildren
    obtain ⟨rights, lefts, hrights, hlefts, -⟩ := hchildren
    refine ⟨_, Except.bind_eq_ok.mpr ⟨w, hw, Except.bind_eq_ok.mpr ⟨rights, ?_,
      Except.bind_eq_ok.mpr ⟨lefts, ?_, rfl⟩⟩⟩⟩
    · rw [Window.mapM, Index.mapRangeM_eq_mapM]; exact hrights
    · rw [Index.mapRangeM_eq_mapM]; exact hlefts
  | next _ arg =>
    obtain ⟨w, hw, hes⟩ := Except.bind_eq_ok.mp hes
    cases hes
    obtain ⟨child, hchild, -⟩ := Except.mapM_singleton_eq_ok.mp hchildren
    exact ⟨_, Except.bind_eq_ok.mpr ⟨w, hw, Except.bind_eq_ok.mpr ⟨child, hchild, rfl⟩⟩⟩

end Nodes

/-! ## The score of a node -/

section Scores

variable [OrderedScalar α]

theorem Extremum.Attains.firstAt {e : Extremum} {values : List α} {i : Nat} {score : α}
    (h : e.Attains values i score) : FirstAt (fun k v => values[k]? = some v) score i := by
  refine ⟨h.value_at, fun j hj v hv ⟨hle, hge⟩ => ?_⟩
  have hbetter := (Extremum.better_iff.mp (h.leftmost j hj v hv)).2
  cases e
  · exact hbetter hle
  · exact hbetter hge

/-- A node that takes an extreme of its children has the score of a fold and names the first child
that has it. -/
theorem ScoreTree.select_spec (e : Extremum) {children : List (ScoreTree α)} (hne : children ≠ [])
    (hnumber : ∀ child ∈ children, child.score ≤ child.score) :
    (ScoreTree.select e children).score =
        (children.map ScoreTree.score).foldl e.join e.identity ∧
      ∃ i, (ScoreTree.select e children).chosen = some i ∧
        FirstAt (ScoreTree.select e children).ChildScore (ScoreTree.select e children).score i := by
  have hscores : ∀ v ∈ children.map ScoreTree.score, v ≤ v := by simpa using hnumber
  have hfirst := Extremum.first_attains e (by simpa using hne) hscores
  exact ⟨hfirst.2, _, rfl, hfirst.1.firstAt⟩

section Until

variable {skipped : Nat} {rights lefts : List (ScoreTree α)}

/-- A candidate is the conjunction of the right operand with that of the left operands before it. -/
theorem ScoreTree.getElem?_untilTerms (hrights : ∀ child ∈ rights, child.score ≤ child.score)
    (hlefts : ∀ child ∈ lefts, child.score ≤ child.score) (k : Nat) :
    (untilTerms skipped rights lefts)[k]? = (rights.map ScoreTree.score)[k]?.map fun r =>
      Semantics.quantitative.and r
        (Semantics.quantitative.all ((lefts.map ScoreTree.score).take (skipped + k))) := by
  simp only [untilTerms, List.getElem?_map, List.getElem?_zipIdx, Option.map_map]
  cases hright : rights[k]? with
  | none => rfl
  | some right =>
    have hright := hrights right (List.mem_of_getElem? hright)
    have hbefore : ∀ v ∈ (lefts.map ScoreTree.score).take (skipped + k), v ≤ v := by
      intro v hv
      obtain ⟨left, hleft, rfl⟩ := List.mem_map.mp (List.mem_of_mem_take hv)
      exact hlefts left hleft
    have hfold : ((lefts.map ScoreTree.score).take (skipped + k)).foldl Scalar.min right.score =
        Semantics.quantitative.and right.score
          (Semantics.quantitative.all ((lefts.map ScoreTree.score).take (skipped + k))) :=
      Extremum.foldl_join (e := .min) hright hbefore
    simp only [Option.map_some, Function.comp_apply, Nat.zero_add, ← hfold]
    rw [← List.map_take, List.foldl_map]

/-- A candidate has the score that the until computes for it. -/
theorem ScoreTree.termScore_of_getElem? (hrights : ∀ child ∈ rights, child.score ≤ child.score)
    (hlefts : ∀ child ∈ lefts, child.score ≤ child.score) {k : Nat} {v : α}
    (hv : (untilTerms skipped rights lefts)[k]? = some v) :
    (selectUntil skipped rights lefts).TermScore skipped rights.length k v := by
  rw [getElem?_untilTerms hrights hlefts, Option.map_eq_some_iff] at hv
  obtain ⟨r, hr, rfl⟩ := hv
  have hk : k < rights.length := by
    simpa using (List.getElem?_eq_some_iff.mp hr).1
  have hnumber : r ≤ r := by
    obtain ⟨right, hright, rfl⟩ := List.mem_map.mp (List.mem_of_getElem? hr)
    exact hrights right hright
  have hbefore : ∀ v ∈ (lefts.map ScoreTree.score).take (skipped + k), v ≤ v := by
    intro v hv
    obtain ⟨left, hleft, rfl⟩ := List.mem_map.mp (List.mem_of_mem_take hv)
    exact hlefts left hleft
  have hhere (u : α) : (selectUntil skipped rights lefts).ChildScore k u ↔ u = r := by
    unfold ChildScore selectUntil
    rw [List.map_append, List.getElem?_append_left (by simpa using hk), hr, Option.some.injEq]
    exact eq_comm
  have hearlier (u : α) :
      (∃ j < skipped + k, (selectUntil skipped rights lefts).ChildScore (rights.length + j) u) ↔
        u ∈ (lefts.map ScoreTree.score).take (skipped + k) := by
    unfold ChildScore selectUntil
    simp only [List.map_append, List.getElem?_append, List.length_map, Nat.not_lt.mpr
      (Nat.le_add_right _ _), if_false, Nat.add_sub_cancel_left, List.mem_iff_getElem?,
      List.getElem?_take]
    refine exists_congr fun j => ⟨fun ⟨hj, hu⟩ => by rw [if_pos hj, hu], fun hu => ?_⟩
    split at hu
    · next hj => exact ⟨hj, hu⟩
    · cases hu
  simp only [TermScore, hhere, hearlier]
  exact ⟨hk, quantitative_ordered.and_all_isLeast hnumber hbefore⟩

/-- An until has the score of the best candidate and names the first candidate that has it. -/
theorem ScoreTree.selectUntil_spec (hne : rights ≠ [])
    (hrights : ∀ child ∈ rights, child.score ≤ child.score)
    (hlefts : ∀ child ∈ lefts, child.score ≤ child.score) :
    (selectUntil skipped rights lefts).score =
        Semantics.quantitative.any (untilTerms skipped rights lefts) ∧
      ∃ i, (selectUntil skipped rights lefts).chosen = some i ∧
        FirstAt ((selectUntil skipped rights lefts).TermScore skipped rights.length)
          (selectUntil skipped rights lefts).score i := by
  have hterms : ∀ v ∈ untilTerms skipped rights lefts, v ≤ v := by
    intro v hv
    obtain ⟨k, hk⟩ := List.mem_iff_getElem?.mp hv
    obtain ⟨-, hterm, hscore⟩ := termScore_of_getElem? hrights hlefts hk
    exact hscore hterm
  have htermsNe : untilTerms skipped rights lefts ≠ [] := by simpa [untilTerms] using hne
  have hfirst := Extremum.first_attains .max htermsNe hterms
  refine ⟨hfirst.2, _, rfl, termScore_of_getElem? hrights hlefts hfirst.1.value_at, ?_⟩
  -- the score of a candidate is unique up to equality in the order
  intro j hj v hv ⟨hle, hge⟩
  have hlt : j < (untilTerms skipped rights lefts).length :=
    hj.trans (List.getElem?_eq_some_iff.mp hfirst.1.value_at).1
  have hterm := List.getElem?_eq_getElem hlt
  have hleast := termScore_of_getElem? hrights hlefts hterm
  have hworse := (Extremum.better_iff.mp (hfirst.1.leftmost j hj _ hterm)).2
  exact hworse (OrderedScalar.le_trans hge (hv.2.2 hleast.2.1))

/-- The candidates are those that the evaluator goes through. -/
theorem ScoreTree.untilTerms_eq {t : Nat} {w : Window} {before here : Nat → α}
    (hbounds : t ≤ w.first)
    (hrightsEq : rights.map ScoreTree.score = (List.range' w.first w.size).map here)
    (hleftsEq : lefts.map ScoreTree.score = (List.range' t (w.last - t)).map before)
    (hrights : ∀ child ∈ rights, child.score ≤ child.score)
    (hlefts : ∀ child ∈ lefts, child.score ≤ child.score) :
    Semantics.quantitative.any (untilTerms (w.first - t) rights lefts) =
      Semantics.quantitative.untilNested before here t w.first w.size := by
  unfold Semantics.untilNested
  congr 1
  have hcount : rights.length = w.size := by simpa using congrArg List.length hrightsEq
  refine List.ext_getElem (by simp [untilTerms, hcount]) fun k hk hk' => ?_
  have hlt : k < w.size := by simpa using hk'
  have hterm : (untilTerms (w.first - t) rights lefts)[k]? = _ :=
    getElem?_untilTerms hrights hlefts k
  have hbefore : (List.range' t (w.last - t)).take (w.first - t + k) =
      List.range' t (w.first + k - t) := by
    have := w.first_le_last
    unfold Window.size at hlt
    exact List.ext_getElem (by simp; omega) fun i _ _ => by simp
  rw [List.getElem?_eq_getElem hk, hrightsEq, hleftsEq, ← List.map_take, hbefore] at hterm
  simpa [hlt] using hterm

end Until

end Scores

section Values

variable {policy : WindowPolicy} {x : Trajectory α}

theorem Formula.valueAt_of_extreme {f : Formula α} {t : Nat} {e : Extremum}
    (he : f.extreme? = some e) {es : List (Formula α × Nat)}
    (hes : f.uses policy x.spacing x.length t = .ok es) {values : List α}
    (hvalues : es.mapM (fun e => e.1.valueAt .quantitative policy x e.2) = .ok values) :
    f.valueAt .quantitative policy x t = .ok (values.foldl e.join e.identity) := by
  cases f with
  | and _ args | or _ args =>
    cases he
    cases hes
    rw [List.mapM_map] at hvalues
    exact Except.bind_eq_ok.mpr ⟨values, (Operands.valuesAt_eq_mapM args).trans hvalues, rfl⟩
  | always _ interval arg | eventually _ interval arg =>
    obtain ⟨w, hw, hes⟩ := Except.bind_eq_ok.mp hes
    cases he
    cases hes
    rw [List.mapM_map] at hvalues
    have hvisits : (w.mapM fun u => arg.valueAt .quantitative policy x u) = .ok values := by
      rw [Window.mapM, Index.mapRangeM_eq_mapM]
      exact hvalues
    exact Except.bind_eq_ok.mpr ⟨w, hw, Except.bind_eq_ok.mpr ⟨values, hvisits, rfl⟩⟩
  | predicate | not | holdsUntil | next => cases he

variable [OrderedScalar α]

theorem Formula.valueAt_until_of_trees (hlen : x.length ≤ Index.last) (id : NodeId)
    {interval : TimeInterval α} {left right : Formula α} {t : Nat} {w : Window}
    {rights lefts : List (ScoreTree α)} (hw : x.window policy interval t = .ok w)
    (hright : Index.mapRangeM (fun u => right.valueAt .quantitative policy x u) w.first w.size =
      .ok (rights.map ScoreTree.score))
    (hleft : Index.mapRangeM (fun u => left.valueAt .quantitative policy x u) t (w.last - t) =
      .ok (lefts.map ScoreTree.score))
    (hrights : ∀ child ∈ rights, child.score ≤ child.score)
    (hlefts : ∀ child ∈ lefts, child.score ≤ child.score) :
    (Formula.holdsUntil id interval left right).valueAt .quantitative policy x t =
      .ok (Semantics.quantitative.any (ScoreTree.untilTerms (w.first - t) rights lefts)) := by
  have : Inhabited α := ⟨0⟩
  obtain ⟨here, hrightsEq, hhere⟩ := Index.eq_map_of_mapRangeM hright
  obtain ⟨before, hleftsEq, hbefore⟩ := Index.eq_map_of_mapRangeM hleft
  have hbounds := (WindowPolicy.window_bounds hlen hw).1
  rw [ScoreTree.untilTerms_eq hbounds hrightsEq hleftsEq hrights hlefts]
  exact Except.bind_eq_ok.mpr ⟨w, hw, Semantics.quantitative.until_eq_nested w hbounds
    (fun u hu hv => hbefore u hu (by omega)) fun u hu => hhere u hu.1 (Window.mem_iff.mp hu).2⟩

/-- **One node of a tree**: if the scores of the children are the robustness of the evaluations
used, the score of the node is the robustness, and the operand it names is the first that has it. -/
theorem Formula.valueAt_of_assembles (hlen : x.length ≤ Index.last) {f : Formula α} {t : Nat}
    {es : List (Formula α × Nat)} {children : List (ScoreTree α)} {tree : ScoreTree α}
    (hes : f.uses policy x.spacing x.length t = .ok es)
    (hchildren : es.mapM (fun e => e.1.valueAt .quantitative policy x e.2) =
      .ok (children.map ScoreTree.score))
    (hnumber : ∀ child ∈ children, child.score ≤ child.score)
    (htree : f.Assembles policy x t children tree) :
    f.valueAt .quantitative policy x t = .ok tree.score ∧ f.Chooses policy x t tree := by
  have hcount := (Except.mapM_eq_ok.mp hchildren).length_eq
  rw [List.length_map] at hcount
  cases f with
  | predicate _ signal =>
    obtain ⟨-, a, ha, rfl⟩ := htree
    exact ⟨Except.bind_eq_ok.mpr ⟨a, ha, rfl⟩, rfl⟩
  | not _ arg =>
    cases hes
    obtain ⟨child, rfl, rfl⟩ := htree
    obtain ⟨v, hv, he⟩ := Except.mapM_singleton_eq_ok.mp hchildren
    cases he
    exact ⟨Except.bind_eq_ok.mpr ⟨_, hv, rfl⟩, rfl⟩
  | and | or | always | eventually =>
    have hne : children ≠ [] := List.ne_nil_of_length_pos
      (hcount ▸ List.length_pos_of_ne_nil (Formula.uses_ne_nil rfl hes))
    have hvalue := Formula.valueAt_of_extreme rfl hes hchildren
    cases htree
    obtain ⟨hscore, hchosen⟩ := ScoreTree.select_spec _ hne hnumber
    exact ⟨hvalue.trans (congrArg _ hscore.symm), hchosen⟩
  | holdsUntil id interval left right =>
    obtain ⟨w, hw, hes⟩ := Except.bind_eq_ok.mp hes
    cases hes
    obtain ⟨w', rights, lefts, hw', hsize, rfl, rfl⟩ := htree
    obtain rfl : w = w' := Except.ok.inj (hw.symm.trans hw')
    rw [Except.mapM_append_eq_ok, List.mapM_map, List.mapM_map] at hchildren
    obtain ⟨rs, ls, hrs, hls, he⟩ := hchildren
    have hsize' := (Except.mapM_eq_ok.mp hrs).length_eq
    rw [List.length_range'] at hsize'
    rw [List.map_append] at he
    obtain ⟨rfl, rfl⟩ := List.append_inj he (by rw [List.length_map, hsize, hsize'])
    have hrights : ∀ child ∈ rights, child.score ≤ child.score :=
      fun child h => hnumber child (List.mem_append_left _ h)
    have hlefts : ∀ child ∈ lefts, child.score ≤ child.score :=
      fun child h => hnumber child (List.mem_append_right _ h)
    have hvalue := Formula.valueAt_until_of_trees hlen id hw
      ((Index.mapRangeM_eq_mapM _ _ _).trans hrs) ((Index.mapRangeM_eq_mapM _ _ _).trans hls)
      hrights hlefts
    have hne : rights ≠ [] := List.ne_nil_of_length_pos (by rw [hsize, Window.size]; omega)
    obtain ⟨hscore, i, hchosen, hfirst⟩ := ScoreTree.selectUntil_spec hne hrights hlefts
    rw [hsize] at hfirst
    exact ⟨hvalue.trans (congrArg _ hscore.symm), w, i, hw, hchosen, hfirst⟩
  | next _ arg =>
    obtain ⟨w, hw, hes⟩ := Except.bind_eq_ok.mp hes
    cases hes
    obtain ⟨child, rfl, rfl⟩ := htree
    obtain ⟨v, hv, he⟩ := Except.mapM_singleton_eq_ok.mp hchildren
    cases he
    exact ⟨Except.bind_eq_ok.mpr ⟨w, hw, hv⟩, rfl⟩

end Values

/-! ## Whole trees -/

section Trees

variable {policy : WindowPolicy} {x : Trajectory α}

theorem Formula.robustnessTree_eq_ok {f : Formula α} {t : Nat} {tree : ScoreTree α} :
    f.robustnessTree policy x t = .ok tree ↔ t < x.length ∧ f.treeAt policy x t = .ok tree := by
  rw [Formula.robustnessTree, Except.bind_eq_ok]
  exact ⟨fun ⟨_, hcheck, h⟩ => ⟨Trajectory.checkIndex_eq_ok.mp hcheck, h⟩,
    fun ⟨hlt, h⟩ => ⟨(), Trajectory.checkIndex_eq_ok.mpr hlt, h⟩⟩

/-- What is defined has a tree. -/
theorem Formula.exists_treeAt_of_defined (hlen : x.length ≤ Index.last) (f : Formula α) (t : Nat) :
    f.Defined policy x t → ∃ tree, f.treeAt policy x t = .ok tree := by
  induction f, t using Formula.induction_on_uses policy x.spacing x.length with
  | step f t ih =>
    intro hdef
    obtain ⟨hread, es, hes, hall⟩ := (Formula.defined_iff hlen).mp hdef
    obtain ⟨children, hchildren⟩ :=
      Except.exists_mapM_eq_ok fun e he => ih es hes e he (hall e he)
    exact Formula.exists_treeAt hread hes hchildren

/-- **The trees of a formula are faithful** wherever the predicate values are numbers. -/
theorem Formula.faithful_of_treeAt [OrderedScalar α] (hlen : x.length ≤ Index.last) (f : Formula α)
    (t : Nat) : f.AsksValid .quantitative (fun a => a ≤ a) policy x t →
      ∀ tree, f.treeAt policy x t = .ok tree →
        f.Defined policy x t ∧ tree.score ≤ tree.score ∧ Faithful policy x f t tree := by
  induction f, t using Formula.induction_on_uses policy x.spacing x.length with
  | step f t ih =>
    intro hasks tree htree
    obtain ⟨es, hes, hchildren, hassembles⟩ := Formula.assembles_of_treeAt htree
    have hfaithful : List.Forall₂ (fun e child => e.1.Defined policy x e.2 ∧
        child.score ≤ child.score ∧ Faithful policy x e.1 e.2 child) es tree.children :=
      forall₂_imp_of_mem (Except.mapM_eq_ok.mp hchildren) fun e he child hchild =>
        ih es hes e he (fun signal u a h => hasks signal u a (Formula.asks_of_uses hlen hes he h))
          child hchild
    have hdef : f.Defined policy x t := (Formula.defined_iff hlen).mpr
      ⟨hassembles.readable, es, hes, fun e he =>
        ((exists_of_forall₂ hfaithful).1 e he).elim fun _ h => h.2.1⟩
    have hvalues : es.mapM (fun e => e.1.valueAt .quantitative policy x e.2) =
        .ok (tree.children.map ScoreTree.score) := by
      rw [Except.mapM_eq_ok, List.forall₂_map_right_iff]
      refine hfaithful.imp fun e child h => ?_
      obtain ⟨-, score_eq, -, -, -⟩ := h.2.2
      exact (Formula.evaluate_eq_ok.mp score_eq).2
    have hnumber : ∀ child ∈ tree.children, child.score ≤ child.score := fun child hchild =>
      ((exists_of_forall₂ hfaithful).2 child hchild).elim fun _ h => h.2.2.1
    obtain ⟨hscore, hchooses⟩ := Formula.valueAt_of_assembles hlen hes hvalues hnumber hassembles
    have hlt := Formula.lt_of_defined hlen f t hdef
    obtain ⟨y, hy, hvalid, -⟩ := Formula.exists_valueAt quantitative_ordered hlen f t hdef hasks
    obtain rfl : tree.score = y := Except.ok.inj (hscore.symm.trans hy)
    exact ⟨hdef, hvalid, .node (Formula.robustnessTree_eq_ok.mpr ⟨hlt, htree⟩)
      (Formula.evaluate_eq_ok.mpr ⟨hlt, hscore⟩) hes (hfaithful.imp fun _ _ h => h.2.2) hchooses⟩

end Trees

/-- **Robustness trees are faithful.** If none of the predicate values that are asked for is NaN,
there is a tree exactly if there is a robustness. Its score is the robustness, every node below it
has as children the trees of the evaluations that its formula uses, in order, and every node that
takes an extreme names the first child, or the first candidate of an until, that has its score. -/
theorem robustnessTree_faithful [OrderedScalar α] (policy : WindowPolicy) (f : Formula α)
    (x : Trajectory α) (anchor : Nat) (hlen : x.length ≤ Index.last)
    (hnumber : ∀ signal u a, f.Asks policy x anchor signal u → x.signalValue signal u = .ok a →
      ¬ Scalar.IsNaN a) :
    ((∃ tree, f.robustnessTree policy x anchor = .ok tree) ↔
      ∃ v, f.robustness policy x anchor = .ok v) ∧
    ∀ tree, f.robustnessTree policy x anchor = .ok tree →
      f.robustness policy x anchor = .ok tree.score ∧ Faithful policy x f anchor tree := by
  have hfaithful (tree : ScoreTree α) (h : f.robustnessTree policy x anchor = .ok tree) :
      Faithful policy x f anchor tree :=
    (f.faithful_of_treeAt hlen anchor (fun signal u a h ha => not_not.mp (hnumber signal u a h ha))
      tree (Formula.robustnessTree_eq_ok.mp h).2).2.2
  have hscore (tree : ScoreTree α) (h : f.robustnessTree policy x anchor = .ok tree) :
      f.robustness policy x anchor = .ok tree.score := by
    obtain ⟨-, score_eq, -, -, -⟩ := hfaithful tree h
    exact score_eq
  refine ⟨⟨fun ⟨tree, h⟩ => ⟨_, hscore tree h⟩, fun ⟨v, hv⟩ => ?_⟩,
    fun tree h => ⟨hscore tree h, hfaithful tree h⟩⟩
  obtain ⟨hlt, hv⟩ := Formula.evaluate_eq_ok.mp hv
  obtain ⟨tree, htree⟩ :=
    f.exists_treeAt_of_defined hlen anchor (Formula.defined_of_valueAt hlen f anchor v hv)
  exact ⟨tree, Formula.robustnessTree_eq_ok.mpr ⟨hlt, htree⟩⟩

/-- The three candidates of `lateSwitch` come first, and the second one decides. -/
theorem robustnessTree_faithful_of_lateSwitch :
    ∃ tree, lateSwitch.robustnessTree .strict fourSamples 0 = .ok tree ∧ tree.chosen = some 1 ∧
      tree.children.map ScoreTree.score = [.fin (-3), .fin 4, .fin (-4), .fin 3, .fin 2, .fin 9] ∧
      Faithful .strict fourSamples lateSwitch 0 tree := by
  have hfaithful := robustnessTree_faithful .strict lateSwitch fourSamples 0 (by decide) (by
    intro signal u a hasks ha
    obtain ⟨_, -, ⟨_, -, rfl, rfl⟩ | ⟨_, -, -, rfl, rfl⟩⟩ := hasks <;>
      exact fourSamples_value_number ha)
  have hrun : ((lateSwitch.robustnessTree .strict fourSamples 0).toOption.map fun tree =>
      (tree.chosen, tree.children.map ScoreTree.score)) =
        some (some 1, [.fin (-3), .fin 4, .fin (-4), .fin 3, .fin 2, .fin 9]) := by decide +kernel
  cases htree : lateSwitch.robustnessTree .strict fourSamples 0 with
  | error e => rw [htree] at hrun; cases hrun
  | ok tree =>
    rw [htree] at hrun
    injection hrun with hrun
    injection hrun with hchosen hchildren
    exact ⟨tree, rfl, hchosen, hchildren, (hfaithful.2 tree htree).2⟩

end SignalTemporalLogic
