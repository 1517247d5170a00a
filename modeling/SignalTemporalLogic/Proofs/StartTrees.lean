import SignalTemporalLogic.Proofs.ExactArithmetic
import SignalTemporalLogic.Proofs.Plans
import SignalTemporalLogic.Proofs.Trees

/-!
Trees of scores as start values. The layout of a tree and the positions at which an encoding looks
for start values are written down separately. They agree for every operator, so that every node that
an encoding visits starts from the tree of its own evaluation, also below two negations.
-/

namespace SignalTemporalLogic

/-! ## First extremes of rationals -/

namespace Extremum

variable {e : Extremum}

theorem atLeast_fin {a b : Rat} : e.AtLeast (Exact.fin a) (.fin b) ↔ e.sign * a ≤ e.sign * b := by
  cases e <;> simp [AtLeast, sign]

/-- The first extreme of rationals is found at the first position that has it. -/
theorem first_map_fin {values : List Rat} (hne : values ≠ []) :
    e.first (values.map Exact.fin) = (values.idxOf (e.pick values), .fin (e.pick values)) := by
  have hnumber : ∀ v ∈ values.map Exact.fin, v ≤ v := by
    intro v hv
    obtain ⟨q, -, rfl⟩ := List.mem_map.mp hv
    exact Exact.fin_le_fin.mpr le_rfl
  obtain ⟨⟨hvalue, hbest, hleftmost⟩, -⟩ := first_attains e (by simpa using hne) hnumber
  rw [List.getElem?_map, Option.map_eq_some_iff] at hvalue
  obtain ⟨q, hq, hscore⟩ := hvalue
  obtain ⟨hlt, rfl⟩ := List.getElem?_eq_some_iff.mp hq
  have hpick : values[(e.first (values.map Exact.fin)).1] = e.pick values := by
    refine Picks.eq_pick ⟨List.getElem_mem hlt, fun v hv => ?_⟩
    rw [← atLeast_fin, hscore]
    exact hbest _ (List.mem_map_of_mem hv)
  have hposition : values.idxOf (e.pick values) = (e.first (values.map Exact.fin)).1 := by
    refine (List.findIdx_eq hlt).mpr ⟨by simp [hpick], fun j hj => ?_⟩
    have hworse := (better_iff.mp (hleftmost j hj (.fin values[j]) (by simp))).2
    rw [← hscore, hpick, atLeast_fin] at hworse
    simp only [beq_eq_false_iff_ne, ne_eq]
    exact fun h => hworse (h ▸ le_rfl)
  rw [hposition, ← hpick, hscore]

theorem pick_min_pair (a b : Rat) : min.pick [a, b] = Min.min a b := by
  simp only [pick, sign, one_mul, min_def]

end Extremum

/-! ## Candidates of an until -/

/-- The running minima of numbers. -/
def runningLeast : List Rat → List Rat
  | [] => []
  | first :: rest => rest.scanl min first

/-- The value of a candidate: that of the right operand, or the least of that and of what is
before it. -/
def candidateValue : Rat × Option Rat → Rat
  | (right, none) => right
  | (right, some before) => min right before

/-- The values of all candidates. Before the first one lie `skipped` values of the left operand. -/
def candidateValues (skipped : Nat) (rights lefts : List Rat) : List Rat :=
  (rights.zip ((none :: (runningLeast lefts).map some).drop skipped)).map candidateValue

theorem length_runningLeast : ∀ values : List Rat, (runningLeast values).length = values.length
  | [] => rfl
  | _ :: _ => by simp [runningLeast]

theorem length_candidateValues {skipped : Nat} {rights lefts : List Rat}
    (h : rights.length + skipped = lefts.length + 1) :
    (candidateValues skipped rights lefts).length = rights.length := by
  simp [candidateValues, length_runningLeast]
  omega

theorem foldl_min_eq (right : Rat) :
    ∀ (lefts : List Rat) (k : Nat), k ≤ lefts.length → ∃ before,
      (none :: (runningLeast lefts).map some)[k]? = some before ∧
        candidateValue (right, before) = (lefts.take k).foldl min right
  | _, 0, _ => ⟨none, rfl, rfl⟩
  | [], k + 1, h => by simp at h
  | left :: rest, k + 1, h => by
    refine ⟨some ((rest.take k).foldl min left), ?_, ?_⟩
    · have hk : k ≤ rest.length := by simpa using h
      rw [List.getElem?_cons_succ, List.getElem?_map, runningLeast, List.getElem?_scanl, if_pos hk,
        Option.map_some]
    · rw [candidateValue, List.take_succ_cons, List.foldl_cons, List.foldl_assoc]

theorem foldl_scalar_min (lefts : List Rat) (right : Rat) :
    (lefts.map Exact.fin).foldl Scalar.min (.fin right) = .fin (lefts.foldl min right) := by
  induction lefts generalizing right with
  | nil => rfl
  | cons left rest ih => rw [List.map_cons, List.foldl_cons, Exact.min_fin, ih, List.foldl_cons]

/-- The candidates of the evaluator have the values that running minima give. -/
theorem ScoreTree.untilTerms_map_fin {skipped : Nat} {rights lefts : List (ScoreTree Exact)}
    {rs ls : List Rat} (hrights : rights.map ScoreTree.score = rs.map .fin)
    (hlefts : lefts.map ScoreTree.score = ls.map .fin)
    (hlength : rs.length + skipped = ls.length + 1) :
    untilTerms skipped rights lefts = (candidateValues skipped rs ls).map .fin := by
  have hcount : rights.length = rs.length := by simpa using congrArg List.length hrights
  refine List.ext_getElem ?_ fun k hk hk' => ?_
  · simp [untilTerms, length_candidateValues hlength, hcount]
  · have hlt : k < rs.length := by simpa [untilTerms, hcount] using hk
    have hscore : rights[k].score = .fin rs[k] := by
      have h := congrArg (·[k]?) hrights
      simpa [hcount, hlt] using h
    obtain ⟨before, hbefore, hvalue⟩ := foldl_min_eq rs[k] ls (skipped + k) (by omega)
    have hterm : (untilTerms skipped rights lefts)[k] =
        ((lefts.map ScoreTree.score).take (skipped + k)).foldl Scalar.min rights[k].score := by
      simp [untilTerms, ← List.map_take, List.foldl_map]
    have hcandidate :
        (candidateValues skipped rs ls)[k]? = some (candidateValue (rs[k], before)) := by
      simp [candidateValues, List.getElem?_zip_eq_some, hlt, hbefore]
    rw [hterm, hlefts, ← List.map_take, hscore, foldl_scalar_min, ← hvalue, List.getElem_map]
    exact congrArg Exact.fin (List.getElem?_eq_some_iff.mp hcandidate).2.symm

/-! ## Start values of nodes -/

section Starts

variable {policy : WindowPolicy} {x : Trajectory Exact}

/-- The start values of the node are the tree of its evaluation. -/
def Task.StartsFrom (policy : WindowPolicy) (x : Trajectory Exact) (k : Task Exact)
    (tree : ScoreTree Exact) : Prop :=
  k.start = some tree ∧ k.formula.treeAt policy x k.index = .ok tree

/-- The tree is made of the trees that the nodes of the plan start from, as the plan has it. -/
def Plan.Scored (policy : WindowPolicy) (x : Trajectory Exact) (t : Nat) :
    Plan Exact → ScoreTree Exact → Prop
  | .signal source, tree => x.signalValue source t = .ok tree.score
  | .same k, tree => ∃ child, k.StartsFrom policy x child ∧ tree.score = child.score
  | .negated k, tree => ∃ child, k.StartsFrom policy x child ∧ tree.score = -child.score
  | .extreme e _ tasks, tree =>
    ∃ children, List.Forall₂ (Task.StartsFrom policy x) tasks children ∧ tree = .select e children
  | .candidates skipped rights lefts, tree =>
    ∃ rs ls, List.Forall₂ (Task.StartsFrom policy x) rights rs ∧
      List.Forall₂ (Task.StartsFrom policy x) lefts ls ∧ tree = .selectUntil skipped rs ls

/-- The evaluations that a tree has children for start from these children. -/
theorem startsFrom_children {es : List (Formula Exact × Nat)} {tree : ScoreTree Exact}
    (h : es.mapM (fun e => e.1.treeAt policy x e.2) = .ok tree.children) :
    List.Forall₂ (Task.StartsFrom policy x)
      (es.zipIdx.map fun (e, i) => ⟨e.1, e.2, startAt (some tree) i⟩) tree.children := by
  have hchildren := Except.mapM_eq_ok.mp h
  rw [List.forall₂_iff_get]
  refine ⟨by simpa using hchildren.length_eq, fun i hi hi' => ?_⟩
  have hchild := List.Forall₂.get hchildren (by simpa using hi) hi'
  exact ⟨by simp [startAt], by simpa using hchild⟩

theorem Exact.neg_neg (a : Exact) : - -a = a := by
  cases a <;> simp [neg_def, neg]

variable {settings : EncodingSettings Exact} {f : Formula Exact} {t : Nat} {tree : ScoreTree Exact}
  {plan : Plan Exact}

/-- **The tree of a formula is laid out as its plan expects**, if the encoding has the windows of
the evaluation. -/
theorem Formula.scored_of_plan (hpolicy : settings.policy = policy)
    (hspacing : settings.spacing = x.spacing) (hlength : settings.horizon = x.length)
    (htree : f.treeAt policy x t = .ok tree)
    (hplan : f.plan settings t (some tree) = .ok plan) : plan.Scored policy x t tree := by
  rcases Formula.plan_cases hplan with ⟨id, id', arg, rfl, rfl⟩ | ⟨es, hes, htasks⟩
  · obtain ⟨child, hchild, htree⟩ := Except.bind_eq_ok.mp htree
    obtain ⟨inner, hinner, hchild⟩ := Except.bind_eq_ok.mp hchild
    cases hchild
    cases htree
    exact ⟨inner, ⟨rfl, hinner⟩, Exact.neg_neg _⟩
  · obtain ⟨es', hes', hchildren, hassembles⟩ := Formula.assembles_of_treeAt htree
    rw [hpolicy, hspacing, hlength] at hes
    obtain rfl := Except.ok.inj (hes.symm.trans hes')
    have hstarts := startsFrom_children hchildren
    rw [← htasks] at hstarts
    cases f with
    | predicate _ signal =>
      obtain ⟨-, a, ha, rfl⟩ := hassembles
      cases hplan
      exact ha
    | not _ arg =>
      obtain ⟨child, hchild, rfl⟩ := hassembles
      cases arg with
      | not => cases hes; cases hplan; cases htasks
      | _ => cases hplan; exact ⟨child, (List.forall₂_cons.mp hstarts).1, rfl⟩
    | and | or =>
      cases hplan
      exact ⟨_, hstarts, hassembles⟩
    | always | eventually =>
      obtain ⟨w, -, hplan⟩ := Except.bind_eq_ok.mp hplan
      cases hplan
      exact ⟨_, hstarts, hassembles⟩
    | holdsUntil =>
      obtain ⟨w, hw, hplan⟩ := Except.bind_eq_ok.mp hplan
      cases hplan
      obtain ⟨w', rights, lefts, hw', hsize, hchildren, htree⟩ := hassembles
      rw [hpolicy, hspacing, hlength] at hw
      obtain rfl : w = w' := Except.ok.inj (hw.symm.trans hw')
      rw [hchildren] at hstarts
      have hright := List.forall₂_take w.size hstarts
      have hleft := List.forall₂_drop w.size hstarts
      rw [List.take_left' hsize, Plan.tasks, List.take_left' (by simp)] at hright
      rw [List.drop_left' hsize, Plan.tasks, List.drop_left' (by simp)] at hleft
      exact ⟨rights, lefts, hright, hleft, htree⟩
    | next =>
      obtain ⟨w, -, hplan⟩ := Except.bind_eq_ok.mp hplan
      cases hplan
      obtain ⟨child, hchild, rfl⟩ := hassembles
      exact ⟨child, (List.forall₂_cons.mp hstarts).1, rfl⟩

end Starts

end SignalTemporalLogic
