import SignalTemporalLogic.Proofs.Relations
import SignalTemporalLogic.Robustness.Tree

/-!
Windows and score trees with a guard before every step that may have nothing to go on with: the
extreme of no scores, a difference of indices below zero, an initial part longer than its list. A
guard that is not met ends the run in a dead end, which is no fault of the input. A window is here
nothing but two indices, so that nothing says beforehand that it has members. No dead end is ever
reached, and the guarded tree is the tree.
-/

namespace SignalTemporalLogic

/-- Where a computation has nothing to go on with. -/
inductive DeadEnd where
  /-- The extreme of nothing is asked for. -/
  | noOperands
  /-- A larger index is taken away from an index. -/
  | belowZero (index less : Nat)
  /-- A position, or the end of an initial part, lies past the end of a list. -/
  | pastEnd (position length : Nat)
deriving DecidableEq

/-- Why a guarded computation halts. -/
inductive Halt (ε : Type) where
  | deadEnd (reason : DeadEnd)
  | fault (reason : ε)
deriving DecidableEq

def Halt.map {ε ε' : Type} (rename : ε → ε') : Halt ε → Halt ε'
  | deadEnd reason => .deadEnd reason
  | fault reason => .fault (rename reason)

/-- Computations that may end in a dead end. -/
class MonadDeadEnd (m : Type → Type) where
  deadEnd {β : Type} : DeadEnd → m β

instance {ε : Type} : MonadDeadEnd (Except (Halt ε)) := ⟨fun reason => .error (.deadEnd reason)⟩

instance {ε : Type} {m : Type → Type} [Monad m] : MonadDeadEnd (ExceptT (Halt ε) m) :=
  ⟨fun reason => throw (.deadEnd reason)⟩

namespace Guarded

variable {ε ε' β γ : Type}

/-! ## Guarded steps -/

/-- A computation that has no dead ends. -/
def lift (act : Except ε β) : Except (Halt ε) β := act.mapError .fault

section Steps

open MonadDeadEnd (deadEnd)

variable {m : Type → Type} [Monad m] [MonadDeadEnd m]

def difference (i j : Nat) : m Nat :=
  if j ≤ i then return i - j else deadEnd (.belowZero i j)

def element (xs : List β) (i : Nat) : m β :=
  if h : i < xs.length then return xs[i] else deadEnd (.pastEnd i xs.length)

/-- The first `count` elements. -/
def initial (xs : List β) (count : Nat) : m (List β) :=
  if count ≤ xs.length then return xs.take count else deadEnd (.pastEnd count xs.length)

theorem difference_eq {i j : Nat} (h : j ≤ i) : (difference i j : m Nat) = pure (i - j) := if_pos h

theorem element_eq {xs : List β} {i : Nat} (h : i < xs.length) :
    (element xs i : m β) = pure xs[i] := dif_pos h

theorem initial_eq {xs : List β} {count : Nat} (h : count ≤ xs.length) :
    (initial xs count : m (List β)) = pure (xs.take count) := if_pos h

end Steps

theorem lift_ne_deadEnd {act : Except ε β} {reason : DeadEnd} :
    lift act ≠ .error (.deadEnd reason) := by
  cases act <;> exact nofun

/-- The guarded computation fails with the same fault. -/
def Passed (reason : ε) (halt : Halt ε) : Prop := halt = .fault reason

theorem lift_alike (act : Except ε β) : EndAlike Passed Eq act (lift act) := by
  cases act <;> exact rfl

theorem eq_lift_iff {act : Except ε β} {guarded : Except (Halt ε) β} :
    EndAlike Passed Eq act guarded ↔ guarded = lift act := by
  constructor
  · intro h
    cases act <;> cases guarded
    case ok.ok => exact congrArg _ (Eq.symm h)
    case error.error => exact congrArg _ h
    all_goals exact h.elim
  · rintro rfl
    exact lift_alike act

theorem mapM_alike {E : ε → ε' → Prop} {visit : γ → Except ε β} {visit' : γ → Except ε' β}
    {items : List γ} (h : ∀ d ∈ items, EndAlike E Eq (visit d) (visit' d)) :
    EndAlike E (fun bs cs => bs = cs ∧ bs.length = items.length) (items.mapM visit)
      (items.mapM visit') := by
  have hitems : List.Forall₂ (fun d d' => EndAlike E Eq (visit d) (visit' d')) items items :=
    List.forall₂_same.mpr h
  refine (EndAlike.mapM hitems).with_results.imp fun bs cs ⟨heq, hbs, _⟩ => ?_
  exact ⟨List.forall₂_eq_eq_eq ▸ heq, (Except.mapM_eq_ok.mp hbs).length_eq.symm⟩

/-! ## Windows -/

/-- The indices from `first` to `last`. There are none if `last` comes before `first`. -/
structure Span where
  first : Nat
  last : Nat

def Span.indices (s : Span) : List Nat := List.range' s.first (s.last + 1 - s.first)

/-- The ends of a window. -/
def ends (w : Window) : Span := ⟨w.first, w.last⟩

theorem indices_ends (w : Window) : (ends w).indices = List.range' w.first w.size := by
  have := w.first_le_last
  rw [Span.indices, Window.size]
  congr 1
  simp only [ends]
  omega

def resolve (policy : WindowPolicy) (anchor lo hi length : Nat) : Except (Halt WindowFault) Span :=
  if lo ≤ hi then
    let first := Index.saturatingAdd anchor lo
    let last := Index.saturatingAdd anchor hi
    match policy with
    | .strict =>
      if length ≤ last then .error (.fault (.outOfRange last length)) else .ok ⟨first, last⟩
    | .clamp =>
      if length ≤ first then .error (.fault .clippedEmpty)
      else do return ⟨first, min last (← difference length 1)⟩
  else .error (.fault .inverted)

section Resolution

variable {α : Type} [Scalar α]

def offsets (policy : WindowPolicy) (anchor lo hi length : Nat) : Except (Halt (Fault α)) Span :=
  (resolve policy anchor lo hi length).mapError
    (Halt.map (·.fault (Scalar.ofNat lo) (Scalar.ofNat hi)))

def window (policy : WindowPolicy) (interval : TimeInterval α) (spacing : α)
    (anchor length : Nat) : Except (Halt (Fault α)) Span := do
  let (lo, hi) ← lift (interval.discretize spacing)
  (resolve policy anchor lo hi length).mapError (Halt.map (·.fault interval.start interval.stop))

/-- Both are the same indices, none of them before the anchor or past the last index. -/
def Framed (anchor : Nat) (w : Window) (s : Span) : Prop :=
  s = ends w ∧ anchor ≤ w.first ∧ w.last ≤ Index.last

/-- The last index of a domain is taken only where the domain has one. -/
theorem resolve_alike {policy : WindowPolicy} {anchor lo hi length : Nat}
    (hanchor : anchor ≤ Index.last) :
    EndAlike Passed (Framed anchor) (policy.resolve anchor lo hi length)
      (resolve policy anchor lo hi length) := by
  have hfirst : anchor ≤ Index.saturatingAdd anchor lo := by
    simp only [Index.saturatingAdd]
    omega
  have hlast : Index.saturatingAdd anchor hi ≤ Index.last := Nat.min_le_right _ _
  unfold WindowPolicy.resolve resolve
  by_cases ordered : lo ≤ hi
  · rw [dif_pos ordered, if_pos ordered]
    cases policy with
    | strict =>
      by_cases outside : length ≤ Index.saturatingAdd anchor hi
      · simp only [if_pos outside]
        exact rfl
      · simp only [if_neg outside]
        exact ⟨rfl, hfirst, hlast⟩
    | clamp =>
      by_cases outside : length ≤ Index.saturatingAdd anchor lo
      · simp only [dif_pos outside, if_pos outside]
        exact rfl
      · have hpos : 1 ≤ length := by omega
        simp only [dif_neg outside, if_neg outside, difference_eq hpos]
        exact ⟨rfl, hfirst, (Nat.min_le_left _ _).trans hlast⟩
  · rw [dif_neg ordered, if_neg ordered]
    exact rfl

theorem mapError_alike {R : β → γ → Prop} {act : Except ε β} {guarded : Except (Halt ε) γ}
    (rename : ε → ε') (h : EndAlike Passed R act guarded) :
    EndAlike Passed R (act.mapError rename) (guarded.mapError (Halt.map rename)) := by
  cases act <;> cases guarded
  case ok.ok => exact h
  case error.error => exact congrArg (Halt.map rename) h
  all_goals exact h.elim

theorem offsets_alike {policy : WindowPolicy} {anchor lo hi length : Nat}
    (hanchor : anchor ≤ Index.last) :
    EndAlike Passed (Framed anchor) (policy.offsets anchor lo hi length : Except (Fault α) Window)
      (offsets policy anchor lo hi length) :=
  mapError_alike _ (resolve_alike hanchor)

theorem window_alike {policy : WindowPolicy} {interval : TimeInterval α} {spacing : α}
    {anchor length : Nat} (hanchor : anchor ≤ Index.last) :
    EndAlike Passed (Framed anchor) (policy.window interval spacing anchor length)
      (window policy interval spacing anchor length) :=
  (lift_alike _).bind fun _ _ h => h ▸ mapError_alike _ (resolve_alike hanchor)

theorem mapWindow_alike {E : ε → ε' → Prop} {visit : Nat → Except ε β} {visit' : Nat → Except ε' β}
    {w : Window} (h : ∀ u ∈ w, EndAlike E Eq (visit u) (visit' u)) :
    EndAlike E (fun bs cs => bs = cs ∧ bs.length = w.size) (w.mapM visit)
      ((ends w).indices.mapM visit') := by
  rw [Window.mapM, Index.mapRangeM_eq_mapM, indices_ends]
  refine (mapM_alike fun u hu => h u ?_).imp fun bs cs ⟨heq, hlength⟩ =>
    ⟨heq, hlength.trans List.length_range'⟩
  exact Window.mem_iff.mpr (List.mem_range'_1.mp hu)

end Resolution

/-- A window is never empty. -/
theorem ne_nil_of_size (w : Window) {bs : List β} (h : bs.length = w.size) : bs ≠ [] :=
  List.ne_nil_of_length_pos (by rw [h, Window.size]; omega)

/-! ## Trees -/

section Trees

variable {α : Type} [Scalar α]

/-- The extreme of the values, with the position that it stands at first. -/
def first (e : Extremum) : List α → Except (Halt ε) (Nat × α)
  | [] => .error (.deadEnd .noOperands)
  | v :: rest => return e.first (v :: rest)

theorem first_eq {e : Extremum} {values : List α} (h : values ≠ []) :
    (first e values : Except (Halt ε) (Nat × α)) = pure (e.first values) := by
  cases values with
  | nil => exact absurd rfl h
  | cons => rfl

def select (e : Extremum) (children : List (ScoreTree α)) : Except (Halt ε) (ScoreTree α) := do
  let (chosen, score) ← first e (children.map ScoreTree.score)
  return ⟨score, some chosen, children⟩

theorem select_eq {e : Extremum} {children : List (ScoreTree α)} (h : children ≠ []) :
    (select e children : Except (Halt ε) (ScoreTree α)) = pure (.select e children) := by
  rw [select, first_eq (by simpa using h)]
  rfl

theorem select_alike {e : Extremum} {act : Except ε (List (ScoreTree α))}
    {guarded : Except (Halt ε) (List (ScoreTree α))}
    (h : EndAlike Passed (fun bs cs => bs = cs ∧ bs ≠ []) act guarded) :
    EndAlike Passed Eq (do return .select e (← act)) (do select e (← guarded)) := by
  refine h.bind fun children _ ⟨heq, hne⟩ => ?_
  rw [← heq, select_eq hne]
  exact rfl

/-- All that is visited lies between the anchor and the last index. -/
theorem selectWindow_alike {policy : WindowPolicy} {x : Trajectory α} {interval : TimeInterval α}
    {t : Nat} {e : Extremum} {visit : Nat → Except (Fault α) (ScoreTree α)}
    {visit' : Nat → Except (Halt (Fault α)) (ScoreTree α)} (ht : t ≤ Index.last)
    (h : ∀ u, u ≤ Index.last → EndAlike Passed Eq (visit u) (visit' u)) :
    EndAlike Passed Eq
      (do
        let w ← x.window policy interval t
        return .select e (← w.mapM visit))
      (do
        let w ← window policy interval x.spacing t x.length
        select e (← w.indices.mapM visit')) := by
  refine (window_alike ht).bind fun w _ ⟨hw, _, hlast⟩ => ?_
  subst hw
  refine select_alike (EndAlike.imp (mapWindow_alike fun u hu => h u (hu.2.trans hlast)) ?_)
  exact fun _ _ ⟨heq, hsize⟩ => ⟨heq, ne_nil_of_size w hsize⟩

/-- The score of the candidate `u` of an until at `t`. The scores of the left operand start at `t`,
so the two indices tell how many of them lie before the candidate. -/
def untilTerm (t : Nat) (lefts : List (ScoreTree α)) (u : Nat) (right : ScoreTree α) :
    Except (Halt ε) α := do
  let before ← initial lefts (← difference u t)
  return before.foldl (fun least left => Scalar.min least left.score) right.score

def selectUntil (t : Nat) (candidates : List Nat) (rights lefts : List (ScoreTree α)) :
    Except (Halt ε) (ScoreTree α) := do
  let terms ← (candidates.zip rights).mapM fun pair => untilTerm t lefts pair.1 pair.2
  let (chosen, score) ← first .max terms
  return ⟨score, some chosen, rights ++ lefts⟩

theorem untilTerm_eq {t u : Nat} {lefts : List (ScoreTree α)} (right : ScoreTree α) (htu : t ≤ u)
    (hu : u - t ≤ lefts.length) : (untilTerm t lefts u right : Except (Halt ε) α) = .ok
      ((lefts.take (u - t)).foldl (fun least left => Scalar.min least left.score) right.score) := by
  rw [untilTerm, difference_eq htu, pure_bind, initial_eq hu, pure_bind]
  rfl

/-- Every candidate has as many scores of the left operand as lie before it. -/
theorem untilTerms_eq {t : Nat} {w : Window} {rights lefts : List (ScoreTree α)}
    (hfirst : t ≤ w.first) (hrights : rights.length = w.size) (hlefts : lefts.length = w.last - t) :
    ((ends w).indices.zip rights).mapM (fun pair => untilTerm t lefts pair.1 pair.2) =
      (pure (ScoreTree.untilTerms (w.first - t) rights lefts) : Except (Halt ε) (List α)) := by
  have hzip : (ends w).indices.zip rights =
      rights.zipIdx.map fun right => (w.first + right.2, right.1) := by
    rw [indices_ends, ← hrights]
    exact List.ext_getElem (by simp) fun k _ _ => by simp
  rw [hzip, List.mapM_map, ScoreTree.untilTerms]
  refine Except.mapM_eq_ok.mpr (List.forall₂_map_right_iff.mpr (List.forall₂_same.mpr ?_))
  rintro ⟨right, k⟩ hk
  have hinside : k < w.last - w.first + 1 := by
    rw [← Window.size, ← hrights]
    exact (List.getElem?_eq_some_iff.mp (List.mk_mem_zipIdx_iff_getElem?.mp hk)).1
  have hcount : w.first + k - t = w.first - t + k := by omega
  have hle := w.first_le_last
  have hterm : (untilTerm t lefts (w.first + k) right : Except (Halt ε) α) = .ok _ :=
    untilTerm_eq right (by omega) (by omega)
  rw [hcount] at hterm
  exact hterm

theorem selectUntil_eq {t : Nat} {w : Window} {rights lefts : List (ScoreTree α)}
    (hfirst : t ≤ w.first) (hrights : rights.length = w.size) (hlefts : lefts.length = w.last - t) :
    (selectUntil t (ends w).indices rights lefts : Except (Halt ε) (ScoreTree α)) =
      pure (.selectUntil (w.first - t) rights lefts) := by
  have hterms : ScoreTree.untilTerms (w.first - t) rights lefts ≠ [] :=
    ne_nil_of_size w (by simp [ScoreTree.untilTerms, hrights])
  rw [selectUntil, untilTerms_eq hfirst hrights hlefts, pure_bind, first_eq hterms, pure_bind]
  rfl

mutual

/-- The tree of the formula at time `t`. -/
def treeAt (policy : WindowPolicy) (x : Trajectory α) :
    Formula α → Nat → Except (Halt (Fault α)) (ScoreTree α)
  | .predicate _ signal, t => return .leaf (← lift (x.signalValue signal t))
  | .not _ arg, t => do
    let child ← treeAt policy x arg t
    return ⟨-child.score, none, [child]⟩
  | .and _ args, t => do select .min (← treesAt policy x args t)
  | .or _ args, t => do select .max (← treesAt policy x args t)
  | .always _ interval arg, t => do
    let w ← window policy interval x.spacing t x.length
    select .min (← w.indices.mapM fun u => treeAt policy x arg u)
  | .eventually _ interval arg, t => do
    let w ← window policy interval x.spacing t x.length
    select .max (← w.indices.mapM fun u => treeAt policy x arg u)
  | .holdsUntil _ interval left right, t => do
    let w ← window policy interval x.spacing t x.length
    let rights ← w.indices.mapM fun u => treeAt policy x right u
    let lefts ← (List.range' t (w.last - t)).mapM fun u => treeAt policy x left u
    selectUntil t w.indices rights lefts
  | .next _ arg, t => do
    let w ← offsets policy t 1 1 x.length
    let child ← treeAt policy x arg w.first
    return ⟨child.score, none, [child]⟩

/-- The trees of the operands at time `t`, in order. -/
def treesAt (policy : WindowPolicy) (x : Trajectory α) :
    Operands α → Nat → Except (Halt (Fault α)) (List (ScoreTree α))
  | .pair first second, t => return [← treeAt policy x first t, ← treeAt policy x second t]
  | .cons first rest, t => return (← treeAt policy x first t) :: (← treesAt policy x rest t)

end

/-- The tree of the formula at an anchor inside the trajectory. -/
def robustnessTree (policy : WindowPolicy) (x : Trajectory α) (f : Formula α) (anchor : Nat) :
    Except (Halt (Fault α)) (ScoreTree α) := do
  lift (x.checkIndex anchor)
  treeAt policy x f anchor

variable {policy : WindowPolicy} {x : Trajectory α}

mutual

theorem treeAt_alike : ∀ (f : Formula α) (t : Nat), t ≤ Index.last →
    EndAlike Passed Eq (f.treeAt policy x t) (treeAt policy x f t)
  | .predicate _ signal, t, _ => by
    unfold Formula.treeAt treeAt
    exact (lift_alike _).bind fun _ _ h => .pure (congrArg _ h)
  | .not _ arg, t, ht => by
    unfold Formula.treeAt treeAt
    exact (treeAt_alike arg t ht).bind fun _ _ h => .pure (h ▸ rfl)
  | .and _ args, t, ht => by
    unfold Formula.treeAt treeAt
    exact select_alike (treesAt_alike args t ht)
  | .or _ args, t, ht => by
    unfold Formula.treeAt treeAt
    exact select_alike (treesAt_alike args t ht)
  | .always _ interval arg, t, ht => by
    unfold Formula.treeAt treeAt
    exact selectWindow_alike ht fun u hu => treeAt_alike arg u hu
  | .eventually _ interval arg, t, ht => by
    unfold Formula.treeAt treeAt
    exact selectWindow_alike ht fun u hu => treeAt_alike arg u hu
  | .holdsUntil _ interval left right, t, ht => by
    unfold Formula.treeAt treeAt
    refine (window_alike ht).bind fun w _ ⟨hw, hfirst, hlast⟩ => ?_
    rw [hw]
    refine (mapWindow_alike fun u hu => treeAt_alike right u (hu.2.trans hlast)).bind
      fun rights _ ⟨hr, hrights⟩ => ?_
    rw [Index.mapRangeM_eq_mapM]
    refine (mapM_alike fun u hu => treeAt_alike left u ?_).bind fun lefts _ ⟨hl, hlefts⟩ => ?_
    · have := List.mem_range'_1.mp hu
      omega
    · rw [List.length_range'] at hlefts
      rw [← hr, ← hl, selectUntil_eq hfirst hrights hlefts]
      exact rfl
  | .next _ arg, t, ht => by
    unfold Formula.treeAt treeAt
    refine (offsets_alike ht).bind fun w _ ⟨hw, hfirst, hlast⟩ => ?_
    rw [hw]
    have := w.first_le_last
    exact (treeAt_alike arg w.first (by omega)).bind fun _ _ h => .pure (h ▸ rfl)

theorem treesAt_alike : ∀ (args : Operands α) (t : Nat), t ≤ Index.last →
    EndAlike Passed (fun bs cs => bs = cs ∧ bs ≠ []) (args.treesAt policy x t)
      (treesAt policy x args t)
  | .pair first second, t, ht => by
    unfold Operands.treesAt treesAt
    refine (treeAt_alike first t ht).bind fun _ _ h => ?_
    exact (treeAt_alike second t ht).bind fun _ _ h' => .pure ⟨by rw [h, h'], by simp⟩
  | .cons first rest, t, ht => by
    unfold Operands.treesAt treesAt
    refine (treeAt_alike first t ht).bind fun _ _ h => ?_
    exact (treesAt_alike rest t ht).bind fun _ _ h' => .pure ⟨by rw [h, h'.1], by simp⟩

end

/-- **Building a score tree reaches no dead end.** -/
theorem robustnessTree_eq (f : Formula α) {anchor : Nat} (hanchor : anchor ≤ Index.last) :
    robustnessTree policy x f anchor = lift (f.robustnessTree policy x anchor) := by
  refine eq_lift_iff.mp ((lift_alike _).bind fun _ _ _ => ?_)
  exact treeAt_alike f anchor hanchor

end Trees

end Guarded

end SignalTemporalLogic
