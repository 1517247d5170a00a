import SignalTemporalLogic.Proofs.Evaluation
import SignalTemporalLogic.Proofs.ExactArithmetic

/-!
Unrolling: the expression over signal values that a formula is at an index, with its windows
resolved. An encoding adds one gate for each node of this expression. Two negations cancel out, the
extreme of one operand is that operand, and the candidates of an until share running minima.
-/

namespace SignalTemporalLogic

/-- An expression over signal values. -/
inductive Unrolled (α : Type) where
  | signal (source : Signal α) (t : Nat)
  | negation (arg : Unrolled α)
  | extreme (e : Extremum) (args : List (Unrolled α))

namespace Unrolled

variable {α : Type}

instance : Inhabited (Unrolled α) := ⟨extreme .min []⟩

/-- The extreme of some expressions; a single one is its own extreme. -/
def group (e : Extremum) : List (Unrolled α) → Unrolled α
  | [u] => u
  | us => extreme e us

/-- The running minima of the expressions after `before`. -/
def minimaAfter (before : Unrolled α) : List (Unrolled α) → List (Unrolled α)
  | [] => []
  | u :: rest => group .min [before, u] :: minimaAfter (group .min [before, u]) rest

def runningMinima : List (Unrolled α) → List (Unrolled α)
  | [] => []
  | u :: rest => u :: minimaAfter u rest

/-- A candidate of an until: the right operand, and what comes before it if anything does. -/
def untilTerm : Unrolled α × Option (Unrolled α) → Unrolled α
  | (right, none) => right
  | (right, some before) => group .min [right, before]

/-- The candidates of an until, before the first of which lie `skipped` indices. -/
def untilTerms (skipped : Nat) (rights lefts : List (Unrolled α)) : List (Unrolled α) :=
  (rights.zip ((none :: (runningMinima lefts).map some).drop skipped)).map untilTerm

def untilBest (skipped : Nat) (rights lefts : List (Unrolled α)) : Unrolled α :=
  group .max (untilTerms skipped rights lefts)

mutual

/-- All signals that the expression reads satisfy the condition. -/
def All (P : Signal α → Nat → Prop) : Unrolled α → Prop
  | signal source t => P source t
  | negation arg => arg.All P
  | extreme _ args => ListAll P args

def ListAll (P : Signal α → Nat → Prop) : List (Unrolled α) → Prop
  | [] => True
  | u :: rest => u.All P ∧ ListAll P rest

end

mutual

/-- The value of the expression where signals have the given values. -/
def value (read : Signal α → Nat → Rat) : Unrolled α → Rat
  | signal source t => read source t
  | negation arg => -arg.value read
  | extreme e args => e.pick (values read args)

def values (read : Signal α → Nat → Rat) : List (Unrolled α) → List Rat
  | [] => []
  | u :: rest => u.value read :: values read rest

end

mutual

/-- The number of extremes on the longest way down to a signal. -/
def layers : Unrolled α → Nat
  | signal .. => 0
  | negation arg => arg.layers
  | extreme _ args => listLayers args + 1

def listLayers : List (Unrolled α) → Nat
  | [] => 0
  | u :: rest => max u.layers (listLayers rest)

end

mutual

theorem All.mono {P Q : Signal α → Nat → Prop} (h : ∀ source t, P source t → Q source t) :
    ∀ u : Unrolled α, u.All P → u.All Q
  | signal source t, hu => h source t hu
  | negation arg, hu => All.mono h arg hu
  | extreme _ args, hu => ListAll.mono h args hu

theorem ListAll.mono {P Q : Signal α → Nat → Prop} (h : ∀ source t, P source t → Q source t) :
    ∀ us : List (Unrolled α), ListAll P us → ListAll Q us
  | [], _ => trivial
  | u :: rest, ⟨hu, hrest⟩ => ⟨All.mono h u hu, ListAll.mono h rest hrest⟩

end

section Lists

variable {P : Signal α → Nat → Prop} {read : Signal α → Nat → Rat} {us : List (Unrolled α)}

theorem listAll_iff : ListAll P us ↔ ∀ u ∈ us, u.All P := by
  induction us with
  | nil => simp [ListAll]
  | cons u rest ih => simp [ListAll, ih]

theorem values_eq_map : values read us = us.map (value read) := by
  induction us with
  | nil => rfl
  | cons u rest ih => simp [values, ih]

theorem group_all {e : Extremum} : (group e us).All P ↔ ∀ u ∈ us, u.All P := by
  match us with
  | [] | _ :: _ :: _ => exact listAll_iff
  | [u] => simp [group]

theorem group_value {e : Extremum} (h : us ≠ []) :
    (group e us).value read = e.pick (us.map (value read)) := by
  match us with
  | [u] => rfl
  | u :: v :: rest =>
    show e.pick (values read (u :: v :: rest)) = _
    rw [values_eq_map]

end Lists

/-! ## Running minima -/

section Minima

variable {P : Signal α → Nat → Prop} {read : Signal α → Nat → Rat} {us : List (Unrolled α)}

theorem length_minimaAfter (before : Unrolled α) : (minimaAfter before us).length = us.length := by
  induction us generalizing before with
  | nil => rfl
  | cons u rest ih => simp [minimaAfter, ih]

theorem length_runningMinima : (runningMinima us).length = us.length := by
  cases us with
  | nil => rfl
  | cons u rest => simp [runningMinima, length_minimaAfter]

theorem minimaAfter_all {before : Unrolled α} {i : Nat} (h : i < (minimaAfter before us).length) :
    (minimaAfter before us)[i].All P ↔ before.All P ∧ ∀ u ∈ us.take (i + 1), u.All P := by
  induction us generalizing before i with
  | nil => simp [minimaAfter] at h
  | cons u rest ih =>
    cases i with
    | zero => simp [minimaAfter, group_all]
    | succ i =>
      simp only [minimaAfter, List.getElem_cons_succ, ih, group_all, List.take_succ_cons,
        List.mem_cons, List.not_mem_nil, or_false, forall_eq_or_imp, forall_eq, and_assoc]

theorem runningMinima_all {i : Nat} (h : i < (runningMinima us).length) :
    (runningMinima us)[i].All P ↔ ∀ u ∈ us.take (i + 1), u.All P := by
  cases us with
  | nil => simp [runningMinima] at h
  | cons u rest =>
    cases i with
    | zero => simp [runningMinima]
    | succ i => simp [runningMinima, minimaAfter_all]

/-- Each running minimum is the minimum of what it runs over. -/
theorem minimaAfter_value {before : Unrolled α} {i : Nat}
    (h : i < (minimaAfter before us).length) :
    (minimaAfter before us)[i].value read =
      Extremum.min.pick (before.value read :: (us.map (value read)).take (i + 1)) := by
  induction us generalizing before i with
  | nil => simp [minimaAfter] at h
  | cons u rest ih =>
    cases i with
    | zero => simp [minimaAfter, group_value]
    | succ i =>
      have hpick := Extremum.min.pick_append_pick [before.value read, u.value read]
        (by simp) [] ((rest.map (value read)).take (i + 1))
      simpa [minimaAfter, ih, group_value] using hpick

theorem runningMinima_value {i : Nat} (h : i < (runningMinima us).length) :
    (runningMinima us)[i].value read =
      Extremum.min.pick ((us.map (value read)).take (i + 1)) := by
  cases us with
  | nil => simp [runningMinima] at h
  | cons u rest =>
    cases i with
    | zero => simp [runningMinima, Extremum.pick]
    | succ i => simp [runningMinima, minimaAfter_value]

end Minima

/-! ## Candidates of an until -/

section Until

variable {P : Signal α → Nat → Prop} {read : Signal α → Nat → Rat} {skipped : Nat}
  {rights lefts : List (Unrolled α)}

theorem length_untilTerms (h : rights.length + skipped = lefts.length + 1) :
    (untilTerms skipped rights lefts).length = rights.length := by
  simp [untilTerms, length_runningMinima]
  omega

/-- What comes before a candidate: nothing or a running minimum. -/
theorem getElem_untilTerms {k : Nat} (h : k < (untilTerms skipped rights lefts).length)
    (hr : k < rights.length) :
    (skipped + k = 0 ∧ (untilTerms skipped rights lefts)[k] = rights[k]) ∨
    ∃ j, ∃ hj : j < (runningMinima lefts).length, skipped + k = j + 1 ∧
      (untilTerms skipped rights lefts)[k] = group .min [rights[k], (runningMinima lefts)[j]] := by
  have hdrop : skipped + k < (none :: (runningMinima lefts).map some).length := by
    simp only [untilTerms, List.length_map, List.length_zip, List.length_drop] at h
    omega
  rcases hk : skipped + k with _ | j
  · left
    obtain ⟨rfl, rfl⟩ : skipped = 0 ∧ k = 0 := by omega
    simp [untilTerms, untilTerm]
  · right
    rw [hk] at hdrop
    refine ⟨j, by simpa using hdrop, rfl, ?_⟩
    simp [untilTerms, hk, untilTerm]

theorem untilTerms_all {k : Nat} (h : k < (untilTerms skipped rights lefts).length)
    (hr : k < rights.length) :
    (untilTerms skipped rights lefts)[k].All P ↔
      rights[k].All P ∧ ∀ u ∈ lefts.take (skipped + k), u.All P := by
  rcases getElem_untilTerms h hr with ⟨hzero, he⟩ | ⟨j, hj, hsucc, he⟩
  · simp [he, hzero]
  · simp [he, hsucc, group_all, runningMinima_all]

theorem untilTerms_value {k : Nat} (h : k < (untilTerms skipped rights lefts).length)
    (hr : k < rights.length) :
    (untilTerms skipped rights lefts)[k].value read = Extremum.min.pick
      (rights[k].value read :: (lefts.map (value read)).take (skipped + k)) := by
  rcases getElem_untilTerms h hr with ⟨hzero, he⟩ | ⟨j, hj, hsucc, he⟩
  · simp [he, hzero, Extremum.pick]
  · have hne : (lefts.map (value read)).take (j + 1) ≠ [] := by
      rw [length_runningMinima] at hj
      exact List.ne_nil_of_length_pos (by simp; omega)
    have hpick := Extremum.min.pick_append_pick _ hne [rights[k].value read] []
    simpa [he, hsucc, group_value, runningMinima_value] using hpick

/-- An until reads what its operands read. -/
theorem untilBest_all (h : rights.length + skipped = lefts.length + 1) (hne : rights ≠ []) :
    (untilBest skipped rights lefts).All P ↔ (∀ u ∈ rights, u.All P) ∧ ∀ u ∈ lefts, u.All P := by
  have hlength := length_untilTerms h
  have hpos := List.length_pos_iff.mpr hne
  rw [untilBest, group_all]
  constructor
  · intro hall
    refine ⟨fun u hu => ?_, fun u hu => ?_⟩
    · obtain ⟨k, hk, rfl⟩ := List.mem_iff_getElem.mp hu
      exact ((untilTerms_all (hlength ▸ hk) hk).mp (hall _ (List.getElem_mem _))).1
    · -- the last candidate comes after all left operands
      have hlast := (untilTerms_all (k := rights.length - 1) (by omega) (by omega)).mp
        (hall _ (List.getElem_mem _))
      refine hlast.2 u ?_
      rwa [List.take_of_length_le (by omega)]
  · rintro ⟨hrights, hlefts⟩ u hu
    obtain ⟨k, hk, rfl⟩ := List.mem_iff_getElem.mp hu
    exact (untilTerms_all hk (hlength ▸ hk)).mpr
      ⟨hrights _ (List.getElem_mem _), fun u hu => hlefts u (List.mem_of_mem_take hu)⟩

end Until

/-! ## Layers -/

section Layers

variable {us : List (Unrolled α)} {n skipped : Nat} {rights lefts : List (Unrolled α)}

theorem listLayers_le_iff : listLayers us ≤ n ↔ ∀ u ∈ us, u.layers ≤ n := by
  induction us with
  | nil => simp [listLayers]
  | cons u rest ih => simp [listLayers, ih]

theorem listLayers_append {vs : List (Unrolled α)} :
    listLayers (us ++ vs) = max (listLayers us) (listLayers vs) := by
  induction us with
  | nil => simp [listLayers]
  | cons u rest ih => simp [listLayers, ih, Nat.max_assoc]

theorem listLayers_le_group (e : Extremum) : listLayers us ≤ (group e us).layers := by
  match us with
  | [] | _ :: _ :: _ => exact Nat.le_succ _
  | [u] => simp [listLayers, group]

theorem layers_le_group {e : Extremum} {u : Unrolled α} (h : u ∈ us) :
    u.layers ≤ (group e us).layers :=
  (listLayers_le_iff.mp (Nat.le_refl _) u h).trans (listLayers_le_group e)

theorem listLayers_le_minimaAfter (before : Unrolled α) :
    listLayers us ≤ listLayers (minimaAfter before us) := by
  induction us generalizing before with
  | nil => exact Nat.le_refl _
  | cons u rest ih =>
    have hfirst : u.layers ≤ (group .min [before, u]).layers := layers_le_group (by simp)
    exact max_le_max hfirst (ih _)

theorem listLayers_le_runningMinima : listLayers us ≤ listLayers (runningMinima us) := by
  cases us with
  | nil => exact Nat.le_refl _
  | cons u rest => exact max_le_max (Nat.le_refl _) (listLayers_le_minimaAfter u)

/-- Running minima grow: the last one has the most layers. -/
theorem layers_minimaAfter_le_last {before m : Unrolled α} (hm : m ∈ minimaAfter before us)
    (hne : minimaAfter before us ≠ []) :
    before.layers ≤ m.layers ∧ m.layers ≤ ((minimaAfter before us).getLast hne).layers := by
  induction us generalizing before m with
  | nil => simp [minimaAfter] at hm
  | cons u rest ih =>
    have hbefore : before.layers ≤ (group .min [before, u]).layers := layers_le_group (by simp)
    by_cases hrest : minimaAfter (group .min [before, u]) rest = []
    · have hm : m = group .min [before, u] := by simpa [minimaAfter, hrest] using hm
      subst hm
      simpa [minimaAfter, hrest] using hbefore
    · simp only [minimaAfter, List.getLast_cons hrest, List.mem_cons] at hm ⊢
      rcases hm with rfl | hm
      · have hlast := ih (List.getLast_mem hrest) hrest
        exact ⟨hbefore, hlast.1⟩
      · have hm := ih hm hrest
        exact ⟨hbefore.trans hm.1, hm.2⟩

theorem layers_runningMinima_le_last {m : Unrolled α} (hm : m ∈ runningMinima us)
    (hne : runningMinima us ≠ []) : m.layers ≤ ((runningMinima us).getLast hne).layers := by
  cases us with
  | nil => simp [runningMinima] at hm
  | cons u rest =>
    by_cases hrest : minimaAfter u rest = []
    · have hm : m = u := by simpa [runningMinima, hrest] using hm
      subst hm
      simp [runningMinima, hrest]
    · simp only [runningMinima, List.getLast_cons hrest, List.mem_cons] at hm ⊢
      rcases hm with rfl | hm
      · exact (layers_minimaAfter_le_last (List.getLast_mem hrest) hrest).1
      · exact (layers_minimaAfter_le_last hm hrest).2

/-- An until has at least the layers of its operands and of all running minima. -/
theorem listLayers_le_untilBest (h : rights.length + skipped = lefts.length + 1)
    (hne : rights ≠ []) :
    listLayers rights ≤ (untilBest skipped rights lefts).layers ∧
      listLayers (runningMinima lefts) ≤ (untilBest skipped rights lefts).layers := by
  have hlength := length_untilTerms h
  have hpos := List.length_pos_iff.mpr hne
  simp only [listLayers_le_iff]
  refine ⟨fun u hu => ?_, fun m hm => ?_⟩
  · obtain ⟨k, hk, rfl⟩ := List.mem_iff_getElem.mp hu
    refine Nat.le_trans ?_ (layers_le_group (List.getElem_mem (hlength ▸ hk)))
    rcases getElem_untilTerms (hlength ▸ hk) hk with ⟨-, he⟩ | ⟨j, hj, -, he⟩
    · rw [he]
    · rw [he]
      exact layers_le_group (by simp)
  · have hminima : runningMinima lefts ≠ [] := List.ne_nil_of_mem hm
    refine (layers_runningMinima_le_last hm hminima).trans ?_
    -- the last candidate comes after the last running minimum
    have hlast : rights.length - 1 < (untilTerms skipped rights lefts).length := by omega
    refine Nat.le_trans ?_ (layers_le_group (List.getElem_mem hlast))
    have hminimaPos := List.length_pos_iff.mpr hminima
    rw [length_runningMinima] at hminimaPos
    rcases getElem_untilTerms hlast (by omega) with ⟨hzero, -⟩ | ⟨j, hj, hsucc, he⟩
    · omega
    · have hj' : j = (runningMinima lefts).length - 1 := by
        rw [length_runningMinima]
        omega
      rw [he, List.getLast_eq_getElem]
      subst hj'
      exact layers_le_group (by simp)

end Layers

end Unrolled

mutual

/-- The formula at an index of a domain of `length` samples, as an expression. -/
def Formula.unroll {α : Type} [Scalar α] (policy : WindowPolicy) (spacing : α) (length : Nat) :
    Formula α → Nat → Except (Fault α) (Unrolled α)
  | .predicate _ signal, t => return .signal signal t
  | .not _ (.not _ arg), t => arg.unroll policy spacing length t
  | .not _ arg, t => return .negation (← arg.unroll policy spacing length t)
  | .and _ args, t => return .group .min (← args.unroll policy spacing length t)
  | .or _ args, t => return .group .max (← args.unroll policy spacing length t)
  | .always _ interval arg, t => do
    let w ← policy.window interval spacing t length
    return .group .min (← w.mapM fun u => arg.unroll policy spacing length u)
  | .eventually _ interval arg, t => do
    let w ← policy.window interval spacing t length
    return .group .max (← w.mapM fun u => arg.unroll policy spacing length u)
  | .holdsUntil _ interval left right, t => do
    let w ← policy.window interval spacing t length
    let rights ← w.mapM fun u => right.unroll policy spacing length u
    let lefts ← Index.mapRangeM (fun u => left.unroll policy spacing length u) t (w.last - t)
    return .untilBest (w.first - t) rights lefts
  | .next _ arg, t => do
    let w ← (policy.offsets t 1 1 length : Except (Fault α) Window)
    arg.unroll policy spacing length w.first

def Operands.unroll {α : Type} [Scalar α] (policy : WindowPolicy) (spacing : α) (length : Nat) :
    Operands α → Nat → Except (Fault α) (List (Unrolled α))
  | .pair first second, t =>
    return [← first.unroll policy spacing length t, ← second.unroll policy spacing length t]
  | .cons first rest, t =>
    return (← first.unroll policy spacing length t) :: (← rest.unroll policy spacing length t)

end

/-! ## The value of an unrolled formula -/

section Folds

theorem quantitative_all {values : List Rat} (h : values ≠ []) :
    Semantics.quantitative.all (values.map Exact.fin) = .fin (Extremum.min.pick values) := by
  obtain ⟨hmem, hle⟩ : IsLeast {v | v ∈ values.map Exact.fin} _ :=
    quantitative_ordered.all_isLeast (by simpa using h) (by simp)
  obtain ⟨q, hq, he⟩ := List.mem_map.mp hmem
  rw [← he] at hle ⊢
  refine congrArg Exact.fin (Extremum.Picks.eq_pick (Extremum.picks_min_iff.mpr ⟨hq, ?_⟩))
  exact fun v hv => hle (List.mem_map_of_mem hv)

theorem quantitative_any {values : List Rat} (h : values ≠ []) :
    Semantics.quantitative.any (values.map Exact.fin) = .fin (Extremum.max.pick values) := by
  obtain ⟨hmem, hle⟩ : IsGreatest {v | v ∈ values.map Exact.fin} _ :=
    quantitative_ordered.any_isGreatest (by simpa using h) (by simp)
  obtain ⟨q, hq, he⟩ := List.mem_map.mp hmem
  rw [← he] at hle ⊢
  refine congrArg Exact.fin (Extremum.Picks.eq_pick (Extremum.picks_max_iff.mpr ⟨hq, ?_⟩))
  exact fun v hv => hle (List.mem_map_of_mem hv)

theorem quantitative_and_all (r : Rat) (values : List Rat) :
    Semantics.quantitative.and (.fin r) (Semantics.quantitative.all (values.map Exact.fin)) =
      .fin (Extremum.min.pick (r :: values)) := by
  have hset : (insert (Exact.fin r) {v | v ∈ values.map Exact.fin} : Set Exact) =
      {v | v ∈ (r :: values).map Exact.fin} := by
    ext v
    simp
  obtain ⟨hmem, hle⟩ : IsLeast {v | v ∈ (r :: values).map Exact.fin} _ :=
    hset ▸ quantitative_ordered.and_all_isLeast (by simp) (by simp)
  obtain ⟨q, hq, he⟩ := List.mem_map.mp hmem
  rw [← he] at hle ⊢
  refine congrArg Exact.fin (Extremum.Picks.eq_pick (Extremum.picks_min_iff.mpr ⟨hq, ?_⟩))
  exact fun v hv => hle (List.mem_map_of_mem hv)

section Groups

variable {read : Signal Exact → Nat → Rat} {us : List (Unrolled Exact)}

theorem quantitative_all_group (h : us ≠ []) :
    Semantics.quantitative.all (us.map fun u => Exact.fin (u.value read)) =
      .fin ((Unrolled.group .min us).value read) := by
  rw [Unrolled.group_value h, ← quantitative_all (by simpa using h), List.map_map]
  rfl

theorem quantitative_any_group (h : us ≠ []) :
    Semantics.quantitative.any (us.map fun u => Exact.fin (u.value read)) =
      .fin ((Unrolled.group .max us).value read) := by
  rw [Unrolled.group_value h, ← quantitative_any (by simpa using h), List.map_map]
  rfl

end Groups

/-- The nested until is the value of the unrolled one. -/
theorem untilNested_eq_value {read : Signal Exact → Nat → Rat} {t : Nat} (w : Window)
    (ht : t ≤ w.first) (right left : Nat → Unrolled Exact) :
    Semantics.quantitative.untilNested (fun u => Exact.fin ((left u).value read))
      (fun u => Exact.fin ((right u).value read)) t w.first w.size =
    Exact.fin ((Unrolled.untilBest (w.first - t) ((List.range' w.first w.size).map right)
      ((List.range' t (w.last - t)).map left)).value read) := by
  have hle := w.first_le_last
  let candidate (u : Nat) : Rat := Extremum.min.pick
    ((right u).value read :: (List.range' t (u - t)).map fun v => (left v).value read)
  have hcandidate : (fun u => Semantics.quantitative.and (Exact.fin ((right u).value read))
      (Semantics.quantitative.all
        ((List.range' t (u - t)).map fun v => Exact.fin ((left v).value read)))) =
      fun u => .fin (candidate u) := by
    funext u
    rw [← quantitative_and_all, List.map_map]
    rfl
  have hlength : ((List.range' w.first w.size).map right).length + (w.first - t) =
      ((List.range' t (w.last - t)).map left).length + 1 := by
    simp [Window.size]
    omega
  have hterms : (Unrolled.untilTerms (w.first - t) ((List.range' w.first w.size).map right)
      ((List.range' t (w.last - t)).map left)).map (Unrolled.value read) =
      (List.range' w.first w.size).map candidate := by
    refine List.ext_getElem (by simp [Unrolled.length_untilTerms hlength]) fun k hk hk' => ?_
    have hsize : k < w.size := by simpa using hk'
    rw [List.getElem_map, Unrolled.untilTerms_value _ (by simpa using hsize)]
    simp only [List.getElem_map, List.getElem_range', Nat.one_mul, candidate, List.map_map,
      Function.comp_def, ← List.map_take]
    rw [List.take_range'_of_length_ge (by rw [Window.size] at hsize; omega),
      show w.first - t + k = w.first + k - t by omega]
  rw [Semantics.untilNested, hcandidate, Unrolled.untilBest, Unrolled.group_value, hterms,
    ← quantitative_any (by simp [Window.size]), List.map_map]
  · rfl
  · refine List.ne_nil_of_length_pos ?_
    rw [Unrolled.length_untilTerms hlength]
    simp [Window.size]

end Folds

section Value

variable {policy : WindowPolicy} {x : Trajectory Exact} {read : Signal Exact → Nat → Rat}

/-- Over a window the unrolled formulas have the values of the formula, if each of them has. -/
theorem Formula.valuesAt_of_unrolled_window {arg : Formula Exact} {w : Window}
    {us : List (Unrolled Exact)}
    (hus : w.mapM (fun v => arg.unroll policy x.spacing x.length v) = .ok us)
    (hall : ∀ u ∈ us, u.All fun s v => x.signalValue s v = .ok (.fin (read s v)))
    (harg : ∀ v u, arg.unroll policy x.spacing x.length v = .ok u →
      u.All (fun s v => x.signalValue s v = .ok (.fin (read s v))) →
      arg.valueAt .quantitative policy x v = .ok (.fin (u.value read))) :
    us ≠ [] ∧ w.mapM (fun v => arg.valueAt .quantitative policy x v) =
      .ok (us.map fun u => .fin (u.value read)) := by
  obtain ⟨unrolled, rfl, hunroll⟩ := Index.eq_map_of_mapRangeM hus
  rw [List.forall_mem_map] at hall
  refine ⟨by simp [Window.size], ?_⟩
  rw [List.map_map]
  refine Window.mapM_ok fun v hv => ?_
  obtain ⟨hlow, hhigh⟩ := Window.mem_iff.mp hv
  exact harg v _ (hunroll v hlow hhigh) (hall v (List.mem_range'_1.mpr ⟨hlow, hhigh⟩))

mutual

/-- **An unrolled formula has the value of the formula**, where all signals that it reads do. -/
theorem Formula.valueAt_of_unroll (hlen : x.length ≤ Index.last) :
    ∀ (f : Formula Exact) (t : Nat) (u : Unrolled Exact),
      f.unroll policy x.spacing x.length t = .ok u →
      u.All (fun s v => x.signalValue s v = .ok (.fin (read s v))) →
      f.valueAt .quantitative policy x t = .ok (.fin (u.value read))
  | .predicate _ signal, t, u, h, hall => by
    obtain rfl := Except.pure_eq_ok.mp h
    have hvalue : x.signalValue signal t = .ok (.fin (read signal t)) := hall
    simp [Formula.valueAt, hvalue, Semantics.quantitative, Unrolled.value]
  | .not _ arg, t, u, h, hall => by
    cases arg with
    | not _ inner =>
      have ih := Formula.valueAt_of_unroll hlen inner t u h hall
      simp only [Formula.valueAt, ih, bind, Except.bind, pure, Except.pure]
      exact congrArg (fun q => Except.ok (Exact.fin q)) (neg_neg _)
    | predicate | and | or | always | eventually | holdsUntil | next =>
      obtain ⟨v, hv, h⟩ := Except.bind_eq_ok.mp h
      obtain rfl := Except.pure_eq_ok.mp h
      have ih := Formula.valueAt_of_unroll hlen _ t v hv hall
      rw [Formula.valueAt, ih]
      rfl
  | .and _ args, t, u, h, hall => by
    rw [Formula.unroll] at h
    obtain ⟨us, hus, h⟩ := Except.bind_eq_ok.mp h
    obtain rfl := Except.pure_eq_ok.mp h
    obtain ⟨hne, ih⟩ := Operands.valuesAt_of_unroll hlen args t us hus (Unrolled.group_all.mp hall)
    simp only [Formula.valueAt, ih, bind, Except.bind, pure, Except.pure]
    rw [quantitative_all_group hne]
  | .or _ args, t, u, h, hall => by
    rw [Formula.unroll] at h
    obtain ⟨us, hus, h⟩ := Except.bind_eq_ok.mp h
    obtain rfl := Except.pure_eq_ok.mp h
    obtain ⟨hne, ih⟩ := Operands.valuesAt_of_unroll hlen args t us hus (Unrolled.group_all.mp hall)
    simp only [Formula.valueAt, ih, bind, Except.bind, pure, Except.pure]
    rw [quantitative_any_group hne]
  | .always _ interval arg, t, u, h, hall => by
    rw [Formula.unroll] at h
    obtain ⟨w, hw, h⟩ := Except.bind_eq_ok.mp h
    obtain ⟨us, hus, h⟩ := Except.bind_eq_ok.mp h
    obtain rfl := Except.pure_eq_ok.mp h
    obtain ⟨hne, ih⟩ := Formula.valuesAt_of_unrolled_window hus (Unrolled.group_all.mp hall)
      fun v u => Formula.valueAt_of_unroll hlen arg v u
    simp only [Formula.valueAt, Trajectory.window, hw, ih, bind, Except.bind, pure, Except.pure]
    rw [quantitative_all_group hne]
  | .eventually _ interval arg, t, u, h, hall => by
    rw [Formula.unroll] at h
    obtain ⟨w, hw, h⟩ := Except.bind_eq_ok.mp h
    obtain ⟨us, hus, h⟩ := Except.bind_eq_ok.mp h
    obtain rfl := Except.pure_eq_ok.mp h
    obtain ⟨hne, ih⟩ := Formula.valuesAt_of_unrolled_window hus (Unrolled.group_all.mp hall)
      fun v u => Formula.valueAt_of_unroll hlen arg v u
    simp only [Formula.valueAt, Trajectory.window, hw, ih, bind, Except.bind, pure, Except.pure]
    rw [quantitative_any_group hne]
  | .holdsUntil _ interval left right, t, u, h, hall => by
    rw [Formula.unroll] at h
    obtain ⟨w, hw, h⟩ := Except.bind_eq_ok.mp h
    obtain ⟨rights, hrights, h⟩ := Except.bind_eq_ok.mp h
    obtain ⟨lefts, hlefts, h⟩ := Except.bind_eq_ok.mp h
    obtain rfl := Except.pure_eq_ok.mp h
    obtain ⟨here, rfl, hhere⟩ := Index.eq_map_of_mapRangeM hrights
    obtain ⟨before, rfl, hbefore⟩ := Index.eq_map_of_mapRangeM hlefts
    have hfirst := (WindowPolicy.window_bounds hlen hw).1
    have hle := w.first_le_last
    rw [Unrolled.untilBest_all (by simp [Window.size]; omega) (by simp [Window.size]),
      List.forall_mem_map, List.forall_mem_map] at hall
    have hright : ∀ v ∈ w, right.valueAt .quantitative policy x v =
        .ok (.fin ((here v).value read)) := by
      intro v hv
      obtain ⟨hv, hv'⟩ := Window.mem_iff.mp hv
      exact Formula.valueAt_of_unroll hlen right v _ (hhere v hv hv')
        (hall.1 v (List.mem_range'_1.mpr ⟨hv, hv'⟩))
    have hleft : ∀ v, t ≤ v → v < w.last → left.valueAt .quantitative policy x v =
        .ok (.fin ((before v).value read)) := by
      intro v hv hv'
      have hend : v < t + (w.last - t) := by omega
      exact Formula.valueAt_of_unroll hlen left v _ (hbefore v hv hend)
        (hall.2 v (List.mem_range'_1.mpr ⟨hv, hend⟩))
    have hrun := Semantics.quantitative.until_eq_nested w hfirst hleft hright
    rw [Formula.valueAt, Trajectory.window, hw]
    exact hrun.trans (congrArg Except.ok (untilNested_eq_value w hfirst here before))
  | .next _ arg, t, u, h, hall => by
    rw [Formula.unroll] at h
    obtain ⟨w, hw, h⟩ := Except.bind_eq_ok.mp h
    have ih := Formula.valueAt_of_unroll hlen arg w.first u h hall
    simp only [Formula.valueAt, Trajectory.nextWindow, hw, ih, bind, Except.bind]

theorem Operands.valuesAt_of_unroll (hlen : x.length ≤ Index.last) :
    ∀ (args : Operands Exact) (t : Nat) (us : List (Unrolled Exact)),
      args.unroll policy x.spacing x.length t = .ok us →
      (∀ u ∈ us, u.All fun s v => x.signalValue s v = .ok (.fin (read s v))) →
      us ≠ [] ∧ args.valuesAt .quantitative policy x t =
        .ok (us.map fun u => .fin (u.value read))
  | .pair first second, t, us, h, hall => by
    obtain ⟨u, hu, h⟩ := Except.bind_eq_ok.mp h
    obtain ⟨v, hv, h⟩ := Except.bind_eq_ok.mp h
    obtain rfl := Except.pure_eq_ok.mp h
    have hfirst := Formula.valueAt_of_unroll hlen first t u hu (hall u (by simp))
    have hsecond := Formula.valueAt_of_unroll hlen second t v hv (hall v (by simp))
    exact ⟨by simp, by simp [Operands.valuesAt, hfirst, hsecond]⟩
  | .cons first rest, t, us, h, hall => by
    obtain ⟨u, hu, h⟩ := Except.bind_eq_ok.mp h
    obtain ⟨others, hothers, h⟩ := Except.bind_eq_ok.mp h
    obtain rfl := Except.pure_eq_ok.mp h
    have hfirst := Formula.valueAt_of_unroll hlen first t u hu (hall u (by simp))
    have hrest := Operands.valuesAt_of_unroll hlen rest t others hothers fun v hv =>
      hall v (List.mem_cons_of_mem _ hv)
    exact ⟨by simp, by simp [Operands.valuesAt, hfirst, hrest.2]⟩

end

end Value

end SignalTemporalLogic
