import Mathlib.Tactic.Choose
import SignalTemporalLogic.Proofs.Meaning
import SignalTemporalLogic.Proofs.Outcomes
import SignalTemporalLogic.Proofs.ScalarOrder
import SignalTemporalLogic.Proofs.Windows

/-!
The evaluator computes what a formula means, in every semantics whose connectives choose an operand.
The step that is not read off is the until, whose single pass with a running conjunction is equal to
the nested form in any semantics at all.
-/

namespace SignalTemporalLogic

variable {α Y : Type}

/-! ## The single pass of an until -/

namespace Semantics

variable (S : Semantics α Y)

/-- The value of an until over the window from `first` on, computed anew at every candidate. -/
def untilNested (left right : Nat → Y) (t first count : Nat) : Y :=
  S.any ((List.range' first count).map fun u =>
    S.and (right u) (S.all ((List.range' t (u - t)).map left)))

theorem all_range'_succ (value : Nat → Y) (start count : Nat) :
    S.all ((List.range' start (count + 1)).map value) =
      S.and (S.all ((List.range' start count).map value)) (value (start + count)) := by
  simp [all, List.range'_concat, List.foldl_append]

/-- Going on with the conjunction of the left operand up to the candidate is to compute it anew. -/
theorem untilFrom_eq_foldl {left right : Nat → Except (Fault α) Y} {before here : Nat → Y}
    {t candidate more : Nat} (result : Y) (ht : t ≤ candidate)
    (hleft : ∀ u, candidate ≤ u → u < candidate + more → left u = .ok (before u))
    (hright : ∀ u, candidate ≤ u → u ≤ candidate + more → right u = .ok (here u)) :
    S.untilFrom left right (S.all ((List.range' t (candidate - t)).map before)) result candidate more =
      .ok (((List.range' candidate (more + 1)).map fun u =>
        S.and (here u) (S.all ((List.range' t (u - t)).map before))).foldl S.or result) := by
  induction more generalizing candidate result with
  | zero =>
    have hcandidate := hright candidate (Nat.le_refl _) (by omega)
    simp [untilFrom, hcandidate, bind, Except.bind, pure, Except.pure]
  | succ more ih =>
    have hcandidate := hright candidate (Nat.le_refl _) (by omega)
    have hbefore := hleft candidate (Nat.le_refl _) (by omega)
    have hgrow := S.all_range'_succ before t (candidate - t)
    rw [show t + (candidate - t) = candidate by omega,
      show candidate - t + 1 = candidate + 1 - t by omega] at hgrow
    have hnext := @ih (candidate + 1)
      (S.or result (S.and (here candidate) (S.all ((List.range' t (candidate - t)).map before))))
      (by omega) (fun u hu hv => hleft u (by omega) (by omega))
      (fun u hu hv => hright u (by omega) (by omega))
    simp only [untilFrom, hcandidate, hbefore, bind, Except.bind]
    rw [← hgrow, hnext, List.range'_succ (n := more + 1), List.map_cons, List.foldl_cons]

/-- A single pass that returned has visited the whole window. -/
theorem exists_ok_of_untilFrom {left right : Nat → Except (Fault α) Y} {before result y : Y}
    {candidate more : Nat} (h : S.untilFrom left right before result candidate more = .ok y) :
    (∀ u, candidate ≤ u → u ≤ candidate + more → ∃ v, right u = .ok v) ∧
      ∀ u, candidate ≤ u → u < candidate + more → ∃ v, left u = .ok v := by
  induction more generalizing before result candidate with
  | zero =>
    obtain ⟨v, hv, -⟩ := Except.bind_eq_ok.mp h
    refine ⟨fun u hu hu' => ⟨v, ?_⟩, fun u hu hu' => by omega⟩
    rwa [show u = candidate by omega]
  | succ more ih =>
    obtain ⟨v, hv, h⟩ := Except.bind_eq_ok.mp h
    obtain ⟨l, hl, h⟩ := Except.bind_eq_ok.mp h
    obtain ⟨hrights, hlefts⟩ := ih h
    refine ⟨fun u hu hu' => ?_, fun u hu hu' => ?_⟩ <;> by_cases he : u = candidate
    · exact ⟨v, he ▸ hv⟩
    · exact hrights u (by omega) (by omega)
    · exact ⟨l, he ▸ hl⟩
    · exact hlefts u (by omega) (by omega)

/-- **The single pass of an until is the nested form**, for every window at or after `t`. -/
theorem until_eq_nested {left right : Nat → Except (Fault α) Y} {before here : Nat → Y} {t : Nat}
    (w : Window) (ht : t ≤ w.first)
    (hleft : ∀ u, t ≤ u → u < w.last → left u = .ok (before u))
    (hright : ∀ u ∈ w, right u = .ok (here u)) :
    (do
      let values ← Index.mapRangeM left t (w.first - t)
      S.untilFrom left right (S.all values) S.eventually w.first (w.last - w.first)) =
      .ok (S.untilNested before here t w.first w.size) := by
  have hw := w.first_le_last
  have hbefore := Index.mapRangeM_ok t (w.first - t)
    fun u hu hv => hleft u hu (by omega)
  rw [hbefore]
  exact S.untilFrom_eq_foldl S.eventually ht (fun u hu hv => hleft u (by omega) (by omega))
    (fun u hu hv => hright u ⟨hu, by omega⟩)

end Semantics

/-! ## Extremes over a window -/

section Windows

variable [LE Y] {S : Semantics α Y} {valid : Y → Prop}

theorem Semantics.Ordered.all_window_isLeast (hS : S.Ordered valid) {value : Nat → Y} {w : Window}
    (hvalue : ∀ u ∈ w, valid (value u)) :
    IsLeast (value '' {u | u ∈ w}) (S.all ((List.range' w.first w.size).map value)) := by
  have himage : {v | v ∈ (List.range' w.first w.size).map value} = value '' {u | u ∈ w} := by
    ext v
    simp only [Set.mem_ofPred_eq, List.mem_map, List.mem_range'_1, Set.mem_image, Window.mem_iff]
  rw [← himage]
  refine hS.all_isLeast (by simp [Window.size]) fun v hv => ?_
  obtain ⟨u, hu, rfl⟩ := List.mem_map.mp hv
  exact hvalue u (Window.mem_iff.mpr (List.mem_range'_1.mp hu))

theorem Semantics.Ordered.any_window_isGreatest (hS : S.Ordered valid) {value : Nat → Y}
    {w : Window} (hvalue : ∀ u ∈ w, valid (value u)) :
    IsGreatest (value '' {u | u ∈ w}) (S.any ((List.range' w.first w.size).map value)) := by
  have himage : {v | v ∈ (List.range' w.first w.size).map value} = value '' {u | u ∈ w} := by
    ext v
    simp only [Set.mem_ofPred_eq, List.mem_map, List.mem_range'_1, Set.mem_image, Window.mem_iff]
  rw [← himage]
  refine hS.any_isGreatest (by simp [Window.size]) fun v hv => ?_
  obtain ⟨u, hu, rfl⟩ := List.mem_map.mp hv
  exact hvalue u (Window.mem_iff.mpr (List.mem_range'_1.mp hu))

/-- The nested until is the greatest candidate, each candidate the least of its operands. -/
theorem Semantics.Ordered.untilNested_isGreatest (hS : S.Ordered valid) {before here : Nat → Y}
    {t : Nat} {w : Window} (hleft : ∀ u, t ≤ u → u < w.last → valid (before u))
    (hright : ∀ u ∈ w, valid (here u)) :
    valid (S.untilNested before here t w.first w.size) ∧ ∃ candidate : Nat → Y,
      (∀ u ∈ w, IsLeast (insert (here u) (before '' Set.Ico t u)) (candidate u)) ∧
      IsGreatest (candidate '' {u | u ∈ w}) (S.untilNested before here t w.first w.size) := by
  let earlier (u : Nat) : List Y := (List.range' t (u - t)).map before
  have hearlier (u : Nat) : {v | v ∈ earlier u} = before '' Set.Ico t u := by
    ext v
    simp only [earlier, Set.mem_ofPred_eq, List.mem_map, List.mem_range'_1, Set.mem_image,
      Set.mem_Ico]
    exact exists_congr fun k => and_congr_left fun _ => by omega
  have hearlierValid : ∀ u ∈ w, ∀ v ∈ earlier u, valid v := by
    intro u hu v hv
    obtain ⟨k, ⟨htk, hku⟩, rfl⟩ := (hearlier u).subset hv
    exact hleft k htk (Nat.lt_of_lt_of_le hku hu.2)
  have hcandidate : ∀ u ∈ w,
      IsLeast (insert (here u) (before '' Set.Ico t u)) (S.and (here u) (S.all (earlier u))) :=
    fun u hu => hearlier u ▸ hS.and_all_isLeast (hright u hu) (hearlierValid u hu)
  have hvalid : ∀ u ∈ w, valid (S.and (here u) (S.all (earlier u))) := by
    intro u hu
    rcases (hcandidate u hu).1 with he | he
    · exact he.symm ▸ hright u hu
    · exact hearlierValid u hu _ ((hearlier u).superset he)
  have hgreatest : IsGreatest
      {v | v ∈ (List.range' w.first w.size).map fun u => S.and (here u) (S.all (earlier u))}
      (S.untilNested before here t w.first w.size) :=
    hS.any_isGreatest (by simp [Window.size]) (by
      intro v hv
      obtain ⟨u, hu, rfl⟩ := List.mem_map.mp hv
      exact hvalid u (Window.mem_iff.mpr (List.mem_range'_1.mp hu)))
  have himage : {v | v ∈ (List.range' w.first w.size).map fun u =>
      S.and (here u) (S.all (earlier u))} =
        (fun u => S.and (here u) (S.all (earlier u))) '' {u | u ∈ w} := by
    ext v
    simp only [Set.mem_ofPred_eq, List.mem_map, List.mem_range'_1, Set.mem_image, Window.mem_iff]
  refine ⟨?_, fun u => S.and (here u) (S.all (earlier u)), hcandidate, himage ▸ hgreatest⟩
  obtain ⟨u, hu, he⟩ := himage.subset hgreatest.1
  exact Eq.subst he (hvalid u hu)

end Windows

/-! ## What the evaluator asks for -/

theorem Trajectory.checkIndex_eq_ok {x : Trajectory α} {t : Nat} :
    x.checkIndex t = .ok () ↔ t < x.length := by
  unfold Trajectory.checkIndex
  split <;> simp <;> omega

variable [Scalar α]

theorem Trajectory.lt_of_signalValue {x : Trajectory α} {signal : Signal α} {t : Nat} {a : α}
    (h : x.signalValue signal t = .ok a) : t < x.length := by
  obtain ⟨_, hcheck, -⟩ := Except.bind_eq_ok.mp h
  exact Trajectory.checkIndex_eq_ok.mp hcheck

/-- A signal has a value inside the trajectory, where all samples that it reads have one. -/
theorem Trajectory.exists_signalValue_iff {x : Trajectory α} {signal : Signal α} {t : Nat} :
    (∃ a, x.signalValue signal t = .ok a) ↔
      t < x.length ∧ ∀ label ∈ signal.form.labels, ∃ sample,
        (Signal.sampleAt label t : Except (Fault α) Sample) = .ok sample ∧
          ∃ a, x.value sample = .ok a := by
  constructor
  · intro ⟨a, ha⟩
    refine ⟨Trajectory.lt_of_signalValue ha, fun label hlabel => ?_⟩
    obtain ⟨_, -, ha⟩ := Except.bind_eq_ok.mp ha
    obtain ⟨arguments, harguments, -⟩ := Except.bind_eq_ok.mp ha
    obtain ⟨b, hb⟩ := Except.exists_mapM_eq_ok_iff.mp ⟨arguments, harguments⟩ label hlabel
    obtain ⟨sample, hsample, hb⟩ := Except.bind_eq_ok.mp hb
    exact ⟨sample, hsample, b, hb⟩
  · intro ⟨hlt, hread⟩
    obtain ⟨arguments, harguments⟩ := Except.exists_mapM_eq_ok_iff.mpr
      (show ∀ label ∈ signal.form.labels, ∃ a, (do x.value (← Signal.sampleAt label t)) = .ok a by
        intro label hlabel
        obtain ⟨sample, hsample, a, ha⟩ := hread label hlabel
        exact ⟨a, Except.bind_eq_ok.mpr ⟨sample, hsample, ha⟩⟩)
    exact ⟨_, Except.bind_eq_ok.mpr ⟨(), Trajectory.checkIndex_eq_ok.mpr hlt,
      Except.bind_eq_ok.mpr ⟨arguments, harguments, rfl⟩⟩⟩

section Definedness

variable {S : Semantics α Y} {policy : WindowPolicy} {x : Trajectory α}

mutual

/-- What has a value is defined. -/
theorem Formula.defined_of_valueAt (hlen : x.length ≤ Index.last) :
    ∀ (f : Formula α) (t : Nat) (y : Y), f.valueAt S policy x t = .ok y → f.Defined policy x t
  | .predicate _ signal, t, y, h => by
    obtain ⟨a, ha, -⟩ := Except.bind_eq_ok.mp h
    exact ⟨a, ha⟩
  | .not _ arg, t, y, h => by
    obtain ⟨v, hv, -⟩ := Except.bind_eq_ok.mp h
    exact Formula.defined_of_valueAt hlen arg t v hv
  | .and _ args, t, y, h | .or _ args, t, y, h => by
    obtain ⟨values, hvalues, -⟩ := Except.bind_eq_ok.mp h
    exact Operands.defined_of_valuesAt hlen args t values hvalues
  | .always _ interval arg, t, y, h | .eventually _ interval arg, t, y, h => by
    obtain ⟨w, hw, h⟩ := Except.bind_eq_ok.mp h
    obtain ⟨values, hvalues, -⟩ := Except.bind_eq_ok.mp h
    refine ⟨w, hw, fun u hu => ?_⟩
    obtain ⟨hfirst, hlast⟩ := Window.mem_iff.mp hu
    obtain ⟨v, hv⟩ := Index.exists_ok_of_mapRangeM hvalues u hfirst hlast
    exact Formula.defined_of_valueAt hlen arg u v hv
  | .holdsUntil _ interval left right, t, y, h => by
    obtain ⟨w, hw, h⟩ := Except.bind_eq_ok.mp h
    obtain ⟨values, hvalues, h⟩ := Except.bind_eq_ok.mp h
    have hbounds := WindowPolicy.window_bounds hlen hw
    have hvisited := S.exists_ok_of_untilFrom h
    have hle := w.first_le_last
    refine ⟨w, hw, fun u hu => ?_, fun u hu hlast => ?_⟩
    · obtain ⟨v, hv⟩ := hvisited.1 u hu.1 (by have := hu.2; omega)
      exact Formula.defined_of_valueAt hlen right u v hv
    · by_cases hfirst : u < w.first
      · obtain ⟨v, hv⟩ := Index.exists_ok_of_mapRangeM hvalues u hu (by omega)
        exact Formula.defined_of_valueAt hlen left u v hv
      · obtain ⟨v, hv⟩ := hvisited.2 u (by omega) (by omega)
        exact Formula.defined_of_valueAt hlen left u v hv
  | .next _ arg, t, y, h => by
    obtain ⟨w, hw, h⟩ := Except.bind_eq_ok.mp h
    obtain ⟨hlt, hfirst, -⟩ := (WindowPolicy.offsets_one_eq_ok hlen).mp hw
    exact ⟨hlt, hfirst ▸ Formula.defined_of_valueAt hlen arg w.first y h⟩

theorem Operands.defined_of_valuesAt (hlen : x.length ≤ Index.last) :
    ∀ (args : Operands α) (t : Nat) (values : List Y),
      args.valuesAt S policy x t = .ok values → args.Defined policy x t
  | .pair first second, t, values, h => by
    obtain ⟨v, hv, h⟩ := Except.bind_eq_ok.mp h
    obtain ⟨w, hw, -⟩ := Except.bind_eq_ok.mp h
    exact ⟨Formula.defined_of_valueAt hlen first t v hv,
      Formula.defined_of_valueAt hlen second t w hw⟩
  | .cons first rest, t, values, h => by
    obtain ⟨v, hv, h⟩ := Except.bind_eq_ok.mp h
    obtain ⟨others, hothers, -⟩ := Except.bind_eq_ok.mp h
    exact ⟨Formula.defined_of_valueAt hlen first t v hv,
      Operands.defined_of_valuesAt hlen rest t others hothers⟩

end

mutual

/-- What is defined lies inside the trajectory. -/
theorem Formula.lt_of_defined (hlen : x.length ≤ Index.last) :
    ∀ (f : Formula α) (t : Nat), f.Defined policy x t → t < x.length
  | .predicate _ signal, t, ⟨_, ha⟩ => Trajectory.lt_of_signalValue ha
  | .not _ arg, t, h => Formula.lt_of_defined hlen arg t h
  | .and _ args, t, h | .or _ args, t, h => Operands.lt_of_defined hlen args t h
  | .always _ _ _, t, ⟨w, hw, _⟩ | .eventually _ _ _, t, ⟨w, hw, _⟩
  | .holdsUntil _ _ _ _, t, ⟨w, hw, _⟩ => by
    have hbounds := WindowPolicy.window_bounds hlen hw
    have hle := w.first_le_last
    omega
  | .next _ _, t, ⟨hlt, _⟩ => Nat.lt_of_succ_lt hlt

theorem Operands.lt_of_defined (hlen : x.length ≤ Index.last) :
    ∀ (args : Operands α) (t : Nat), args.Defined policy x t → t < x.length
  | .pair first _, t, h | .cons first _, t, h => Formula.lt_of_defined hlen first t h.1

end

end Definedness

/-! ## The value -/

section Value

variable [LE Y] {S : Semantics α Y} {valid : Y → Prop} {policy : WindowPolicy} {x : Trajectory α}

/-- The values that the formula asks for at `t` can be compared. -/
def Formula.AsksValid (S : Semantics α Y) (valid : Y → Prop) (policy : WindowPolicy)
    (x : Trajectory α) (f : Formula α) (t : Nat) : Prop :=
  ∀ signal u a, f.Asks policy x t signal u → x.signalValue signal u = .ok a → valid (S.atomic a)

def Operands.AsksValid (S : Semantics α Y) (valid : Y → Prop) (policy : WindowPolicy)
    (x : Trajectory α) (args : Operands α) (t : Nat) : Prop :=
  ∀ signal u a, args.Asks policy x t signal u → x.signalValue signal u = .ok a → valid (S.atomic a)

mutual

/-- What is defined has a value, and it is what the formula means. -/
theorem Formula.exists_valueAt (hS : S.Ordered valid) (hlen : x.length ≤ Index.last) :
    ∀ (f : Formula α) (t : Nat), f.Defined policy x t → f.AsksValid S valid policy x t →
      ∃ y, f.valueAt S policy x t = .ok y ∧ valid y ∧ f.Means S.not S.atomic policy x t y
  | .predicate _ signal, t, ⟨a, ha⟩, hasks => by
    refine ⟨S.atomic a, ?_, hasks signal t a ⟨rfl, rfl⟩ ha, a, ha, rfl⟩
    simp [Formula.valueAt, ha]
  | .not _ arg, t, hdef, hasks => by
    obtain ⟨v, hv, hvalid, hmeans⟩ := Formula.exists_valueAt hS hlen arg t hdef hasks
    exact ⟨S.not v, by simp [Formula.valueAt, hv], hS.valid_not hvalid, v, hmeans, rfl⟩
  | .and _ args, t, hdef, hasks => by
    obtain ⟨values, hvalues, hne, hvalid, hmeans⟩ :=
      Operands.exists_valuesAt hS hlen args t hdef hasks
    have hleast := hS.all_isLeast hne hvalid
    exact ⟨S.all values, by simp [Formula.valueAt, hvalues], hvalid _ hleast.1, values, hmeans,
      hleast⟩
  | .or _ args, t, hdef, hasks => by
    obtain ⟨values, hvalues, hne, hvalid, hmeans⟩ :=
      Operands.exists_valuesAt hS hlen args t hdef hasks
    have hgreatest := hS.any_isGreatest hne hvalid
    exact ⟨S.any values, by simp [Formula.valueAt, hvalues], hvalid _ hgreatest.1, values, hmeans,
      hgreatest⟩
  | .always _ interval arg, t, ⟨w, hw, hdef⟩, hasks => by
    have : Nonempty Y := ⟨S.always⟩
    choose! value hvalue hvalid hmeans using fun u (hu : u ∈ w) =>
      Formula.exists_valueAt hS hlen arg u (hdef u hu)
        fun signal v a h => hasks signal v a ⟨w, hw, u, hu, h⟩
    have hrun := Window.mapM_ok hvalue
    have hleast := hS.all_window_isLeast hvalid
    refine ⟨_, by simp [Formula.valueAt, hw, hrun], ?_, w, hw, value, hmeans, hleast⟩
    obtain ⟨u, hu, he⟩ := hleast.1
    exact he ▸ hvalid u hu
  | .eventually _ interval arg, t, ⟨w, hw, hdef⟩, hasks => by
    have : Nonempty Y := ⟨S.always⟩
    choose! value hvalue hvalid hmeans using fun u (hu : u ∈ w) =>
      Formula.exists_valueAt hS hlen arg u (hdef u hu)
        fun signal v a h => hasks signal v a ⟨w, hw, u, hu, h⟩
    have hrun := Window.mapM_ok hvalue
    have hgreatest := hS.any_window_isGreatest hvalid
    refine ⟨_, by simp [Formula.valueAt, hw, hrun], ?_, w, hw, value, hmeans, hgreatest⟩
    obtain ⟨u, hu, he⟩ := hgreatest.1
    exact he ▸ hvalid u hu
  | .holdsUntil _ interval left right, t, ⟨w, hw, hright, hleft⟩, hasks => by
    have : Nonempty Y := ⟨S.always⟩
    choose! here hhere hhereValid hhereMeans using fun u (hu : u ∈ w) =>
      Formula.exists_valueAt hS hlen right u (hright u hu)
        fun signal v a h => hasks signal v a ⟨w, hw, Or.inl ⟨u, hu, h⟩⟩
    choose! before hbefore hbeforeValid hbeforeMeans using fun u (hu : t ≤ u ∧ u < w.last) =>
      Formula.exists_valueAt hS hlen left u (hleft u hu.1 hu.2)
        fun signal v a h => hasks signal v a ⟨w, hw, Or.inr ⟨u, hu.1, hu.2, h⟩⟩
    have hrun := S.until_eq_nested w (WindowPolicy.window_bounds hlen hw).1
      (fun u hu hv => hbefore u ⟨hu, hv⟩) hhere
    obtain ⟨hvalid, candidate, hcandidate, hgreatest⟩ :=
      hS.untilNested_isGreatest (fun u hu hv => hbeforeValid u ⟨hu, hv⟩) hhereValid
    refine ⟨_, ?_, hvalid, w, hw, before, here, candidate, hhereMeans,
      fun u hu hv => hbeforeMeans u ⟨hu, hv⟩, hcandidate, hgreatest⟩
    rw [Formula.valueAt, hw]
    exact hrun
  | .next _ arg, t, ⟨hlt, hdef⟩, hasks => by
    obtain ⟨y, hy, hvalid, hmeans⟩ := Formula.exists_valueAt hS hlen arg (t + 1) hdef
      fun signal u a h => hasks signal u a ⟨hlt, h⟩
    have hw : x.nextWindow policy t = .ok ⟨t + 1, t + 1, Nat.le_refl _⟩ :=
      (WindowPolicy.offsets_one_eq_ok hlen).mpr ⟨hlt, rfl, rfl⟩
    exact ⟨y, by simp [Formula.valueAt, hw, hy], hvalid, hlt, hmeans⟩

theorem Operands.exists_valuesAt (hS : S.Ordered valid) (hlen : x.length ≤ Index.last) :
    ∀ (args : Operands α) (t : Nat), args.Defined policy x t → args.AsksValid S valid policy x t →
      ∃ values, args.valuesAt S policy x t = .ok values ∧ values ≠ [] ∧ (∀ v ∈ values, valid v) ∧
        args.Means S.not S.atomic policy x t values
  | .pair first second, t, ⟨hfirst, hsecond⟩, hasks => by
    obtain ⟨v, hv, hvValid, hvMeans⟩ := Formula.exists_valueAt hS hlen first t hfirst
      fun signal u a h => hasks signal u a (Or.inl h)
    obtain ⟨w, hw, hwValid, hwMeans⟩ := Formula.exists_valueAt hS hlen second t hsecond
      fun signal u a h => hasks signal u a (Or.inr h)
    exact ⟨[v, w], by simp [Operands.valuesAt, hv, hw], by simp, by simp [hvValid, hwValid],
      v, w, hvMeans, hwMeans, rfl⟩
  | .cons first rest, t, ⟨hfirst, hrest⟩, hasks => by
    obtain ⟨v, hv, hvValid, hvMeans⟩ := Formula.exists_valueAt hS hlen first t hfirst
      fun signal u a h => hasks signal u a (Or.inl h)
    obtain ⟨others, hothers, -, hothersValid, hothersMeans⟩ :=
      Operands.exists_valuesAt hS hlen rest t hrest fun signal u a h => hasks signal u a (Or.inr h)
    refine ⟨v :: others, by simp [Operands.valuesAt, hv, hothers], by simp, ?_, v, others, hvMeans,
      hothersMeans, rfl⟩
    simpa [hvValid] using hothersValid

end

end Value

/-! ## Uniqueness -/

mutual

theorem Formula.defined_of_means [LE Y] {negate : Y → Y} {read : α → Y} {policy : WindowPolicy}
    {x : Trajectory α} : ∀ (f : Formula α) (t : Nat) (y : Y),
      f.Means negate read policy x t y → f.Defined policy x t
  | .predicate _ _, _, _, ⟨a, ha, _⟩ => ⟨a, ha⟩
  | .not _ arg, t, _, ⟨v, hv, _⟩ => Formula.defined_of_means arg t v hv
  | .and _ args, t, _, ⟨values, hvalues, _⟩ | .or _ args, t, _, ⟨values, hvalues, _⟩ =>
    Operands.defined_of_means args t values hvalues
  | .always _ _ arg, _, _, ⟨w, hw, value, hvalue, _⟩
  | .eventually _ _ arg, _, _, ⟨w, hw, value, hvalue, _⟩ =>
    ⟨w, hw, fun u hu => Formula.defined_of_means arg u (value u) (hvalue u hu)⟩
  | .holdsUntil _ _ left right, _, _, ⟨w, hw, before, here, _, hright, hleft, _⟩ =>
    ⟨w, hw, fun u hu => Formula.defined_of_means right u (here u) (hright u hu),
      fun u hu hv => Formula.defined_of_means left u (before u) (hleft u hu hv)⟩
  | .next _ arg, t, y, ⟨hlt, h⟩ => ⟨hlt, Formula.defined_of_means arg (t + 1) y h⟩

theorem Operands.defined_of_means [LE Y] {negate : Y → Y} {read : α → Y} {policy : WindowPolicy}
    {x : Trajectory α} : ∀ (args : Operands α) (t : Nat) (values : List Y),
      args.Means negate read policy x t values → args.Defined policy x t
  | .pair first second, t, _, h => by
    obtain ⟨v, w, hv, hw, -⟩ := h
    exact ⟨Formula.defined_of_means first t v hv, Formula.defined_of_means second t w hw⟩
  | .cons first rest, t, _, h => by
    obtain ⟨v, others, hv, hothers, -⟩ := h
    exact ⟨Formula.defined_of_means first t v hv, Operands.defined_of_means rest t others hothers⟩

end

section Uniqueness

variable [LE Y] {S : Semantics α Y} {valid : Y → Prop} {policy : WindowPolicy} {x : Trajectory α}

omit [Scalar α] in
theorem Semantics.Ordered.le_of_isLeast (hS : S.Ordered valid) {A B : Set Y} {a b : Y}
    (ha : IsLeast A a) (hb : IsLeast B b) (h : ∀ y ∈ B, ∃ z ∈ A, z ≤ y) : a ≤ b := by
  obtain ⟨z, hz, hle⟩ := h b hb.1
  exact hS.trans (ha.2 hz) hle

omit [Scalar α] in
theorem Semantics.Ordered.le_of_isGreatest (hS : S.Ordered valid) {A B : Set Y} {a b : Y}
    (ha : IsGreatest A a) (hb : IsGreatest B b) (h : ∀ z ∈ A, ∃ y ∈ B, z ≤ y) : a ≤ b := by
  obtain ⟨y, hy, hle⟩ := h a ha.1
  exact hS.trans hle (hb.2 hy)

mutual

/-- A formula means one value only, up to equality in the order. -/
theorem Formula.means_le (hS : S.Ordered valid) :
    ∀ (f : Formula α) (t : Nat) (a b : Y), f.AsksValid S valid policy x t →
      f.Means S.not S.atomic policy x t a → f.Means S.not S.atomic policy x t b → a ≤ b
  | .predicate _ signal, t, a, b, hasks, ⟨v, hv, ha⟩, ⟨w, hw, hb⟩ => by
    obtain rfl : v = w := by rw [hv] at hw; exact Except.ok.inj hw
    rw [ha, hb]
    exact hS.refl (hasks signal t v ⟨rfl, rfl⟩ hv)
  | .not _ arg, t, a, b, hasks, ⟨v, hv, ha⟩, ⟨w, hw, hb⟩ => by
    rw [ha, hb]
    exact hS.not_le_not (Formula.means_le hS arg t w v hasks hw hv)
  | .and _ args, t, a, b, hasks, ⟨as, has, ha⟩, ⟨bs, hbs, hb⟩ =>
    hS.le_of_isLeast ha hb (exists_of_forall₂ (Operands.means_le hS args t as bs hasks has hbs)).2
  | .or _ args, t, a, b, hasks, ⟨as, has, ha⟩, ⟨bs, hbs, hb⟩ =>
    hS.le_of_isGreatest ha hb
      (exists_of_forall₂ (Operands.means_le hS args t as bs hasks has hbs)).1
  | .always _ interval arg, t, a, b, hasks, ⟨w, hw, p, hp, ha⟩, ⟨w', hw', q, hq, hb⟩ => by
    obtain rfl : w = w' := by rw [hw] at hw'; exact Except.ok.inj hw'
    refine hS.le_of_isLeast ha hb ?_
    rintro _ ⟨u, hu, rfl⟩
    exact ⟨p u, ⟨u, hu, rfl⟩, Formula.means_le hS arg u (p u) (q u)
      (fun signal v c h => hasks signal v c ⟨w, hw, u, hu, h⟩) (hp u hu) (hq u hu)⟩
  | .eventually _ interval arg, t, a, b, hasks, ⟨w, hw, p, hp, ha⟩, ⟨w', hw', q, hq, hb⟩ => by
    obtain rfl : w = w' := by rw [hw] at hw'; exact Except.ok.inj hw'
    refine hS.le_of_isGreatest ha hb ?_
    rintro _ ⟨u, hu, rfl⟩
    exact ⟨q u, ⟨u, hu, rfl⟩, Formula.means_le hS arg u (p u) (q u)
      (fun signal v c h => hasks signal v c ⟨w, hw, u, hu, h⟩) (hp u hu) (hq u hu)⟩
  | .holdsUntil _ interval left right, t, a, b, hasks, ⟨w, hw, l, r, c, hr, hl, hc, ha⟩,
      ⟨w', hw', l', r', c', hr', hl', hc', hb⟩ => by
    obtain rfl : w = w' := by rw [hw] at hw'; exact Except.ok.inj hw'
    refine hS.le_of_isGreatest ha hb ?_
    rintro _ ⟨u, hu, rfl⟩
    refine ⟨c' u, ⟨u, hu, rfl⟩, hS.le_of_isLeast (hc u hu) (hc' u hu) ?_⟩
    rintro _ (rfl | ⟨v, ⟨htv, hvu⟩, rfl⟩)
    · exact ⟨r u, Or.inl rfl, Formula.means_le hS right u (r u) (r' u)
        (fun signal v d h => hasks signal v d ⟨w, hw, Or.inl ⟨u, hu, h⟩⟩) (hr u hu) (hr' u hu)⟩
    · have hlast : v < w.last := Nat.lt_of_lt_of_le hvu hu.2
      exact ⟨l v, Or.inr ⟨v, ⟨htv, hvu⟩, rfl⟩, Formula.means_le hS left v (l v) (l' v)
        (fun signal s d h => hasks signal s d ⟨w, hw, Or.inr ⟨v, htv, hlast, h⟩⟩)
        (hl v htv hlast) (hl' v htv hlast)⟩
  | .next _ arg, t, a, b, hasks, ⟨hlt, ha⟩, ⟨_, hb⟩ =>
    Formula.means_le hS arg (t + 1) a b (fun signal u c h => hasks signal u c ⟨hlt, h⟩) ha hb

theorem Operands.means_le (hS : S.Ordered valid) :
    ∀ (args : Operands α) (t : Nat) (as bs : List Y), args.AsksValid S valid policy x t →
      args.Means S.not S.atomic policy x t as → args.Means S.not S.atomic policy x t bs →
        List.Forall₂ (· ≤ ·) as bs
  | .pair first second, t, as, bs, hasks, has, hbs => by
    obtain ⟨v, w, hv, hw, rfl⟩ := has
    obtain ⟨v', w', hv', hw', rfl⟩ := hbs
    have hfirst := Formula.means_le hS first t v v'
      (fun signal u c h => hasks signal u c (Or.inl h)) hv hv'
    have hsecond := Formula.means_le hS second t w w'
      (fun signal u c h => hasks signal u c (Or.inr h)) hw hw'
    exact .cons hfirst (.cons hsecond .nil)
  | .cons first rest, t, as, bs, hasks, has, hbs => by
    obtain ⟨v, others, hv, ho, rfl⟩ := has
    obtain ⟨v', others', hv', ho', rfl⟩ := hbs
    have hfirst := Formula.means_le hS first t v v'
      (fun signal u c h => hasks signal u c (Or.inl h)) hv hv'
    have hrest := Operands.means_le hS rest t others others'
      (fun signal u c h => hasks signal u c (Or.inr h)) ho ho'
    exact .cons hfirst hrest

end

end Uniqueness

/-! ## Both readings -/

theorem Formula.evaluate_eq_ok {S : Semantics α Y} {policy : WindowPolicy} {f : Formula α}
    {x : Trajectory α} {anchor : Nat} {y : Y} :
    f.evaluate S policy x anchor = .ok y ↔
      anchor < x.length ∧ f.valueAt S policy x anchor = .ok y := by
  rw [Formula.evaluate, Except.bind_eq_ok]
  exact ⟨fun ⟨_, hcheck, h⟩ => ⟨Trajectory.checkIndex_eq_ok.mp hcheck, h⟩,
    fun ⟨hlt, h⟩ => ⟨(), Trajectory.checkIndex_eq_ok.mpr hlt, h⟩⟩

/-- Evaluation succeeds where the formula is defined, and gives what it means. -/
theorem Formula.evaluate_means [LE Y] {S : Semantics α Y} {valid : Y → Prop}
    (policy : WindowPolicy) (f : Formula α) (x : Trajectory α) (anchor : Nat) (hS : S.Ordered valid)
    (hlen : x.length ≤ Index.last) (hasks : f.AsksValid S valid policy x anchor) :
    ((∃ y, f.evaluate S policy x anchor = .ok y) ↔
      anchor < x.length ∧ f.Defined policy x anchor) ∧
    ∀ y, f.evaluate S policy x anchor = .ok y → f.Means S.not S.atomic policy x anchor y ∧
      ∀ z, f.Means S.not S.atomic policy x anchor z → z ≤ y ∧ y ≤ z := by
  simp only [Formula.evaluate_eq_ok]
  refine ⟨⟨?_, ?_⟩, ?_⟩
  · rintro ⟨y, hlt, hy⟩
    exact ⟨hlt, Formula.defined_of_valueAt hlen f anchor y hy⟩
  · rintro ⟨hlt, hdef⟩
    obtain ⟨y, hy, -, -⟩ := Formula.exists_valueAt hS hlen f anchor hdef hasks
    exact ⟨y, hlt, hy⟩
  · rintro y ⟨hlt, hy⟩
    obtain ⟨y', hy', -, hmeans⟩ := Formula.exists_valueAt hS hlen f anchor
      (Formula.defined_of_valueAt hlen f anchor y hy) hasks
    obtain rfl : y = y' := Except.ok.inj (hy.symm.trans hy')
    exact ⟨hmeans, fun z hz => ⟨Formula.means_le hS f anchor z y hasks hz hmeans,
      Formula.means_le hS f anchor y z hasks hmeans hz⟩⟩

/-- **The evaluator computes the declarative semantics.** If none of the predicate values that are
asked for is NaN, robustness and satisfaction are there exactly if the anchor lies inside and all
windows and predicate values exist, and they are what the formula means: the robustness up to the
sign of zero, the verdict exactly. -/
theorem evaluator_computes_meaning [OrderedScalar α] (policy : WindowPolicy) (f : Formula α)
    (x : Trajectory α) (anchor : Nat) (hlen : x.length ≤ Index.last)
    (hnumber : ∀ signal u a, f.Asks policy x anchor signal u → x.signalValue signal u = .ok a →
      ¬ Scalar.IsNaN a) :
    ((∃ v, f.robustness policy x anchor = .ok v) ↔
      anchor < x.length ∧ f.Defined policy x anchor) ∧
    (∀ v, f.robustness policy x anchor = .ok v → f.Means (- ·) id policy x anchor v ∧
      ∀ u, f.Means (- ·) id policy x anchor u → u ≤ v ∧ v ≤ u) ∧
    ((∃ b, f.satisfied policy x anchor = .ok b) ↔
      anchor < x.length ∧ f.Defined policy x anchor) ∧
    ∀ b, f.satisfied policy x anchor = .ok b ↔
      anchor < x.length ∧ f.Means Bool.not (fun a => decide (0 < a)) policy x anchor b := by
  have hquantitative := f.evaluate_means policy x anchor quantitative_ordered hlen
    fun signal u a h ha => not_not.mp (hnumber signal u a h ha)
  have hqualitative := f.evaluate_means policy x anchor qualitative_ordered hlen
    fun _ _ _ _ _ => trivial
  refine ⟨hquantitative.1, hquantitative.2, hqualitative.1, fun b => ⟨fun hb => ?_, ?_⟩⟩
  · exact ⟨(hqualitative.1.mp ⟨b, hb⟩).1, (hqualitative.2 b hb).1⟩
  · rintro ⟨hlt, hmeans⟩
    obtain ⟨c, hc⟩ := hqualitative.1.mpr ⟨hlt, f.defined_of_means anchor b hmeans⟩
    have heq := (hqualitative.2 c hc).2 b hmeans
    exact (Bool.le_antisymm heq.1 heq.2) ▸ hc

/-- Four samples of one signal, one time unit apart. -/
def fourSamples : Trajectory Exact where
  value s := .ok (.fin ([3, 2, 9, 1].getD s.index 0))
  spacing := .fin 1
  length := 4

/-- The samples of the first time unit. -/
def TimeInterval.firstStep : TimeInterval Exact :=
  ⟨.fin 0, .fin 1, by decide, by decide, by decide, by decide⟩

/-- `x > 0` until, between one and three time units on, `x > 5`. -/
def lateSwitch : Formula Exact :=
  .holdsUntil ⟨0⟩ ⟨.fin 1, .fin 3, by decide, by decide, by decide, by decide⟩
    (.predicate ⟨1⟩ (.greaterThan "x" (.fin 0))) (.predicate ⟨2⟩ (.greaterThan "x" (.fin 5)))

/-- The value of a sample that is compared with a threshold. -/
theorem Trajectory.signalValue_greaterThan {x : Trajectory Exact} (hlen : x.length ≤ Index.last)
    {name : String} {c q : Rat} {u : Nat} (hu : u < x.length)
    (hq : x.value ⟨name, u⟩ = .ok (.fin q)) :
    x.signalValue (.greaterThan name (.fin c)) u = .ok (.fin (-c + 1 * q)) := by
  have hsample : (Signal.sampleAt (.current name) u : Except (Fault Exact) Sample) =
      .ok ⟨name, u⟩ := by
    have hlast : u ≤ Index.last := by omega
    simp [Signal.sampleAt, SampleLabel.at?, SampleLabel.current, Index.shift?, hlast]
  refine Except.bind_eq_ok.mpr ⟨(), Trajectory.checkIndex_eq_ok.mpr hu, ?_⟩
  refine Except.bind_eq_ok.mpr ⟨[.fin q], Except.mapM_eq_ok.mpr (.cons ?_ .nil), rfl⟩
  exact Except.bind_eq_ok.mpr ⟨_, hsample, hq⟩

theorem fourSamples_value_finite (c : Rat) (u : Nat) (hu : u < 4) :
    ∃ q, fourSamples.signalValue (.greaterThan "x" (.fin c)) u = .ok (.fin q) :=
  ⟨_, Trajectory.signalValue_greaterThan (by decide) hu rfl⟩

theorem fourSamples_value_number {c : Rat} {u : Nat} {a : Exact}
    (h : fourSamples.signalValue (.greaterThan "x" (.fin c)) u = .ok a) : ¬ Scalar.IsNaN a := by
  obtain ⟨q, hq⟩ := fourSamples_value_finite c u (Trajectory.lt_of_signalValue h)
  obtain rfl : a = .fin q := Except.ok.inj (h.symm.trans hq)
  exact not_not.mpr Rat.le_refl

theorem evaluator_computes_meaning_of_lateSwitch :
    lateSwitch.robustness .strict fourSamples 0 = .ok (.fin 2) ∧
      lateSwitch.Means (- ·) id .strict fourSamples 0 (.fin 2) ∧
      lateSwitch.Means Bool.not (fun a => decide (0 < a)) .strict fourSamples 0 true := by
  have hscore : lateSwitch.robustness .strict fourSamples 0 = .ok (.fin 2) := by decide +kernel
  have hverdict : lateSwitch.satisfied .strict fourSamples 0 = .ok true := by decide +kernel
  have hmeaning := evaluator_computes_meaning .strict lateSwitch fourSamples 0 (by decide) (by
    intro signal u a hasks ha
    have hu : u < 4 := Trajectory.lt_of_signalValue ha
    have hnumber (c : Rat)
        (h : fourSamples.signalValue (.greaterThan "x" (.fin c)) u = .ok a) : ¬ Scalar.IsNaN a := by
      obtain ⟨q, hq⟩ := fourSamples_value_finite c u hu
      obtain rfl : a = .fin q := Except.ok.inj (h.symm.trans hq)
      exact not_not.mpr Rat.le_refl
    obtain ⟨_, -, ⟨_, -, rfl, rfl⟩ | ⟨_, -, -, rfl, rfl⟩⟩ := hasks
    · exact hnumber 5 ha
    · exact hnumber 0 ha)
  exact ⟨hscore, (hmeaning.2.1 _ hscore).1, ((hmeaning.2.2.2 _).mp hverdict).2⟩

end SignalTemporalLogic
