import SignalTemporalLogic.Proofs.Binary64Order
import SignalTemporalLogic.Proofs.Gathering

/-!
Nested windows compose. The windows that start at the indices of an outer window are as long as one
another and lie one index apart, so together they cover one window without a gap, whose offsets are
the sums of the offsets. An extreme of extremes over them is the extreme over that window. A chain of
`next` operators is a window of one index.
-/

namespace SignalTemporalLogic

variable {α Y : Type} [Scalar α]

/-! ## Windows with exact ends -/

section Windows

variable {x : Trajectory α} {interval : TimeInterval α} {lo hi t : Nat}

/-- Under the strict policy a window is there exactly if its last index is inside. -/
theorem Trajectory.exists_window (hlen : x.length ≤ Index.last)
    (hoffsets : interval.discretize x.spacing = .ok (lo, hi)) (hle : lo ≤ hi)
    (hinside : t + hi < x.length) :
    ∃ w, x.window .strict interval t = .ok w ∧ ∀ u, u ∈ w ↔ t + lo ≤ u ∧ u ≤ t + hi := by
  refine ⟨⟨t + lo, t + hi, by omega⟩, ?_, fun u => Iff.rfl⟩
  have hlast : t + hi = min (t + hi) (x.length - 1) := by omega
  exact WindowPolicy.window_eq_ok.mpr ⟨lo, hi, hoffsets, (WindowPolicy.resolve_eq_ok hlen).mpr
    ⟨hle, by omega, fun _ => hinside, rfl, hlast⟩⟩

theorem Trajectory.mem_window (hlen : x.length ≤ Index.last)
    (hoffsets : interval.discretize x.spacing = .ok (lo, hi)) {w : Window}
    (hw : x.window .strict interval t = .ok w) :
    lo ≤ hi ∧ t + hi < x.length ∧ ∀ u, u ∈ w ↔ t + lo ≤ u ∧ u ≤ t + hi := by
  obtain ⟨hle, hinside, hfirst, hlast⟩ := WindowPolicy.strict_window_eq_ok hlen hoffsets hw
  refine ⟨hle, hinside, fun u => ?_⟩
  rw [Window.mem_def, hfirst, hlast]

end Windows

/-! ## An extreme over a window -/

/-- The temporal operator that takes the extreme over its window. -/
def Extremum.over : Extremum → NodeId → TimeInterval α → Formula α → Formula α
  | .min => .always
  | .max => .eventually

/-- The evaluations of one formula at the indices of a window. -/
def samplesOf (f : Formula α) (w : Window) : Set (Formula α × Nat) :=
  {p | p.1 = f ∧ p.2 ∈ w}

section Over

variable [LE Y] {S : Semantics α Y} {valid : Y → Prop} {policy : WindowPolicy} {x : Trajectory α}
  {interval : TimeInterval α} {f : Formula α} {t : Nat}

omit [LE Y] in
theorem Extremum.over_asksValid {e : Extremum} {id : NodeId} :
    (e.over id interval f).AsksValid S valid policy x t ↔
      ∀ w, x.window policy interval t = .ok w → ∀ u ∈ w, f.AsksValid S valid policy x u := by
  have hasks (signal : Signal α) (v : Nat) : (e.over id interval f).Asks policy x t signal v ↔
      ∃ w, x.window policy interval t = .ok w ∧ ∃ u ∈ w, f.Asks policy x u signal v := by
    cases e <;> rfl
  simp only [Formula.AsksValid, hasks]
  constructor
  · intro h w hw u hu signal v a hask
    exact h signal v a ⟨w, hw, u, hu, hask⟩
  · intro h signal v a ⟨w, hw, u, hu, hask⟩
    exact h w hw u hu signal v a hask

theorem Extremum.over_gathers (hS : S.Ordered valid) (hlen : x.length ≤ Index.last) (e : Extremum)
    (id : NodeId) {w : Window} (hw : x.window policy interval t = .ok w)
    (hasks : ∀ u ∈ w, f.AsksValid S valid policy x u) :
    (e.over id interval f).Gathers S policy x e t (samplesOf f w) := by
  have hset : samplesOf f w = {p | p ∈ (List.range' w.first w.size).map (f, ·)} := by
    ext ⟨g, u⟩
    simp only [samplesOf, Set.mem_ofPred_eq, List.mem_map, List.mem_range'_1, ← Window.mem_iff,
      Prod.mk.injEq]
    constructor
    · intro ⟨he, hu⟩
      exact ⟨u, hu, he.symm, rfl⟩
    · rintro ⟨v, hv, rfl, rfl⟩
      exact ⟨rfl, hv⟩
  have hvalid : (e.over id interval f).AsksValid S valid policy x t := by
    refine over_asksValid.mpr fun w' hw' => ?_
    obtain rfl : w = w' := Except.ok.inj (hw.symm.trans hw')
    exact hasks
  rw [hset]
  cases e with
  | min => exact Formula.gathers_uses hS hlen rfl (Except.bind_eq_ok.mpr ⟨w, hw, rfl⟩) hvalid
  | max => exact Formula.gathers_uses hS hlen rfl (Except.bind_eq_ok.mpr ⟨w, hw, rfl⟩) hvalid

omit [LE Y] in
/-- An extreme over a window that has a value has a window, with a value at each index. -/
theorem Extremum.exists_window_of_over {e : Extremum} {id : NodeId} {y : Y}
    (h : (e.over id interval f).valueAt S policy x t = .ok y) :
    ∃ w, x.window policy interval t = .ok w ∧ ∀ u ∈ w, ∃ v, f.valueAt S policy x u = .ok v := by
  cases e <;>
  · obtain ⟨w, hw, h⟩ := Except.bind_eq_ok.mp h
    obtain ⟨values, hvalues, -⟩ := Except.bind_eq_ok.mp h
    refine ⟨w, hw, fun u hu => ?_⟩
    exact Index.exists_ok_of_mapRangeM hvalues u (Window.mem_iff.mp hu).1 (Window.mem_iff.mp hu).2

end Over

/-! ## Composition -/

section Composition

variable {S : Semantics α Y} {x : Trajectory α} {f : Formula α} {t : Nat}
  {outer inner whole : TimeInterval α} {a b c d : Nat}

/-- What has a value has its whole window inside. -/
theorem Extremum.last_lt_of_over (hlen : x.length ≤ Index.last) {e : Extremum} {id : NodeId} {y : Y}
    (hwhole : whole.discretize x.spacing = .ok (a, b))
    (h : (e.over id whole f).valueAt S .strict x t = .ok y) : t + b < x.length := by
  obtain ⟨w, hw, -⟩ := exists_window_of_over h
  exact (Trajectory.mem_window hlen hwhole hw).2.1

theorem Extremum.last_lt_of_over_over (hlen : x.length ≤ Index.last) {e : Extremum} {i j : NodeId}
    {y : Y} (houter : outer.discretize x.spacing = .ok (a, b))
    (hinner : inner.discretize x.spacing = .ok (c, d))
    (h : (e.over i outer (e.over j inner f)).valueAt S .strict x t = .ok y) :
    t + (b + d) < x.length := by
  obtain ⟨v, hv, hvisits⟩ := exists_window_of_over h
  obtain ⟨hab, -, hmem⟩ := Trajectory.mem_window hlen houter hv
  obtain ⟨z, hz⟩ := hvisits (t + b) ((hmem _).mpr (by omega))
  rw [← Nat.add_assoc]
  exact last_lt_of_over hlen hinner hz

variable [LE Y] {valid : Y → Prop}

/-- An extreme of extremes gathers the window from the sum of the first offsets to that of the last
ones. -/
theorem Extremum.over_over_gathers (hS : S.Ordered valid) (hlen : x.length ≤ Index.last)
    (e : Extremum) (i j : NodeId) (houter : outer.discretize x.spacing = .ok (a, b))
    (hinner : inner.discretize x.spacing = .ok (c, d)) (hab : a ≤ b) (hcd : c ≤ d)
    (hinside : t + (b + d) < x.length) {w : Window}
    (hw : ∀ u, u ∈ w ↔ t + (a + c) ≤ u ∧ u ≤ t + (b + d))
    (hasks : ∀ u ∈ w, f.AsksValid S valid .strict x u) :
    (e.over i outer (e.over j inner f)).Gathers S .strict x e t (samplesOf f w) := by
  obtain ⟨v, hv, hmem⟩ := Trajectory.exists_window (t := t) hlen houter hab (by omega)
  have hpart : ∀ u ∈ v, ∃ p, x.window .strict inner u = .ok p ∧
      (∀ s, s ∈ p ↔ u + c ≤ s ∧ s ≤ u + d) ∧ ∀ s ∈ p, f.AsksValid S valid .strict x s := by
    intro u hu
    have hbounds := (hmem u).mp hu
    obtain ⟨p, hp, hmemPart⟩ := Trajectory.exists_window (t := u) hlen hinner hcd (by omega)
    refine ⟨p, hp, hmemPart, fun s hs => hasks s ((hw s).mpr ?_)⟩
    have := (hmemPart s).mp hs
    omega
  have hasksPart : ∀ u ∈ v, (e.over j inner f).AsksValid S valid .strict x u := by
    intro u hu
    obtain ⟨p, hp, -, hvalid⟩ := hpart u hu
    refine over_asksValid.mpr fun p' hp' => ?_
    obtain rfl : p = p' := Except.ok.inj (hp.symm.trans hp')
    exact hvalid
  refine (over_gathers hS hlen e i hv hasksPart).refine hS ?_ ?_
  · rintro ⟨_, u⟩ ⟨rfl, hu⟩
    obtain ⟨p, hp, hmemPart, hvalid⟩ := hpart u hu
    refine ⟨_, fun q hq => ⟨hq.1, (hw q.2).mpr ?_⟩, over_gathers hS hlen e j hp hvalid⟩
    have hbounds := (hmem u).mp hu
    have := (hmemPart q.2).mp hq.2
    omega
  · rintro ⟨g, s⟩ ⟨rfl, hs⟩
    -- the windows leave no gap: the first one that reaches as far as the index has it
    have hbounds := (hw s).mp hs
    obtain ⟨u, hu, hle, hge⟩ : ∃ u ∈ v, u + c ≤ s ∧ s ≤ u + d := by
      by_cases hreach : s ≤ t + a + d
      · exact ⟨t + a, (hmem _).mpr (by omega), by omega, hreach⟩
      · exact ⟨s - d, (hmem _).mpr (by omega), by omega, by omega⟩
    obtain ⟨p, hp, hmemPart, hvalid⟩ := hpart u hu
    exact ⟨(e.over j inner g, u), ⟨rfl, hu⟩, samplesOf g p, ⟨rfl, (hmemPart s).mpr ⟨hle, hge⟩⟩,
      over_gathers hS hlen e j hp hvalid⟩

/-- **An extreme of extremes is the extreme over the sum of the windows.** -/
theorem Extremum.over_over_alike [OrderedOffsets α] (hS : S.Ordered valid)
    (hlen : x.length ≤ Index.last) (e : Extremum) (i j k : NodeId)
    (houter : outer.discretize x.spacing = .ok (a, b))
    (hinner : inner.discretize x.spacing = .ok (c, d))
    (hwhole : whole.discretize x.spacing = .ok (a + c, b + d))
    (hasks : (e.over k whole f).AsksValid S valid .strict x t) :
    EndAlike (fun _ _ => True) OrderEq ((e.over i outer (e.over j inner f)).valueAt S .strict x t)
      ((e.over k whole f).valueAt S .strict x t) := by
  have hab : a ≤ b := OrderedOffsets.le_of_discretize houter
  have hcd : c ≤ d := OrderedOffsets.le_of_discretize hinner
  by_cases hinside : t + (b + d) < x.length
  · obtain ⟨w, hw, hmem⟩ := Trajectory.exists_window hlen hwhole (by omega) hinside
    have hvalid := over_asksValid.mp hasks w hw
    exact (over_over_gathers hS hlen e i j houter hinner hab hcd hinside hmem hvalid).alike
      (over_gathers hS hlen e k hw hvalid)
  · have hnested : ¬ ∃ y, (e.over i outer (e.over j inner f)).valueAt S .strict x t = .ok y :=
      fun ⟨_, hy⟩ => hinside (last_lt_of_over_over hlen houter hinner hy)
    have hsingle : ¬ ∃ y, (e.over k whole f).valueAt S .strict x t = .ok y :=
      fun ⟨_, hy⟩ => hinside (last_lt_of_over hlen hwhole hy)
    exact .of_ok_iff (iff_of_false hnested hsingle) fun y _ hy => absurd ⟨y, hy⟩ hnested

/-! ## Chains -/

/-- A chain of `next` operators, the first one outermost. -/
def Formula.later (f : Formula α) : List NodeId → Formula α
  | [] => f
  | id :: ids => .next id (f.later ids)

omit [LE Y] in
/-- A chain is evaluated as many samples later as it is long. -/
theorem Formula.valueAt_later (hlen : x.length ≤ Index.last) {policy : WindowPolicy} {y : Y}
    (ids : List NodeId) (t : Nat) :
    (f.later ids).valueAt S policy x t = .ok y ↔ f.valueAt S policy x (t + ids.length) = .ok y := by
  induction ids generalizing t with
  | nil => rfl
  | cons id ids ih =>
    have hshift : t + (id :: ids).length = t + 1 + ids.length := by
      rw [List.length_cons]; omega
    rw [hshift, ← ih]
    simp only [Formula.later, Formula.valueAt, Trajectory.nextWindow, Except.bind_eq_ok]
    constructor
    · intro h
      obtain ⟨w, hw, hy⟩ := h
      rwa [((WindowPolicy.offsets_one_eq_ok hlen).mp hw).2.1] at hy
    · intro hy
      have hlt := Formula.lt_of_defined hlen _ _ (Formula.defined_of_valueAt hlen _ _ y hy)
      exact ⟨⟨t + 1, t + 1, Nat.le_refl _⟩,
        (WindowPolicy.offsets_one_eq_ok hlen).mpr ⟨hlt, rfl, rfl⟩, hy⟩

/-- **A chain is an extreme over one index.** -/
theorem Extremum.later_alike (hS : S.Ordered valid) (hlen : x.length ≤ Index.last) (e : Extremum)
    (k : NodeId) (ids : List NodeId)
    (hwhole : whole.discretize x.spacing = .ok (ids.length, ids.length))
    (hasks : (e.over k whole f).AsksValid S valid .strict x t) :
    EndAlike (fun _ _ => True) OrderEq ((f.later ids).valueAt S .strict x t)
      ((e.over k whole f).valueAt S .strict x t) := by
  by_cases hinside : t + ids.length < x.length
  · obtain ⟨w, hw, hmem⟩ := Trajectory.exists_window hlen hwhole (Nat.le_refl _) hinside
    have hvalid : ∀ u ∈ w, f.AsksValid S valid .strict x u := over_asksValid.mp hasks w hw
    have hsingle : samplesOf f w = {(f, t + ids.length)} := by
      ext ⟨g, u⟩
      simp only [samplesOf, Set.mem_ofPred_eq, Set.mem_singleton_iff, Prod.mk.injEq, hmem]
      exact and_congr_right fun _ => by omega
    have hend : f.Gathers S .strict x e (t + ids.length) (samplesOf f w) :=
      hsingle ▸ .single hS hlen (hvalid _ ((hmem _).mpr ⟨Nat.le_refl _, Nat.le_refl _⟩))
    exact (hend.congr fun _ => Formula.valueAt_later hlen ids t).alike
      (over_gathers hS hlen e k hw hvalid)
  · have hchain : ¬ ∃ y, (f.later ids).valueAt S .strict x t = .ok y := by
      rintro ⟨y, hy⟩
      have hy := (Formula.valueAt_later hlen ids t).mp hy
      exact hinside (Formula.lt_of_defined hlen _ _ (Formula.defined_of_valueAt hlen _ _ y hy))
    have hwindow : ¬ ∃ y, (e.over k whole f).valueAt S .strict x t = .ok y :=
      fun ⟨_, hy⟩ => hinside (last_lt_of_over hlen hwhole hy)
    exact .of_ok_iff (iff_of_false hchain hwindow) fun y _ hy => absurd ⟨y, hy⟩ hchain

end Composition

/-! ## Both readings -/

/-- **Nested windows compose.** Under the strict policy, where no predicate value that is asked for is
NaN, an operator in itself agrees with the one over the window whose offsets are the sums of theirs,
and a chain of `next` operators with either operator over the one index that is as far away as the
chain is long. -/
theorem nested_windows_compose [OrderedScalar α] [OrderedOffsets α] (x : Trajectory α)
    (hlen : x.length ≤ Index.last) (anchor : Nat) (f : Formula α) (whole : TimeInterval α)
    (i j k : NodeId) (hnumber : (Formula.always k whole f).AsksNumbers .strict x anchor) :
    (∀ (outer inner : TimeInterval α) (a b c d : Nat), outer.discretize x.spacing = .ok (a, b) →
      inner.discretize x.spacing = .ok (c, d) → whole.discretize x.spacing = .ok (a + c, b + d) →
      (Formula.always i outer (.always j inner f)).AgreeAt (fun _ _ => True) .strict x anchor
          (.always k whole f) ∧
        (Formula.eventually i outer (.eventually j inner f)).AgreeAt (fun _ _ => True) .strict x anchor
          (.eventually k whole f)) ∧
    ∀ ids : List NodeId, whole.discretize x.spacing = .ok (ids.length, ids.length) →
      (f.later ids).AgreeAt (fun _ _ => True) .strict x anchor (.always k whole f) ∧
        (f.later ids).AgreeAt (fun _ _ => True) .strict x anchor (.eventually k whole f) := by
  have hquantitative (e : Extremum) :
      (e.over k whole f).AsksValid .quantitative (fun a => a ≤ a) .strict x anchor := by
    cases e <;> exact hnumber.quantitative
  have hqualitative (e : Extremum) :
      (e.over k whole f).AsksValid .qualitative (fun _ => True) .strict x anchor :=
    (e.over k whole f).asksValid_qualitative
  constructor
  · intro outer inner a b c d houter hinner hwhole
    have hagree (e : Extremum) : (e.over i outer (e.over j inner f)).AgreeAt (fun _ _ => True) .strict
        x anchor (e.over k whole f) :=
      .of_valueAt (fun _ => trivial)
        (fun _ => e.over_over_alike quantitative_ordered hlen i j k houter hinner hwhole
          (hquantitative e))
        (fun _ => e.over_over_alike qualitative_ordered hlen i j k houter hinner hwhole
          (hqualitative e))
    exact ⟨hagree .min, hagree .max⟩
  · intro ids hwhole
    have hagree (e : Extremum) : (f.later ids).AgreeAt (fun _ _ => True) .strict x anchor
        (e.over k whole f) :=
      .of_valueAt (fun _ => trivial)
        (fun _ => e.later_alike quantitative_ordered hlen k ids hwhole (hquantitative e))
        (fun _ => e.later_alike qualitative_ordered hlen k ids hwhole (hqualitative e))
    exact ⟨hagree .min, hagree .max⟩

/-- From `a` to `b` time units on. -/
def TimeInterval.ofUnits (a b : Nat) (h : a ≤ b) : TimeInterval Exact where
  start := .fin a
  stop := .fin b
  finite_start := Exact.isFinite_fin
  finite_stop := Exact.isFinite_fin
  start_nonneg := not_lt.mpr (Nat.cast_nonneg a : (0 : Rat) ≤ a)
  start_le_stop := not_lt.mpr (Nat.cast_le.mpr h : (a : Rat) ≤ b)

/-- `x > 0` throughout the second time unit after each of two samples; and two samples later. -/
theorem nested_windows_compose_of_steps :
    let positive : Formula Exact := .predicate ⟨0⟩ (.greaterThan "x" (.fin 0))
    (Formula.always ⟨1⟩ .firstStep (.always ⟨2⟩ (.ofUnits 1 2 (by decide)) positive)).AgreeAt
        (fun _ _ => True) .strict fourSamples 0
        (.always ⟨3⟩ (.ofUnits 1 3 (by decide)) positive) ∧
      (positive.later [⟨4⟩, ⟨5⟩]).AgreeAt (fun _ _ => True) .strict fourSamples 0
        (.always ⟨3⟩ (.ofUnits 2 2 (by decide)) positive) := by
  intro positive
  have hnumber (whole : TimeInterval Exact) :
      (Formula.always ⟨3⟩ whole positive).AsksNumbers .strict fourSamples 0 := by
    intro signal u a hasked ha
    obtain ⟨-, -, -, -, hsignal, -⟩ := hasked
    rw [hsignal] at ha
    exact fourSamples_value_number ha
  have hsum := nested_windows_compose fourSamples (by decide) 0 positive (.ofUnits 1 3 (by decide))
    ⟨1⟩ ⟨2⟩ ⟨3⟩ (hnumber _)
  have hchain := nested_windows_compose fourSamples (by decide) 0 positive
    (.ofUnits 2 2 (by decide)) ⟨1⟩ ⟨2⟩ ⟨3⟩ (hnumber _)
  exact ⟨(hsum.1 .firstStep (.ofUnits 1 2 (by decide)) 0 1 1 2 (by decide +kernel)
    (by decide +kernel) (by decide +kernel)).1, (hchain.2 [⟨4⟩, ⟨5⟩] (by decide +kernel)).1⟩

end SignalTemporalLogic
