import SignalTemporalLogic.Formula.Horizon
import SignalTemporalLogic.Proofs.Acceptance
import SignalTemporalLogic.Proofs.ExactArithmetic
import SignalTemporalLogic.Proofs.Signs

/-!
How far a formula looks. The horizon adds up the last offsets of nested windows. As the strict
policy refuses a window that runs past the last sample, the horizon decides whether there is a
value, and nothing after it can change the value. A predicate reads its labels at its own query time
plus their offsets, which the horizon leaves out: with offsets, everything reaches that much
further.
-/

namespace SignalTemporalLogic

/-! ## Offsets of an interval -/

section Offsets

variable {α : Type} [Scalar α]

theorem TimeInterval.discretize_eq_ok {interval : TimeInterval α} {spacing : α} {lo hi : Nat} :
    interval.discretize spacing = .ok (lo, hi) ↔
      Scalar.IsPositiveFinite spacing ∧
        ¬ Scalar.round (interval.stop / spacing) < Scalar.round (interval.start / spacing) ∧
        lo = Scalar.toIndex (Scalar.round (interval.start / spacing)) ∧
        hi = Scalar.toIndex (Scalar.round (interval.stop / spacing)) := by
  unfold TimeInterval.discretize
  by_cases hspacing : Scalar.IsPositiveFinite spacing
  · by_cases hinverted :
      Scalar.round (interval.stop / spacing) < Scalar.round (interval.start / spacing)
    · simp [hspacing, hinverted]
    · simp [hspacing, hinverted, eq_comm]
  · simp [hspacing]

/-- Times keep their order when they become sample offsets. -/
class OrderedOffsets (α : Type) [Scalar α] : Prop where
  le_of_discretize {interval : TimeInterval α} {spacing : α} {lo hi : Nat} :
    interval.discretize spacing = .ok (lo, hi) → lo ≤ hi

end Offsets

namespace Exact

theorem toIndex_mono {a b : Exact} (h : a ≤ b) : a.toIndex ≤ b.toIndex := by
  cases a <;> cases b
  case fin.fin a b =>
    have hfloor : a.floor ≤ b.floor := Rat.floor_monotone h
    simp only [toIndex]
    omega
  case fin.posInf => exact Nat.min_le_right _ _
  all_goals simp_all [le_def, AtMost, toIndex]

instance : OrderedOffsets Exact where
  le_of_discretize {interval spacing lo hi} h := by
    obtain ⟨⟨hfinite, hpositive⟩, hordered, rfl, rfl⟩ := TimeInterval.discretize_eq_ok.mp h
    obtain ⟨start, hstart⟩ := isFinite_iff.mp interval.finite_start
    obtain ⟨stop, hstop⟩ := isFinite_iff.mp interval.finite_stop
    obtain ⟨step, rfl⟩ := isFinite_iff.mp hfinite
    have hstep : step ≠ 0 := ne_of_gt hpositive
    rw [hstart, hstop, fin_div_fin hstep, fin_div_fin hstep] at hordered ⊢
    exact toIndex_mono (Rat.not_lt.mp hordered)

end Exact

/-! ## Signals of a formula -/

mutual

/-- The signals of the predicates, from left to right. -/
def Formula.signals {α : Type} [Scalar α] : Formula α → List (Signal α)
  | .predicate _ signal => [signal]
  | .not _ arg | .always _ _ arg | .eventually _ _ arg | .next _ arg => arg.signals
  | .and _ args | .or _ args => args.signals
  | .holdsUntil _ _ left right => left.signals ++ right.signals

def Operands.signals {α : Type} [Scalar α] : Operands α → List (Signal α)
  | .pair first second => first.signals ++ second.signals
  | .cons first rest => first.signals ++ rest.signals

end

/-! ## The horizon of a node -/

section Nodes

variable {α : Type} [Scalar α] {spacing : α} {id : NodeId} {interval : TimeInterval α}
  {arg left right : Formula α} {reach : Nat}

theorem Formula.horizon_window_eq_ok :
    (do
      let (_, hi) ← interval.discretize spacing
      return hi + (← arg.horizon spacing)) = .ok reach ↔
      ∃ lo hi r, interval.discretize spacing = .ok (lo, hi) ∧ arg.horizon spacing = .ok r ∧
        reach = hi + r := by
  simp only [Except.bind_eq_ok, Except.pure_eq_ok, Prod.exists]
  constructor
  · rintro ⟨lo, hi, hoffsets, r, hr, he⟩
    exact ⟨lo, hi, r, hoffsets, hr, he.symm⟩
  · rintro ⟨lo, hi, r, hoffsets, hr, he⟩
    exact ⟨lo, hi, hoffsets, r, hr, he.symm⟩

theorem Formula.horizon_until_eq_ok
    (h : (Formula.holdsUntil id interval left right).horizon spacing = .ok reach) :
    ∃ lo hi l r, interval.discretize spacing = .ok (lo, hi) ∧ right.horizon spacing = .ok r ∧
      reach = max l (hi + r) ∧
      (hi = 0 ∧ l = 0 ∨ 0 < hi ∧ ∃ r', left.horizon spacing = .ok r' ∧ l = hi - 1 + r') := by
  obtain ⟨⟨lo, hi⟩, hoffsets, h⟩ := Except.bind_eq_ok.mp h
  by_cases hhi : hi = 0
  · simp only [hhi, if_true, Except.bind_eq_ok, Except.pure_eq_ok] at h
    obtain ⟨_, rfl, r, hr, rfl⟩ := h
    exact ⟨lo, hi, 0, r, hoffsets, hr, by rw [hhi], .inl ⟨hhi, rfl⟩⟩
  · simp only [hhi, if_false, Except.bind_eq_ok, Except.pure_eq_ok] at h
    obtain ⟨l, hl, r, hr, rfl⟩ := h
    cases hleft : left.horizon spacing with
    | error e => rw [hleft] at hl; cases hl
    | ok r' =>
      rw [hleft] at hl
      cases hl
      exact ⟨lo, hi, _, r, hoffsets, hr, rfl, .inr ⟨by omega, r', rfl, rfl⟩⟩

end Nodes

/-! ## Two trajectories up to the horizon -/

section Reach

variable {α : Type} {E : Fault α → Fault α → Prop} {x y : Trajectory α}

/-- The index lies inside both trajectories, or outside of both and the faults are related. -/
def Trajectory.EndTogether (E : Fault α → Fault α → Prop) (x y : Trajectory α) (i : Nat) : Prop :=
  i < x.length ∧ i < y.length ∨
    x.length ≤ i ∧ y.length ≤ i ∧ E (.outOfRange i x.length) (.outOfRange i y.length)

/-- A window that ends together in two domains is the same in both, without any loss of offsets. -/
theorem WindowPolicy.resolve_alike {rename rename' : WindowFault → Fault α} {t lo hi : Nat}
    (hle : lo ≤ hi) (hlen : x.length ≤ Index.last) (hends : ∀ i ≤ t + hi, x.EndTogether E y i)
    (hrename : ∀ i n, rename (.outOfRange i n) = .outOfRange i n)
    (hrename' : ∀ i n, rename' (.outOfRange i n) = .outOfRange i n) :
    EndAlike E (fun w v => w = v ∧ w.first = t + lo ∧ w.last = t + hi)
      ((WindowPolicy.strict.resolve t lo hi x.length).mapError rename)
      ((WindowPolicy.strict.resolve t lo hi y.length).mapError rename') := by
  have hstop : Index.saturatingAdd t hi ≤ t + hi := Nat.min_le_left _ _
  unfold WindowPolicy.resolve
  rw [dif_pos hle, dif_pos hle]
  rcases hends _ hstop with ⟨hx, hy⟩ | ⟨hx, hy, he⟩
  · simp only [Nat.not_le.mpr hx, Nat.not_le.mpr hy, if_false]
    refine ⟨rfl, ?_, ?_⟩ <;> simp only [Index.saturatingAdd] at hx ⊢ <;> omega
  · simp only [hx, hy, if_true]
    exact show E _ _ by rwa [hrename, hrename']

variable [Scalar α]

theorem Trajectory.window_alike {interval : TimeInterval α} {lo hi : Nat} (t : Nat)
    (hoffsets : interval.discretize x.spacing = .ok (lo, hi)) (hle : lo ≤ hi)
    (hspacing : y.spacing = x.spacing) (hlen : x.length ≤ Index.last)
    (hends : ∀ i ≤ t + hi, x.EndTogether E y i) :
    EndAlike E (fun w v => w = v ∧ w.first = t + lo ∧ w.last = t + hi)
      (x.window .strict interval t) (y.window .strict interval t) := by
  unfold Trajectory.window WindowPolicy.window
  rw [hspacing, hoffsets]
  exact WindowPolicy.resolve_alike hle hlen hends (fun _ _ => rfl) fun _ _ => rfl

theorem Trajectory.nextWindow_alike {t : Nat} (hlen : x.length ≤ Index.last)
    (hends : ∀ i ≤ t + 1, x.EndTogether E y i) :
    EndAlike E (fun w v => w = v ∧ w.first = t + 1 ∧ w.last = t + 1) (x.nextWindow .strict t)
      (y.nextWindow .strict t) :=
  WindowPolicy.resolve_alike (Nat.le_refl _) hlen hends (fun _ _ => rfl) fun _ _ => rfl

/-- From time `t` on and up to `reach` later, the signal has related values. -/
def Signal.AlikeWithin (E : Fault α → Fault α → Prop) (R : α → α → Prop) (x y : Trajectory α)
    (t reach : Nat) (signal : Signal α) : Prop :=
  ∀ u, t ≤ u → u ≤ t + reach → EndAlike E R (x.signalValue signal u) (y.signalValue signal u)

theorem Signal.AlikeWithin.narrow {R : α → α → Prop} {t reach u reach' : Nat} {signal : Signal α}
    (h : signal.AlikeWithin E R x y t reach) (hfrom : t ≤ u) (hto : u + reach' ≤ t + reach) :
    signal.AlikeWithin E R x y u reach' :=
  fun v hv hv' => h v (by omega) (by omega)

variable {Y Z : Type} {S : Semantics α Y} {T : Semantics α Z} {R : Y → Z → Prop}

/-- What is made of the values in a window is related, if the window ends alike and the values are
related. -/
theorem Trajectory.visits_alike {interval : TimeInterval α} {t lo hi : Nat}
    (hoffsets : interval.discretize x.spacing = .ok (lo, hi)) (hle : lo ≤ hi)
    (hspacing : y.spacing = x.spacing) (hlen : x.length ≤ Index.last)
    (hends : ∀ i ≤ t + hi, x.EndTogether E y i) {f : Nat → Except (Fault α) Y}
    {g : Nat → Except (Fault α) Z}
    (hvisit : ∀ u, t ≤ u → u ≤ t + hi → EndAlike E R (f u) (g u)) {a : List Y → Y} {b : List Z → Z}
    (hcombine : ∀ ys zs, List.Forall₂ R ys zs → R (a ys) (b zs)) :
    EndAlike E R
      (do
        let w ← x.window .strict interval t
        return a (← w.mapM f))
      (do
        let w ← y.window .strict interval t
        return b (← w.mapM g)) := by
  refine (Trajectory.window_alike t hoffsets hle hspacing hlen hends).bind ?_
  rintro w _ ⟨rfl, hfirst, hlast⟩
  have hvisits := EndAlike.mapWindowM w fun u hu => by
    obtain ⟨hfrom, hto⟩ := hu
    exact hvisit u (by omega) (by omega)
  exact hvisits.bind fun ys zs h => hcombine ys zs h

mutual

/-- **Evaluation looks no further than the horizon**: the values of a formula are related if the
predicate values up to its horizon are, and if windows up to its horizon end alike. -/
theorem Formula.valueAt_alike_within [OrderedOffsets α] (hR : S.Related T R)
    (hnot : ∀ a b, R a b → R (S.not a) (T.not b)) (hspacing : y.spacing = x.spacing)
    (hlen : x.length ≤ Index.last) :
    ∀ (f : Formula α) (t reach : Nat), f.horizon x.spacing = .ok reach →
      (∀ i ≤ t + reach, x.EndTogether E y i) →
      (∀ signal ∈ f.signals,
        signal.AlikeWithin E (fun a b => R (S.atomic a) (T.atomic b)) x y t reach) →
      EndAlike E R (f.valueAt S .strict x t) (f.valueAt T .strict y t)
  | .predicate _ signal, t, reach, _, _, hsignals =>
    (hsignals signal (List.mem_singleton_self _) t (Nat.le_refl _) (by omega)).bind fun _ _ h => h
  | .not _ arg, t, reach, hreach, hends, hsignals => by
    have harg := arg.valueAt_alike_within hR hnot hspacing hlen t reach hreach hends hsignals
    exact harg.bind fun a b h => hnot a b h
  | .and _ args, t, reach, hreach, hends, hsignals => by
    have hargs := args.valuesAt_alike_within hR hnot hspacing hlen t reach hreach hends hsignals
    exact hargs.bind fun _ _ h => hR.all h
  | .or _ args, t, reach, hreach, hends, hsignals => by
    have hargs := args.valuesAt_alike_within hR hnot hspacing hlen t reach hreach hends hsignals
    exact hargs.bind fun _ _ h => hR.any h
  | .always _ interval arg, t, reach, hreach, hends, hsignals => by
    obtain ⟨lo, hi, argReach, hoffsets, harg, rfl⟩ := Formula.horizon_window_eq_ok.mp hreach
    refine Trajectory.visits_alike hoffsets (OrderedOffsets.le_of_discretize hoffsets) hspacing hlen
      (fun i hi => hends i (by omega)) (fun u hu hu' => ?_) fun _ _ h => hR.all h
    exact arg.valueAt_alike_within hR hnot hspacing hlen u argReach harg
      (fun i hi => hends i (by omega))
      (fun signal hs => (hsignals signal hs).narrow (by omega) (by omega))
  | .eventually _ interval arg, t, reach, hreach, hends, hsignals => by
    obtain ⟨lo, hi, argReach, hoffsets, harg, rfl⟩ := Formula.horizon_window_eq_ok.mp hreach
    refine Trajectory.visits_alike hoffsets (OrderedOffsets.le_of_discretize hoffsets) hspacing hlen
      (fun i hi => hends i (by omega)) (fun u hu hu' => ?_) fun _ _ h => hR.any h
    exact arg.valueAt_alike_within hR hnot hspacing hlen u argReach harg
      (fun i hi => hends i (by omega))
      (fun signal hs => (hsignals signal hs).narrow (by omega) (by omega))
  | .holdsUntil _ interval left right, t, reach, hreach, hends, hsignals => by
    obtain ⟨lo, hi, leftReach, rightReach, hoffsets, hright, rfl, hleft⟩ :=
      Formula.horizon_until_eq_ok hreach
    have hwindow := Trajectory.window_alike t hoffsets (OrderedOffsets.le_of_discretize hoffsets)
      hspacing hlen fun i hi => hends i (by omega)
    refine hwindow.bind ?_
    rintro w _ ⟨rfl, hfirst, hlast⟩
    have hrights (u : Nat) (hu : w.first ≤ u) (hu' : u ≤ w.last) :=
      right.valueAt_alike_within hR hnot hspacing hlen u rightReach hright
        (fun i hi => hends i (by omega))
        (fun signal hs =>
          (hsignals signal (List.mem_append_right _ hs)).narrow (by omega) (by omega))
    -- the left operand counts only if there is an index before the last candidate
    have hlefts (u : Nat) (hu : t ≤ u) (hu' : u < w.last) :
        EndAlike E R (left.valueAt S .strict x u) (left.valueAt T .strict y u) := by
      obtain ⟨-, r, hr, rfl⟩ := hleft.resolve_left (by omega)
      exact left.valueAt_alike_within hR hnot hspacing hlen u r hr
        (fun i hi => hends i (by omega))
        (fun signal hs =>
          (hsignals signal (List.mem_append_left _ hs)).narrow (by omega) (by omega))
    have hordered := w.first_le_last
    have hearlier := EndAlike.mapRangeM t (w.first - t) fun u hu hu' => hlefts u hu (by omega)
    exact hearlier.bind fun _ _ h => hR.untilFrom (hR.all h) hR.eventually
      (fun u hu hu' => hrights u hu (by omega)) fun u hu hu' => hlefts u (by omega) (by omega)
  | .next _ arg, t, reach, hreach, hends, hsignals => by
    obtain ⟨argReach, harg, hreach⟩ := Except.bind_eq_ok.mp hreach
    obtain rfl := Except.pure_eq_ok.mp hreach
    refine (Trajectory.nextWindow_alike hlen fun i hi => hends i (by omega)).bind ?_
    rintro w _ ⟨rfl, hfirst, -⟩
    rw [hfirst]
    exact arg.valueAt_alike_within hR hnot hspacing hlen (t + 1) argReach harg
      (fun i hi => hends i (by omega))
      (fun signal hs => (hsignals signal hs).narrow (by omega) (by omega))

theorem Operands.valuesAt_alike_within [OrderedOffsets α] (hR : S.Related T R)
    (hnot : ∀ a b, R a b → R (S.not a) (T.not b)) (hspacing : y.spacing = x.spacing)
    (hlen : x.length ≤ Index.last) :
    ∀ (args : Operands α) (t reach : Nat), args.horizon x.spacing = .ok reach →
      (∀ i ≤ t + reach, x.EndTogether E y i) →
      (∀ signal ∈ args.signals,
        signal.AlikeWithin E (fun a b => R (S.atomic a) (T.atomic b)) x y t reach) →
      EndAlike E (List.Forall₂ R) (args.valuesAt S .strict x t) (args.valuesAt T .strict y t)
  | .pair first second, t, reach, hreach, hends, hsignals => by
    obtain ⟨firstReach, hfirst, hreach⟩ := Except.bind_eq_ok.mp hreach
    obtain ⟨secondReach, hsecond, hreach⟩ := Except.bind_eq_ok.mp hreach
    obtain rfl := Except.pure_eq_ok.mp hreach
    have ha := first.valueAt_alike_within hR hnot hspacing hlen t firstReach hfirst
      (fun i hi => hends i (by omega))
      (fun signal hs =>
          (hsignals signal (List.mem_append_left _ hs)).narrow (by omega) (by omega))
    have hb := second.valueAt_alike_within hR hnot hspacing hlen t secondReach hsecond
      (fun i hi => hends i (by omega))
      (fun signal hs =>
          (hsignals signal (List.mem_append_right _ hs)).narrow (by omega) (by omega))
    exact ha.bind fun _ _ ha => hb.bind fun _ _ hb => .cons ha (.cons hb .nil)
  | .cons first rest, t, reach, hreach, hends, hsignals => by
    obtain ⟨firstReach, hfirst, hreach⟩ := Except.bind_eq_ok.mp hreach
    obtain ⟨restReach, hrest, hreach⟩ := Except.bind_eq_ok.mp hreach
    obtain rfl := Except.pure_eq_ok.mp hreach
    have ha := first.valueAt_alike_within hR hnot hspacing hlen t firstReach hfirst
      (fun i hi => hends i (by omega))
      (fun signal hs =>
          (hsignals signal (List.mem_append_left _ hs)).narrow (by omega) (by omega))
    have hbs := rest.valuesAt_alike_within hR hnot hspacing hlen t restReach hrest
      (fun i hi => hends i (by omega))
      (fun signal hs =>
          (hsignals signal (List.mem_append_right _ hs)).narrow (by omega) (by omega))
    exact ha.bind fun _ _ ha => hbs.bind fun _ _ hbs => .cons ha hbs

end

end Reach

/-! ## What the horizon says about a trajectory -/

section Exactness

variable {α Y : Type} [Scalar α] {x y : Trajectory α}

theorem EndAlike.eq_of_eq {ε β : Type} {act act' : Except ε β} (h : EndAlike Eq Eq act act') :
    act = act' := by
  cases act <;> cases act'
  case ok.ok => exact congrArg _ h
  case error.error => exact congrArg _ h
  all_goals exact h.elim

theorem WindowPolicy.strict_window_eq_ok {interval : TimeInterval α} {spacing : α}
    {t lo hi length : Nat} {w : Window} (hlen : length ≤ Index.last)
    (hoffsets : interval.discretize spacing = .ok (lo, hi))
    (h : WindowPolicy.strict.window interval spacing t length = .ok w) :
    lo ≤ hi ∧ t + hi < length ∧ w.first = t + lo ∧ w.last = t + hi := by
  obtain ⟨lo', hi', hoffsets', hr⟩ := WindowPolicy.window_eq_ok.mp h
  cases hoffsets.symm.trans hoffsets'
  obtain ⟨hle, -, hlast, hfirst, hlast'⟩ := (WindowPolicy.resolve_eq_ok hlen).mp hr
  have := hlast rfl
  omega

mutual

/-- **A value is never there without the horizon**: if predicates have values before `n` only, so
does the formula, and by its horizon earlier. -/
theorem Formula.reach_lt_of_defined (hlen : x.length ≤ Index.last) {n : Nat} :
    ∀ (f : Formula α) (t reach : Nat), f.horizon x.spacing = .ok reach →
      (∀ signal ∈ f.signals, ∀ u a, x.signalValue signal u = .ok a → u < n) →
      f.Defined .strict x t → t + reach < n
  | .predicate _ signal, t, reach, hreach, hsignals, ⟨a, ha⟩ => by
    obtain rfl := Except.pure_eq_ok.mp hreach
    exact hsignals signal (List.mem_singleton_self _) t a ha
  | .not _ arg, t, reach, hreach, hsignals, h =>
    arg.reach_lt_of_defined hlen t reach hreach hsignals h
  | .and _ args, t, reach, hreach, hsignals, h | .or _ args, t, reach, hreach, hsignals, h =>
    args.reach_lt_of_defined hlen t reach hreach hsignals h
  | .always _ interval arg, t, reach, hreach, hsignals, ⟨w, hw, harg⟩
  | .eventually _ interval arg, t, reach, hreach, hsignals, ⟨w, hw, harg⟩ => by
    obtain ⟨lo, hi, argReach, hoffsets, hargReach, rfl⟩ := Formula.horizon_window_eq_ok.mp hreach
    obtain ⟨-, -, -, hlast⟩ := WindowPolicy.strict_window_eq_ok hlen hoffsets hw
    have hend := arg.reach_lt_of_defined hlen w.last argReach hargReach hsignals
      (harg w.last ⟨w.first_le_last, Nat.le_refl _⟩)
    omega
  | .holdsUntil _ interval left right, t, reach, hreach, hsignals, ⟨w, hw, hright, hleft⟩ => by
    obtain ⟨lo, hi, leftReach, rightReach, hoffsets, hrightReach, rfl, hleftReach⟩ :=
      Formula.horizon_until_eq_ok hreach
    obtain ⟨-, -, -, hlast⟩ := WindowPolicy.strict_window_eq_ok hlen hoffsets hw
    have hend := right.reach_lt_of_defined hlen w.last rightReach hrightReach
      (fun signal hs => hsignals signal (List.mem_append_right _ hs))
      (hright w.last ⟨w.first_le_last, Nat.le_refl _⟩)
    rcases hleftReach with ⟨-, rfl⟩ | ⟨hpos, r, hr, rfl⟩
    · omega
    · have hbefore := left.reach_lt_of_defined hlen (w.last - 1) r hr
        (fun signal hs => hsignals signal (List.mem_append_left _ hs))
        (hleft (w.last - 1) (by omega) (by omega))
      omega
  | .next _ arg, t, reach, hreach, hsignals, ⟨_, harg⟩ => by
    obtain ⟨argReach, hargReach, hreach⟩ := Except.bind_eq_ok.mp hreach
    obtain rfl := Except.pure_eq_ok.mp hreach
    have hend := arg.reach_lt_of_defined hlen (t + 1) argReach hargReach hsignals harg
    omega

theorem Operands.reach_lt_of_defined (hlen : x.length ≤ Index.last) {n : Nat} :
    ∀ (args : Operands α) (t reach : Nat), args.horizon x.spacing = .ok reach →
      (∀ signal ∈ args.signals, ∀ u a, x.signalValue signal u = .ok a → u < n) →
      args.Defined .strict x t → t + reach < n
  | .pair first second, t, reach, hreach, hsignals, h => by
    obtain ⟨firstReach, hfirst, hreach⟩ := Except.bind_eq_ok.mp hreach
    obtain ⟨secondReach, hsecond, hreach⟩ := Except.bind_eq_ok.mp hreach
    obtain rfl := Except.pure_eq_ok.mp hreach
    have ha := first.reach_lt_of_defined hlen t firstReach hfirst
      (fun signal hs => hsignals signal (List.mem_append_left _ hs)) h.1
    have hb := second.reach_lt_of_defined hlen t secondReach hsecond
      (fun signal hs => hsignals signal (List.mem_append_right _ hs)) h.2
    omega
  | .cons first rest, t, reach, hreach, hsignals, h => by
    obtain ⟨firstReach, hfirst, hreach⟩ := Except.bind_eq_ok.mp hreach
    obtain ⟨restReach, hrest, hreach⟩ := Except.bind_eq_ok.mp hreach
    obtain rfl := Except.pure_eq_ok.mp hreach
    have ha := first.reach_lt_of_defined hlen t firstReach hfirst
      (fun signal hs => hsignals signal (List.mem_append_left _ hs)) h.1
    have hb := rest.reach_lt_of_defined hlen t restReach hrest
      (fun signal hs => hsignals signal (List.mem_append_right _ hs)) h.2
    omega

end

/-- If predicates have values up to the horizon, the formula has one. -/
theorem Formula.exists_evaluate_of_reach [OrderedOffsets α] {S : Semantics α Y} {f : Formula α}
    (hlen : x.length ≤ Index.last) {anchor reach : Nat} (hreach : f.horizon x.spacing = .ok reach)
    (hinside : anchor + reach < x.length)
    (hsignals : ∀ signal ∈ f.signals, ∀ u ≤ anchor + reach, ∃ a, x.signalValue signal u = .ok a) :
    ∃ v, f.evaluate S .strict x anchor = .ok v := by
  have halike : EndAlike (fun _ _ => False) (fun _ _ => True) (f.valueAt S .strict x anchor)
      (f.valueAt S .strict x anchor) :=
    f.valueAt_alike_within (E := fun _ _ => False) (R := fun _ _ => True)
      ⟨fun _ _ => trivial, fun _ _ => trivial, trivial, trivial⟩ (fun _ _ _ => trivial) rfl hlen
      anchor reach hreach (fun i hi => .inl ⟨by omega, by omega⟩)
      (fun signal hs u _ hu => by
        obtain ⟨a, ha⟩ := hsignals signal hs u hu
        rw [ha]
        exact trivial)
  cases hvalue : f.valueAt S .strict x anchor with
  | error e =>
    rw [hvalue] at halike
    exact halike.elim
  | ok v => exact ⟨v, Formula.evaluate_eq_ok.mpr ⟨by omega, hvalue⟩⟩

/-- Past the horizon nothing is read. -/
theorem Formula.evaluate_eq_of_reach [OrderedOffsets α] {S : Semantics α Y} {f : Formula α}
    (hlen : x.length ≤ Index.last) (hspacing : y.spacing = x.spacing) {anchor reach : Nat}
    (hreach : f.horizon x.spacing = .ok reach) (hx : anchor + reach < x.length)
    (hy : anchor + reach < y.length)
    (hsignals : ∀ signal ∈ f.signals, ∀ u, anchor ≤ u → u ≤ anchor + reach →
      x.signalValue signal u = y.signalValue signal u) :
    f.evaluate S .strict x anchor = f.evaluate S .strict y anchor := by
  have halike : EndAlike Eq Eq (f.valueAt S .strict x anchor) (f.valueAt S .strict y anchor) :=
    f.valueAt_alike_within
      ⟨by rintro _ _ _ _ rfl rfl; rfl, by rintro _ _ _ _ rfl rfl; rfl, rfl, rfl⟩
      (by rintro _ _ rfl; rfl) hspacing hlen anchor reach hreach
      (fun i hi => .inl ⟨by omega, by omega⟩)
      (fun signal hs u hu hu' => by
        rw [hsignals signal hs u hu hu']
        cases y.signalValue signal u with
        | error e => exact rfl
        | ok a => exact rfl)
  have hcheck (z : Trajectory α) (hz : anchor + reach < z.length) :
      z.checkIndex anchor = .ok () := Trajectory.checkIndex_eq_ok.mpr (by omega)
  unfold Formula.evaluate
  rw [hcheck x hx, hcheck y hy, halike.eq_of_eq]

/-- Short of the horizon, what fails is an index outside of the trajectory. -/
theorem Formula.evaluate_eq_error_of_reach [OrderedOffsets α] {S : Semantics α Y} {f : Formula α}
    (hlen : x.length ≤ Index.last) {anchor reach : Nat} (hreach : f.horizon x.spacing = .ok reach)
    (houtside : x.length ≤ anchor + reach)
    (hsignals : ∀ signal ∈ f.signals, ∀ u e, x.signalValue signal u = .error e →
      ∃ i, x.length ≤ i ∧ e = .outOfRange i x.length) :
    ∃ i, x.length ≤ i ∧ f.evaluate S .strict x anchor = .error (.outOfRange i x.length) := by
  let Outside (e : Fault α) : Prop := ∃ i, x.length ≤ i ∧ e = .outOfRange i x.length
  have halike : EndAlike (fun e _ => Outside e) (fun _ _ => True) (f.valueAt S .strict x anchor)
      (f.valueAt S .strict x anchor) :=
    f.valueAt_alike_within (E := fun e _ => Outside e) (R := fun _ _ => True)
      ⟨fun _ _ => trivial, fun _ _ => trivial, trivial, trivial⟩ (fun _ _ _ => trivial) rfl hlen
      anchor reach hreach
      (fun i _ => (Nat.lt_or_ge i x.length).imp (fun h => ⟨h, h⟩) fun h => ⟨h, h, i, h, rfl⟩)
      (fun signal hs u _ _ => by
        cases hvalue : x.signalValue signal u with
        | error e => exact hsignals signal hs u e hvalue
        | ok a => exact trivial)
  by_cases hanchor : anchor < x.length
  · have hrun : f.evaluate S .strict x anchor = f.valueAt S .strict x anchor := by
      unfold Formula.evaluate
      rw [Trajectory.checkIndex_eq_ok.mpr hanchor]
      rfl
    rw [hrun]
    cases hvalue : f.valueAt S .strict x anchor with
    | error e =>
      rw [hvalue] at halike
      obtain ⟨i, hi, rfl⟩ := halike
      exact ⟨i, hi, rfl⟩
    | ok v =>
      have hbefore := f.reach_lt_of_defined hlen anchor reach hreach
        (fun _ _ _ _ ha => Trajectory.lt_of_signalValue ha)
        (Formula.defined_of_valueAt hlen f anchor v hvalue)
      omega
  · refine ⟨anchor, by omega, ?_⟩
    unfold Formula.evaluate Trajectory.checkIndex
    rw [if_pos (by omega)]
    rfl

end Exactness

/-! ## Tables -/

section Tables

variable {α : Type} [Scalar α]

/-- The signal has columns for its labels, none of which looks back or further ahead than
`distance`. -/
def Signal.ReadsAhead (x : SampledTrajectory α) (distance : Nat) (signal : Signal α) : Prop :=
  ∀ label ∈ signal.form.labels, 0 ≤ label.offset ∧ label.offset ≤ distance ∧
    ∃ column, x.column? label.name = some column

theorem SampleLabel.at?_eq_some {label : SampleLabel} {t : Nat} {sample : Sample} :
    label.at? t = some sample ↔
      0 ≤ t + label.offset ∧ t + label.offset ≤ Index.last ∧
        sample = ⟨label.name, (t + label.offset).toNat⟩ := by
  unfold SampleLabel.at? Index.shift?
  by_cases h : 0 ≤ t + label.offset ∧ t + label.offset ≤ Index.last
  · simp [h, eq_comm]
  · simp only [h, if_false, Option.map_none]
    exact ⟨nofun, fun ⟨hfirst, hlast, _⟩ => absurd ⟨hfirst, hlast⟩ h⟩

theorem SampledTrajectory.Built.exists_signalValue {x : SampledTrajectory α} (hx : x.Built)
    (hlen : x.length ≤ Index.last) {signal : Signal α} {distance : Nat}
    (h : signal.ReadsAhead x distance) {u : Nat} (hu : u + distance < x.length) :
    ∃ a, x.toTrajectory.signalValue signal u = .ok a := by
  refine Trajectory.exists_signalValue_iff.mpr
    ⟨show u < x.length by omega, fun label hlabel => ?_⟩
  obtain ⟨hahead, hbound, hcolumn⟩ := h label hlabel
  have hat := SampleLabel.at?_eq_some.mpr ⟨show 0 ≤ u + label.offset by omega, by omega, rfl⟩
  refine ⟨_, by rw [Signal.sampleAt, hat], ?_⟩
  exact (hx.value_iff _).mpr ⟨hcolumn, show (u + label.offset).toNat < x.length by omega⟩

/-- A signal with a value has all its samples inside the table. -/
theorem SampledTrajectory.Built.lt_of_signalValue {x : SampledTrajectory α} (hx : x.Built)
    {signal : Signal α} {u : Nat} {a : α} (ha : x.toTrajectory.signalValue signal u = .ok a)
    {label : SampleLabel} (hlabel : label ∈ signal.form.labels) : u + label.offset < x.length := by
  obtain ⟨-, hread⟩ := Trajectory.exists_signalValue_iff.mp ⟨a, ha⟩
  obtain ⟨sample, hsample, hvalue⟩ := hread label hlabel
  have hinside := ((hx.value_iff sample).mp hvalue).2
  unfold Signal.sampleAt at hsample
  cases hat : label.at? u with
  | none => rw [hat] at hsample; cases hsample
  | some named =>
    rw [hat] at hsample
    cases hsample
    obtain ⟨hfirst, -, rfl⟩ := SampleLabel.at?_eq_some.mp hat
    have : (u + label.offset).toNat < x.length := hinside
    omega

theorem mapM_congr_of_mem {ε β γ : Type} {visit visit' : β → Except ε γ} :
    ∀ {bs : List β}, (∀ b ∈ bs, visit b = visit' b) → bs.mapM visit = bs.mapM visit'
  | [], _ => rfl
  | b :: bs, h => by
    rw [List.mapM_cons, List.mapM_cons, h b (by simp),
      mapM_congr_of_mem fun b' hb' => h b' (by simp [hb'])]

/-- Two trajectories give a signal that reads ahead the same value at `u` if they agree on the
samples from `u` to `distance` after it. -/
theorem Signal.ReadsAhead.signalValue_eq {x : SampledTrajectory α} {y : Trajectory α}
    {signal : Signal α} {distance : Nat} (h : signal.ReadsAhead x distance) {u : Nat}
    (hx : u < x.length) (hy : u < y.length)
    (hagree : ∀ label ∈ signal.form.labels, ∀ i, u ≤ i → i ≤ u + distance →
      y.value ⟨label.name, i⟩ = x.value ⟨label.name, i⟩) :
    x.toTrajectory.signalValue signal u = y.signalValue signal u := by
  have hvalue : ∀ label ∈ signal.form.labels,
      (do x.toTrajectory.value (← Signal.sampleAt label u)) =
        (do y.value (← Signal.sampleAt label u)) := by
    intro label hlabel
    obtain ⟨hahead, hbound, -⟩ := h label hlabel
    unfold Signal.sampleAt
    cases hat : label.at? u with
    | none => rfl
    | some sample =>
      obtain ⟨-, -, rfl⟩ := SampleLabel.at?_eq_some.mp hat
      exact (hagree label hlabel _ (by omega) (by omega)).symm
  unfold Trajectory.signalValue
  rw [Trajectory.checkIndex_eq_ok.mpr hx, Trajectory.checkIndex_eq_ok.mpr hy,
    mapM_congr_of_mem hvalue]

/-- With enough samples for the horizon and for what predicates read ahead, there is a value. -/
theorem Formula.exists_robustness_ahead [OrderedOffsets α] {x : SampledTrajectory α} (hx : x.Built)
    (hlen : x.length ≤ Index.last) {f : Formula α} {distance : Nat}
    (hahead : ∀ signal ∈ f.signals, signal.ReadsAhead x distance) {anchor reach : Nat}
    (hreach : f.horizon x.spacing = .ok reach) (hinside : anchor + reach + distance < x.length) :
    ∃ v, f.robustness .strict x.toTrajectory anchor = .ok v :=
  Formula.exists_evaluate_of_reach (x := x.toTrajectory) hlen hreach
    (show anchor + reach < x.length by omega)
    fun signal hs _ hu => hx.exists_signalValue hlen (hahead signal hs) (by omega)

/-- Samples after the horizon, and after what predicates read ahead of it, have no influence. -/
theorem Formula.robustness_local [OrderedOffsets α] {x : SampledTrajectory α}
    (hlen : x.length ≤ Index.last) {f : Formula α} {distance : Nat}
    (hahead : ∀ signal ∈ f.signals, signal.ReadsAhead x distance) {anchor reach : Nat}
    (hreach : f.horizon x.spacing = .ok reach) (hx : anchor + reach < x.length)
    {y : Trajectory α} (hspacing : y.spacing = x.spacing) (hy : anchor + reach < y.length)
    (hagree : ∀ signal ∈ f.signals, ∀ label ∈ signal.form.labels, ∀ i, anchor ≤ i →
      i ≤ anchor + reach + distance → y.value ⟨label.name, i⟩ = x.value ⟨label.name, i⟩) :
    f.robustness .strict x.toTrajectory anchor = f.robustness .strict y anchor :=
  Formula.evaluate_eq_of_reach (x := x.toTrajectory) hlen hspacing hreach hx hy
    fun signal hs u hu hu' => (hahead signal hs).signalValue_eq (show u < x.length by omega)
      (by omega) fun label hlabel i hi hi' => hagree signal hs label hlabel i (by omega) (by omega)

/-- **The horizon is exact and local** where predicates read their query time only. Under the strict
policy a formula has a robustness exactly if its horizon lies inside the table, and otherwise the
fault is an index outside. Samples after the horizon have no influence. -/
theorem horizon_exact [OrderedOffsets α] {x : SampledTrajectory α} (hx : x.Built)
    (hlen : x.length ≤ Index.last) {f : Formula α}
    (hlabels : ∀ signal ∈ f.signals, ∀ label ∈ signal.form.labels,
      label.offset = 0 ∧ ∃ column, x.column? label.name = some column)
    {reach : Nat} (hreach : f.horizon x.spacing = .ok reach) (anchor : Nat) :
    (anchor + reach < x.length → ∃ v, f.robustness .strict x.toTrajectory anchor = .ok v) ∧
    (x.length ≤ anchor + reach → ∃ i, x.length ≤ i ∧
      f.robustness .strict x.toTrajectory anchor = .error (.outOfRange i x.length)) ∧
    ∀ v, f.robustness .strict x.toTrajectory anchor = .ok v →
      ∀ y : Trajectory α, y.spacing = x.spacing → anchor + reach < y.length →
        (∀ signal ∈ f.signals, ∀ label ∈ signal.form.labels, ∀ i, anchor ≤ i →
          i ≤ anchor + reach → y.value ⟨label.name, i⟩ = x.value ⟨label.name, i⟩) →
        f.robustness .strict y anchor = .ok v := by
  have hahead : ∀ signal ∈ f.signals, signal.ReadsAhead x 0 := by
    intro signal hs label hlabel
    obtain ⟨hoffset, hcolumn⟩ := hlabels signal hs label hlabel
    exact ⟨by omega, by omega, hcolumn⟩
  refine ⟨fun hinside => Formula.exists_robustness_ahead hx hlen hahead hreach hinside,
    fun houtside => ?_, fun v hv y hspacing hy hagree => ?_⟩
  · refine Formula.evaluate_eq_error_of_reach (x := x.toTrajectory) hlen hreach houtside
      fun signal hs u e he => ?_
    by_cases hu : x.length ≤ u
    · unfold Trajectory.signalValue Trajectory.checkIndex at he
      rw [if_pos (show x.toTrajectory.length ≤ u from hu)] at he
      cases he
      exact ⟨u, hu, rfl⟩
    · obtain ⟨a, ha⟩ := hx.exists_signalValue hlen (hahead signal hs) (Nat.lt_of_not_le hu)
      cases ha.symm.trans he
  · have hdef := Formula.defined_of_valueAt (x := x.toTrajectory) hlen f anchor v
      (Formula.evaluate_eq_ok.mp hv).2
    have hinside : anchor + reach < x.length :=
      f.reach_lt_of_defined (x := x.toTrajectory) hlen anchor reach hreach
        (fun _ _ _ _ ha => Trajectory.lt_of_signalValue ha) hdef
    exact (Formula.robustness_local hlen hahead hreach hinside hspacing hy hagree).symm.trans hv

theorem threeSamples_column : ∃ column, threeSamples.column? "x" = some column :=
  ⟨#[.fin 1, .fin 2, .fin 3], by simp [threeSamples, SampledTrajectory.column?]⟩

/-- Anchored at the second of three samples the window of one step fits, at the third it does
not. -/
theorem horizon_exact_of_throughoutAboveTwo :
    throughoutAboveTwo.horizon threeSamples.spacing = .ok 1 ∧
      (∃ v, throughoutAboveTwo.robustness .strict threeSamples.toTrajectory 1 = .ok v) ∧
      ∃ i, 3 ≤ i ∧ throughoutAboveTwo.robustness .strict threeSamples.toTrajectory 2 =
        .error (.outOfRange i 3) := by
  have hreach : throughoutAboveTwo.horizon threeSamples.spacing = .ok 1 := by decide +kernel
  have hlabels : ∀ signal ∈ throughoutAboveTwo.signals, ∀ label ∈ signal.form.labels,
      label.offset = 0 ∧ ∃ column, threeSamples.column? label.name = some column := by
    intro signal hs label hlabel
    cases List.mem_singleton.mp hs
    cases List.mem_singleton.mp hlabel
    exact ⟨rfl, threeSamples_column⟩
  have hexact (anchor : Nat) := horizon_exact threeSamples_built (by decide) hlabels hreach anchor
  exact ⟨hreach, (hexact 1).1 (by decide), (hexact 2).2.1 (by decide)⟩

/-- **What the horizon leaves out** is how far predicates read ahead. If no label reaches more than
`distance` samples ahead, that many samples past the horizon are enough for a robustness, and later
ones have no influence. If every signal has a label which reaches that far, they are also needed. -/
theorem horizon_suffices_ahead [OrderedOffsets α] {x : SampledTrajectory α} (hx : x.Built)
    (hlen : x.length ≤ Index.last) {f : Formula α} {distance : Nat}
    (hlabels : ∀ signal ∈ f.signals, ∀ label ∈ signal.form.labels,
      0 ≤ label.offset ∧ label.offset ≤ distance ∧ ∃ column, x.column? label.name = some column)
    {reach : Nat} (hreach : f.horizon x.spacing = .ok reach) (anchor : Nat) :
    (anchor + reach + distance < x.length →
      (∃ v, f.robustness .strict x.toTrajectory anchor = .ok v) ∧
      ∀ y : Trajectory α, y.spacing = x.spacing → anchor + reach < y.length →
        (∀ signal ∈ f.signals, ∀ label ∈ signal.form.labels, ∀ i, anchor ≤ i →
          i ≤ anchor + reach + distance → y.value ⟨label.name, i⟩ = x.value ⟨label.name, i⟩) →
        f.robustness .strict y anchor = f.robustness .strict x.toTrajectory anchor) ∧
    ((∀ signal ∈ f.signals, ∃ label ∈ signal.form.labels, label.offset = distance) →
      ∀ v, f.robustness .strict x.toTrajectory anchor = .ok v →
        anchor + reach + distance < x.length) := by
  have hahead : ∀ signal ∈ f.signals, signal.ReadsAhead x distance := hlabels
  refine ⟨fun hinside => ⟨Formula.exists_robustness_ahead hx hlen hahead hreach hinside,
    fun y hspacing hy hagree => ?_⟩, fun hfar v hv => ?_⟩
  · exact (Formula.robustness_local hlen hahead hreach (by omega) hspacing hy hagree).symm
  · have hdef := Formula.defined_of_valueAt (x := x.toTrajectory) hlen f anchor v
      (Formula.evaluate_eq_ok.mp hv).2
    have hbefore : anchor + reach < x.length - distance :=
      f.reach_lt_of_defined (x := x.toTrajectory) hlen anchor reach hreach
        (fun signal hs u a ha => by
          obtain ⟨label, hlabel, hoffset⟩ := hfar signal hs
          have hlast := hx.lt_of_signalValue ha hlabel
          omega) hdef
    omega

/-- Two samples are enough for the horizon of `aheadThroughout`, three for its predicate. -/
theorem horizon_suffices_ahead_of_aheadThroughout :
    aheadThroughout.horizon threeSamples.spacing = .ok 1 ∧
      (∃ v, aheadThroughout.robustness .strict threeSamples.toTrajectory 0 = .ok v) ∧
      ∀ v, aheadThroughout.robustness .strict threeSamples.toTrajectory 1 ≠ .ok v := by
  have hreach : aheadThroughout.horizon threeSamples.spacing = .ok 1 := by decide +kernel
  have hlabels : ∀ signal ∈ aheadThroughout.signals, ∀ label ∈ signal.form.labels,
      0 ≤ label.offset ∧ label.offset ≤ (1 : Nat) ∧
        ∃ column, threeSamples.column? label.name = some column := by
    intro signal hs label hlabel
    cases List.mem_singleton.mp hs
    cases List.mem_singleton.mp hlabel
    exact ⟨by decide, by decide, threeSamples_column⟩
  have hfar : ∀ signal ∈ aheadThroughout.signals, ∃ label ∈ signal.form.labels,
      label.offset = (1 : Nat) := by
    intro signal hs
    cases List.mem_singleton.mp hs
    exact ⟨⟨"x", 1⟩, List.mem_singleton_self _, rfl⟩
  have hsuffices (anchor : Nat) :=
    horizon_suffices_ahead threeSamples_built (by decide) hlabels hreach anchor
  exact ⟨hreach, ((hsuffices 0).1 (by decide)).1,
    fun v hv => absurd ((hsuffices 1).2 hfar v hv) (by decide)⟩

/-- `x > 0` at the next sample. -/
def aheadOnce : Formula Exact :=
  .predicate ⟨0⟩ (.ofForm (.affine [(.fin 1, ⟨"x", 1⟩)] (.fin 0)))

/-- A table of one sample. -/
def oneSample : SampledTrajectory Exact :=
  ⟨.fin 1, some 1, (∅ : Std.TreeMap String (Array Exact)).insert "x" #[.fin 1]⟩

/-- The horizon of a predicate is zero, but one sample is not enough if its label looks ahead. -/
theorem horizon_misses_offset :
    oneSample.Built ∧ (∃ column, oneSample.column? "x" = some column) ∧
      aheadOnce.horizon oneSample.spacing = .ok 0 ∧ oneSample.length = 0 + 1 ∧
      aheadOnce.robustness .strict oneSample.toTrajectory 0 = .error (.outOfRange 1 1) := by
  have hadd : (SampledTrajectory.empty (.fin 1)).withSignal? "x" #[.fin 1] = .ok oneSample :=
    SampledTrajectory.withSignal?_eq_ok.mpr ⟨by decide, by simp [SampledTrajectory.empty], rfl⟩
  have hcolumn : oneSample.column? "x" = some #[.fin 1] := by
    simp [oneSample, SampledTrajectory.column?]
  exact ⟨.withSignal (.empty (.fin 1)) hadd, ⟨_, hcolumn⟩, by decide +kernel, rfl,
    by decide +kernel⟩

end Tables

end SignalTemporalLogic
