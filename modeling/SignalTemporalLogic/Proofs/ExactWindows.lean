import SignalTemporalLogic.Proofs.Horizons

/-!
Where windows end, over exact numbers. A time goes to the nearest sample offset, a half away from
zero, and offsets stop at the last index. In a domain of 64-bit indices a sum that has stopped lies
outside, so the window of an interval is the one that natural numbers give: no end is shifted, and
no window that runs past the domain is taken for one inside.
-/

namespace SignalTemporalLogic

namespace Exact

/-! ## Rounding -/

/-- The whole number is as near to the rational as any, and away from zero where two are as near. -/
structure RoundsTo (q : Rat) (n : Int) : Prop where
  near : |q - n| ≤ 1 / 2
  away : |q - n| = 1 / 2 → |q| ≤ |(n : Rat)|

theorem nearest_roundsTo (q : Rat) : RoundsTo q (nearest q) := by
  unfold nearest
  split
  · next hq =>
    have hle : ((q + 1 / 2).floor : Rat) ≤ q + 1 / 2 := Rat.floor_le _
    have hlt : q + 1 / 2 < (q + 1 / 2).floor + 1 := by exact_mod_cast Rat.lt_floor_add_one _
    refine ⟨abs_le.mpr ⟨by linarith, by linarith⟩, fun htie => ?_⟩
    rcases (abs_eq (by norm_num)).mp htie with h | h
    · linarith
    · rw [abs_of_nonneg hq, abs_of_nonneg] <;> linarith
  · next hq =>
    have hle : q - 1 / 2 ≤ ((q - 1 / 2).ceil : Rat) := Rat.le_ceil
    have hlt : ((q - 1 / 2).ceil : Rat) < q - 1 / 2 + 1 := Rat.ceil_lt
    have hneg : q < 0 := not_le.mp hq
    refine ⟨abs_le.mpr ⟨by linarith, by linarith⟩, fun htie => ?_⟩
    rcases (abs_eq (by norm_num)).mp htie with h | h
    · rw [abs_of_neg hneg, abs_of_nonpos] <;> linarith
    · linarith

namespace RoundsTo

variable {q r : Rat} {m n : Int}

/-- Rounding keeps order. Two numbers in the wrong order would both lie a half from the numbers they
are rounded to, and one of the two is rounded towards zero. -/
theorem mono (hqr : q ≤ r) (hq : RoundsTo q m) (hr : RoundsTo r n) : m ≤ n := by
  by_contra hlt
  have hstep : (n : Rat) + 1 ≤ m := by exact_mod_cast not_le.mp hlt
  obtain ⟨hqlow, hqhigh⟩ := abs_le.mp hq.near
  obtain ⟨hrlow, hrhigh⟩ := abs_le.mp hr.near
  have hm : q - m = -(1 / 2) := by linarith
  have hn : r - n = 1 / 2 := by linarith
  have hqaway := hq.away (by rw [hm]; norm_num)
  have hraway := hr.away (by rw [hn]; norm_num)
  rcases lt_or_ge n 0 with hsign | hsign
  · have hm' : (m : Rat) ≤ 0 := by
      have hn' : (n : Rat) + 1 ≤ 0 := by exact_mod_cast hsign
      linarith
    rw [abs_of_nonpos hm', abs_of_nonpos (by linarith)] at hqaway
    linarith
  · have hn' : (0 : Rat) ≤ n := by exact_mod_cast hsign
    rw [abs_of_nonneg hn', abs_of_nonneg (by linarith)] at hraway
    linarith

theorem unique (hm : RoundsTo q m) (hn : RoundsTo q n) : m = n :=
  Int.le_antisymm (hm.mono le_rfl hn) (hn.mono le_rfl hm)

theorem nonneg (hq : 0 ≤ q) (hm : RoundsTo q m) : 0 ≤ m :=
  mono hq ⟨by norm_num, by norm_num⟩ hm

end RoundsTo

theorem exists_round {q : Rat} (hq : 0 ≤ q) :
    ∃ n : Nat, RoundsTo q n ∧ Scalar.round (fin q) = fin n := by
  obtain ⟨n, hn⟩ := Int.eq_ofNat_of_zero_le ((nearest_roundsTo q).nonneg hq)
  refine ⟨n, hn ▸ nearest_roundsTo q, ?_⟩
  rw [round_fin, hn]
  norm_cast

theorem toIndex_natCast (n : Nat) : Scalar.toIndex (fin n) = min n Index.last := by
  have hfloor : (n : Rat).floor = n := by exact_mod_cast Rat.floor_intCast n
  show min (n : Rat).floor.toNat Index.last = _
  rw [hfloor, Int.toNat_natCast]

/-! ## Quotients -/

variable {x y spacing : Exact}

theorem fin_toRat (h : Scalar.IsFinite x) : fin x.toRat = x := by
  obtain ⟨a, rfl⟩ := isFinite_iff.mp h
  rfl

theorem toRat_le_toRat (hx : Scalar.IsFinite x) (hy : Scalar.IsFinite y) (h : ¬ y < x) :
    x.toRat ≤ y.toRat := by
  rw [← fin_toRat hx, ← fin_toRat hy] at h
  exact not_lt.mp h

theorem toRat_pos (h : Scalar.IsPositiveFinite spacing) : 0 < spacing.toRat := by
  have hpositive := h.2
  rw [← fin_toRat h.1] at hpositive
  exact hpositive

theorem div_eq_fin (hx : Scalar.IsFinite x) (h : Scalar.IsPositiveFinite spacing) :
    x / spacing = fin (x.toRat / spacing.toRat) := by
  rw [← fin_div_fin (toRat_pos h).ne', fin_toRat hx, fin_toRat h.1]

end Exact

open Exact (RoundsTo)

/-! ## Offsets -/

namespace TimeInterval

variable {spacing : Exact}

/-- **The offsets of an interval are its times in samples, rounded**, and they stop at the last
index. They are never out of order. -/
theorem discretize_roundsTo (interval : TimeInterval Exact)
    (hspacing : Scalar.IsPositiveFinite spacing) :
    ∃ m n : Nat, RoundsTo (interval.start.toRat / spacing.toRat) m ∧
      RoundsTo (interval.stop.toRat / spacing.toRat) n ∧ m ≤ n ∧
      interval.discretize spacing = .ok (min m Index.last, min n Index.last) := by
  have hstep := (Exact.toRat_pos hspacing).le
  have hstart : 0 ≤ interval.start.toRat / spacing.toRat := div_nonneg
    (Exact.toRat_le_toRat Exact.isFinite_fin interval.finite_start interval.start_nonneg) hstep
  have hle : interval.start.toRat / spacing.toRat ≤ interval.stop.toRat / spacing.toRat :=
    div_le_div_of_nonneg_right (Exact.toRat_le_toRat interval.finite_start interval.finite_stop
      interval.start_le_stop) hstep
  obtain ⟨m, hm, hround⟩ := Exact.exists_round hstart
  obtain ⟨n, hn, hround'⟩ := Exact.exists_round (hstart.trans hle)
  have hmn : m ≤ n := by exact_mod_cast hm.mono hle hn
  refine ⟨m, n, hm, hn, hmn, discretize_eq_ok.mpr ⟨hspacing, ?_⟩⟩
  rw [Exact.div_eq_fin interval.finite_start hspacing, Exact.div_eq_fin interval.finite_stop hspacing,
    hround, hround', Exact.toIndex_natCast, Exact.toIndex_natCast]
  exact ⟨not_lt.mpr (Nat.cast_le.mpr hmn : (m : Rat) ≤ n), rfl, rfl⟩

/-- The offsets of an interval lie between those of an interval that contains it. -/
theorem discretize_within {inner outer : TimeInterval Exact} {lo hi lo' hi' : Nat}
    (hspacing : Scalar.IsPositiveFinite spacing) (hstart : outer.start ≤ inner.start)
    (hstop : inner.stop ≤ outer.stop) (hinner : inner.discretize spacing = .ok (lo, hi))
    (houter : outer.discretize spacing = .ok (lo', hi')) : lo' ≤ lo ∧ hi ≤ hi' := by
  obtain ⟨m, n, hm, hn, -, hoffsets⟩ := inner.discretize_roundsTo hspacing
  obtain ⟨m', n', hm', hn', -, hoffsets'⟩ := outer.discretize_roundsTo hspacing
  cases hinner.symm.trans hoffsets
  cases houter.symm.trans hoffsets'
  have hstep := (Exact.toRat_pos hspacing).le
  have hfirst : m' ≤ m := by
    exact_mod_cast hm'.mono (div_le_div_of_nonneg_right (Exact.toRat_le_toRat outer.finite_start
      inner.finite_start fun h => (OrderedScalar.lt_iff.mp h).2 hstart) hstep) hm
  have hlast : n ≤ n' := by
    exact_mod_cast hn.mono (div_le_div_of_nonneg_right (Exact.toRat_le_toRat inner.finite_stop
      outer.finite_stop fun h => (OrderedScalar.lt_iff.mp h).2 hstop) hstep) hn'
  omega

end TimeInterval

/-! ## Windows -/

namespace WindowPolicy

variable {anchor lo hi length : Nat}

theorem strict_resolve_past (hle : lo ≤ hi) (hlen : length ≤ Index.last)
    (hpast : length ≤ anchor + hi) :
    strict.resolve anchor lo hi length =
      .error (.outOfRange (Index.saturatingAdd anchor hi) length) := by
  have hstopped : length ≤ Index.saturatingAdd anchor hi := Nat.le_min.mpr ⟨hpast, hlen⟩
  simp only [resolve, hle, hstopped, if_true, dif_pos]

theorem clamp_resolve_past (hle : lo ≤ hi) (hlen : length ≤ Index.last)
    (hpast : length ≤ anchor + lo) : clamp.resolve anchor lo hi length = .error .clippedEmpty := by
  have hstopped : length ≤ Index.saturatingAdd anchor lo := Nat.le_min.mpr ⟨hpast, hlen⟩
  simp only [resolve, hle, hstopped, dif_pos]

theorem window_eq_mapError {interval : TimeInterval Exact} {spacing : Exact} (policy : WindowPolicy)
    (h : interval.discretize spacing = .ok (lo, hi)) :
    policy.window interval spacing anchor length =
      (policy.resolve anchor lo hi length).mapError (·.fault interval.start interval.stop) := by
  simp [window, h, bind, Except.bind]

end WindowPolicy

namespace TimeInterval

/-- What becomes of the interval that lies `lo` to `hi` samples after the anchor, with sums of
natural numbers: the strict policy wants all of it in the domain, the clamp policy its start. -/
structure ResolvesTo (interval : TimeInterval Exact) (spacing : Exact)
    (anchor length lo hi : Nat) : Prop where
  offsets : interval.discretize spacing = .ok (lo, hi)
  ordered : lo ≤ hi
  strict_inside : anchor + hi < length →
    ∃ w, WindowPolicy.strict.window interval spacing anchor length = .ok w ∧
      w.first = anchor + lo ∧ w.last = anchor + hi
  strict_past : length ≤ anchor + hi →
    WindowPolicy.strict.window interval spacing anchor length =
      .error (.outOfRange (Index.saturatingAdd anchor hi) length)
  clamp_inside : anchor + lo < length →
    ∃ w, WindowPolicy.clamp.window interval spacing anchor length = .ok w ∧
      ∀ u, u ∈ w ↔ anchor + lo ≤ u ∧ u ≤ anchor + hi ∧ u < length
  clamp_past : length ≤ anchor + lo →
    WindowPolicy.clamp.window interval spacing anchor length =
      .error (.bounds interval.start interval.stop .clippedEmpty)

variable {interval : TimeInterval Exact} {spacing : Exact} {anchor length lo hi : Nat}

theorem resolvesTo (hlen : length ≤ Index.last) (hle : lo ≤ hi)
    (h : interval.discretize spacing = .ok (lo, hi)) :
    interval.ResolvesTo spacing anchor length lo hi where
  offsets := h
  ordered := hle
  strict_inside hinside := by
    have hlast : anchor + hi = min (anchor + hi) (length - 1) := by omega
    exact ⟨⟨anchor + lo, anchor + hi, by omega⟩, WindowPolicy.window_eq_ok.mpr ⟨lo, hi, h,
      (WindowPolicy.resolve_eq_ok hlen).mpr ⟨hle, by omega, fun _ => hinside, rfl, hlast⟩⟩, rfl, rfl⟩
  strict_past hpast := by
    rw [WindowPolicy.strict.window_eq_mapError h,
      WindowPolicy.strict_resolve_past hle hlen hpast]
    rfl
  clamp_inside hinside := by
    refine ⟨⟨anchor + lo, min (anchor + hi) (length - 1), by omega⟩, WindowPolicy.window_eq_ok.mpr
      ⟨lo, hi, h, (WindowPolicy.resolve_eq_ok hlen).mpr ⟨hle, hinside, nofun, rfl, rfl⟩⟩, fun u => ?_⟩
    show anchor + lo ≤ u ∧ u ≤ min (anchor + hi) (length - 1) ↔ _
    omega
  clamp_past hpast := by
    rw [WindowPolicy.clamp.window_eq_mapError h, WindowPolicy.clamp_resolve_past hle hlen hpast]
    rfl

/-- A window holds the windows of the intervals inside, whatever the policy, if both are there. -/
theorem window_within {policy : WindowPolicy} {inner outer : TimeInterval Exact} {w w' : Window}
    (hspacing : Scalar.IsPositiveFinite spacing) (hlen : length ≤ Index.last)
    (hstart : outer.start ≤ inner.start) (hstop : inner.stop ≤ outer.stop)
    (hw : policy.window inner spacing anchor length = .ok w)
    (hw' : policy.window outer spacing anchor length = .ok w') : ∀ u ∈ w, u ∈ w' := by
  obtain ⟨lo, hi, hoffsets, hr⟩ := WindowPolicy.window_eq_ok.mp hw
  obtain ⟨lo', hi', hoffsets', hr'⟩ := WindowPolicy.window_eq_ok.mp hw'
  obtain ⟨hlo, hhi⟩ := discretize_within hspacing hstart hstop hoffsets hoffsets'
  obtain ⟨-, -, -, hfirst, hlast⟩ := (WindowPolicy.resolve_eq_ok hlen).mp hr
  obtain ⟨-, -, -, hfirst', hlast'⟩ := (WindowPolicy.resolve_eq_ok hlen).mp hr'
  intro u hu
  rw [Window.mem_def] at hu ⊢
  omega

end TimeInterval

/-- **Windows are exact.** The ends of an interval go to the nearest sample offsets, a half away from
zero, as far as there are indices; the offsets are in order, and at every anchor of a domain of
64-bit indices both policies give what they say of the sums of natural numbers. A window holds those
of the intervals inside. -/
theorem window_resolution_exact (interval : TimeInterval Exact) {spacing : Exact}
    (hspacing : Scalar.IsPositiveFinite spacing) (anchor : Nat) {length : Nat}
    (hlen : length ≤ Index.last) :
    (∃ m n : Nat, RoundsTo (interval.start.toRat / spacing.toRat) m ∧
      RoundsTo (interval.stop.toRat / spacing.toRat) n ∧
      interval.ResolvesTo spacing anchor length (min m Index.last) (min n Index.last)) ∧
    ∀ (policy : WindowPolicy) (outer : TimeInterval Exact) (w w' : Window),
      outer.start ≤ interval.start → interval.stop ≤ outer.stop →
      policy.window interval spacing anchor length = .ok w →
      policy.window outer spacing anchor length = .ok w' → ∀ u ∈ w, u ∈ w' := by
  refine ⟨?_, fun policy outer w w' hstart hstop hw hw' =>
    TimeInterval.window_within hspacing hlen hstart hstop hw hw'⟩
  obtain ⟨m, n, hm, hn, hmn, hoffsets⟩ := interval.discretize_roundsTo hspacing
  exact ⟨m, n, hm, hn, TimeInterval.resolvesTo hlen (by omega) hoffsets⟩

/-- From half a time unit to two and a half. -/
def TimeInterval.betweenHalves : TimeInterval Exact :=
  ⟨.fin (1 / 2), .fin (5 / 2), by decide, by decide, by decide +kernel, by decide +kernel⟩

def TimeInterval.betweenQuarters : TimeInterval Exact :=
  ⟨.fin (1 / 4), .fin (13 / 4), by decide, by decide, by decide +kernel, by decide +kernel⟩

/-- Both halves go up, so five samples hold the window at sample one, inside that between the
quarters, but not the one at sample two. -/
theorem window_resolution_exact_of_halves :
    Scalar.IsPositiveFinite (.fin 1 : Exact) ∧ 5 ≤ Index.last ∧
      TimeInterval.betweenHalves.ResolvesTo (.fin 1) 1 5 1 3 ∧
      TimeInterval.betweenHalves.ResolvesTo (.fin 1) 2 5 1 3 ∧
      ∃ w w', WindowPolicy.strict.window .betweenHalves (.fin 1 : Exact) 1 5 = .ok w ∧
        WindowPolicy.strict.window .betweenQuarters (.fin 1 : Exact) 1 5 = .ok w' ∧ ∀ u ∈ w, u ∈ w' := by
  have hspacing : Scalar.IsPositiveFinite (.fin 1 : Exact) := by decide +kernel
  have hlen : 5 ≤ Index.last := by decide
  have hresolves (anchor : Nat) :
      TimeInterval.betweenHalves.ResolvesTo (.fin 1) anchor 5 1 3 := by
    obtain ⟨⟨m, n, hm, hn, h⟩, -⟩ :=
      window_resolution_exact .betweenHalves hspacing anchor hlen
    have hfirst : Exact.nearest ((1 / 2) / 1) = 1 := by decide +kernel
    have hlast : Exact.nearest ((5 / 2) / 1) = 3 := by decide +kernel
    obtain rfl : m = 1 := by exact_mod_cast (hm.unique (Exact.nearest_roundsTo _)).trans hfirst
    obtain rfl : n = 3 := by exact_mod_cast (hn.unique (Exact.nearest_roundsTo _)).trans hlast
    exact h
  have hwider : TimeInterval.betweenQuarters.ResolvesTo (.fin 1) 1 5 0 3 :=
    TimeInterval.resolvesTo hlen (by decide) (by decide +kernel)
  obtain ⟨w, hw, -⟩ := (hresolves 1).strict_inside (by decide)
  obtain ⟨w', hw', -⟩ := hwider.strict_inside (by decide)
  exact ⟨hspacing, hlen, hresolves 1, hresolves 2, w, w', hw, hw',
    (window_resolution_exact .betweenHalves hspacing 1 hlen).2 .strict .betweenQuarters w w'
      (by decide +kernel) (by decide +kernel) hw hw'⟩

end SignalTemporalLogic
