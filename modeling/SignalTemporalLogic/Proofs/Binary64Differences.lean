import Mathlib
import SignalTemporalLogic.Proofs.Binary64Order
import SignalTemporalLogic.Proofs.WholeScalars

/-!
Differences of binary64 numbers. One that comes out as zero is a difference of equal numbers, however
close two numbers are: both are multiples of the spacing at the lesser exponent, so what is left of them
is a multiple of it too, and rounding takes only low digits away from a mantissa that has too many.
-/

namespace SignalTemporalLogic

namespace Binary64

open Float.Model (UnpackedFloat Format totalExponent)
open Float.Model.UnpackedFloat (Accuracy ExtendedMantissa Sign packComponents roundWithAccuracy
  shiftToExponent shiftToTargetExponent decreaseExponent)

/-! ## Rounding leaves something -/

theorem mantissa_shiftRight (em : ExtendedMantissa) (k : Nat) :
    (em >>> k).mantissa = em.mantissa / 2 ^ k := by
  induction k with
  | zero => exact (Nat.div_one _).symm
  | succ k ih =>
    show (em >>> k).mantissa / 2 = _
    rw [ih, Nat.div_div_eq_div_mul, Nat.pow_succ]

theorem mantissa_ofMantissaAndAccuracy (m : Nat) (accuracy : Accuracy) :
    (ExtendedMantissa.ofMantissaAndAccuracy m accuracy).mantissa = m := by
  rcases accuracy with _ | (_ | _ | _) <;> rfl

theorem mantissa_le_roundedMantissa (em : ExtendedMantissa) : em.mantissa ≤ em.roundedMantissa := by
  unfold ExtendedMantissa.roundedMantissa
  rcases em.accuracy with _ | (_ | _ | _) <;> simp [Accuracy.roundToNearestEven]

/-- A mantissa is cut to 53 digits, or not at all at the least exponent. -/
theorem targetExponent_eq (total : Int) :
    Format.binary64.targetExponent total = max (total - 53) (-1074) := rfl

/-- The shift to the target exponent leaves a mantissa of at most 53 digits, not all of them zero. -/
theorem shiftToTargetExponent_mantissa {m : Nat} {e : Int} (hm : 0 < m) (he : -1074 ≤ e)
    (accuracy : Accuracy) :
    0 < (shiftToTargetExponent .binary64 m e accuracy).1.mantissa ∧
      (shiftToTargetExponent .binary64 m e accuracy).1.mantissa < 2 ^ 53 ∧
      -1074 ≤ (shiftToTargetExponent .binary64 m e accuracy).2 := by
  unfold shiftToTargetExponent shiftToExponent
  dsimp only
  rw [mantissa_shiftRight, mantissa_ofMantissaAndAccuracy, targetExponent_eq, totalExponent]
  have hlow : 2 ^ m.log2 ≤ m := Nat.log2_self_le hm.ne'
  have hhigh : m < 2 ^ (m.log2 + 1) := Nat.lt_log2_self
  refine ⟨?_, ?_, by omega⟩
  · refine Nat.div_pos (hlow.trans' (Nat.pow_le_pow_right (by decide) ?_)) (Nat.two_pow_pos _)
    omega
  · rw [Nat.div_lt_iff_lt_mul (Nat.two_pow_pos _), ← Nat.pow_add]
    exact hhigh.trans_le (Nat.pow_le_pow_right (by decide) (by omega))

theorem roundWithAccuracy_finite (sign : Sign) {m : Nat} {e : Int} (hm : 0 < m) (he : -1074 ≤ e)
    (accuracy : Accuracy) : ∃ n f hn, roundWithAccuracy .binary64 sign m e accuracy =
      .finite sign n f hn ∧ n < 2 ^ 53 ∧ -1074 ≤ f := by
  obtain ⟨hpos, -, hexponent⟩ := shiftToTargetExponent_mantissa hm he accuracy
  have hrounded := hpos.trans_le (mantissa_le_roundedMantissa _)
  obtain ⟨hpos', hshort, hleast⟩ := shiftToTargetExponent_mantissa hrounded hexponent .exact
  exact ⟨_, _, hpos', dif_neg hpos'.ne', hshort, hleast⟩

theorem round_finite (sign : Sign) {m : Nat} {e : Int} (hm : 0 < m) (he : -1074 ≤ e) :
    ∃ n f hn, UnpackedFloat.round .binary64 sign m e = .finite sign n f hn ∧ n < 2 ^ 53 ∧
      -1074 ≤ f := by
  refine roundWithAccuracy_finite sign ?_ ?_ _
  · rw [Nat.shiftLeft_eq]
    exact Nat.mul_pos hm (Nat.two_pow_pos _)
  · rw [targetExponent_eq]
    omega

/-! ## Packing leaves something -/

theorem unpack_packComponents_zero {sign sign' : Sign} {e : BitVec 11} {m : BitVec 52}
    (h : UnpackedFloat.unpack .binary64 (packComponents .binary64 sign e m) = .zero sign') :
    e = 0#11 ∧ m = 0#52 := by
  unfold UnpackedFloat.unpack at h
  simp only [Float.Model.UnpackedFloat.unpackExponent_packComponents,
    Float.Model.UnpackedFloat.unpackMantissa_packComponents] at h
  split at h
  · split at h <;> cases h
  · rename_i he
    split at h
    · rename_i he
      split at h
      · rename_i hm
        exact ⟨he, hm⟩
      · cases h
    · cases h

/-- A mantissa that fits does not vanish when it is packed. -/
theorem unpack_pack_finite_ne_zero {sign sign' : Sign} {m : Nat} {e : Int} {hm : 0 < m}
    (hshort : m < 2 ^ 53) (he : -1074 ≤ e) :
    UnpackedFloat.unpack .binary64 (UnpackedFloat.pack .binary64 (.finite sign m e hm)) ≠
      .zero sign' := by
  have hbias : (Format.binary64.exponentBias : Int) = 1023 := rfl
  intro h
  unfold UnpackedFloat.pack at h
  dsimp only at h
  split at h
  · exact absurd (unpack_packComponents_zero h).1 (by decide)
  · rename_i hlarge
    split at h
    · -- the exponent of a normal number is packed as a positive one
      have hexponent := congrArg BitVec.toNat (unpack_packComponents_zero h).1
      simp only [BitVec.toNat_ofNat, hbias] at hexponent hlarge
      omega
    · rename_i hdigits
      have hmantissa := congrArg BitVec.toNat (unpack_packComponents_zero h).2
      have hlog : m.log2 < 53 := (Nat.log2_lt hm.ne').mpr hshort
      have hlog' : m.log2 < 52 := by
        have hwidth : Format.binary64.mantissaBits = 53 := rfl
        omega
      rw [BitVec.toNat_ofNat, BitVec.toNat_ofNat, Nat.mod_eq_of_lt ((Nat.log2_lt hm.ne').mp hlog')]
        at hmantissa
      omega

/-! ## Differences that are zero -/

theorem unpack_sub (x y : Float) : (x - y).toModel.unpack = UnpackedFloat.unpack .binary64
    (UnpackedFloat.pack .binary64 (UnpackedFloat.sub .binary64 x.toModel.unpack y.toModel.unpack)) :=
  rfl

theorem unpack_add (x y : Float) : (x + y).toModel.unpack = UnpackedFloat.unpack .binary64
    (UnpackedFloat.pack .binary64 (UnpackedFloat.add .binary64 x.toModel.unpack y.toModel.unpack)) :=
  rfl

/-- Packing loses nothing of what unpacking gave. -/
theorem unpack_pack_unpack (x : Float) : UnpackedFloat.unpack .binary64
    (UnpackedFloat.pack .binary64 x.toModel.unpack) = x.toModel.unpack :=
  congrArg _ (Float.Model.UnpackedFloat.pack_unpack_of_valid x.toModel.valid)

theorem orderEq_iff {x y : Float} : OrderEq x y ↔
    IsNumber x ∧ IsNumber y ∧ place x.toModel.unpack = place y.toModel.unpack := by
  rw [OrderEq, le_iff, le_iff, le_antisymm_iff]
  tauto

theorem isNumber_of_zero {x : Float} {sign : Sign} (h : x.toModel.unpack = .zero sign) :
    IsNumber x := by
  simp [IsNumber, h]

theorem isNumber_of_finite {x : Float} {sign : Sign} {m : Nat} {e : Int} {hm : 0 < m}
    (h : x.toModel.unpack = .finite sign m e hm) : IsNumber x := by
  simp [IsNumber, h]

theorem isZero_iff {x : Float} : Scalar.IsZero x ↔ ∃ sign, x.toModel.unpack = .zero sign := by
  have hzero : (0 : Float).toModel.unpack = .zero .positive := rfl
  rw [Scalar.IsZero, ← OrderEq, orderEq_iff]
  constructor
  · rintro ⟨hx, -, h⟩
    rw [hzero] at h
    rcases hu : x.toModel.unpack with (_ | _) | _ | sign | ⟨_ | _, _, _, _⟩
    case zero => exact ⟨sign, rfl⟩
    case notANumber => exact absurd hu hx
    all_goals simp [hu, place] at h
  · rintro ⟨sign, h⟩
    exact ⟨isNumber_of_zero h, isNumber_of_zero hzero, by rw [h, hzero]; rfl⟩

theorem unpack_pack_zero (sign : Sign) :
    UnpackedFloat.unpack .binary64 (UnpackedFloat.pack .binary64 (.zero sign)) = .zero sign := by
  cases sign <;> rfl

/-- A number that is packed again stays equal, even if it is a zero that has changed its sign. -/
theorem orderEq_of_unpack {x y : Float} {u : UnpackedFloat} (hx : IsNumber x)
    (hy : y.toModel.unpack = UnpackedFloat.unpack .binary64 (UnpackedFloat.pack .binary64 u))
    (hu : u = x.toModel.unpack ∨
      (∃ sign, x.toModel.unpack = .zero sign) ∧ ∃ sign, u = .zero sign) : OrderEq y x := by
  rw [orderEq_iff]
  rcases hu with rfl | ⟨⟨s, hs⟩, t, rfl⟩
  · rw [unpack_pack_unpack] at hy
    exact ⟨fun h => hx (hy ▸ h), hx, congrArg place hy⟩
  · rw [unpack_pack_zero] at hy
    exact ⟨isNumber_of_zero hy, hx, by rw [hy, hs]; rfl⟩

theorem sub_zero {x z : Float} (hz : Scalar.IsZero z) (hx : IsNumber x) : OrderEq (x - z) x := by
  obtain ⟨sign, hz⟩ := isZero_iff.mp hz
  refine orderEq_of_unpack hx (unpack_sub x z) ?_
  rw [hz]
  rcases x.toModel.unpack with _ | _ | s | _
  case zero => cases s <;> cases sign <;> exact .inr ⟨⟨_, rfl⟩, _, rfl⟩
  all_goals exact .inl rfl

theorem add_zero {x z : Float} (hz : Scalar.IsZero z) (hx : IsNumber x) : OrderEq (x + z) x := by
  obtain ⟨sign, hz⟩ := isZero_iff.mp hz
  refine orderEq_of_unpack hx (unpack_add x z) ?_
  rw [hz]
  rcases x.toModel.unpack with _ | _ | s | _
  case zero => cases s <;> cases sign <;> exact .inr ⟨⟨_, rfl⟩, _, rfl⟩
  all_goals exact .inl rfl

/-- Mantissas that are brought to the lesser of two exponents stay different. -/
theorem eq_of_aligned {x y : Float} {s t : Sign} {m n : Nat} {e f : Int} {hm : 0 < m} {hn : 0 < n}
    (hx : x.toModel.unpack = .finite s m e hm) (hy : y.toModel.unpack = .finite t n f hn)
    (h : m <<< (e - min e f).toNat = n <<< (f - min e f).toNat) : m = n ∧ e = f := by
  obtain ⟨hshort, hleast, hfull⟩ := unpack_normal hx
  obtain ⟨hshort', hleast', hfull'⟩ := unpack_normal hy
  rw [Nat.shiftLeft_eq, Nat.shiftLeft_eq] at h
  rcases lt_trichotomy e f with hlt | rfl | hgt
  · -- a full mantissa at the greater exponent is longer than any at the lesser one
    have hdouble : 2 ≤ 2 ^ (f - min e f).toNat := Nat.le_self_pow (by omega) 2
    rw [show (e - min e f).toNat = 0 by omega] at h
    have := Nat.mul_le_mul_left n hdouble
    omega
  · simpa using h
  · have hdouble : 2 ≤ 2 ^ (e - min e f).toNat := Nat.le_self_pow (by omega) 2
    rw [show (f - min e f).toNat = 0 by omega] at h
    have := Nat.mul_le_mul_left m hdouble
    omega

theorem unpack_pack_normalize_ne_zero {d e : Int} (hd : d ≠ 0) (he : -1074 ≤ e) (sign : Sign) :
    UnpackedFloat.unpack .binary64
      (UnpackedFloat.pack .binary64 (UnpackedFloat.normalize .binary64 d e .positive)) ≠
        .zero sign := by
  unfold UnpackedFloat.normalize
  split
  · rename_i h
    have hneg := compare_lt_iff_lt.mp h
    obtain ⟨n, f, hn, hround, hshort, hleast⟩ :=
      round_finite .negative (m := (-d).toNat) (by omega) he
    rw [hround]
    exact unpack_pack_finite_ne_zero hshort hleast
  · rename_i h
    exact absurd (compare_eq_iff_eq.mp h) hd
  · rename_i h
    have hpos := compare_gt_iff_gt.mp h
    obtain ⟨n, f, hn, hround, hshort, hleast⟩ :=
      round_finite .positive (m := d.toNat) (by omega) he
    rw [hround]
    exact unpack_pack_finite_ne_zero hshort hleast

/-- An infinity and NaN stay what they are. -/
theorem unpack_pack_ne_zero {u : UnpackedFloat} (hu : u = .notANumber ∨ ∃ s, u = .infinity s)
    (sign : Sign) :
    UnpackedFloat.unpack .binary64 (UnpackedFloat.pack .binary64 u) ≠ .zero sign := by
  have hsame : UnpackedFloat.unpack .binary64 (UnpackedFloat.pack .binary64 u) = u := by
    rcases hu with rfl | ⟨_ | _, rfl⟩
    · exact Float.Model.UnpackedFloat.unpack_packedNaN
    · rfl
    · rfl
  rw [hsame]
  rcases hu with rfl | ⟨s, rfl⟩ <;> simp

theorem apply_inj {s t : Sign} {m n : Nat} (hm : 0 < m) (hn : 0 < n)
    (h : s.apply m = t.apply n) : s = t ∧ m = n := by
  cases s <;> cases t <;> simp only [Sign.apply] at h
  case negative.negative | positive.positive => exact ⟨rfl, by omega⟩
  all_goals omega

theorem eq_of_sub_eq_zero {x y : Float} (h : Scalar.IsZero (x - y)) : OrderEq x y := by
  obtain ⟨sign, h⟩ := isZero_iff.mp h
  rw [unpack_sub] at h
  have hpackx := unpack_pack_unpack x
  have hpacky := unpack_pack_unpack (-y)
  rw [unpack_neg] at hpacky
  rw [orderEq_iff]
  rcases hx : x.toModel.unpack with s | _ | s | ⟨s, m, e, hm⟩ <;>
    rcases hy : y.toModel.unpack with t | _ | t | ⟨t, n, f, hn⟩ <;> rw [hx, hy] at h
  case zero.zero => exact ⟨isNumber_of_zero hx, isNumber_of_zero hy, rfl⟩
  case finite.zero => cases (hx ▸ hpackx).symm.trans h
  case zero.finite => cases (hy ▸ hpacky).symm.trans h
  case finite.finite =>
    obtain ⟨-, hleast, -⟩ := unpack_normal hx
    obtain ⟨-, hleast', -⟩ := unpack_normal hy
    have hdiff : s.apply ↑(m <<< (e - min e f).toNat) = t.apply ↑(n <<< (f - min e f).toNat) := by
      by_contra hne
      exact unpack_pack_normalize_ne_zero (sub_ne_zero.mpr hne) (by omega) sign h
    obtain ⟨rfl, halign⟩ := apply_inj (by simpa [Nat.shiftLeft_eq] using hm)
      (by simpa [Nat.shiftLeft_eq] using hn) hdiff
    obtain ⟨rfl, rfl⟩ := eq_of_aligned hx hy halign
    exact ⟨isNumber_of_finite hx, isNumber_of_finite hy, rfl⟩
  case infinity.infinity =>
    refine absurd h (unpack_pack_ne_zero ?_ sign)
    simp only [UnpackedFloat.sub]
    split_ifs
    · exact .inr ⟨s, rfl⟩
    · exact .inl rfl
  all_goals exact absurd h (unpack_pack_ne_zero (by simp [UnpackedFloat.sub]) sign)

/-! ## Rounding from zero to one -/

/-- At most one is one, or less than one with at least 53 digits after the point. -/
theorem exponent_of_le_one {x : Float} {m : Nat} {e : Int} {hm : 0 < m}
    (hx : x.toModel.unpack = .finite .positive m e hm) (h : x ≤ 1) :
    e ≤ -53 ∨ e = -52 ∧ m = 2 ^ 52 := by
  have hone : (1 : Float).toModel.unpack = .finite .positive (2 ^ 52) (-52) (by decide) := rfl
  have hplace := (le_iff.mp h).2.2
  rw [hx, hone] at hplace
  simp only [place, Prod.Lex.toLex_le_toLex] at hplace
  obtain ⟨-, -, hfull⟩ := unpack_normal hx
  omega

theorem wholeNearest_le_one {m : Nat} {e : Int} (hm : m < 2 ^ 53)
    (he : e ≤ -53 ∨ e = -52 ∧ m = 2 ^ 52) : wholeNearest m e ≤ 1 := by
  rcases he with he | ⟨rfl, rfl⟩
  · have hpow : 2 ^ 53 ≤ 2 ^ (-e).toNat := Nat.pow_le_pow_right (by decide) (by omega)
    have hhalf : 2 ^ ((-e).toNat - 1) * 2 = 2 ^ (-e).toNat := by
      rw [← Nat.pow_succ]
      congr 1
      omega
    rw [wholeNearest, if_neg (by omega), Nat.shiftRight_eq_div_pow, Nat.shiftLeft_eq]
    refine Nat.le_of_lt_succ ((Nat.div_lt_iff_lt_mul (Nat.two_pow_pos _)).mpr ?_)
    omega
  · decide

/-- A number from zero to one is rounded to one of them. -/
theorem round_unit {x : Float} (h0 : 0 ≤ x) (h1 : x ≤ 1) :
    OrderEq (round x) 0 ∨ OrderEq (round x) 1 := by
  by_cases hzero : x ≤ 0
  · obtain ⟨sign, hsign⟩ := isZero_iff.mp ⟨hzero, h0⟩
    refine .inl ?_
    rw [round, hsign]
    exact ⟨hzero, h0⟩
  have hfinite : x < Scalar.posInf := lt_iff_le_not_le.mpr
    ⟨OrderedScalar.le_trans h1 (by decide +kernel),
      fun h => absurd (OrderedScalar.le_trans h h1) (by decide +kernel)⟩
  obtain ⟨m, e, hm, hx⟩ := exists_finite_of_pos (lt_iff_le_not_le.mpr ⟨h0, hzero⟩) hfinite
  have he := exponent_of_le_one hx h1
  have hround : round x = Float.ofNat (wholeNearest m e) := by
    rw [round, hx]
    exact if_neg (by omega)
  rw [hround, OrderEq, OrderEq]
  rcases Nat.le_one_iff_eq_zero_or_eq_one.mp (wholeNearest_le_one (unpack_normal hx).1 he) with h | h
  · exact .inl (h ▸ by decide +kernel)
  · exact .inr (h ▸ by decide +kernel)

end Binary64

instance : WholeScalar Float where
  zero_le_one := by decide +kernel
  sub_zero hz ha := Binary64.sub_zero hz (Binary64.le_self_iff.mp ha)
  add_zero hz ha := Binary64.add_zero hz (Binary64.le_self_iff.mp ha)
  eq_of_sub_eq_zero := Binary64.eq_of_sub_eq_zero
  round_unit := Binary64.round_unit

end SignalTemporalLogic
