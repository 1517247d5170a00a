import Mathlib
import SignalTemporalLogic.Proofs.Horizons
import SignalTemporalLogic.Scalar.Binary64

/-!
Binary64 times keep their order when they become sample offsets. The comparison of two numbers is by
exponent first, which is right for the form that unpacking gives: mantissas have full length unless
the exponent is the least one. The only other thing to see is that no NaN comes up, since it would
compare with nothing and count as offset zero.
-/

namespace SignalTemporalLogic

namespace Binary64

open Float.Model (UnpackedFloat)
open Float.Model.UnpackedFloat (packComponents unpackExponent unpackMantissa roundWithAccuracy)

/-! ## Numbers -/

/-- Anything but NaN. -/
def IsNumber (x : Float) : Prop := x.toModel.unpack ≠ .notANumber

theorem lt_iff {x y : Float} :
    x < y ↔ x.toModel.unpack.compare y.toModel.unpack = some .lt := by
  rw [show x < y ↔ x.lt y = true from Iff.rfl, Float.lt, decide_eq_true_iff]
  exact beq_iff_eq

/-- What is below another float is a number. -/
theorem isNumber_of_lt {x y : Float} (h : x < y) : IsNumber x := by
  intro hnan
  rw [lt_iff, hnan] at h
  cases h

theorem unpack_packComponents_ne {sign : UnpackedFloat.Sign} {e : BitVec 11} {m : BitVec 52}
    (h : e = -1#_ → m = 0#_) :
    UnpackedFloat.unpack .binary64 (packComponents .binary64 sign e m) ≠ .notANumber := by
  unfold UnpackedFloat.unpack
  simp only [Float.Model.UnpackedFloat.unpackExponent_packComponents,
    Float.Model.UnpackedFloat.unpackMantissa_packComponents]
  split
  · rename_i he
    rw [if_pos (h he)]
    exact nofun
  · split
    · split <;> exact nofun
    · exact nofun

/-- Packing makes no NaN: the exponent of a finite number is never the one that marks a NaN. -/
theorem unpack_pack_ne {u : UnpackedFloat} (h : u ≠ .notANumber) :
    (Float.Model.pack u).unpack ≠ .notANumber := by
  show UnpackedFloat.unpack .binary64 (UnpackedFloat.pack .binary64 u) ≠ _
  cases u with
  | notANumber => exact absurd rfl h
  | infinity sign => exact unpack_packComponents_ne fun _ => rfl
  | zero sign => exact unpack_packComponents_ne fun _ => rfl
  | finite sign m e hm =>
    unfold UnpackedFloat.pack
    dsimp only
    split
    · exact unpack_packComponents_ne fun _ => rfl
    · rename_i hexponent
      split
      · refine unpack_packComponents_ne fun he => ?_
        have := congrArg BitVec.toNat he
        simp at this hexponent
        omega
      · exact unpack_packComponents_ne fun he => absurd he (by decide)

theorem roundWithAccuracy_ne {format : Float.Model.Format} {sign : UnpackedFloat.Sign} {m : Nat}
    {e : Int} {accuracy : UnpackedFloat.Accuracy} :
    roundWithAccuracy format sign m e accuracy ≠ .notANumber := by
  unfold roundWithAccuracy
  dsimp only
  split <;> exact nofun

theorem IsNumber.neg {x : Float} (h : IsNumber x) : IsNumber (-x) := by
  refine unpack_pack_ne ?_
  unfold IsNumber at h
  cases hx : x.toModel.unpack with
  | notANumber => exact absurd hx h
  | infinity | zero | finite => exact nofun

/-- Dividing a number by one that is neither zero nor infinite makes no NaN. -/
theorem div_finite_ne {format : Float.Model.Format} {u : UnpackedFloat} (h : u ≠ .notANumber)
    {sign : UnpackedFloat.Sign} {m : Nat} {e : Int} {hm : 0 < m} :
    UnpackedFloat.div format u (.finite sign m e hm) ≠ .notANumber := by
  cases u with
  | notANumber => exact absurd rfl h
  | infinity | zero => exact nofun
  | finite => exact roundWithAccuracy_ne

theorem mul_finite_ne {format : Float.Model.Format} {u : UnpackedFloat} (h : u ≠ .notANumber)
    {sign : UnpackedFloat.Sign} {m : Nat} {e : Int} {hm : 0 < m} :
    UnpackedFloat.mul format u (.finite sign m e hm) ≠ .notANumber := by
  cases u with
  | notANumber => exact absurd rfl h
  | infinity | zero => exact nofun
  | finite => exact roundWithAccuracy_ne

theorem ofScientific_ne {format : Float.Model.Format} {m : Nat} {e : Int} :
    UnpackedFloat.ofScientific format m e ≠ .notANumber := by
  unfold UnpackedFloat.ofScientific
  split
  · exact nofun
  split
  · exact nofun
  split
  · exact nofun
  split
  · exact roundWithAccuracy_ne
  · exact roundWithAccuracy_ne

theorem exists_finite_of_pos {x : Float} (hpos : 0 < x) (hlt : x < Scalar.posInf) :
    ∃ m e hm, x.toModel.unpack = .finite .positive m e hm := by
  rw [lt_iff, show (0 : Float).toModel.unpack = .zero .positive from rfl] at hpos
  rw [lt_iff, show (Scalar.posInf : Float).toModel.unpack = .infinity .positive from rfl] at hlt
  cases hx : x.toModel.unpack with
  | notANumber => rw [hx] at hpos; cases hpos
  | infinity sign => rw [hx] at hlt hpos; cases sign <;> contradiction
  | zero sign => rw [hx] at hpos; cases hpos
  | finite sign m e hm =>
    cases sign with
    | negative => rw [hx] at hpos; cases hpos
    | positive => exact ⟨m, e, hm, rfl⟩

/-- Whole numbers of any size become numbers, the infinity at worst. -/
theorem isNumber_ofNat (n : Nat) : IsNumber (Float.ofNat n) := by
  show IsNumber (Float.ofScientific n false 0)
  unfold Float.ofScientific
  split
  · have hnumber : IsNumber n.toUInt64.toFloat := by
      refine unpack_pack_ne ?_
      unfold UnpackedFloat.ofUInt64 UnpackedFloat.ofNat UnpackedFloat.ofInt UnpackedFloat.normalize
      split
      · exact roundWithAccuracy_ne
      · exact nofun
      · exact roundWithAccuracy_ne
    obtain ⟨_, _, _, hone⟩ := exists_finite_of_pos (x := Float.exactlyRepresentablePowersOfTen[0])
      (by decide +kernel) (by decide +kernel)
    refine unpack_pack_ne ?_
    rw [hone]
    exact mul_finite_ne hnumber
  · exact unpack_pack_ne ofScientific_ne

theorem IsNumber.round {x : Float} (h : IsNumber x) : IsNumber (round x) := by
  unfold Binary64.round
  split
  · split
    · exact h
    · rename_i sign m e hm _ _
      cases sign with
      | negative => exact (isNumber_ofNat _).neg
      | positive => exact isNumber_ofNat _
  · exact h

/-! ## Whole parts -/

theorem wholeBelow_mono {m n : Nat} (h : m ≤ n) (e : Int) : wholeBelow m e ≤ wholeBelow n e := by
  unfold wholeBelow
  split
  · rw [Nat.shiftLeft_eq, Nat.shiftLeft_eq]
    exact Nat.mul_le_mul_right _ h
  · rw [Nat.shiftRight_eq_div_pow, Nat.shiftRight_eq_div_pow]
    exact Nat.div_le_div_right h

theorem wholeBelow_double (m : Nat) (e : Int) : wholeBelow (2 * m) e = wholeBelow m (e + 1) := by
  unfold wholeBelow
  by_cases h : 0 ≤ e
  · rw [if_pos h, if_pos (by omega), show (e + 1).toNat = e.toNat + 1 by omega, Nat.shiftLeft_eq,
      Nat.shiftLeft_eq, Nat.pow_succ]
    ring
  · rw [if_neg h]
    obtain ⟨k, hk⟩ : ∃ k, (-e).toNat = k + 1 := ⟨(-e).toNat - 1, by omega⟩
    rw [hk, Nat.shiftRight_eq_div_pow, Nat.pow_succ', Nat.mul_div_mul_left _ _ (by decide)]
    split
    · rw [show k = 0 by omega, show (e + 1).toNat = 0 by omega, Nat.shiftLeft_zero, Nat.pow_zero,
        Nat.div_one]
    · rw [show (-(e + 1)).toNat = k by omega, Nat.shiftRight_eq_div_pow]

theorem wholeBelow_mono_exponent (m : Nat) (e : Int) (k : Nat) :
    wholeBelow m e ≤ wholeBelow m (e + k) := by
  induction k with
  | zero => simp
  | succ k ih =>
    have hnext := wholeBelow_double m (e + k)
    have hmono := wholeBelow_mono (show m ≤ 2 * m by omega) (e + k)
    rw [show e + ((k + 1 : Nat) : Int) = e + k + 1 by omega]
    omega

theorem toNat_one_append {w : Nat} (v : BitVec w) : (1#1 ++ v).toNat = 2 ^ w + v.toNat := by
  rw [BitVec.toNat_append, ← Nat.shiftLeft_add_eq_or_of_lt v.isLt, Nat.shiftLeft_eq]
  simp

/-- What unpacking gives has a full mantissa unless its exponent is the least one. -/
theorem unpack_normal {x : Float} {sign : UnpackedFloat.Sign} {m : Nat} {e : Int} {hm : 0 < m}
    (h : x.toModel.unpack = .finite sign m e hm) :
    m < 2 ^ 53 ∧ -1074 ≤ e ∧ (2 ^ 52 ≤ m ∨ e = -1074) := by
  have hbias : (Float.Model.Format.binary64.exponentBias : Int) = 1023 := rfl
  have hbits : (Float.Model.Format.binary64.mantissaBitsWithoutImplicit : Int) = 52 := rfl
  unfold Float.Model.unpack UnpackedFloat.unpack at h
  dsimp only at h
  rw [hbias, hbits] at h
  have hmantissa : (@unpackMantissa .binary64 x.toModel.toBits.toBitVec).toNat < 2 ^ 52 :=
    (@unpackMantissa .binary64 x.toModel.toBits.toBitVec).isLt
  split at h
  · split at h <;> cases h
  split at h
  case isTrue hzero =>
    split at h
    · cases h
    · have hexponent := congrArg BitVec.toNat hzero
      cases h
      simp only [BitVec.toNat_ofNat] at hexponent
      omega
  case isFalse hzero =>
    have hexponent : (@unpackExponent .binary64 x.toModel.toBits.toBitVec).toNat ≠ 0 :=
      fun he => hzero (BitVec.eq_of_toNat_eq he)
    have hfull : (1#1 ++ @unpackMantissa .binary64 x.toModel.toBits.toBitVec).toNat =
        2 ^ 52 + (@unpackMantissa .binary64 x.toModel.toBits.toBitVec).toNat :=
      toNat_one_append _
    cases h
    omega

/-- Of two positive finite numbers the one that is not greater has the smaller whole part. -/
theorem wholeBelow_le {x y : Float} {m n : Nat} {e f : Int} {hm : 0 < m} {hn : 0 < n}
    (hx : x.toModel.unpack = .finite .positive m e hm)
    (hy : y.toModel.unpack = .finite .positive n f hn) (h : ¬ y < x) :
    wholeBelow m e ≤ wholeBelow n f := by
  obtain ⟨hshort, hleast, -⟩ := unpack_normal hx
  obtain ⟨-, -, hfull⟩ := unpack_normal hy
  rw [lt_iff, hx, hy] at h
  have hcompare : (compare f e).then (compare n m) ≠ .lt := fun he => h (congrArg some he)
  rcases Int.lt_trichotomy e f with hlt | rfl | hgt
  · -- the greater exponent makes up for a mantissa that is less than half as large
    have hhalf : m ≤ 2 * n := by omega
    have hexponent : f = e + 1 + ((f - e - 1).toNat : Nat) := by omega
    calc wholeBelow m e ≤ wholeBelow (2 * n) e := wholeBelow_mono hhalf e
      _ = wholeBelow n (e + 1) := wholeBelow_double n e
      _ ≤ wholeBelow n f := hexponent ▸ wholeBelow_mono_exponent n (e + 1) _
  · have hle : m ≤ n := by
      by_contra hgt
      exact hcompare (by simp [Ordering.then, Nat.compare_eq_lt.mpr (Nat.lt_of_not_le hgt)])
    exact wholeBelow_mono hle e
  · exact absurd (by simp [Ordering.then, Int.compare_eq_lt.mpr hgt]) hcompare

theorem toIndex_mono {x y : Float} (hy : IsNumber y) (h : ¬ y < x) : toIndex x ≤ toIndex y := by
  unfold IsNumber at hy
  have hcompare : y.toModel.unpack.compare x.toModel.unpack ≠ some .lt :=
    fun he => h (lt_iff.mpr he)
  unfold toIndex
  cases hx : x.toModel.unpack with
  | notANumber | zero => exact Nat.zero_le _
  | infinity sign =>
    cases sign with
    | negative => exact Nat.zero_le _
    | positive =>
      rw [hx] at hcompare
      cases hy' : y.toModel.unpack with
      | infinity sign' => cases sign' <;> simp_all [UnpackedFloat.compare, compare]
      | notANumber | zero | finite => simp_all [UnpackedFloat.compare]
  | finite sign m e hm =>
    cases sign with
    | negative => exact Nat.zero_le _
    | positive =>
      rw [hx] at hcompare
      cases hy' : y.toModel.unpack with
      | infinity sign' => cases sign' <;> simp_all [UnpackedFloat.compare]
      | notANumber | zero => simp_all [UnpackedFloat.compare]
      | finite sign' n f hn =>
        cases sign' with
        | negative => simp_all [UnpackedFloat.compare]
        | positive =>
          have hle := wholeBelow_le hx hy' h
          simp only
          omega

end Binary64

instance : OrderedOffsets Float where
  le_of_discretize {interval spacing lo hi} h := by
    obtain ⟨⟨⟨-, hfinite⟩, hpositive⟩, hordered, rfl, rfl⟩ := TimeInterval.discretize_eq_ok.mp h
    obtain ⟨_, _, _, hspacing⟩ := Binary64.exists_finite_of_pos hpositive hfinite
    have hstop : Binary64.IsNumber interval.stop := Binary64.isNumber_of_lt interval.finite_stop.2
    have hquotient : Binary64.IsNumber (interval.stop / spacing) := by
      refine Binary64.unpack_pack_ne ?_
      rw [hspacing]
      exact Binary64.div_finite_ne hstop
    exact Binary64.toIndex_mono hquotient.round hordered

end SignalTemporalLogic
