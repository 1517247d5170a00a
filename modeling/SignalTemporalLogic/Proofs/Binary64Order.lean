import Mathlib
import SignalTemporalLogic.Proofs.Binary64Offsets
import SignalTemporalLogic.Proofs.Origins

/-!
Binary64 numbers are ordered scalars. An unpacked number has a place in a linear order: first the five
kinds from one infinity to the other, then the exponent, then the mantissa, the last two turned around
for negative numbers. Comparing two numbers is comparing their places, both zeros having one place, and
a negation mirrors the place.
-/

namespace SignalTemporalLogic

namespace Binary64

open Float.Model (UnpackedFloat Format)
open Float.Model.UnpackedFloat (packComponents unpackExponent unpackMantissa unpackSign Sign)

/-! ## Places -/

/-- The place of a number in the order; NaN, which has none, is given that of the zeros. -/
def place : UnpackedFloat → ℤ ×ₗ ℤ ×ₗ ℤ
  | .infinity .negative => toLex (-2, toLex (0, 0))
  | .finite .negative m e _ => toLex (-1, toLex (-e, -m))
  | .notANumber | .zero _ => toLex (0, toLex (0, 0))
  | .finite .positive m e _ => toLex (1, toLex (e, m))
  | .infinity .positive => toLex (2, toLex (0, 0))

theorem compare_toLex {A B : Type} [LinearOrder A] [LinearOrder B] (a c : A) (b d : B) :
    compare (toLex (a, b)) (toLex (c, d)) = (compare a c).then (compare b d) := by
  simp [Prod.Lex.compare_def, compareLex, compareOn]

theorem compare_neg (a b : ℤ) : compare (-a) (-b) = (compare a b).swap := by
  rcases lt_trichotomy a b with h | rfl | h
  · rw [compare_lt_iff_lt.mpr h, compare_gt_iff_gt.mpr (neg_lt_neg h), Ordering.swap]
  · simp
  · rw [compare_gt_iff_gt.mpr h, compare_lt_iff_lt.mpr (neg_lt_neg h), Ordering.swap]

theorem compare_cast (m n : ℕ) : compare (m : ℤ) n = compare m n := by
  rcases lt_trichotomy m n with h | rfl | h
  · rw [compare_lt_iff_lt.mpr h, compare_lt_iff_lt.mpr (Int.ofNat_lt.mpr h)]
  · simp
  · rw [compare_gt_iff_gt.mpr h, compare_gt_iff_gt.mpr (Int.ofNat_lt.mpr h)]

/-- Two numbers compare as their places do. -/
theorem compare_eq {u v : UnpackedFloat} (hu : u ≠ .notANumber) (hv : v ≠ .notANumber) :
    u.compare v = some (compare (place u) (place v)) := by
  rcases u with (_ | _) | _ | _ | ⟨_ | _, m, e, _⟩ <;>
  rcases v with (_ | _) | _ | _ | ⟨_ | _, n, f, _⟩ <;>
  first
  | contradiction
  | simp only [place, compare_toLex, compare_neg, compare_cast, UnpackedFloat.compare,
      Ordering.swap_then]; rfl

theorem place_neg (u : UnpackedFloat) : place u.neg = -place u := by
  rcases u with (_ | _) | _ | _ | ⟨_ | _, _, _, _⟩
  case finite.negative m e _ =>
    show toLex (1, toLex (e, (m : ℤ))) = toLex (- -1, toLex (- -e, - -(m : ℤ)))
    simp
  all_goals rfl

/-! ## Comparing floats -/

theorem le_iff {x y : Float} : x ≤ y ↔ IsNumber x ∧ IsNumber y ∧
    place x.toModel.unpack ≤ place y.toModel.unpack := by
  have hle : x ≤ y ↔ (x.toModel.unpack.compare y.toModel.unpack).any (·.isLE) = true := by
    rw [show x ≤ y ↔ x.le y = true from Iff.rfl, Float.le, decide_eq_true_iff]
    exact Iff.rfl
  rw [hle]
  by_cases hx : x.toModel.unpack = .notANumber
  · simp [IsNumber, hx, UnpackedFloat.compare]
  by_cases hy : y.toModel.unpack = .notANumber
  · cases hu : x.toModel.unpack <;> simp [IsNumber, hy, UnpackedFloat.compare]
  rw [compare_eq hx hy, Option.any_some, Ordering.isLE_iff_ne_gt, ← ne_eq, compare_le_iff_le]
  exact ⟨fun h => ⟨hx, hy, h⟩, fun h => h.2.2⟩

theorem le_self_iff {x : Float} : x ≤ x ↔ IsNumber x := by
  rw [le_iff]
  exact ⟨And.left, fun h => ⟨h, h, le_rfl⟩⟩

theorem lt_iff_le_not_le {x y : Float} : x < y ↔ x ≤ y ∧ ¬ y ≤ x := by
  rw [lt_iff, le_iff, le_iff]
  by_cases hx : x.toModel.unpack = .notANumber
  · simp [IsNumber, hx, UnpackedFloat.compare]
  by_cases hy : y.toModel.unpack = .notANumber
  · cases hu : x.toModel.unpack <;> simp [IsNumber, hy, UnpackedFloat.compare]
  rw [compare_eq hx hy, Option.some_inj, compare_lt_iff_lt]
  exact ⟨fun h => ⟨⟨hx, hy, h.le⟩, fun k => h.not_ge k.2.2⟩,
    fun h => lt_of_not_ge fun k => h.2 ⟨hy, hx, k⟩⟩

/-! ## Negation -/

/-- The components of a float with the other sign unpack to its negation. -/
theorem unpack_packComponents_neg (x : Float) :
    UnpackedFloat.unpack .binary64 (packComponents .binary64
      (-Sign.ofBitVec (@unpackSign .binary64 x.toModel.toBits.toBitVec))
      (unpackExponent x.toModel.toBits.toBitVec) (unpackMantissa x.toModel.toBits.toBitVec)) =
      x.toModel.unpack.neg := by
  unfold Float.Model.unpack UnpackedFloat.unpack
  simp only [Float.Model.UnpackedFloat.unpackExponent_packComponents,
    Float.Model.UnpackedFloat.unpackMantissa_packComponents,
    Float.Model.UnpackedFloat.unpackSign_packComponents,
    Float.Model.UnpackedFloat.Sign.ofBitVec_toBitVec]
  split_ifs <;> rfl

theorem valid_of_unpack_ne {b : BitVec (Format.binary64).numBits}
    (h : UnpackedFloat.unpack .binary64 b ≠ .notANumber) : Format.binary64.Valid b := by
  refine ⟨fun hexponent hmantissa => absurd ?_ h⟩
  unfold UnpackedFloat.unpack
  rw [if_pos hexponent, if_neg hmantissa]

theorem unpack_neg (x : Float) : (-x).toModel.unpack = x.toModel.unpack.neg := by
  show UnpackedFloat.unpack .binary64 (UnpackedFloat.pack .binary64 x.toModel.unpack.neg) = _
  by_cases hnan : x.toModel.unpack = .notANumber
  · rw [hnan]
    exact Float.Model.UnpackedFloat.unpack_packedNaN
  · -- packing undoes unpacking, and the negation is what the components with the other sign give
    have hneg : x.toModel.unpack.neg ≠ .notANumber := by
      cases h : x.toModel.unpack with
      | notANumber => exact absurd h hnan
      | infinity | zero | finite => exact nofun
    rw [← unpack_packComponents_neg] at hneg ⊢
    rw [Float.Model.UnpackedFloat.pack_unpack_of_valid (valid_of_unpack_ne hneg)]

/-- A float is determined by what it unpacks to. -/
theorem eq_of_unpack_eq {x y : Float} (h : x.toModel.unpack = y.toModel.unpack) : x = y := by
  refine Float.toBits_inj.mp (UInt64.toBitVec_inj.mp ?_)
  exact (Float.Model.UnpackedFloat.unpack_inj_of_valid x.toModel.valid y.toModel.valid).mp h

theorem neg_involutive (x : Float) : - -x = x := by
  refine eq_of_unpack_eq ?_
  rw [unpack_neg, unpack_neg]
  rcases x.toModel.unpack with (_ | _) | _ | (_ | _) | ⟨_ | _, _, _, _⟩ <;> rfl

/-! ## The ends -/

theorem place_le (u : UnpackedFloat) : place u ≤ place (.infinity .positive) := by
  rcases u with (_ | _) | _ | _ | ⟨_ | _, _, _, _⟩ <;> simp [place, Prod.Lex.toLex_le_toLex]

theorem eq_infinity_of_place_le {u : UnpackedFloat}
    (h : place (.infinity .positive) ≤ place u) : u = .infinity .positive := by
  rcases u with (_ | _) | _ | _ | ⟨_ | _, _, _, _⟩ <;> simp_all [place, Prod.Lex.toLex_le_toLex]

theorem le_posInf {x : Float} (h : IsNumber x) : x ≤ Scalar.posInf :=
  le_iff.mpr ⟨h, nofun, place_le _⟩

theorem eq_posInf {x : Float} (h : Scalar.posInf ≤ x) : x = Scalar.posInf :=
  eq_of_unpack_eq (eq_infinity_of_place_le (le_iff.mp h).2.2)

theorem neg_antitone {x y : Float} (h : x ≤ y) : -y ≤ -x := by
  rw [le_iff] at h ⊢
  rw [unpack_neg, unpack_neg, place_neg, place_neg]
  exact ⟨h.2.1.neg, h.1.neg, neg_le_neg h.2.2⟩

theorem neg_posInf : -(Scalar.posInf : Float) = Scalar.negInf := by decide +kernel

end Binary64

open Binary64

instance : OrderedScalar Float where
  zero_le_zero := by decide +kernel
  le_left h := le_self_iff.mpr (le_iff.mp h).1
  le_right h := le_self_iff.mpr (le_iff.mp h).2.1
  le_trans h k :=
    le_iff.mpr ⟨(le_iff.mp h).1, (le_iff.mp k).2.1, (le_iff.mp h).2.2.trans (le_iff.mp k).2.2⟩
  le_total {a b} h k := by
    rw [le_self_iff] at h k
    rcases le_total (place a.toModel.unpack) (place b.toModel.unpack) with hle | hle
    · exact .inl (le_iff.mpr ⟨h, k, hle⟩)
    · exact .inr (le_iff.mpr ⟨k, h, hle⟩)
  lt_iff := lt_iff_le_not_le
  negInf_le {a} h := by
    have hle := neg_antitone (le_posInf (le_self_iff.mp h).neg)
    rwa [neg_posInf, neg_involutive] at hle
  le_posInf h := le_posInf (le_self_iff.mp h)
  eq_negInf {a} h := by
    rw [← neg_posInf] at h ⊢
    rw [← eq_posInf (neg_involutive Scalar.posInf ▸ neg_antitone h), neg_involutive]
  eq_posInf := eq_posInf
  neg_le_neg := neg_antitone

instance : SignedScalar Float where
  neg_zero_le := by decide +kernel
  zero_le_neg_zero := by decide +kernel
  zero_lt_posInf := by decide +kernel

instance : InvolutiveScalar Float where
  neg_neg := neg_involutive

end SignalTemporalLogic
