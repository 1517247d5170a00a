import Mathlib.Order.Bounds.Basic
import SignalTemporalLogic.Scalar.Exact
import SignalTemporalLogic.Robustness.Semantics

/-!
The order that scores are compared in. A number is what is comparable with itself: NaN aside, any two
are comparable and the infinities are the ends. Numbers that are equal in the order need not be the
same, since binary64 has two zeros. From the order come the two facts that evaluation rests on: a fold
of conjunctions is a least element, a fold of disjunctions a greatest one.
-/

namespace SignalTemporalLogic

/-- The laws of comparison and negation. -/
class OrderedScalar (α : Type) [Scalar α] : Prop where
  zero_le_zero : (0 : α) ≤ 0
  le_left {a b : α} : a ≤ b → a ≤ a
  le_right {a b : α} : a ≤ b → b ≤ b
  le_trans {a b c : α} : a ≤ b → b ≤ c → a ≤ c
  le_total {a b : α} : a ≤ a → b ≤ b → a ≤ b ∨ b ≤ a
  lt_iff {a b : α} : a < b ↔ a ≤ b ∧ ¬ b ≤ a
  negInf_le {a : α} : a ≤ a → Scalar.negInf ≤ a
  le_posInf {a : α} : a ≤ a → a ≤ Scalar.posInf
  eq_negInf {a : α} : a ≤ Scalar.negInf → a = Scalar.negInf
  eq_posInf {a : α} : Scalar.posInf ≤ a → a = Scalar.posInf
  neg_le_neg {a b : α} : a ≤ b → -b ≤ -a

/-- Zero lies below the upper end, and negation leaves it where it is. -/
class SignedScalar (α : Type) [Scalar α] : Prop extends OrderedScalar α where
  neg_zero_le : -(0 : α) ≤ 0
  zero_le_neg_zero : 0 ≤ -(0 : α)
  zero_lt_posInf : (0 : α) < Scalar.posInf

/-! ## Exact numbers -/

namespace Exact

theorem le_def {a b : Exact} : a ≤ b ↔ a.AtMost b := Iff.rfl

theorem lt_def {a b : Exact} : a < b ↔ a.Below b := Iff.rfl

theorem neg_def {a : Exact} : -a = a.neg := rfl

@[simp] theorem zero_def : (0 : Exact) = fin 0 := rfl

@[simp] theorem one_def : (1 : Exact) = fin 1 := rfl

@[simp] theorem posInf_def : (Scalar.posInf : Exact) = posInf := rfl

@[simp] theorem negInf_def : (Scalar.negInf : Exact) = negInf := rfl

instance : OrderedScalar Exact where
  zero_le_zero := Rat.le_refl
  le_left {a b} h := by cases a <;> cases b <;> simp_all [le_def, AtMost]
  le_right {a b} h := by cases a <;> cases b <;> simp_all [le_def, AtMost]
  le_trans {a b c} h k := by
    cases a <;> cases b <;> cases c <;> simp_all [le_def, AtMost]
    exact Rat.le_trans h k
  le_total {a b} h k := by
    cases a <;> cases b <;> simp_all [le_def, AtMost]
    exact Rat.le_total
  lt_iff {a b} := by
    cases a <;> cases b
    case fin.fin x y =>
      simp only [le_def, lt_def, AtMost, Below]
      exact Rat.lt_iff_le_and_not_ge
    all_goals simp [le_def, lt_def, AtMost, Below]
  negInf_le {a} h := by cases a <;> simp_all [le_def, AtMost]
  le_posInf {a} h := by cases a <;> simp_all [le_def, AtMost]
  eq_negInf {a} h := by cases a <;> simp_all [le_def, AtMost]
  eq_posInf {a} h := by cases a <;> simp_all [le_def, AtMost]
  neg_le_neg {a b} h := by
    cases a <;> cases b <;> simp_all [le_def, neg_def, AtMost, neg]

instance : SignedScalar Exact where
  neg_zero_le := Rat.le_refl
  zero_le_neg_zero := Rat.le_refl
  zero_lt_posInf := trivial

theorem le_antisymm {a b : Exact} (h : a ≤ b) (k : b ≤ a) : a = b := by
  cases a <;> cases b <;> simp_all [le_def, AtMost]
  exact Rat.le_antisymm h k

end Exact

/-! ## Semantics whose connectives choose an operand -/

/-- A conjunction chooses the lesser and a disjunction the greater of two values, and those of
nothing are the ends. Only `valid` values have to be comparable. -/
structure Semantics.Ordered {α Y : Type} [LE Y] (S : Semantics α Y) (valid : Y → Prop) : Prop where
  refl {a : Y} : valid a → a ≤ a
  trans {a b c : Y} : a ≤ b → b ≤ c → a ≤ c
  and_eq {a b : Y} : valid a → valid b → S.and a b = a ∧ a ≤ b ∨ S.and a b = b ∧ b ≤ a
  or_eq {a b : Y} : valid a → valid b → S.or a b = a ∧ b ≤ a ∨ S.or a b = b ∧ a ≤ b
  valid_always : valid S.always
  valid_eventually : valid S.eventually
  eq_always {a : Y} : S.always ≤ a → a = S.always
  eq_eventually {a : Y} : a ≤ S.eventually → a = S.eventually
  valid_not {a : Y} : valid a → valid (S.not a)
  not_le_not {a b : Y} : a ≤ b → S.not b ≤ S.not a

/-- A fold that goes on with one of two values, related to both, ends with one of all values,
related to all. -/
theorem foldl_chooses {Y : Type} {valid : Y → Prop} {r : Y → Y → Prop} {choose : Y → Y → Y}
    (refl : ∀ {a}, valid a → r a a) (trans : ∀ {a b c}, r a b → r b c → r a c)
    (chooses : ∀ {a b}, valid a → valid b → choose a b = a ∧ r a b ∨ choose a b = b ∧ r b a)
    (values : List Y) (first : Y) (hfirst : valid first) (hvalues : ∀ v ∈ values, valid v) :
    values.foldl choose first ∈ first :: values ∧
      ∀ v ∈ first :: values, r (values.foldl choose first) v := by
  induction values generalizing first with
  | nil => simpa using refl hfirst
  | cons second rest ih =>
    have hsecond : valid second := hvalues second (by simp)
    have hrest : ∀ v ∈ rest, valid v := fun v hv => hvalues v (by simp [hv])
    simp only [List.foldl_cons]
    rcases chooses hfirst hsecond with ⟨he, hr⟩ | ⟨he, hr⟩ <;> rw [he]
    · obtain ⟨hmem, hall⟩ := ih first hfirst hrest
      refine ⟨by simp only [List.mem_cons] at hmem ⊢; tauto, ?_⟩
      intro v hv
      rcases List.mem_cons.mp hv with rfl | hv
      · exact hall v (by simp)
      · rcases List.mem_cons.mp hv with rfl | hv
        · exact trans (hall first (by simp)) hr
        · exact hall v (by simp [hv])
    · obtain ⟨hmem, hall⟩ := ih second hsecond hrest
      refine ⟨List.mem_cons_of_mem _ hmem, ?_⟩
      intro v hv
      rcases List.mem_cons.mp hv with rfl | hv
      · exact trans (hall second (by simp)) hr
      · exact hall v hv

namespace Semantics.Ordered

variable {α Y : Type} [LE Y] {S : Semantics α Y} {valid : Y → Prop}

theorem and_isLeast (h : S.Ordered valid) {a b : Y} (ha : valid a) (hb : valid b) :
    IsLeast {a, b} (S.and a b) := by
  rcases h.and_eq ha hb with ⟨he, hr⟩ | ⟨he, hr⟩ <;> rw [he]
  · exact ⟨by simp, by rintro v (rfl | rfl); exacts [h.refl ha, hr]⟩
  · exact ⟨by simp, by rintro v (rfl | rfl); exacts [hr, h.refl hb]⟩

/-- The conjunction of some values is the least of them. -/
theorem all_isLeast (h : S.Ordered valid) {values : List Y} (hne : values ≠ [])
    (hvalues : ∀ v ∈ values, valid v) : IsLeast {v | v ∈ values} (S.all values) := by
  obtain ⟨hmem, hall⟩ := foldl_chooses (r := (· ≤ ·)) h.refl h.trans h.and_eq values S.always
    h.valid_always hvalues
  refine ⟨?_, fun v hv => hall v (List.mem_cons_of_mem _ hv)⟩
  rcases List.mem_cons.mp hmem with he | hmem
  · -- only values at the upper end leave the start value standing
    obtain ⟨v, hv⟩ := List.exists_mem_of_ne_nil values hne
    have hle : S.always ≤ v := he ▸ hall v (List.mem_cons_of_mem _ hv)
    have heq : S.all values = v := he.trans (h.eq_always hle).symm
    exact heq ▸ hv
  · exact hmem

/-- The disjunction of some values is the greatest of them. -/
theorem any_isGreatest (h : S.Ordered valid) {values : List Y} (hne : values ≠ [])
    (hvalues : ∀ v ∈ values, valid v) : IsGreatest {v | v ∈ values} (S.any values) := by
  obtain ⟨hmem, hall⟩ := foldl_chooses (r := fun a b => b ≤ a) h.refl (fun p q => h.trans q p)
    h.or_eq values S.eventually h.valid_eventually hvalues
  refine ⟨?_, fun v hv => hall v (List.mem_cons_of_mem _ hv)⟩
  rcases List.mem_cons.mp hmem with he | hmem
  · obtain ⟨v, hv⟩ := List.exists_mem_of_ne_nil values hne
    have hle : v ≤ S.eventually := he ▸ hall v (List.mem_cons_of_mem _ hv)
    have heq : S.any values = v := he.trans (h.eq_eventually hle).symm
    exact heq ▸ hv
  · exact hmem

/-- The conjunction of any values is valid, that of no values included. -/
theorem valid_all (h : S.Ordered valid) {values : List Y} (hvalues : ∀ v ∈ values, valid v) :
    valid (S.all values) := by
  by_cases hne : values = []
  · exact hne ▸ h.valid_always
  · exact hvalues _ (h.all_isLeast hne hvalues).1

/-- The conjunction of a value with that of others, if there are any, is the least of them all. -/
theorem and_all_isLeast (h : S.Ordered valid) {a : Y} {values : List Y} (ha : valid a)
    (hvalues : ∀ v ∈ values, valid v) :
    IsLeast (insert a {v | v ∈ values}) (S.and a (S.all values)) := by
  by_cases hne : values = []
  · subst hne
    have hleast : IsLeast {a} a := ⟨rfl, by rintro v rfl; exact h.refl ha⟩
    have hand : S.and a S.always = a := by
      rcases h.and_eq ha h.valid_always with ⟨he, -⟩ | ⟨he, hle⟩
      · exact he
      · exact he.trans (h.eq_always hle).symm
    simpa [all, hand] using hleast
  · have hand := h.and_isLeast ha (h.valid_all hvalues)
    have hleast := h.all_isLeast hne hvalues
    constructor
    · rcases hand.1 with he | he
      · exact Or.inl he
      · exact Or.inr (Set.mem_of_eq_of_mem he hleast.1)
    · rintro v (rfl | hv)
      · exact hand.2 (by simp)
      · exact h.trans (hand.2 (by simp)) (hleast.2 hv)

end Semantics.Ordered

/-! ## The two readings of a formula -/

theorem quantitative_ordered {α : Type} [Scalar α] [OrderedScalar α] :
    (Semantics.quantitative : Semantics α α).Ordered (fun a => a ≤ a) where
  refl := id
  trans := OrderedScalar.le_trans
  and_eq {a b} ha hb := by
    simp only [Semantics.quantitative, Scalar.min, Scalar.IsNaN, ha, hb, not_true, if_false,
      OrderedScalar.lt_iff]
    split
    · next h => exact .inr ⟨rfl, h.1⟩
    · next h => exact .inl ⟨rfl, by rcases OrderedScalar.le_total ha hb with k | k <;> tauto⟩
  or_eq {a b} ha hb := by
    simp only [Semantics.quantitative, Scalar.max, Scalar.IsNaN, ha, hb, not_true, if_false,
      OrderedScalar.lt_iff]
    split
    · next h => exact .inr ⟨rfl, h.1⟩
    · next h => exact .inl ⟨rfl, by rcases OrderedScalar.le_total ha hb with k | k <;> tauto⟩
  valid_always := OrderedScalar.le_right (OrderedScalar.le_posInf OrderedScalar.zero_le_zero)
  valid_eventually := OrderedScalar.le_left (OrderedScalar.negInf_le OrderedScalar.zero_le_zero)
  eq_always := OrderedScalar.eq_posInf
  eq_eventually := OrderedScalar.eq_negInf
  valid_not := OrderedScalar.neg_le_neg
  not_le_not := OrderedScalar.neg_le_neg

theorem qualitative_ordered {α : Type} [Scalar α] :
    (Semantics.qualitative : Semantics α Bool).Ordered (fun _ => True) where
  refl _ := Bool.le_refl _
  trans := Bool.le_trans
  and_eq {a b} _ _ := by cases a <;> cases b <;> simp [Semantics.qualitative]
  or_eq {a b} _ _ := by cases a <;> cases b <;> simp [Semantics.qualitative]
  valid_always := trivial
  valid_eventually := trivial
  eq_always {a} h := h rfl
  eq_eventually {a} h := by
    cases a with
    | false => rfl
    | true => exact absurd (h rfl) Bool.false_ne_true
  valid_not _ := trivial
  not_le_not {a b} h := by cases a <;> cases b <;> simp_all [Semantics.qualitative]

end SignalTemporalLogic
