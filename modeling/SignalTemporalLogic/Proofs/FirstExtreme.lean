import SignalTemporalLogic.Extremum
import SignalTemporalLogic.Proofs.ScalarOrder

/-!
The first extreme of a list of numbers. Going through a list with a strict comparison finds the
value that a fold of minima or maxima ends with, the very same one of several equal ones, and the
first position that has it.
-/

namespace SignalTemporalLogic.Extremum

variable {α : Type} [Scalar α]

/-- At least as close to the extreme. -/
def AtLeast : Extremum → α → α → Prop
  | min, a, b => a ≤ b
  | max, a, b => b ≤ a

/-- The one of two values that is closer to the extreme. -/
def join : Extremum → α → α → α
  | min => Scalar.min
  | max => Scalar.max

/-- The score is the best of the values, at position `i` and nowhere before. -/
structure Attains (e : Extremum) (values : List α) (i : Nat) (score : α) : Prop where
  value_at : values[i]? = some score
  best : ∀ v ∈ values, e.AtLeast score v
  leftmost : ∀ j < i, ∀ v, values[j]? = some v → e.Better score v

/-! ## Comparison -/

variable {e : Extremum} {a b c : α}

theorem atLeast_refl (ha : a ≤ a) : e.AtLeast a a := by
  cases e <;> exact ha

theorem join_eq (ha : a ≤ a) (hb : b ≤ b) : e.join a b = if e.Better b a then b else a := by
  cases e <;> simp only [join, Scalar.min, Scalar.max, Scalar.IsNaN, ha, hb, not_true, if_false] <;>
    rfl

theorem join_number (ha : a ≤ a) (hb : b ≤ b) : e.join a b ≤ e.join a b := by
  rw [join_eq ha hb]
  split
  · exact hb
  · exact ha

theorem foldl_join_number (ha : a ≤ a) {values : List α} (hvalues : ∀ v ∈ values, v ≤ v) :
    values.foldl e.join a ≤ values.foldl e.join a := by
  induction values generalizing a with
  | nil => exact ha
  | cons v rest ih =>
    exact ih (join_number ha (hvalues v (by simp))) fun u hu => hvalues u (by simp [hu])

variable [OrderedScalar α]

theorem better_iff : e.Better a b ↔ e.AtLeast a b ∧ ¬ e.AtLeast b a := by
  cases e <;> exact OrderedScalar.lt_iff

theorem AtLeast.trans (h : e.AtLeast a b) (k : e.AtLeast b c) : e.AtLeast a c := by
  cases e
  · exact OrderedScalar.le_trans h k
  · exact OrderedScalar.le_trans k h

theorem atLeast_of_not_better (ha : a ≤ a) (hb : b ≤ b) (h : ¬ e.Better b a) : e.AtLeast a b := by
  by_contra hab
  refine h (better_iff.mpr ⟨?_, hab⟩)
  cases e
  · exact (OrderedScalar.le_total ha hb).resolve_left hab
  · exact (OrderedScalar.le_total ha hb).resolve_right hab

theorem Better.trans_atLeast (h : e.Better a b) (k : e.AtLeast b c) : e.Better a c := by
  rw [better_iff] at h ⊢
  exact ⟨h.1.trans k, fun hca => h.2 (k.trans hca)⟩

theorem identity_number : (e.identity : α) ≤ e.identity := by
  cases e
  · exact quantitative_ordered.valid_always
  · exact quantitative_ordered.valid_eventually

/-- Nothing is worse than the extreme of no numbers. -/
theorem atLeast_identity (ha : a ≤ a) : e.AtLeast a e.identity := by
  cases e
  · exact OrderedScalar.le_posInf ha
  · exact OrderedScalar.negInf_le ha

theorem eq_identity (h : e.AtLeast e.identity a) : a = e.identity := by
  cases e
  · exact OrderedScalar.eq_posInf h
  · exact OrderedScalar.eq_negInf h

theorem identity_join (ha : a ≤ a) : e.join e.identity a = a := by
  rw [join_eq identity_number ha]
  split
  · rfl
  · next h => exact (eq_identity (atLeast_of_not_better identity_number ha h)).symm

theorem join_identity (ha : a ≤ a) : e.join a e.identity = a := by
  rw [join_eq ha identity_number, if_neg]
  intro h
  exact (better_iff.mp h).2 (atLeast_identity ha)

/-- Of three values, too, the first of the best ones is kept. -/
theorem join_assoc (ha : a ≤ a) (hb : b ≤ b) (hc : c ≤ c) :
    e.join (e.join a b) c = e.join a (e.join b c) := by
  rw [join_eq ha hb, join_eq hb hc]
  by_cases hba : e.Better b a <;> by_cases hcb : e.Better c b <;>
    simp only [hba, hcb, if_true, if_false]
  · rw [join_eq hb hc, join_eq ha hc, if_pos hcb,
      if_pos (hcb.trans_atLeast (better_iff.mp hba).1)]
  · rw [join_eq hb hc, join_eq ha hb, if_neg hcb, if_pos hba]
  · rw [join_eq ha hb, if_neg hba, join_eq ha hc, if_neg]
    intro hca
    exact hcb (hca.trans_atLeast (atLeast_of_not_better ha hb hba))

/-- The first value may join last. -/
theorem foldl_join (ha : a ≤ a) {values : List α} (hvalues : ∀ v ∈ values, v ≤ v) :
    values.foldl e.join a = e.join a (values.foldl e.join e.identity) := by
  induction values generalizing a with
  | nil => exact (join_identity ha).symm
  | cons v rest ih =>
    have hv : v ≤ v := hvalues v (by simp)
    have hrest : ∀ u ∈ rest, u ≤ u := fun u hu => hvalues u (by simp [hu])
    have hothers : rest.foldl e.join e.identity ≤ rest.foldl e.join e.identity :=
      foldl_join_number identity_number hrest
    rw [List.foldl_cons, List.foldl_cons, identity_join hv, ih (join_number ha hv) hrest,
      ih hv hrest, join_assoc ha hv hothers]

/-! ## Position and value -/

/-- The best so far is replaced only by a better value. -/
theorem Attains.step {before : List α} {best : Nat × α} {v : α}
    (h : e.Attains before best.1 best.2) (hbest : best.2 ≤ best.2) (hv : v ≤ v) :
    e.Attains (before ++ [v]) (if e.Better v best.2 then (before.length, v) else best).1
      (if e.Better v best.2 then (before.length, v) else best).2 := by
  have hlt : best.1 < before.length := (List.getElem?_eq_some_iff.mp h.value_at).1
  by_cases hbetter : e.Better v best.2
  · rw [if_pos hbetter]
    refine ⟨by simp, fun u hu => ?_, fun j hj u hu => ?_⟩
    · rcases List.mem_append.mp hu with hu | hu
      · exact (better_iff.mp hbetter).1.trans (h.best u hu)
      · cases List.mem_singleton.mp hu
        exact atLeast_refl hv
    · rw [List.getElem?_append_left hj] at hu
      exact hbetter.trans_atLeast (h.best u (List.mem_of_getElem? hu))
  · rw [if_neg hbetter]
    refine ⟨by rw [List.getElem?_append_left hlt, h.value_at], fun u hu => ?_, fun j hj u hu => ?_⟩
    · rcases List.mem_append.mp hu with hu | hu
      · exact h.best u hu
      · cases List.mem_singleton.mp hu
        exact atLeast_of_not_better hbest hv hbetter
    · rw [List.getElem?_append_left (hj.trans hlt)] at hu
      exact h.leftmost j hj u hu

theorem Attains.improve {before rest : List α} (best : Nat × α)
    (h : e.Attains before best.1 best.2) (hbest : best.2 ≤ best.2) (hrest : ∀ v ∈ rest, v ≤ v) :
    e.Attains (before ++ rest) (e.improve best before.length rest).1
        (e.improve best before.length rest).2 ∧
      (e.improve best before.length rest).2 = rest.foldl e.join best.2 := by
  induction rest generalizing before best with
  | nil => simpa [Extremum.improve] using h
  | cons v rest ih =>
    have hv : v ≤ v := hrest v (by simp)
    have hjoin : (if e.Better v best.2 then (before.length, v) else best).2 = e.join best.2 v := by
      rw [join_eq hbest hv]
      split <;> rfl
    have hlater := ih _ (h.step hbest hv) (hjoin ▸ join_number hbest hv)
      fun u hu => hrest u (by simp [hu])
    rw [List.append_assoc, List.singleton_append, List.length_append,
      List.length_singleton] at hlater
    rw [Extremum.improve, List.foldl_cons, ← hjoin]
    exact hlater

/-- In a list of numbers the first extreme is found, and it is the value that a fold ends with. -/
theorem first_attains (e : Extremum) {values : List α} (hne : values ≠ [])
    (hnumber : ∀ v ∈ values, v ≤ v) :
    e.Attains values (e.first values).1 (e.first values).2 ∧
      (e.first values).2 = values.foldl e.join e.identity := by
  cases values with
  | nil => exact absurd rfl hne
  | cons v rest =>
    have hv : v ≤ v := hnumber v (by simp)
    have hone : e.Attains [v] 0 v := by
      refine ⟨rfl, fun u hu => ?_, fun j hj => absurd hj (by omega)⟩
      cases List.mem_singleton.mp hu
      exact atLeast_refl hv
    rw [List.foldl_cons, identity_join hv]
    exact Attains.improve (0, v) hone hv fun u hu => hnumber u (by simp [hu])

end SignalTemporalLogic.Extremum
