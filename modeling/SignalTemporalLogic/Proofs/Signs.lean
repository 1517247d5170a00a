import SignalTemporalLogic.Proofs.Evaluation
import SignalTemporalLogic.Proofs.Relations

/-!
The sign of a score and the verdict. A positive score means that the formula holds, a negative one
that it does not. A score of zero decides nothing in general: a predicate with the value zero does
not hold, so its negation does, and both have the score zero. Only without negations is the verdict
the one that the score is positive.
-/

namespace SignalTemporalLogic

variable {α : Type} [Scalar α]

/-! ## Signs in the order -/

namespace OrderedScalar

variable [OrderedScalar α]

theorem lt_of_lt_of_le {a b c : α} (h : a < b) (k : b ≤ c) : a < c := by
  rw [lt_iff] at h ⊢
  exact ⟨le_trans h.1 k, fun hca => h.2 (le_trans k hca)⟩

theorem lt_of_le_of_lt {a b c : α} (h : a ≤ b) (k : b < c) : a < c := by
  rw [lt_iff] at k ⊢
  exact ⟨le_trans h k.1, fun hca => k.2 (le_trans hca h)⟩

theorem not_lt_of_le {a b : α} (h : a ≤ b) : ¬ b < a :=
  fun k => (lt_iff.mp k).2 h

theorem lt_of_not_le {a b : α} (ha : a ≤ a) (hb : b ≤ b) (h : ¬ b ≤ a) : a < b :=
  lt_iff.mpr ⟨(le_total ha hb).resolve_right h, h⟩

end OrderedScalar

namespace SignedScalar

open OrderedScalar

variable [SignedScalar α]

theorem neg_of_zero_lt_neg {a : α} (ha : a ≤ a) (h : 0 < -a) : a < 0 := by
  refine lt_of_not_le ha zero_le_zero fun hle => ?_
  have hneg : -a ≤ 0 := le_trans (neg_le_neg hle) neg_zero_le
  exact not_lt_of_le hneg h

theorem pos_of_neg_lt_zero {a : α} (ha : a ≤ a) (h : -a < 0) : 0 < a := by
  refine lt_of_not_le zero_le_zero ha fun hle => ?_
  have hneg : 0 ≤ -a := le_trans zero_le_neg_zero (neg_le_neg hle)
  exact not_lt_of_le hneg h

end SignedScalar

/-! ## Scores with verdicts -/

/-- The verdict is right where the score has a sign. -/
def SignAgrees (score : α) (verdict : Bool) : Prop :=
  score ≤ score ∧ (0 < score → verdict = true) ∧ (score < 0 → verdict = false)

/-- The verdict is that the score is positive. -/
def PositiveExactly (score : α) (verdict : Bool) : Prop :=
  score ≤ score ∧ (verdict = true ↔ 0 < score)

section Agreement

open OrderedScalar

theorem signAgrees_related [OrderedScalar α] :
    (Semantics.quantitative : Semantics α α).Related .qualitative SignAgrees where
  and {a a' b b'} h h' := by
    obtain ⟨ha, hpos, hneg⟩ := h
    obtain ⟨ha', hpos', hneg'⟩ := h'
    rcases quantitative_ordered.and_eq ha ha' with ⟨he, hle⟩ | ⟨he, hle⟩ <;> rw [he]
    · refine ⟨ha, fun h => ?_, fun h => ?_⟩
      · simp [Semantics.qualitative, hpos h, hpos' (lt_of_lt_of_le h hle)]
      · simp [Semantics.qualitative, hneg h]
    · refine ⟨ha', fun h => ?_, fun h => ?_⟩
      · simp [Semantics.qualitative, hpos' h, hpos (lt_of_lt_of_le h hle)]
      · simp [Semantics.qualitative, hneg' h]
  or {a a' b b'} h h' := by
    obtain ⟨ha, hpos, hneg⟩ := h
    obtain ⟨ha', hpos', hneg'⟩ := h'
    rcases quantitative_ordered.or_eq ha ha' with ⟨he, hle⟩ | ⟨he, hle⟩ <;> rw [he]
    · refine ⟨ha, fun h => ?_, fun h => ?_⟩
      · simp [Semantics.qualitative, hpos h]
      · simp [Semantics.qualitative, hneg h, hneg' (lt_of_le_of_lt hle h)]
    · refine ⟨ha', fun h => ?_, fun h => ?_⟩
      · simp [Semantics.qualitative, hpos' h]
      · simp [Semantics.qualitative, hneg' h, hneg (lt_of_le_of_lt hle h)]
  always := ⟨quantitative_ordered.valid_always, fun _ => rfl,
    fun h => absurd h (not_lt_of_le (le_posInf zero_le_zero))⟩
  eventually := ⟨quantitative_ordered.valid_eventually,
    fun h => absurd h (not_lt_of_le (negInf_le zero_le_zero)), fun _ => rfl⟩

theorem positiveExactly_related [SignedScalar α] :
    (Semantics.quantitative : Semantics α α).Related .qualitative PositiveExactly where
  and {a a' b b'} h h' := by
    obtain ⟨ha, hpos⟩ := h
    obtain ⟨ha', hpos'⟩ := h'
    have hverdict : Bool.and b b' = true ↔ 0 < a ∧ 0 < a' := by
      rw [← hpos, ← hpos']
      exact Bool.and_eq_true_iff
    rcases quantitative_ordered.and_eq ha ha' with ⟨he, hle⟩ | ⟨he, hle⟩ <;> rw [he]
    · exact ⟨ha, hverdict.trans (and_iff_left_of_imp fun h => lt_of_lt_of_le h hle)⟩
    · exact ⟨ha', hverdict.trans (and_iff_right_of_imp fun h => lt_of_lt_of_le h hle)⟩
  or {a a' b b'} h h' := by
    obtain ⟨ha, hpos⟩ := h
    obtain ⟨ha', hpos'⟩ := h'
    have hverdict : Bool.or b b' = true ↔ 0 < a ∨ 0 < a' := by
      rw [← hpos, ← hpos']
      exact Bool.or_eq_true_iff
    rcases quantitative_ordered.or_eq ha ha' with ⟨he, hle⟩ | ⟨he, hle⟩ <;> rw [he]
    · exact ⟨ha, hverdict.trans (or_iff_left_of_imp fun h => lt_of_lt_of_le h hle)⟩
    · exact ⟨ha', hverdict.trans (or_iff_right_of_imp fun h => lt_of_lt_of_le h hle)⟩
  always := ⟨quantitative_ordered.valid_always, iff_of_true rfl SignedScalar.zero_lt_posInf⟩
  eventually := ⟨quantitative_ordered.valid_eventually,
    iff_of_false Bool.false_ne_true (not_lt_of_le (negInf_le zero_le_zero))⟩

/-- Negation turns both the sign and the verdict around. -/
theorem signAgrees_not [SignedScalar α] {score : α} {verdict : Bool}
    (h : SignAgrees score verdict) : SignAgrees (-score) (!verdict) := by
  obtain ⟨hnumber, hpos, hneg⟩ := h
  refine ⟨neg_le_neg hnumber, fun h => ?_, fun h => ?_⟩
  · rw [hneg (SignedScalar.neg_of_zero_lt_neg hnumber h)]; rfl
  · rw [hpos (SignedScalar.pos_of_neg_lt_zero hnumber h)]; rfl

theorem signAgrees_atomic [OrderedScalar α] {a : α} (ha : a ≤ a) :
    SignAgrees a (decide (0 < a)) := by
  refine ⟨ha, fun h => decide_eq_true h, fun h => decide_eq_false ?_⟩
  exact not_lt_of_le (lt_iff.mp h).1

end Agreement

/-- **The sign of the robustness decides the verdict.** If none of the predicate values that are
asked for is NaN, robustness and satisfaction fail with the same fault, or both return; then a
formula with a positive score holds and one with a negative score does not. A formula without
negations holds exactly if its score is positive. -/
theorem sign_sound [SignedScalar α] (policy : WindowPolicy) (f : Formula α) (x : Trajectory α)
    (anchor : Nat) (hlen : x.length ≤ Index.last)
    (hnumber : ∀ signal u a, f.Asks policy x anchor signal u → x.signalValue signal u = .ok a →
      ¬ Scalar.IsNaN a) :
    (∃ v b, f.robustness policy x anchor = .ok v ∧ f.satisfied policy x anchor = .ok b ∧
      (0 < v → b = true) ∧ (v < 0 → b = false) ∧ (f.NegationFree → (b = true ↔ 0 < v))) ∨
    ∃ e, f.robustness policy x anchor = .error e ∧ f.satisfied policy x anchor = .error e := by
  have hvalue {signal u a} (h : f.Asks policy x anchor signal u)
      (ha : x.signalValue signal u = .ok a) : a ≤ a := not_not.mp (hnumber signal u a h ha)
  have hsigns : EndAlike Eq SignAgrees (f.robustness policy x anchor)
      (f.satisfied policy x anchor) :=
    f.evaluate_alike signAgrees_related (fun _ => rfl) hlen rfl rfl anchor
      (.inr fun _ _ => signAgrees_not)
      fun signal u h => Trajectory.signalValue_alike fun a ha => signAgrees_atomic (hvalue h ha)
  have hpositive (hfree : f.NegationFree) : EndAlike Eq PositiveExactly
      (f.robustness policy x anchor) (f.satisfied policy x anchor) :=
    f.evaluate_alike positiveExactly_related (fun _ => rfl) hlen rfl rfl anchor (.inl hfree)
      fun signal u h => Trajectory.signalValue_alike fun a ha => ⟨hvalue h ha, decide_eq_true_iff⟩
  cases hscore : f.robustness policy x anchor <;> cases hverdict : f.satisfied policy x anchor <;>
    rw [hscore, hverdict] at hsigns hpositive
  case ok.ok v b =>
    exact .inl ⟨v, b, rfl, rfl, hsigns.2.1, hsigns.2.2, fun hfree => (hpositive hfree).2⟩
  case error.error e e' => exact .inr ⟨e, rfl, congrArg _ (Eq.symm hsigns)⟩
  all_goals exact hsigns.elim

/-- `x > 2` throughout the first time unit. -/
def throughoutAboveTwo : Formula Exact :=
  .always ⟨0⟩ .firstStep (.predicate ⟨1⟩ (.greaterThan "x" (.fin 2)))

/-- The samples 3 and 2 are not both above 2, and a score of zero says so. -/
theorem sign_sound_of_throughoutAboveTwo :
    throughoutAboveTwo.robustness .strict fourSamples 0 = .ok (.fin 0) ∧
      throughoutAboveTwo.satisfied .strict fourSamples 0 = .ok false := by
  have hscore : throughoutAboveTwo.robustness .strict fourSamples 0 = .ok (.fin 0) := by
    decide +kernel
  refine ⟨hscore, ?_⟩
  have hsign := sign_sound .strict throughoutAboveTwo fourSamples 0 (by decide) (by
    intro signal u a hasks ha
    obtain ⟨_, -, _, -, rfl, rfl⟩ := hasks
    exact fourSamples_value_number ha)
  rcases hsign with ⟨v, b, hv, hb, -, -, hfree⟩ | ⟨e, he, -⟩
  · obtain rfl : v = .fin 0 := Except.ok.inj (hv.symm.trans hscore)
    have hnot : b ≠ true := fun h => absurd ((hfree trivial).mp h) (by decide)
    rw [hb, Bool.eq_false_iff.mpr hnot]
  · rw [hscore] at he
    exact absurd he nofun

end SignalTemporalLogic
