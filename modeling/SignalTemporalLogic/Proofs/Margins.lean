import Mathlib.Algebra.Order.Group.MinMax
import Mathlib.Logic.Relation
import Mathlib.Tactic.IntervalCases
import Mathlib.Tactic.NormNum
import SignalTemporalLogic.Proofs.ExactArithmetic
import SignalTemporalLogic.Proofs.Signs

/-!
The score as a margin. If the predicate values of two trajectories are never further apart than some
distance, neither are the scores: a minimum, a maximum and a negation never widen a distance. A
score that exceeds the distance has the same sign on both trajectories, and so the verdict is the
same.
-/

namespace SignalTemporalLogic

/-! ## Distances -/

namespace Exact

/-- Both numbers are finite and at most `e` apart. -/
def Within (e : Rat) (a b : Exact) : Prop :=
  ∃ p q, a = fin p ∧ b = fin q ∧ |p - q| ≤ e

/-- The numbers are the same infinity, or within `e`. A fold over nothing, and until then only that,
is infinite. -/
inductive Near (e : Rat) : Exact → Exact → Prop
  | posInf : Near e posInf posInf
  | negInf : Near e negInf negInf
  | fin {p q : Rat} : |p - q| ≤ e → Near e (fin p) (fin q)

variable {e : Rat} {a b a' b' : Exact}

theorem Within.near (h : Within e a b) : Near e a b := by
  obtain ⟨p, q, rfl, rfl, hclose⟩ := h
  exact .fin hclose

theorem Near.neg (h : Near e a b) : Near e (-a) (-b) := by
  cases h with
  | posInf => exact .negInf
  | negInf => exact .posInf
  | @fin p q hclose =>
    refine .fin ?_
    rwa [neg_sub_neg, abs_sub_comm]

theorem Near.min (h : Near e a b) (h' : Near e a' b') :
    Near e (Scalar.min a a') (Scalar.min b b') := by
  cases h <;> cases h'
  case fin.fin p q hclose p' q' hclose' =>
    rw [min_fin, min_fin]
    exact .fin ((abs_min_sub_min_le_max p p' q q').trans (max_le hclose hclose'))
  -- an infinity is chosen, or gives way to the other operand, on both sides
  all_goals simp only [Scalar.min, Scalar.IsNaN, le_def, lt_def, AtMost, Below, le_refl,
    not_true_eq_false, if_true, if_false]
  all_goals constructor
  all_goals assumption

theorem Near.max (h : Near e a b) (h' : Near e a' b') :
    Near e (Scalar.max a a') (Scalar.max b b') := by
  cases h <;> cases h'
  case fin.fin p q hclose p' q' hclose' =>
    rw [max_fin, max_fin]
    exact .fin ((abs_max_sub_max_le_max p p' q q').trans (max_le hclose hclose'))
  all_goals simp only [Scalar.max, Scalar.IsNaN, le_def, lt_def, AtMost, Below, le_refl,
    not_true_eq_false, if_true, if_false]
  all_goals constructor
  all_goals assumption

end Exact

/-- Scoring keeps a distance. -/
theorem near_related (e : Rat) :
    (Semantics.quantitative : Semantics Exact Exact).Related .quantitative (Exact.Near e) where
  and := Exact.Near.min
  or := Exact.Near.max
  always := .posInf
  eventually := .negInf

/-- A relation to a second semantics goes on to a third. -/
theorem Semantics.Related.comp {α X Y Z : Type} {S : Semantics α X} {T : Semantics α Y}
    {U : Semantics α Z} {R : X → Y → Prop} {Q : Y → Z → Prop} (h : S.Related T R)
    (h' : T.Related U Q) : S.Related U (Relation.Comp R Q) where
  and := fun ⟨_, hr, hq⟩ ⟨_, hr', hq'⟩ => ⟨_, h.and hr hr', h'.and hq hq'⟩
  or := fun ⟨_, hr, hq⟩ ⟨_, hr', hq'⟩ => ⟨_, h.or hr hr', h'.or hq hq'⟩
  always := ⟨_, h.always, h'.always⟩
  eventually := ⟨_, h.eventually, h'.eventually⟩

/-! ## Where a value comes from -/

section Origins

variable {α Y : Type} [Scalar α] [LE Y] {negate : Y → Y} {read : α → Y} {policy : WindowPolicy}
  {x : Trajectory α} {P : Y → Prop}

mutual

/-- Up to negation a value is one of the predicate values that are asked for, so it has every
property that these have and that negation keeps. -/
theorem Formula.property_of_means (hnegate : ∀ y, P y → P (negate y)) :
    ∀ (f : Formula α) (t : Nat) (y : Y),
      (∀ signal u a, f.Asks policy x t signal u → x.signalValue signal u = .ok a → P (read a)) →
      f.Means negate read policy x t y → P y
  | .predicate _ signal, t, y, hasks, ⟨a, ha, hy⟩ => hy ▸ hasks signal t a ⟨rfl, rfl⟩ ha
  | .not _ arg, t, y, hasks, ⟨v, hv, hy⟩ =>
    hy ▸ hnegate v (Formula.property_of_means hnegate arg t v hasks hv)
  | .and _ args, t, y, hasks, ⟨values, hvalues, hleast⟩ =>
    Operands.property_of_means hnegate args t values hasks hvalues y hleast.1
  | .or _ args, t, y, hasks, ⟨values, hvalues, hgreatest⟩ =>
    Operands.property_of_means hnegate args t values hasks hvalues y hgreatest.1
  | .always _ _ arg, t, y, hasks, ⟨w, hw, value, hvalue, ⟨u, hu, hy⟩, _⟩
  | .eventually _ _ arg, t, y, hasks, ⟨w, hw, value, hvalue, ⟨u, hu, hy⟩, _⟩ =>
    hy ▸ Formula.property_of_means hnegate arg u (value u)
      (fun signal v a h => hasks signal v a ⟨w, hw, u, hu, h⟩) (hvalue u hu)
  | .holdsUntil _ _ left right, t, y, hasks,
      ⟨w, hw, before, here, candidate, hright, hleft, hcandidate, ⟨u, hu, hy⟩, _⟩ => by
    rw [← hy]
    rcases (hcandidate u hu).1 with he | ⟨v, ⟨htv, hvu⟩, he⟩
    · exact he ▸ Formula.property_of_means hnegate right u (here u)
        (fun signal v a h => hasks signal v a ⟨w, hw, .inl ⟨u, hu, h⟩⟩) (hright u hu)
    · have hlast : v < w.last := Nat.lt_of_lt_of_le hvu hu.2
      exact he ▸ Formula.property_of_means hnegate left v (before v)
        (fun signal s a h => hasks signal s a ⟨w, hw, .inr ⟨v, htv, hlast, h⟩⟩) (hleft v htv hlast)
  | .next _ arg, t, y, hasks, ⟨hlt, hy⟩ =>
    Formula.property_of_means hnegate arg (t + 1) y
      (fun signal u a h => hasks signal u a ⟨hlt, h⟩) hy

theorem Operands.property_of_means (hnegate : ∀ y, P y → P (negate y)) :
    ∀ (args : Operands α) (t : Nat) (values : List Y),
      (∀ signal u a, args.Asks policy x t signal u → x.signalValue signal u = .ok a →
        P (read a)) →
      args.Means negate read policy x t values → ∀ y ∈ values, P y
  | .pair first second, t, values, hasks, h => by
    obtain ⟨v, w, hv, hw, rfl⟩ := h
    have hfirst := Formula.property_of_means hnegate first t v
      (fun signal u a h => hasks signal u a (.inl h)) hv
    have hsecond := Formula.property_of_means hnegate second t w
      (fun signal u a h => hasks signal u a (.inr h)) hw
    simp [hfirst, hsecond]
  | .cons first rest, t, values, hasks, h => by
    obtain ⟨v, others, hv, hothers, rfl⟩ := h
    have hfirst := Formula.property_of_means hnegate first t v
      (fun signal u a h => hasks signal u a (.inl h)) hv
    have hrest := Operands.property_of_means hnegate rest t others
      (fun signal u a h => hasks signal u a (.inr h)) hothers
    exact List.forall_mem_cons.mpr ⟨hfirst, hrest⟩

end

end Origins

/-- Scores are finite if all predicate values are that the formula asks for. -/
theorem Formula.robustness_finite {policy : WindowPolicy} {f : Formula Exact}
    {x : Trajectory Exact} {anchor : Nat} (hlen : x.length ≤ Index.last)
    (hfinite : ∀ signal u a, f.Asks policy x anchor signal u → x.signalValue signal u = .ok a →
      ∃ p, a = .fin p) {v : Exact} (hv : f.robustness policy x anchor = .ok v) :
    ∃ p, v = .fin p := by
  have hmeans := f.evaluate_means policy x anchor quantitative_ordered hlen
    fun signal u a h ha => by
      obtain ⟨p, rfl⟩ := hfinite signal u a h ha
      exact Exact.fin_le_fin.mpr le_rfl
  refine f.property_of_means (P := fun v => ∃ p, v = .fin p) ?_ anchor v hfinite (hmeans.2 v hv).1
  rintro _ ⟨p, rfl⟩
  exact ⟨-p, rfl⟩

/-! ## Two trajectories -/

section Trajectories

variable {α : Type} [Scalar α]

/-- The value of a signal exists on both trajectories or on none, if that is so of all samples. -/
theorem Trajectory.signalValue_ok_iff {x y : Trajectory α} (hlength : y.length = x.length)
    (hsame : ∀ sample, (∃ a, x.value sample = .ok a) ↔ ∃ b, y.value sample = .ok b)
    (signal : Signal α) (t : Nat) :
    (∃ a, x.signalValue signal t = .ok a) ↔ ∃ b, y.signalValue signal t = .ok b := by
  rw [Trajectory.exists_signalValue_iff, Trajectory.exists_signalValue_iff, hlength]
  refine and_congr_right fun _ => forall₂_congr fun label _ => exists_congr fun sample => ?_
  rw [hsame]

end Trajectories

/-- A score that is further from zero than from another score has the sign of that one. -/
theorem Exact.same_sign {e p q : Rat} (hclose : |p - q| ≤ e) (hmargin : e < |p|) :
    0 < p ∧ 0 < q ∨ p < 0 ∧ q < 0 := by
  have h := abs_le.mp hclose
  rcases le_total 0 p with hp | hp
  · rw [abs_of_nonneg hp] at hmargin
    exact .inl ⟨by linarith [abs_nonneg (p - q)], by linarith⟩
  · rw [abs_of_nonpos hp] at hmargin
    exact .inr ⟨by linarith [abs_nonneg (p - q)], by linarith⟩

section Margin

variable {policy : WindowPolicy} {f : Formula Exact} {x y : Trajectory Exact} {anchor : Nat}
  {e : Rat} (hlen : x.length ≤ Index.last) (hlength : y.length = x.length)
  (hspacing : y.spacing = x.spacing)
  (hsame : ∀ sample, (∃ a, x.value sample = .ok a) ↔ ∃ b, y.value sample = .ok b)
  (hclose : ∀ signal u, f.Asks policy x anchor signal u → ∀ a b,
    x.signalValue signal u = .ok a → y.signalValue signal u = .ok b → Exact.Within e a b)

include hlen hlength hspacing hsame hclose

theorem Formula.robustness_near : EndAlike (fun _ _ => True) (Exact.Near e)
    (f.robustness policy x anchor) (f.robustness policy y anchor) :=
  f.evaluate_alike (near_related e) (fun _ => trivial) hlen hspacing hlength anchor
    (.inr fun _ _ => Exact.Near.neg) fun signal u h =>
      .of_ok_iff (Trajectory.signalValue_ok_iff hlength hsame signal u) fun a b ha hb =>
        (hclose signal u h a b ha hb).near

/-- The verdict on the second trajectory agrees with a score that is near the first one. -/
theorem Formula.satisfied_near : EndAlike (fun _ _ => True)
    (Relation.Comp (Exact.Near e) SignAgrees) (f.robustness policy x anchor)
    (f.satisfied policy y anchor) := by
  refine f.evaluate_alike ((near_related e).comp signAgrees_related) (fun _ => trivial) hlen
    hspacing hlength anchor (.inr ?_) fun signal u h =>
      .of_ok_iff (Trajectory.signalValue_ok_iff hlength hsame signal u) fun a b ha hb => ?_
  · exact fun _ _ ⟨w, hnear, hsign⟩ => ⟨-w, hnear.neg, signAgrees_not hsign⟩
  · obtain ⟨p, q, rfl, rfl, hpq⟩ := hclose signal u h a b ha hb
    exact ⟨_, .fin hpq, signAgrees_atomic (Exact.fin_le_fin.mpr le_rfl)⟩

/-- A score that exceeds the distance decides the verdict on the second trajectory. -/
theorem Formula.satisfied_of_margin {p : Rat} (hscore : f.robustness policy x anchor = .ok (.fin p))
    (hmargin : e < |p|) : f.satisfied policy y anchor = .ok (decide (0 < p)) := by
  have hverdicts := Formula.satisfied_near hlen hlength hspacing hsame hclose
  obtain ⟨b, hb⟩ := hverdicts.ok_iff.mp ⟨_, hscore⟩
  rw [hscore, hb] at hverdicts
  obtain ⟨_, hnear, hsign⟩ := hverdicts
  cases hnear with
  | fin hpq =>
    rw [hb]
    rcases Exact.same_sign hpq hmargin with ⟨hp, hq⟩ | ⟨hp, hq⟩
    · rw [decide_eq_true hp, hsign.2.1 hq]
    · rw [decide_eq_false hp.not_gt, hsign.2.2 hq]

end Margin

/-- **The robustness is a margin.** Two trajectories have samples at the same places, and all
predicate values that a formula asks for are finite and at most `e` apart on them. Then the formula
has a score on both or on none, the scores are at most `e` apart, and if the first is further than
`e` from zero the verdicts are the same. -/
theorem robustness_margin (policy : WindowPolicy) (f : Formula Exact) (x y : Trajectory Exact)
    (anchor : Nat) (hlen : x.length ≤ Index.last) (hlength : y.length = x.length)
    (hspacing : y.spacing = x.spacing)
    (hsame : ∀ sample, (∃ a, x.value sample = .ok a) ↔ ∃ b, y.value sample = .ok b) {e : Rat}
    (hclose : ∀ signal u, f.Asks policy x anchor signal u → ∀ a b,
      x.signalValue signal u = .ok a → y.signalValue signal u = .ok b → Exact.Within e a b) :
    ((∃ v, f.robustness policy x anchor = .ok v) ↔ ∃ w, f.robustness policy y anchor = .ok w) ∧
    ∀ v w, f.robustness policy x anchor = .ok v → f.robustness policy y anchor = .ok w →
      ∃ p q, v = .fin p ∧ w = .fin q ∧ |p - q| ≤ e ∧
        (e < |p| → ∃ b, f.satisfied policy x anchor = .ok b ∧
          f.satisfied policy y anchor = .ok b) := by
  have hfinite (signal : Signal Exact) (u : Nat) (a : Exact)
      (h : f.Asks policy x anchor signal u) (ha : x.signalValue signal u = .ok a) :
      ∃ p, a = .fin p := by
    obtain ⟨b, hb⟩ := (Trajectory.signalValue_ok_iff hlength hsame signal u).mp ⟨a, ha⟩
    obtain ⟨p, q, hp, -, -⟩ := hclose signal u h a b ha hb
    exact ⟨p, hp⟩
  have hscores := f.robustness_near hlen hlength hspacing hsame hclose
  refine ⟨hscores.ok_iff, fun v w hv hw => ?_⟩
  obtain ⟨p, rfl⟩ := f.robustness_finite hlen hfinite hv
  rw [hv, hw] at hscores
  cases hscores with
  | @fin _ q hpq =>
    refine ⟨p, q, rfl, rfl, hpq, fun hmargin => ⟨decide (0 < p), ?_, ?_⟩⟩
    · -- the first trajectory is at no distance from itself
      refine Formula.satisfied_of_margin hlen rfl rfl (fun _ => Iff.rfl)
        (fun signal u h a b ha hb => ?_) hv (((abs_nonneg _).trans hpq).trans_lt hmargin)
      obtain ⟨r, rfl⟩ := hfinite signal u a h ha
      cases ha.symm.trans hb
      exact ⟨r, r, rfl, rfl, by simp⟩
    · exact Formula.satisfied_of_margin hlen hlength hspacing hsame hclose hv hmargin

/-- Four samples that are at most a half away from those of `fourSamples`. -/
def fourSamplesNearby : Trajectory Exact where
  value s := .ok (.fin ([5 / 2, 3 / 2, 19 / 2, 1].getD s.index 0))
  spacing := .fin 1
  length := 4

/-- A signal that is compared with a threshold is as near as the samples are. -/
theorem fourSamples_within (c : Rat) (u : Nat) {a b : Exact}
    (ha : fourSamples.signalValue (.greaterThan "x" (.fin c)) u = .ok a)
    (hb : fourSamplesNearby.signalValue (.greaterThan "x" (.fin c)) u = .ok b) :
    Exact.Within (1 / 2) a b := by
  have hu : u < 4 := Trajectory.lt_of_signalValue ha
  have hclose : |([3, 2, 9, 1].getD u 0 : Rat) - [5 / 2, 3 / 2, 19 / 2, 1].getD u 0| ≤ 1 / 2 := by
    interval_cases u <;> norm_num [abs_le]
  rw [Trajectory.signalValue_greaterThan (by decide) hu rfl] at ha hb
  refine ⟨_, _, (Except.ok.inj ha).symm, (Except.ok.inj hb).symm, ?_⟩
  rw [add_sub_add_left_eq_sub, one_mul, one_mul]
  exact hclose

/-- The score 2 leaves room for the verdict to be the same half a unit away. -/
theorem robustness_margin_of_lateSwitch :
    ∃ b, lateSwitch.satisfied .strict fourSamples 0 = .ok b ∧
      lateSwitch.satisfied .strict fourSamplesNearby 0 = .ok b := by
  have hscore : lateSwitch.robustness .strict fourSamples 0 = .ok (.fin 2) := by decide +kernel
  obtain ⟨hexists, hmargin⟩ := robustness_margin .strict lateSwitch fourSamples fourSamplesNearby 0
    (by decide) rfl rfl (fun _ => ⟨fun _ => ⟨_, rfl⟩, fun _ => ⟨_, rfl⟩⟩) (e := 1 / 2) (by
      intro signal u hasks a b ha hb
      obtain ⟨_, -, ⟨_, -, rfl, rfl⟩ | ⟨_, -, -, rfl, rfl⟩⟩ := hasks
      · exact fourSamples_within 5 _ ha hb
      · exact fourSamples_within 0 _ ha hb)
  obtain ⟨w, hw⟩ := hexists.mp ⟨_, hscore⟩
  obtain ⟨p, q, hp, -, -, hverdict⟩ := hmargin _ w hscore hw
  cases hp
  exact hverdict (by norm_num)

end SignalTemporalLogic
