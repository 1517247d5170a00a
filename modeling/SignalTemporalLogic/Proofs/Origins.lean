import SignalTemporalLogic.Proofs.Signs
import SignalTemporalLogic.Proofs.Trees

/-!
Where a score comes from. A minimum or maximum drops NaN, so that a score is one of the predicate
values that are read, up to negation, unless an extreme is taken of operands that are all NaN. Then
the value that its fold started with is left over, and this infinity may become the score.
-/

namespace SignalTemporalLogic

/-- Negation undoes itself. -/
class InvolutiveScalar (α : Type) [Scalar α] : Prop extends OrderedScalar α where
  neg_neg (a : α) : - -a = a

instance : InvolutiveScalar Exact where
  neg_neg a := by
    cases a with
    | fin q => exact congrArg Exact.fin (Rat.neg_neg q)
    | nan | negInf | posInf => rfl

variable {α : Type} [Scalar α]

namespace Scalar

/-- Equal as numbers, or both NaN. -/
def Matches (a b : α) : Prop := IsNaN a ∧ IsNaN b ∨ a ≤ b ∧ b ≤ a

def IsInfinite (a : α) : Prop := a = posInf ∨ a = negInf

theorem matches_refl (a : α) : Matches a a := by
  by_cases h : a ≤ a
  · exact .inr ⟨h, h⟩
  · exact .inl ⟨h, h⟩

end Scalar

/-! ## Extremes without NaN -/

namespace Extremum

variable {e : Extremum} {a b : α}

theorem isInfinite_identity (e : Extremum) : Scalar.IsInfinite (e.identity : α) := by
  cases e
  · exact .inl rfl
  · exact .inr rfl

theorem join_nan (ha : a ≤ a) (hb : Scalar.IsNaN b) : e.join a b = a := by
  have ha' : ¬ Scalar.IsNaN a := not_not.mpr ha
  cases e
  · exact (if_neg ha').trans (if_pos hb)
  · exact (if_neg ha').trans (if_pos hb)

theorem nan_join (ha : Scalar.IsNaN a) : e.join a b = b := by
  cases e <;> exact if_pos ha

theorem foldl_join_filter (ha : a ≤ a) (values : List α) :
    values.foldl e.join a = (values.filter fun v => v ≤ v).foldl e.join a := by
  induction values generalizing a with
  | nil => rfl
  | cons v rest ih =>
    by_cases hv : v ≤ v
    · have hfilter : (v :: rest).filter (fun v => v ≤ v) = v :: rest.filter fun v => v ≤ v :=
        List.filter_cons_of_pos (by simpa using hv)
      rw [hfilter]
      exact ih (join_number ha hv)
    · have hfilter : (v :: rest).filter (fun v => v ≤ v) = rest.filter fun v => v ≤ v :=
        List.filter_cons_of_neg (by simpa using hv)
      rw [hfilter, List.foldl_cons, join_nan ha hv]
      exact ih ha

variable [OrderedScalar α]

/-- An extreme is one of its operands, and a number, unless none of them is one. -/
theorem foldl_join_cases (e : Extremum) (values : List α) :
    (values.foldl e.join e.identity ∈ values ∧
      values.foldl e.join e.identity ≤ values.foldl e.join e.identity) ∨
    (∀ v ∈ values, Scalar.IsNaN v) ∧ values.foldl e.join e.identity = e.identity := by
  rw [foldl_join_filter identity_number]
  by_cases hne : (values.filter fun v => v ≤ v) = []
  · refine .inr ⟨fun v hv hnumber => ?_, by rw [hne]; rfl⟩
    exact List.not_mem_nil (hne ▸ List.mem_filter.mpr ⟨hv, decide_eq_true hnumber⟩)
  · have hnumber : ∀ v ∈ values.filter fun v => v ≤ v, v ≤ v :=
      fun v hv => of_decide_eq_true (List.mem_filter.mp hv).2
    obtain ⟨hattains, hfold⟩ := e.first_attains hne hnumber
    have hmem := List.mem_of_getElem? hattains.value_at
    rw [hfold] at hmem
    exact .inl ⟨List.mem_of_mem_filter hmem, hnumber _ hmem⟩

/-- The same of an extreme that one operand joins last. -/
theorem join_foldl_cases (e : Extremum) (a : α) (values : List α) :
    (e.join a (values.foldl e.join e.identity) ∈ a :: values ∧
      e.join a (values.foldl e.join e.identity) ≤ e.join a (values.foldl e.join e.identity)) ∨
    (∀ v ∈ a :: values, Scalar.IsNaN v) ∧
      e.join a (values.foldl e.join e.identity) = e.identity := by
  by_cases ha : a ≤ a
  · rw [foldl_join_filter identity_number, ← foldl_join ha fun v hv =>
      of_decide_eq_true (List.mem_filter.mp hv).2, ← foldl_join_filter ha]
    have hcons : (a :: values).foldl e.join e.identity = values.foldl e.join a := by
      rw [List.foldl_cons, identity_join ha]
    rw [← hcons]
    exact e.foldl_join_cases (a :: values)
  · rw [nan_join ha]
    rcases e.foldl_join_cases values with ⟨hmem, hnumber⟩ | ⟨hnan, hidentity⟩
    · exact .inl ⟨List.mem_cons_of_mem _ hmem, hnumber⟩
    · exact .inr ⟨List.forall_mem_cons.mpr ⟨ha, hnan⟩, hidentity⟩

end Extremum

/-! ## One step of an evaluation -/

section Steps

variable {policy : WindowPolicy} {x : Trajectory α}

/-- An extreme of all that the formula uses, read backwards. -/
theorem Formula.exists_values_of_extreme {f : Formula α} {t : Nat} {e : Extremum} {v : α}
    (he : f.extreme? = some e) (h : f.valueAt .quantitative policy x t = .ok v) :
    ∃ es values, f.uses policy x.spacing x.length t = .ok es ∧
      es.mapM (fun e => e.1.valueAt .quantitative policy x e.2) = .ok values ∧
      v = values.foldl e.join e.identity := by
  cases f with
  | and _ args | or _ args =>
    obtain ⟨values, hvalues, hv⟩ := Except.bind_eq_ok.mp h
    cases he
    cases hv
    rw [Operands.valuesAt_eq_mapM] at hvalues
    exact ⟨args.toList.map (·, t), values, rfl, by rwa [List.mapM_map], rfl⟩
  | always _ interval arg | eventually _ interval arg =>
    obtain ⟨w, hw, h⟩ := Except.bind_eq_ok.mp h
    obtain ⟨values, hvalues, hv⟩ := Except.bind_eq_ok.mp h
    cases he
    cases hv
    rw [Window.mapM, Index.mapRangeM_eq_mapM] at hvalues
    exact ⟨(List.range' w.first w.size).map (arg, ·), values, Except.bind_eq_ok.mpr ⟨w, hw, rfl⟩,
      by rwa [List.mapM_map], rfl⟩
  | predicate | not | holdsUntil | next => cases he

/-- An until, read backwards. -/
theorem Formula.exists_nested_of_until {Y : Type} [Inhabited Y] {S : Semantics α Y}
    (hlen : x.length ≤ Index.last) {id : NodeId} {interval : TimeInterval α}
    {left right : Formula α} {t : Nat} {y : Y}
    (h : (Formula.holdsUntil id interval left right).valueAt S policy x t = .ok y) :
    ∃ (w : Window) (before here : Nat → Y), x.window policy interval t = .ok w ∧
      (∀ u, t ≤ u → u < w.last → left.valueAt S policy x u = .ok (before u)) ∧
      (∀ u ∈ w, right.valueAt S policy x u = .ok (here u)) ∧
      y = S.untilNested before here t w.first w.size := by
  obtain ⟨w, hw, hrun⟩ := Except.bind_eq_ok.mp h
  obtain ⟨values, hvalues, hpass⟩ := Except.bind_eq_ok.mp hrun
  obtain ⟨hrights, hlefts⟩ := S.exists_ok_of_untilFrom hpass
  have hle := w.first_le_last
  have hfirst := (WindowPolicy.window_bounds hlen hw).1
  let value (g : Formula α) (u : Nat) : Y := (g.valueAt S policy x u).toOption.getD default
  have hvalue : ∀ (g : Formula α) (u : Nat), (∃ v, g.valueAt S policy x u = .ok v) →
      g.valueAt S policy x u = .ok (value g u) := by
    rintro g u ⟨v, hv⟩
    simp [value, hv, Except.toOption]
  have hleft : ∀ u, t ≤ u → u < w.last → left.valueAt S policy x u = .ok (value left u) := by
    intro u hu hlast
    refine hvalue left u ?_
    by_cases hbefore : u < w.first
    · exact Index.exists_ok_of_mapRangeM hvalues u hu (by omega)
    · exact hlefts u (by omega) (by omega)
  have hright : ∀ u ∈ w, right.valueAt S policy x u = .ok (value right u) := by
    intro u hu
    exact hvalue right u (hrights u hu.1 (by have := hu.2; omega))
  have hnested := S.until_eq_nested w hfirst hleft hright
  exact ⟨w, value left, value right, hw, hleft, hright, Except.ok.inj (hrun.symm.trans hnested)⟩

/-- The score of the formula at `t` is NaN. -/
def Formula.ScoresNaN (policy : WindowPolicy) (x : Trajectory α) (f : Formula α) (t : Nat) : Prop :=
  ∃ a, f.valueAt .quantitative policy x t = .ok a ∧ Scalar.IsNaN a

/-- The minimum at candidate `u` of an until is one of scores that are all NaN. -/
def Formula.BlankCandidate (policy : WindowPolicy) (x : Trajectory α) (left right : Formula α)
    (t u : Nat) : Prop :=
  right.ScoresNaN policy x u ∧ ∀ k, t ≤ k → k < u → left.ScoresNaN policy x k

/-- At `t` the formula takes an extreme of operands whose scores are all NaN. -/
def Formula.BlankAt (policy : WindowPolicy) (x : Trajectory α) (f : Formula α) (t : Nat) : Prop :=
  match f with
  | .holdsUntil _ interval left right =>
    ∃ w, x.window policy interval t = .ok w ∧
      ∃ u ∈ w, Formula.BlankCandidate policy x left right t u
  | f => f.extreme?.isSome ∧ ∃ es, f.uses policy x.spacing x.length t = .ok es ∧
      ∀ e ∈ es, e.1.ScoresNaN policy x e.2

/-- The value, up to negation, is that of an evaluation that the formula at `t` uses. -/
def Formula.Takes (policy : WindowPolicy) (x : Trajectory α) (f : Formula α) (t : Nat) (v : α) :
    Prop :=
  ∃ es, f.uses policy x.spacing x.length t = .ok es ∧
    ∃ e ∈ es, ∃ a, e.1.valueAt .quantitative policy x e.2 = .ok a ∧ (v = a ∨ v = -a)

theorem Formula.BlankAt.of_extreme {f : Formula α} {t : Nat} {e : Extremum}
    (he : f.extreme? = some e) {es : List (Formula α × Nat)}
    (hes : f.uses policy x.spacing x.length t = .ok es)
    (hall : ∀ e ∈ es, e.1.ScoresNaN policy x e.2) : f.BlankAt policy x t := by
  cases f with
  | holdsUntil => cases he
  | predicate | not | and | or | always | eventually | next => exact ⟨by rw [he]; rfl, es, hes, hall⟩

theorem Formula.BlankAt.uses_of_extreme {f : Formula α} {t : Nat} (hblank : f.BlankAt policy x t)
    {e : Extremum} (he : f.extreme? = some e) : ∃ es, f.uses policy x.spacing x.length t = .ok es ∧
      ∀ e ∈ es, e.1.ScoresNaN policy x e.2 := by
  cases f with
  | holdsUntil => cases he
  | predicate | not | and | or | always | eventually | next => exact hblank.2

variable [OrderedScalar α]

theorem Formula.takes_or_blank_of_extreme {f : Formula α} {t : Nat} {e : Extremum} {v : α}
    (he : f.extreme? = some e) (h : f.valueAt .quantitative policy x t = .ok v) :
    f.Takes policy x t v ∨ f.BlankAt policy x t ∧ Scalar.IsInfinite v := by
  obtain ⟨es, values, hes, hvalues, rfl⟩ := Formula.exists_values_of_extreme he h
  have hrelated := exists_of_forall₂ (Except.mapM_eq_ok.mp hvalues)
  rcases e.foldl_join_cases values with ⟨hmem, -⟩ | ⟨hnan, hidentity⟩
  · obtain ⟨use, huse, hvalue⟩ := hrelated.2 _ hmem
    exact .inl ⟨es, hes, use, huse, _, hvalue, .inl rfl⟩
  · have hall : ∀ use ∈ es, use.1.ScoresNaN policy x use.2 := by
      intro use huse
      obtain ⟨a, ha, hvalue⟩ := hrelated.1 use huse
      exact ⟨a, hvalue, hnan a ha⟩
    rw [hidentity]
    exact .inr ⟨.of_extreme he hes hall, e.isInfinite_identity⟩

/-- An extreme without numbers is what its fold starts with. -/
theorem Formula.isInfinite_of_extreme {f : Formula α} {t : Nat} {e : Extremum} {v : α}
    (he : f.extreme? = some e) (h : f.valueAt .quantitative policy x t = .ok v)
    (hblank : f.BlankAt policy x t) : Scalar.IsInfinite v := by
  obtain ⟨es, values, hes, hvalues, rfl⟩ := Formula.exists_values_of_extreme he h
  obtain ⟨es', hes', hall⟩ := hblank.uses_of_extreme he
  obtain rfl : es = es' := Except.ok.inj (hes.symm.trans hes')
  rcases e.foldl_join_cases values with ⟨hmem, hnumber⟩ | ⟨-, hidentity⟩
  · obtain ⟨use, huse, hvalue⟩ := (exists_of_forall₂ (Except.mapM_eq_ok.mp hvalues)).2 _ hmem
    obtain ⟨a, ha, hnan⟩ := hall use huse
    obtain rfl := Except.ok.inj (ha.symm.trans hvalue)
    exact absurd hnumber hnan
  · rw [hidentity]
    exact e.isInfinite_identity

/-- The value of an until is the maximum of its candidates, none of which is NaN: each is the value
of an evaluation that is used, unless those that it combines are all NaN. -/
theorem Formula.exists_candidates_of_until (hlen : x.length ≤ Index.last) {id : NodeId}
    {interval : TimeInterval α} {left right : Formula α} {t : Nat} {v : α}
    (h : (Formula.holdsUntil id interval left right).valueAt .quantitative policy x t = .ok v) :
    ∃ (w : Window) (candidate : Nat → α), x.window policy interval t = .ok w ∧
      v ∈ (List.range' w.first w.size).map candidate ∧ (∀ u ∈ w, candidate u ≤ v) ∧
      ∀ u ∈ w, candidate u ≤ candidate u ∧
        ((right.valueAt .quantitative policy x u = .ok (candidate u) ∨
          ∃ k, t ≤ k ∧ k < u ∧ left.valueAt .quantitative policy x k = .ok (candidate u)) ∨
        Formula.BlankCandidate policy x left right t u ∧ candidate u = Scalar.posInf) := by
  have : Inhabited α := ⟨0⟩
  obtain ⟨w, before, here, hw, hleft, hright, rfl⟩ := Formula.exists_nested_of_until hlen h
  let earlier (u : Nat) : List α := (List.range' t (u - t)).map before
  let candidate (u : Nat) : α := Extremum.min.join (here u)
    ((earlier u).foldl Extremum.min.join Extremum.min.identity)
  have hearlier : ∀ u ∈ w, ∀ k, t ≤ k → k < u →
      left.valueAt .quantitative policy x k = .ok (before k) := by
    intro u hu k htk hku
    have := hu.2
    exact hleft k htk (by omega)
  have hcandidate : ∀ u ∈ w, candidate u ≤ candidate u ∧
      ((right.valueAt .quantitative policy x u = .ok (candidate u) ∨
        ∃ k, t ≤ k ∧ k < u ∧ left.valueAt .quantitative policy x k = .ok (candidate u)) ∨
      Formula.BlankCandidate policy x left right t u ∧ candidate u = Scalar.posInf) := by
    intro u hu
    rcases Extremum.min.join_foldl_cases (here u) (earlier u) with
      ⟨hmem, hnumber⟩ | ⟨hnan, hidentity⟩
    · refine ⟨hnumber, .inl ?_⟩
      rcases List.mem_cons.mp hmem with heq | hmem
      · exact .inl ((hright u hu).trans (congrArg Except.ok heq.symm))
      · obtain ⟨k, hk, heq⟩ := List.mem_map.mp hmem
        obtain ⟨htk, hku⟩ := List.mem_range'_1.mp hk
        have hku : k < u := by omega
        exact .inr ⟨k, htk, hku, (hearlier u hu k htk hku).trans (congrArg Except.ok heq)⟩
    · obtain ⟨hhere, hbefore⟩ := List.forall_mem_cons.mp hnan
      refine ⟨?_, .inr ⟨⟨⟨here u, hright u hu, hhere⟩, fun k htk hku => ?_⟩, hidentity⟩⟩
      · rw [show candidate u = Extremum.min.identity from hidentity]
        exact Extremum.identity_number
      · exact ⟨before k, hearlier u hu k htk hku,
          hbefore _ (List.mem_map_of_mem (List.mem_range'_1.mpr (by omega)))⟩
  have hne : (List.range' w.first w.size).map candidate ≠ [] :=
    List.ne_nil_of_length_pos (by simp [Window.size])
  have hvalues : ∀ a ∈ (List.range' w.first w.size).map candidate, a ≤ a := by
    intro a ha
    obtain ⟨u, hu, rfl⟩ := List.mem_map.mp ha
    exact (hcandidate u (Window.mem_iff.mpr (List.mem_range'_1.mp hu))).1
  have hgreatest := quantitative_ordered.any_isGreatest hne hvalues
  refine ⟨w, candidate, hw, hgreatest.1, fun u hu => hgreatest.2 ?_, hcandidate⟩
  exact List.mem_map_of_mem (List.mem_range'_1.mpr (Window.mem_iff.mp hu))

theorem Formula.takes_or_blank_of_until (hlen : x.length ≤ Index.last) {id : NodeId}
    {interval : TimeInterval α} {left right : Formula α} {t : Nat} {v : α}
    (h : (Formula.holdsUntil id interval left right).valueAt .quantitative policy x t = .ok v) :
    (Formula.holdsUntil id interval left right).Takes policy x t v ∨
      (Formula.holdsUntil id interval left right).BlankAt policy x t ∧ v = Scalar.posInf := by
  obtain ⟨w, candidate, hw, hmem, -, hcandidate⟩ := Formula.exists_candidates_of_until hlen h
  obtain ⟨u, hu, rfl⟩ := List.mem_map.mp hmem
  have hin : u ∈ w := Window.mem_iff.mpr (List.mem_range'_1.mp hu)
  have hes : (Formula.holdsUntil id interval left right).uses policy x.spacing x.length t =
      .ok ((List.range' w.first w.size).map (right, ·) ++
        (List.range' t (w.last - t)).map (left, ·)) :=
    Except.bind_eq_ok.mpr ⟨w, hw, rfl⟩
  rcases (hcandidate u hin).2 with (hvalue | ⟨k, htk, hku, hvalue⟩) | ⟨hblank, hidentity⟩
  · exact .inl ⟨_, hes, (right, u), List.mem_append_left _ (List.mem_map_of_mem hu), _, hvalue,
      .inl rfl⟩
  · have := hin.2
    have hk : k ∈ List.range' t (w.last - t) := List.mem_range'_1.mpr (by omega)
    exact .inl ⟨_, hes, (left, k), List.mem_append_right _ (List.mem_map_of_mem hk), _, hvalue,
      .inl rfl⟩
  · exact .inr ⟨⟨w, hw, u, hin, hblank⟩, hidentity⟩

/-- A single candidate without numbers makes an until infinite. -/
theorem Formula.eq_posInf_of_blankAt (hlen : x.length ≤ Index.last) {id : NodeId}
    {interval : TimeInterval α} {left right : Formula α} {t : Nat} {v : α}
    (h : (Formula.holdsUntil id interval left right).valueAt .quantitative policy x t = .ok v)
    (hblank : (Formula.holdsUntil id interval left right).BlankAt policy x t) :
    v = Scalar.posInf := by
  obtain ⟨w, candidate, hw, -, hgreatest, hcandidate⟩ := Formula.exists_candidates_of_until hlen h
  obtain ⟨w', hw', u, hu, ⟨a, ha, hnan⟩, hbefore⟩ := hblank
  obtain rfl : w = w' := Except.ok.inj (hw.symm.trans hw')
  obtain ⟨hnumber, (hvalue | ⟨k, htk, hku, hvalue⟩) | ⟨-, hidentity⟩⟩ := hcandidate u hu
  · obtain rfl := Except.ok.inj (ha.symm.trans hvalue)
    exact absurd hnumber hnan
  · obtain ⟨b, hb, hnan⟩ := hbefore k htk hku
    obtain rfl := Except.ok.inj (hb.symm.trans hvalue)
    exact absurd hnumber hnan
  · exact OrderedScalar.eq_posInf (hidentity ▸ hgreatest u hu)

/-- **One step**: a value is read off the trajectory, is that of an evaluation used, or is what is
left of an extreme without numbers. -/
theorem Formula.valueAt_cases (hlen : x.length ≤ Index.last) {f : Formula α} {t : Nat} {v : α}
    (h : f.valueAt .quantitative policy x t = .ok v) :
    (∃ signal, f.Asks policy x t signal t ∧ x.signalValue signal t = .ok v) ∨
    f.Takes policy x t v ∨ f.BlankAt policy x t ∧ Scalar.IsInfinite v := by
  cases f with
  | predicate _ signal =>
    obtain ⟨a, ha, hv⟩ := Except.bind_eq_ok.mp h
    cases hv
    exact .inl ⟨signal, ⟨rfl, rfl⟩, ha⟩
  | not _ arg =>
    obtain ⟨a, ha, hv⟩ := Except.bind_eq_ok.mp h
    cases hv
    exact .inr (.inl ⟨[(arg, t)], rfl, (arg, t), List.mem_singleton_self _, a, ha, .inr rfl⟩)
  | and | or | always | eventually => exact .inr (Formula.takes_or_blank_of_extreme rfl h)
  | holdsUntil =>
    exact .inr ((Formula.takes_or_blank_of_until hlen h).imp_right (And.imp_right .inl))
  | next _ arg =>
    obtain ⟨w, hw, hv⟩ := Except.bind_eq_ok.mp h
    exact .inr (.inl ⟨[(arg, w.first)], Except.bind_eq_ok.mpr ⟨w, hw, rfl⟩, (arg, w.first),
      List.mem_singleton_self _, v, hv, .inl rfl⟩)

theorem Formula.isInfinite_of_blankAt (hlen : x.length ≤ Index.last) {f : Formula α} {t : Nat}
    {v : α} (h : f.valueAt .quantitative policy x t = .ok v) (hblank : f.BlankAt policy x t) :
    Scalar.IsInfinite v := by
  cases f with
  | and | or | always | eventually => exact Formula.isInfinite_of_extreme rfl h hblank
  | holdsUntil => exact .inl (Formula.eq_posInf_of_blankAt hlen h hblank)
  | predicate | not | next => exact absurd hblank.1 Bool.false_ne_true

end Steps

/-! ## Whole evaluations -/

section Evaluations

variable {policy : WindowPolicy} {x : Trajectory α}

/-- The value, up to negation, is one of the predicate values that are asked for. -/
def Formula.Stems (policy : WindowPolicy) (x : Trajectory α) (f : Formula α) (t : Nat) (v : α) :
    Prop :=
  ∃ signal u a, f.Asks policy x t signal u ∧ x.signalValue signal u = .ok a ∧
    (Scalar.Matches v a ∨ Scalar.Matches (-v) a)

/-- An extreme without numbers is taken somewhere in the evaluation. -/
inductive Formula.Blanked (policy : WindowPolicy) (x : Trajectory α) : Formula α → Nat → Prop
  | here {f : Formula α} {t : Nat} (hblank : f.BlankAt policy x t) : Blanked policy x f t
  | of_uses {f : Formula α} {t : Nat} {es : List (Formula α × Nat)} {e : Formula α × Nat}
      (hes : f.uses policy x.spacing x.length t = .ok es) (he : e ∈ es)
      (hblanked : Blanked policy x e.1 e.2) : Blanked policy x f t

theorem Formula.Stems.of_uses (hlen : x.length ≤ Index.last) {f : Formula α} {t : Nat}
    {es : List (Formula α × Nat)} (hes : f.uses policy x.spacing x.length t = .ok es)
    {e : Formula α × Nat} (he : e ∈ es) {v : α} (h : e.1.Stems policy x e.2 v) :
    f.Stems policy x t v := by
  obtain ⟨signal, u, a, hasks, ha⟩ := h
  exact ⟨signal, u, a, Formula.asks_of_uses hlen hes he hasks, ha⟩

variable [InvolutiveScalar α]

namespace Scalar

open OrderedScalar

theorem neg_posInf : -(posInf : α) = negInf := by
  have hnumber : (negInf : α) ≤ negInf := quantitative_ordered.valid_eventually
  have hle : - -(negInf : α) ≥ -posInf := neg_le_neg (le_posInf (neg_le_neg hnumber))
  exact eq_negInf ((InvolutiveScalar.neg_neg (negInf : α)).subst hle)

theorem neg_negInf : -(negInf : α) = posInf := by
  rw [← neg_posInf, InvolutiveScalar.neg_neg]

theorem IsInfinite.neg {a : α} (h : IsInfinite a) : IsInfinite (-a) := by
  rcases h with rfl | rfl
  · exact .inr neg_posInf
  · exact .inl neg_negInf

theorem IsInfinite.number {a : α} (h : IsInfinite a) : a ≤ a := by
  rcases h with rfl | rfl
  · exact quantitative_ordered.valid_always
  · exact quantitative_ordered.valid_eventually

theorem IsInfinite.of_matches {a b : α} (h : IsInfinite a) (hab : Matches a b) : IsInfinite b := by
  rcases hab with ⟨hnan, -⟩ | ⟨hle, hge⟩
  · exact absurd h.number hnan
  · rcases h with rfl | rfl
    · exact .inl (eq_posInf hle)
    · exact .inr (eq_negInf hge)

end Scalar

theorem Formula.Stems.neg {f : Formula α} {t : Nat} {v : α} (h : f.Stems policy x t v) :
    f.Stems policy x t (-v) := by
  obtain ⟨signal, u, a, hasks, ha, hmatches⟩ := h
  refine ⟨signal, u, a, hasks, ha, ?_⟩
  rw [InvolutiveScalar.neg_neg]
  exact hmatches.symm

/-- Every value stems from a predicate value, or is infinite and left over. -/
theorem Formula.stems_or_blanked (hlen : x.length ≤ Index.last) (f : Formula α) (t : Nat) :
    ∀ v, f.valueAt .quantitative policy x t = .ok v →
      f.Stems policy x t v ∨ Scalar.IsInfinite v ∧ f.Blanked policy x t := by
  induction f, t using Formula.induction_on_uses policy x.spacing x.length with
  | step f t ih =>
    intro v h
    rcases Formula.valueAt_cases hlen h with
      ⟨signal, hasks, hv⟩ | ⟨es, hes, e, he, a, ha, hva⟩ | ⟨hblank, hinfinite⟩
    · exact .inl ⟨signal, t, v, hasks, hv, .inl (Scalar.matches_refl v)⟩
    · rcases ih es hes e he a ha with hstems | ⟨hinfinite, hblanked⟩
      · refine .inl (.of_uses hlen hes he ?_)
        rcases hva with rfl | rfl
        · exact hstems
        · exact hstems.neg
      · refine .inr ⟨?_, .of_uses hes he hblanked⟩
        rcases hva with rfl | rfl
        · exact hinfinite
        · exact hinfinite.neg
    · exact .inr ⟨hinfinite, .here hblank⟩

/-- A score that is NaN comes from a predicate value that is. -/
theorem Formula.exists_nan_of_scoresNaN (hlen : x.length ≤ Index.last) {f : Formula α} {t : Nat}
    (h : f.ScoresNaN policy x t) : ∃ signal u a, f.Asks policy x t signal u ∧
      x.signalValue signal u = .ok a ∧ Scalar.IsNaN a := by
  obtain ⟨v, hv, hnan⟩ := h
  rcases f.stems_or_blanked hlen t v hv with ⟨signal, u, a, hasks, ha, hmatches⟩ | ⟨hinfinite, -⟩
  · refine ⟨signal, u, a, hasks, ha, ?_⟩
    have hneg : Scalar.IsNaN (-v) := by
      intro hle
      rw [← InvolutiveScalar.neg_neg v] at hnan
      exact hnan (OrderedScalar.neg_le_neg hle)
    rcases hmatches with (⟨-, hnan'⟩ | ⟨hle, -⟩) | ⟨-, hnan'⟩ | ⟨hle, -⟩
    · exact hnan'
    · exact absurd (OrderedScalar.le_left hle) hnan
    · exact hnan'
    · exact absurd (OrderedScalar.le_left hle) hneg
  · exact absurd hinfinite.number hnan

/-- Something that an extreme without numbers is taken of is NaN because a predicate value is. -/
theorem Formula.Blanked.exists_nan (hlen : x.length ≤ Index.last) {f : Formula α} {t : Nat}
    (h : f.Blanked policy x t) : ∃ signal u a, f.Asks policy x t signal u ∧
      x.signalValue signal u = .ok a ∧ Scalar.IsNaN a := by
  have hlift {f : Formula α} {t : Nat} {es : List (Formula α × Nat)} {e : Formula α × Nat}
      (hes : f.uses policy x.spacing x.length t = .ok es) (he : e ∈ es)
      (h : ∃ signal u a, e.1.Asks policy x e.2 signal u ∧ x.signalValue signal u = .ok a ∧
        Scalar.IsNaN a) :
      ∃ signal u a, f.Asks policy x t signal u ∧ x.signalValue signal u = .ok a ∧
        Scalar.IsNaN a := by
    obtain ⟨signal, u, a, hasks, ha⟩ := h
    exact ⟨signal, u, a, Formula.asks_of_uses hlen hes he hasks, ha⟩
  induction h with
  | @here f t hblank =>
    cases f with
    | and | or | always | eventually =>
      obtain ⟨-, es, hes, hall⟩ := hblank
      obtain ⟨e, he⟩ := List.exists_mem_of_ne_nil es (Formula.uses_ne_nil rfl hes)
      exact hlift hes he (Formula.exists_nan_of_scoresNaN hlen (hall e he))
    | holdsUntil id interval left right =>
      obtain ⟨w, hw, u, hu, hright, -⟩ := hblank
      have hmem : (right, u) ∈ (List.range' w.first w.size).map (right, ·) ++
          (List.range' t (w.last - t)).map (left, ·) :=
        List.mem_append_left _
          (List.mem_map_of_mem (List.mem_range'_1.mpr (Window.mem_iff.mp hu)))
      exact hlift (Except.bind_eq_ok.mpr ⟨w, hw, rfl⟩) hmem
        (Formula.exists_nan_of_scoresNaN hlen hright)
    | predicate | not | next => exact absurd hblank.1 Bool.false_ne_true
  | of_uses hes he _ ih => exact hlift hes he ih

end Evaluations

/-- **Where scores come from.** A score is, up to negation, one of the predicate values that are
asked for, or it is infinite and somewhere below an extreme was taken of scores that are all NaN. So
without infinite predicate values only such an extreme leads to an infinite score; at the formula
itself it always does, and there is none unless a predicate value is NaN. -/
theorem score_origin [InvolutiveScalar α] (policy : WindowPolicy) (f : Formula α) (x : Trajectory α)
    (anchor : Nat) (hlen : x.length ≤ Index.last) {v : α}
    (h : f.robustness policy x anchor = .ok v) :
    (f.Stems policy x anchor v ∨ Scalar.IsInfinite v ∧ f.Blanked policy x anchor) ∧
    ((∀ signal u a, f.Asks policy x anchor signal u → x.signalValue signal u = .ok a →
      ¬ Scalar.IsInfinite a) → ¬ f.Blanked policy x anchor → ¬ Scalar.IsInfinite v) ∧
    (f.BlankAt policy x anchor → Scalar.IsInfinite v) ∧
    (f.Blanked policy x anchor → ∃ signal u a, f.Asks policy x anchor signal u ∧
      x.signalValue signal u = .ok a ∧ Scalar.IsNaN a) := by
  have hvalue := (Formula.evaluate_eq_ok.mp h).2
  have horigin := f.stems_or_blanked hlen anchor v hvalue
  refine ⟨horigin, fun hnone hclear hinfinite => ?_,
    fun hblank => Formula.isInfinite_of_blankAt hlen hvalue hblank, fun hb => hb.exists_nan hlen⟩
  obtain ⟨signal, u, a, hasks, ha, hmatches⟩ := horigin.resolve_right fun hb => hclear hb.2
  refine hnone signal u a hasks ha ?_
  rcases hmatches with hmatches | hmatches
  · exact hinfinite.of_matches hmatches
  · exact hinfinite.neg.of_matches hmatches

/-- A sample is missing, and another one follows it. -/
def gapThen (next : Exact) : Trajectory Exact where
  value s := .ok ([.nan, next].getD s.index .nan)
  spacing := .fin 1
  length := 2

/-- The missing sample does not count. -/
theorem score_origin_of_gapThen :
    throughoutAboveTwo.robustness .strict (gapThen (.fin 3)) 0 = .ok (.fin 1) ∧
      throughoutAboveTwo.Stems .strict (gapThen (.fin 3)) 0 (.fin 1) := by
  have hscore : throughoutAboveTwo.robustness .strict (gapThen (.fin 3)) 0 = .ok (.fin 1) := by
    decide +kernel
  obtain ⟨horigin, -⟩ :=
    score_origin .strict throughoutAboveTwo (gapThen (.fin 3)) 0 (by decide) hscore
  refine ⟨hscore, horigin.resolve_right ?_⟩
  rintro ⟨hinfinite | hinfinite, -⟩ <;> cases hinfinite

/-- With nothing but missing samples the score is the value that the minimum starts from, though all
predicate values are NaN. -/
theorem score_leaks :
    throughoutAboveTwo.robustness .strict (gapThen .nan) 0 = .ok .posInf ∧
      (∀ signal u a, throughoutAboveTwo.Asks .strict (gapThen .nan) 0 signal u →
        (gapThen .nan).signalValue signal u = .ok a → a = .nan) ∧
      ¬ throughoutAboveTwo.Stems .strict (gapThen .nan) 0 .posInf := by
  have hnan : ∀ signal u a, throughoutAboveTwo.Asks .strict (gapThen .nan) 0 signal u →
      (gapThen .nan).signalValue signal u = .ok a → a = .nan := by
    intro signal u a hasks ha
    obtain ⟨_, -, _, -, rfl, rfl⟩ := hasks
    have hu := Trajectory.lt_of_signalValue ha
    rcases u with _ | _ | u
    · exact Except.ok.inj (ha.symm.trans (by decide +kernel))
    · exact Except.ok.inj (ha.symm.trans (by decide +kernel))
    · exact absurd hu (by simp [gapThen])
  refine ⟨by decide +kernel, hnan, ?_⟩
  rintro ⟨signal, u, a, hasks, ha, hmatches⟩
  obtain rfl := hnan signal u a hasks ha
  have hposInf : Scalar.IsInfinite (.posInf : Exact) := .inl rfl
  have hinfinite : Scalar.IsInfinite (.nan : Exact) :=
    hmatches.elim hposInf.of_matches hposInf.neg.of_matches
  exact hinfinite.elim nofun nofun

end SignalTemporalLogic
