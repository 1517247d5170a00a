import SignalTemporalLogic.Proofs.Signs

/-!
Evaluation is natural in the semantics. The same computation is made in every semantics, and values
are only ever combined. So a map that commutes with the ways of combining them may as well be applied
once, to the result, and what the computation fails with is the same in all semantics.
-/

namespace SignalTemporalLogic

variable {α Y Z : Type}

/-- The map commutes with the connectives, the reading of predicates, and the values of nothing. -/
structure Semantics.Maps (S : Semantics α Y) (T : Semantics α Z) (h : Y → Z) : Prop where
  and (a b : Y) : h (S.and a b) = T.and (h a) (h b)
  or (a b : Y) : h (S.or a b) = T.or (h a) (h b)
  not (a : Y) : h (S.not a) = T.not (h a)
  always : h S.always = T.always
  eventually : h S.eventually = T.eventually
  atomic (a : α) : h (S.atomic a) = T.atomic a

namespace Semantics

variable {S : Semantics α Y} {T : Semantics α Z} {h : Y → Z}

/-- What is combined is related to its image. -/
theorem Maps.related (hmaps : S.Maps T h) : S.Related T fun a b => h a = b where
  and {a a' b b'} ha ha' := by rw [hmaps.and, ha, ha']
  or {a a' b b'} ha ha' := by rw [hmaps.or, ha, ha']
  always := hmaps.always
  eventually := hmaps.eventually

/-- The semantics with a single value: all that is left of an evaluation is whether it returns. -/
def blind : Semantics α Unit where
  and _ _ := ()
  or _ _ := ()
  not _ := ()
  always := ()
  eventually := ()
  atomic _ := ()

theorem maps_blind (S : Semantics α Y) : S.Maps .blind fun _ => () :=
  ⟨fun _ _ => rfl, fun _ _ => rfl, fun _ => rfl, rfl, rfl, fun _ => rfl⟩

/-- Both semantics at once. -/
def pair (S : Semantics α Y) (T : Semantics α Z) : Semantics α (Y × Z) where
  and a b := (S.and a.1 b.1, T.and a.2 b.2)
  or a b := (S.or a.1 b.1, T.or a.2 b.2)
  not a := (S.not a.1, T.not a.2)
  always := (S.always, T.always)
  eventually := (S.eventually, T.eventually)
  atomic a := (S.atomic a, T.atomic a)

theorem maps_fst (S : Semantics α Y) (T : Semantics α Z) : (S.pair T).Maps S Prod.fst :=
  ⟨fun _ _ => rfl, fun _ _ => rfl, fun _ => rfl, rfl, rfl, fun _ => rfl⟩

theorem maps_snd (S : Semantics α Y) (T : Semantics α Z) : (S.pair T).Maps T Prod.snd :=
  ⟨fun _ _ => rfl, fun _ _ => rfl, fun _ => rfl, rfl, rfl, fun _ => rfl⟩

end Semantics

/-- A computation that ends as another one does, with the image of its result, is its image. -/
theorem EndAlike.eq_map {ε β γ : Type} {h : β → γ} {act : Except ε β} {act' : Except ε γ}
    (halike : EndAlike Eq (fun b c => h b = c) act act') : act' = act.map h := by
  cases act <;> cases act'
  case ok.ok b c => exact congrArg Except.ok (Eq.symm halike)
  case error.error e e' => exact congrArg Except.error (Eq.symm halike)
  all_goals exact halike.elim

variable [Scalar α]

theorem Formula.evaluate_map {S : Semantics α Y} {T : Semantics α Z} {h : Y → Z}
    (hmaps : S.Maps T h) (policy : WindowPolicy) (f : Formula α) (x : Trajectory α) (anchor : Nat)
    (hlen : x.length ≤ Index.last) :
    f.evaluate T policy x anchor = (f.evaluate S policy x anchor).map h := by
  have hnot : ∀ a b, h a = b → h (S.not a) = T.not b := by
    intro a b hab
    rw [hmaps.not, hab]
  have hread (signal : Signal α) (u : Nat) :
      EndAlike Eq (fun a b => h (S.atomic a) = T.atomic b) (x.signalValue signal u)
        (x.signalValue signal u) :=
    Trajectory.signalValue_alike (R := fun a b => h a = b) fun a _ => hmaps.atomic a
  have halike : EndAlike Eq (fun a b => h a = b) (f.evaluate S policy x anchor)
      (f.evaluate T policy x anchor) :=
    f.evaluate_alike hmaps.related (fun _ => rfl) hlen rfl rfl anchor (.inr hnot)
      fun signal u _ => hread signal u
  exact halike.eq_map

/-- **Evaluation is natural in the semantics.** A map that commutes with two semantics takes the
value in the one to the value in the other, and leaves faults as they are. Hence any two semantics
whatever return on the same inputs, and fail with the same faults on the others. -/
theorem evaluation_natural (policy : WindowPolicy) (f : Formula α) (x : Trajectory α) (anchor : Nat)
    (hlen : x.length ≤ Index.last) :
    (∀ (Y Z : Type) (S : Semantics α Y) (T : Semantics α Z) (h : Y → Z), S.Maps T h →
      f.evaluate T policy x anchor = (f.evaluate S policy x anchor).map h) ∧
    ∀ (Y Z : Type) (S : Semantics α Y) (T : Semantics α Z),
      (f.evaluate S policy x anchor).map (fun _ => ()) =
        (f.evaluate T policy x anchor).map fun _ => () := by
  refine ⟨fun Y Z S T h hmaps => f.evaluate_map hmaps policy x anchor hlen, fun Y Z S T => ?_⟩
  -- both are what the evaluation in the semantics with a single value comes to
  have hS := f.evaluate_map (Semantics.maps_blind S) policy x anchor hlen
  have hT := f.evaluate_map (Semantics.maps_blind T) policy x anchor hlen
  exact hS.symm.trans hT

/-- Score and verdict in one pass, at an anchor whose window is inside and at one whose window is
not. -/
theorem evaluation_natural_of_lateSwitch :
    lateSwitch.evaluate (Semantics.quantitative.pair .qualitative) .strict fourSamples 0 =
      .ok (.fin 2, true) ∧
    lateSwitch.robustness .strict fourSamples 0 = .ok (.fin 2) ∧
    lateSwitch.satisfied .strict fourSamples 0 = .ok true ∧
    lateSwitch.robustness .strict fourSamples 1 = .error (.outOfRange 4 4) ∧
    lateSwitch.satisfied .strict fourSamples 1 = .error (.outOfRange 4 4) := by
  have hpair : lateSwitch.evaluate (Semantics.quantitative.pair .qualitative) .strict fourSamples 0 =
      .ok (.fin 2, true) := by decide +kernel
  obtain ⟨hmap, -⟩ := evaluation_natural .strict lateSwitch fourSamples 0 (by decide)
  obtain ⟨-, houtcome⟩ := evaluation_natural .strict lateSwitch fourSamples 1 (by decide)
  have hfault : lateSwitch.robustness .strict fourSamples 1 = .error (.outOfRange 4 4) := by
    decide +kernel
  have hsame : (lateSwitch.robustness .strict fourSamples 1).map (fun _ => ()) =
      (lateSwitch.satisfied .strict fourSamples 1).map fun _ => () := houtcome _ _ _ _
  rw [hfault] at hsame
  refine ⟨hpair, ?_, ?_, hfault, ?_⟩
  · exact (hmap _ _ _ _ _ (Semantics.maps_fst _ _)).trans (congrArg (Except.map Prod.fst) hpair)
  · exact (hmap _ _ _ _ _ (Semantics.maps_snd _ _)).trans (congrArg (Except.map Prod.snd) hpair)
  · cases hverdict : lateSwitch.satisfied .strict fourSamples 1 with
    | error e =>
      rw [hverdict] at hsame
      exact congrArg Except.error (Except.error.inj hsame).symm
    | ok b =>
      rw [hverdict] at hsame
      cases hsame

end SignalTemporalLogic
