import SignalTemporalLogic.Proofs.Repetitions

/-!
Time has no origin. Evaluation never looks back from its anchor, as long as no label does, so the
samples before the anchor may be dropped: the rest of the table, read at the anchor's new index,
gives the same robustness and the same verdict. Windows are clipped, or refused, at the end of the
table, which keeps its distance from the anchor.
-/

namespace SignalTemporalLogic

variable {α : Type}

/-! ## Two trajectories with one end -/

/-- Windows are there alike in two trajectories if corresponding indices are equally far from the
end. -/
theorem Trajectory.mirrors_of_length {policy : WindowPolicy} {x y : Trajectory α} {a b : Nat}
    (hspacing : y.spacing = x.spacing) (hx : x.length ≤ Index.last) (hy : y.length ≤ Index.last)
    (hend : x.length + b = y.length + a) : x.Mirrors policy policy y a b where
  spacing_eq := hspacing
  resolve {i j lo hi w} hij hw := by
    obtain ⟨hle, hfirst, hlast, hw, hw'⟩ := (WindowPolicy.resolve_eq_ok hx).mp hw
    have hordered : j + lo ≤ min (j + hi) (y.length - 1) := by omega
    refine ⟨⟨j + lo, min (j + hi) (y.length - 1), hordered⟩,
      (WindowPolicy.resolve_eq_ok hy).mpr ⟨hle, by omega, fun h => ?_, rfl, rfl⟩, ?_, ?_⟩
    · have := hlast h
      omega
    · show w.first + b = j + lo + a
      omega
    · show w.last + b = min (j + hi) (y.length - 1) + a
      omega

/-! ## Tables without their first samples -/

namespace SampledTrajectory

variable {x : SampledTrajectory α} {count : Nat}

/-- The table without the first `count` samples of every column. -/
def drop (x : SampledTrajectory α) (count : Nat) : SampledTrajectory α where
  spacing := x.spacing
  length? := x.length?.map (· - count)
  columns := x.columns.map fun _ column => column.drop count

theorem length_drop : (x.drop count).length = x.length - count := by
  unfold length drop
  cases x.length? <;> simp

theorem column?_drop (name : String) :
    (x.drop count).column? name = (x.column? name).map (·.drop count) := by
  simp [column?, drop]

/-- Sample `i` of what is left is sample `count + i` of the table. -/
theorem value_drop_eq_ok {name : String} {i : Nat} {a : α} :
    (x.drop count).value ⟨name, i⟩ = .ok a ↔ x.value ⟨name, count + i⟩ = .ok a := by
  unfold value
  rw [column?_drop]
  cases x.column? name with
  | none => simp
  | some column =>
    have hsample : (column.drop count)[i]? = column[count + i]? := by
      rw [Array.drop_eq_extract, Array.getElem?_extract]
      split
      · rfl
      · next hout => exact (Array.getElem?_eq_none (by omega)).symm
    simp only [Option.map_some, hsample]
    cases column[count + i]? <;> simp

theorem mirrors_drop (hlen : x.length ≤ Index.last) (hcount : count ≤ x.length)
    (policy : WindowPolicy) :
    x.toTrajectory.Mirrors policy policy (x.drop count).toTrajectory count 0 ∧
      (x.drop count).toTrajectory.Mirrors policy policy x.toTrajectory 0 count := by
  have hlength : (x.drop count).toTrajectory.length = x.length - count := length_drop
  have hwhole : x.toTrajectory.length = x.length := rfl
  exact ⟨Trajectory.mirrors_of_length rfl hlen (by omega) (by omega),
    Trajectory.mirrors_of_length rfl (by omega) hlen (by omega)⟩

end SampledTrajectory

variable [Scalar α]

/-- A signal is repeated if each of its samples is. -/
theorem Signal.repeatedIn_of_samples {x y : Trajectory α} {a b : Nat} {signal : Signal α}
    (hend : x.length + b = y.length + a)
    (hsamples : ∀ label ∈ signal.form.labels, ∀ u v, u + b = v + a → ∀ sample c,
      label.at? u = some sample → x.value sample = .ok c →
        ∃ sample', label.at? v = some sample' ∧ y.value sample' = .ok c) :
    signal.RepeatedIn x y a b := by
  have hsampleAt {label : SampleLabel} {t : Nat} {sample : Sample} :
      (Signal.sampleAt label t : Except (Fault α) Sample) = .ok sample ↔
        label.at? t = some sample := by
    unfold Signal.sampleAt
    cases label.at? t <;> simp
  intro u v huv c hc
  obtain ⟨_, hcheck, hc⟩ := Except.bind_eq_ok.mp hc
  obtain ⟨arguments, harguments, hc⟩ := Except.bind_eq_ok.mp hc
  have hinside := Trajectory.checkIndex_eq_ok.mp hcheck
  have hread := forall₂_imp_of_mem (Except.mapM_eq_ok.mp harguments) fun label hlabel d hd => by
    obtain ⟨sample, hsample, hd⟩ := Except.bind_eq_ok.mp hd
    obtain ⟨sample', hsample', hd'⟩ :=
      hsamples label hlabel u v huv sample d (hsampleAt.mp hsample) hd
    exact show (do y.value (← Signal.sampleAt label v)) = .ok d from
      Except.bind_eq_ok.mpr ⟨sample', hsampleAt.mpr hsample', hd'⟩
  exact Except.bind_eq_ok.mpr ⟨(), Trajectory.checkIndex_eq_ok.mpr (by omega),
    Except.bind_eq_ok.mpr ⟨arguments, Except.mapM_eq_ok.mpr hread, hc⟩⟩

/-! ## Dropping what lies before the anchor -/

section Drop

variable {x : SampledTrajectory α} {count : Nat}

/-- Labels that do not look back never meet a sample that was dropped. -/
theorem Signal.repeatedIn_drop (hcount : count ≤ x.length) {signal : Signal α}
    (hlabels : ∀ label ∈ signal.form.labels, 0 ≤ label.offset) :
    signal.RepeatedIn x.toTrajectory (x.drop count).toTrajectory count 0 := by
  have hlength : (x.drop count).toTrajectory.length = x.length - count :=
    SampledTrajectory.length_drop
  have hwhole : x.toTrajectory.length = x.length := rfl
  refine Signal.repeatedIn_of_samples (by omega) fun label hlabel u v huv sample c hsample hc => ?_
  have hahead := hlabels label hlabel
  obtain ⟨-, hlast, rfl⟩ := SampleLabel.at?_eq_some.mp hsample
  refine ⟨_, SampleLabel.at?_eq_some.mpr ⟨by omega, by omega, rfl⟩,
    SampledTrajectory.value_drop_eq_ok.mpr ?_⟩
  have hindex : count + (v + label.offset).toNat = (u + label.offset).toNat := by omega
  rw [hindex]
  exact hc

/-- All samples that are left are read at their new indices. -/
theorem Signal.repeatedIn_of_drop (hx : x.Built) (hlen : x.length ≤ Index.last)
    (hcount : count ≤ x.length) (signal : Signal α) :
    signal.RepeatedIn (x.drop count).toTrajectory x.toTrajectory 0 count := by
  have hlength : (x.drop count).toTrajectory.length = x.length - count :=
    SampledTrajectory.length_drop
  have hwhole : x.toTrajectory.length = x.length := rfl
  refine Signal.repeatedIn_of_samples (by omega) fun label _ u v huv sample c hsample hc => ?_
  obtain ⟨hfirst, -, rfl⟩ := SampleLabel.at?_eq_some.mp hsample
  have hvalue := SampledTrajectory.value_drop_eq_ok.mp hc
  have hindex : count + (u + label.offset).toNat = (v + label.offset).toNat := by omega
  rw [hindex] at hvalue
  have hinside : (v + label.offset).toNat < x.length := ((hx.value_iff _).mp ⟨c, hvalue⟩).2
  exact ⟨_, SampleLabel.at?_eq_some.mpr ⟨by omega, by omega, rfl⟩, hvalue⟩

/-- In every semantics, a formula without labels that look back has the same value where the
samples before its anchor are missing. -/
theorem Formula.evaluate_drop {Y : Type} (S : Semantics α Y) (policy : WindowPolicy)
    (hx : x.Built) (hlen : x.length ≤ Index.last) {f : Formula α}
    (hlabels : ∀ signal ∈ f.signals, ∀ label ∈ signal.form.labels, 0 ≤ label.offset)
    {anchor : Nat} (hanchor : anchor < x.length) (hcount : count ≤ anchor) (v : Y) :
    f.evaluate S policy x.toTrajectory anchor = .ok v ↔
      f.evaluate S policy (x.drop count).toTrajectory (anchor - count) = .ok v := by
  have hinside : count ≤ x.length := by omega
  have hlength : (x.drop count).toTrajectory.length = x.length - count :=
    SampledTrajectory.length_drop
  obtain ⟨hforth, hback⟩ := x.mirrors_drop hlen hinside policy
  constructor
  · exact Formula.evaluate_repeats S hforth
      (fun signal hs => Signal.repeatedIn_drop hinside (hlabels signal hs))
      (by omega) (fun _ => by omega) v
  · exact Formula.evaluate_repeats S hback
      (fun signal _ => Signal.repeatedIn_of_drop hx hlen hinside signal)
      (by omega) (fun _ => hanchor) v

/-- **Evaluation is invariant under shifts**: a formula whose labels do not look back has a
robustness at an anchor exactly if it has it, at the anchor's new index, on the table without any
samples before the anchor, be it some of them or all. So it is with the verdict. -/
theorem shift_invariant (policy : WindowPolicy) (hx : x.Built) (hlen : x.length ≤ Index.last)
    {f : Formula α}
    (hlabels : ∀ signal ∈ f.signals, ∀ label ∈ signal.form.labels, 0 ≤ label.offset)
    {anchor : Nat} (hanchor : anchor < x.length) (hcount : count ≤ anchor) :
    (∀ v, f.robustness policy x.toTrajectory anchor = .ok v ↔
      f.robustness policy (x.drop count).toTrajectory (anchor - count) = .ok v) ∧
    ∀ b, f.satisfied policy x.toTrajectory anchor = .ok b ↔
      f.satisfied policy (x.drop count).toTrajectory (anchor - count) = .ok b :=
  ⟨f.evaluate_drop .quantitative policy hx hlen hlabels hanchor hcount,
    f.evaluate_drop .qualitative policy hx hlen hlabels hanchor hcount⟩

/-- At the second of three samples the window of the until is clipped to the third one; so it is
where the first sample is missing. -/
theorem shift_invariant_of_lateSwitch :
    lateSwitch.robustness .clamp (threeSamples.drop 1).toTrajectory 0 = .ok (.fin (-2)) ∧
      lateSwitch.satisfied .clamp (threeSamples.drop 1).toTrajectory 0 = .ok false := by
  have hlabels : ∀ signal ∈ lateSwitch.signals, ∀ label ∈ signal.form.labels, 0 ≤ label.offset := by
    decide +kernel
  have hscore : lateSwitch.robustness .clamp threeSamples.toTrajectory 1 = .ok (.fin (-2)) := by
    decide +kernel
  have hverdict : lateSwitch.satisfied .clamp threeSamples.toTrajectory 1 = .ok false := by
    decide +kernel
  obtain ⟨hrobustness, hsatisfied⟩ := shift_invariant .clamp threeSamples_built (by decide) hlabels
    (show 1 < threeSamples.length by decide) (Nat.le_refl 1)
  exact ⟨(hrobustness _).mp hscore, (hsatisfied _).mp hverdict⟩

end Drop

end SignalTemporalLogic
