import SignalTemporalLogic.Proofs.Outcomes
import SignalTemporalLogic.Trajectory.Sampled

/-!
Tables stay rectangular: a column is only added if it has the length of those before it. So a table
has a value for a sample exactly if it has a column of that name and the index lies inside.
-/

namespace SignalTemporalLogic.SampledTrajectory

variable {α : Type}

theorem column?_withColumn (columns : Std.TreeMap String (Array α)) (name other : String)
    (samples : Array α) : (columns.insert name samples)[other]? =
      if name = other then some samples else columns[other]? := by
  rw [Std.TreeMap.getElem?_insert]
  simp only [Std.compare_eq_iff_eq]

variable [Scalar α]

/-- The tables that can be made: columns are added one by one to an empty table. -/
inductive Built : SampledTrajectory α → Prop
  | empty (spacing : α) : Built (.empty spacing)
  | withSignal {x y : SampledTrajectory α} {name : String} {samples : Array α} (h : Built x)
    (hy : x.withSignal? name samples = .ok y) : Built y

/-- A table with a further column has the length of that column, and so have the other columns. -/
theorem withSignal?_eq_ok {x y : SampledTrajectory α} {name : String} {samples : Array α} :
    x.withSignal? name samples = .ok y ↔
      Scalar.IsPositiveFinite x.spacing ∧ (∀ n, x.length? = some n → samples.size = n) ∧
        y = { x with length? := some samples.size, columns := x.columns.insert name samples } := by
  unfold withSignal?
  by_cases hspacing : Scalar.IsPositiveFinite x.spacing
  · cases hlength : x.length? with
    | none => simp [hspacing, eq_comm]
    | some n =>
      by_cases hsize : samples.size = n
      · simp [hspacing, hsize, eq_comm]
      · simp [hspacing, hsize]
  · simp [hspacing]

theorem Built.addAll {add : SampledTrajectory α → String × Nat → Except (Fault α) _}
    (hadd : ∀ x column y, x.Built → add x column = .ok y → y.Built) :
    ∀ (names : List (String × Nat)) {x y : SampledTrajectory α}, x.Built →
      names.foldlM add x = .ok y → y.Built
  | [], _, _, h, hrun => Except.pure_eq_ok.mp hrun ▸ h
  | column :: rest, x, y, h, hrun => by
    rw [List.foldlM_cons] at hrun
    obtain ⟨z, hz, hrun⟩ := Except.bind_eq_ok.mp hrun
    exact Built.addAll hadd rest (hadd x column z h hz) hrun

/-- A table from states is made in the same way. -/
theorem Built.ofStates {spacing : α} {names : List String} {states : List (List α)}
    {x : SampledTrajectory α} (h : ofStates? spacing names states = .ok x) : x.Built := by
  obtain ⟨_, -, hrun⟩ := Except.bind_eq_ok.mp h
  exact Built.addAll (fun _ _ _ h hy => h.withSignal hy) _ (.empty spacing) hrun

/-- All columns have the length of the table. -/
theorem Built.column_size {x : SampledTrajectory α} (h : x.Built) :
    ∀ name column, x.column? name = some column → x.length? = some column.size := by
  induction h with
  | empty spacing =>
    intro name column hcolumn
    simp [column?, SampledTrajectory.empty] at hcolumn
  | @withSignal x y added samples h hy ih =>
    intro name column hcolumn
    obtain ⟨-, hsize, rfl⟩ := withSignal?_eq_ok.mp hy
    rw [column?, column?_withColumn] at hcolumn
    split at hcolumn
    · cases hcolumn
      rfl
    · exact congrArg some (hsize _ (ih name column hcolumn))

/-- **A table has the samples of its columns, and no others.** -/
theorem Built.value_iff {x : SampledTrajectory α} (h : x.Built) (sample : Sample) :
    (∃ a, x.value sample = .ok a) ↔
      (∃ column, x.column? sample.name = some column) ∧ sample.index < x.length := by
  unfold value
  cases hcolumn : x.column? sample.name with
  | none => simp
  | some column =>
    have hlength : x.length = column.size := by
      rw [length, h.column_size _ _ hcolumn]
      rfl
    by_cases hlt : sample.index < column.size
    · simp [hlength, hlt]
    · simp [hlength, hlt]

end SignalTemporalLogic.SampledTrajectory
