import Mathlib.Data.List.Nodup
import SignalTemporalLogic.Proofs.Tables
import SignalTemporalLogic.Scalar.Exact

/-!
What is in a table after any number of requests for columns, some of them refused: for every name
the column that was stored last, and all columns of one length. A table from states holds component
`j` of state `t` as sample `t` of name number `j`.
-/

namespace SignalTemporalLogic.SampledTrajectory

variable {α : Type}

/-- Samples that were stored under a name. -/
structure Column (α : Type) where
  name : String
  samples : Array α

/-- Component `j` of every state that has one. -/
def component (states : List (List α)) (j : Nat) : List α := states.filterMap (·[j]?)

/-- The columns of states, one for each name. -/
def columnsOf (names : List String) (states : List (List α)) : List (Column α) :=
  names.zipIdx.map fun (name, j) => ⟨name, (component states j).toArray⟩

/-- The samples that were stored last under the name. -/
def lastStored (columns : List (Column α)) (name : String) : Option (Array α) :=
  (columns.reverse.find? (·.name = name)).map Column.samples

theorem lastStored_concat (columns : List (Column α)) (column : Column α) (name : String) :
    lastStored (columns ++ [column]) name =
      if column.name = name then some column.samples else lastStored columns name := by
  by_cases h : column.name = name <;> simp [lastStored, h]

/-- If no name occurs twice, nothing is stored over a column. -/
theorem lastStored_of_mem {columns : List (Column α)} (hnodup : (columns.map Column.name).Nodup)
    {column : Column α} (hmem : column ∈ columns) :
    lastStored columns column.name = some column.samples := by
  obtain ⟨other, hother⟩ : ∃ other, columns.reverse.find? (·.name = column.name) = some other :=
    Option.isSome_iff_exists.mp (List.find?_isSome.mpr ⟨column, by simpa using hmem, by simp⟩)
  have hname : other.name = column.name := by simpa using List.find?_some hother
  have hsame : other = column := List.inj_on_of_nodup_map hnodup
    (List.mem_reverse.mp (List.mem_of_find?_eq_some hother)) hmem hname
  rw [lastStored, hother, hsame]
  rfl

theorem value_eq_ok {x : SampledTrajectory α} {name : String} {i : Nat} {v : α} :
    x.value ⟨name, i⟩ = .ok v ↔ ∃ column, x.column? name = some column ∧ column[i]? = some v := by
  unfold value
  cases x.column? name with
  | none => simp
  | some column => cases hi : column[i]? <;> simp [hi]

/-! ## Components of states -/

/-- Where all states are long enough, each of them has the component. -/
theorem component_forall₂ {j : Nat} {states : List (List α)}
    (h : ∀ state ∈ states, j < state.length) :
    List.Forall₂ (fun state v => state[j]? = some v) states (component states j) := by
  induction states with
  | nil => exact .nil
  | cons state rest ih =>
    have hstate := List.getElem?_eq_getElem (h state (by simp))
    simp only [component, List.filterMap_cons, hstate]
    exact .cons hstate (ih fun other hother => h other (by simp [hother]))

theorem length_component {j : Nat} {states : List (List α)}
    (h : ∀ state ∈ states, j < state.length) : (component states j).length = states.length :=
  (component_forall₂ h).length_eq.symm

theorem getElem?_component {j t : Nat} {states : List (List α)} {state : List α}
    (h : ∀ state ∈ states, j < state.length) (ht : states[t]? = some state) :
    (component states j)[t]? = state[j]? := by
  obtain ⟨hlength, hpoint⟩ := List.forall₂_iff_get.mp (component_forall₂ h)
  obtain ⟨hinside, rfl⟩ := List.getElem?_eq_some_iff.mp ht
  have hvalue := hpoint t hinside (hlength ▸ hinside)
  simp only [List.get_eq_getElem] at hvalue
  rw [hvalue, List.getElem?_eq_getElem (hlength ▸ hinside)]

theorem mem_columnsOf {names : List String} {states : List (List α)} {column : Column α} :
    column ∈ columnsOf names states ↔
      ∃ j, names[j]? = some column.name ∧ column.samples = (component states j).toArray := by
  obtain ⟨name, samples⟩ := column
  simp [columnsOf, List.mem_zipIdx_iff_getElem?, eq_comm]

theorem map_name_columnsOf (names : List String) (states : List (List α)) :
    (columnsOf names states).map Column.name = names := by
  simp [columnsOf, Function.comp_def]

/-- Every state is checked, wherever the count of states starts. -/
theorem checkStates_eq_ok {count position : Nat} {states : List (List α)} :
    checkStates count position states = .ok () ↔ ∀ state ∈ states, state.length = count := by
  induction states generalizing position with
  | nil => simp [checkStates]
  | cons state rest ih =>
    by_cases h : state.length = count <;> simp [checkStates, h, ih]

/-! ## Requests for columns -/

/-- Under each name the table has the column that was stored last. -/
def Holds (x : SampledTrajectory α) (columns : List (Column α)) : Prop :=
  ∀ name, x.column? name = lastStored columns name

theorem holds_empty (spacing : α) : (empty spacing).Holds [] := fun name => by
  simp [column?, empty, lastStored]

variable [Scalar α]

/-- The tables that are reached, with the columns that were stored in them on the way. A refused
request leaves a table as it is. -/
inductive Reached : SampledTrajectory α → List (Column α) → Prop
  | empty (spacing : α) : Reached (.empty spacing) []
  | ofStates {spacing : α} {names : List String} {states : List (List α)}
    {x : SampledTrajectory α} (hx : ofStates? spacing names states = .ok x) :
    Reached x (columnsOf names states)
  | stored {x y : SampledTrajectory α} {columns : List (Column α)} {name : String}
    {samples : Array α} (h : Reached x columns) (hy : x.withSignal? name samples = .ok y) :
    Reached y (columns ++ [⟨name, samples⟩])
  | refused {x : SampledTrajectory α} {columns : List (Column α)} {name : String}
    {samples : Array α} {fault : Fault α} (h : Reached x columns)
    (hfault : x.withSignal? name samples = .error fault) : Reached x columns

theorem Holds.stored {x y : SampledTrajectory α} {columns : List (Column α)} {name : String}
    {samples : Array α} (h : x.Holds columns) (hy : x.withSignal? name samples = .ok y) :
    y.Holds (columns ++ [⟨name, samples⟩]) := by
  obtain ⟨-, -, rfl⟩ := withSignal?_eq_ok.mp hy
  intro other
  rw [column?, column?_withColumn, lastStored_concat]
  by_cases hname : name = other
  · rw [if_pos hname, if_pos hname]
  · rw [if_neg hname, if_neg hname]
    exact h other

/-- Stores the columns one after the other. -/
def storeAll (x : SampledTrajectory α) (columns : List (Column α)) :
    Except (Fault α) (SampledTrajectory α) :=
  columns.foldlM (fun x column => x.withSignal? column.name column.samples) x

theorem ofStates?_eq (spacing : α) (names : List String) (states : List (List α)) :
    ofStates? spacing names states = (do
      checkStates names.length 0 states
      (empty spacing).storeAll (columnsOf names states)) := by
  rw [storeAll, columnsOf, List.foldlM_map]
  rfl

theorem Holds.storeAll {x y : SampledTrajectory α} {before columns : List (Column α)}
    (h : x.Holds before) (hy : x.storeAll columns = .ok y) : y.Holds (before ++ columns) := by
  induction columns generalizing x before with
  | nil =>
    obtain rfl := Except.pure_eq_ok.mp hy
    simpa using h
  | cons column rest ih =>
    obtain ⟨z, hz, hy⟩ := Except.bind_eq_ok.mp hy
    simpa using ih (h.stored hz) hy

/-- **A table holds what was stored last**, whatever was refused on the way. -/
theorem Reached.holds {x : SampledTrajectory α} {columns : List (Column α)}
    (h : Reached x columns) : x.Holds columns := by
  induction h with
  | empty spacing => exact holds_empty spacing
  | @ofStates spacing names states x hx =>
    rw [ofStates?_eq] at hx
    obtain ⟨-, -, hx⟩ := Except.bind_eq_ok.mp hx
    exact (holds_empty spacing).storeAll hx
  | stored _ hy ih => exact ih.stored hy
  | refused _ _ ih => exact ih

theorem Reached.built {x : SampledTrajectory α} {columns : List (Column α)}
    (h : Reached x columns) : x.Built := by
  induction h with
  | empty spacing => exact .empty spacing
  | ofStates hx => exact .ofStates hx
  | stored _ hy ih => exact ih.withSignal hy
  | refused _ _ ih => exact ih

/-- Columns of one length can be stored in a table that has no other length. -/
theorem exists_storeAll {n : Nat} {x : SampledTrajectory α} {columns : List (Column α)}
    (hspacing : Scalar.IsPositiveFinite x.spacing) (hlength : ∀ m, x.length? = some m → m = n)
    (hcolumns : ∀ column ∈ columns, column.samples.size = n) : ∃ y, x.storeAll columns = .ok y := by
  induction columns generalizing x with
  | nil => exact ⟨x, rfl⟩
  | cons column rest ih =>
    have hsize := hcolumns column (by simp)
    obtain ⟨z, hz⟩ : ∃ z, x.withSignal? column.name column.samples = .ok z :=
      ⟨_, withSignal?_eq_ok.mpr ⟨hspacing, fun m hm => hsize.trans (hlength m hm).symm, rfl⟩⟩
    obtain ⟨-, -, hstored⟩ := withSignal?_eq_ok.mp hz
    have hstays : Scalar.IsPositiveFinite z.spacing ∧ z.length? = some n := by
      rw [hstored, hsize]
      exact ⟨hspacing, rfl⟩
    obtain ⟨y, hy⟩ := ih hstays.1 (fun m hm => Option.some.inj (hm.symm.trans hstays.2))
      fun other hother => hcolumns other (by simp [hother])
    exact ⟨y, Except.bind_eq_ok.mpr ⟨z, hz, hy⟩⟩

/-! ## Tables from states -/

section States

variable {spacing : α} {names : List String} {states : List (List α)} {x : SampledTrajectory α}

/-- States make a table if the sampling interval is sound and every state has a component for each
name. -/
theorem exists_ofStates?_iff (hnames : names ≠ []) :
    (∃ x, ofStates? spacing names states = .ok x) ↔
      Scalar.IsPositiveFinite spacing ∧ ∀ state ∈ states, state.length = names.length := by
  rw [ofStates?_eq]
  constructor
  · rintro ⟨x, hx⟩
    obtain ⟨⟨⟩, hstates, hx⟩ := Except.bind_eq_ok.mp hx
    refine ⟨?_, checkStates_eq_ok.mp hstates⟩
    obtain ⟨name, rest, rfl⟩ := List.exists_cons_of_ne_nil hnames
    obtain ⟨z, hz, -⟩ := Except.bind_eq_ok.mp hx
    exact (withSignal?_eq_ok.mp hz).1
  · rintro ⟨hspacing, hstates⟩
    have hcolumns : ∀ column ∈ columnsOf names states, column.samples.size = states.length := by
      intro column hcolumn
      obtain ⟨j, hj, hsamples⟩ := mem_columnsOf.mp hcolumn
      rw [hsamples, List.size_toArray]
      refine length_component fun state hstate => ?_
      rw [hstates state hstate]
      exact (List.getElem?_eq_some_iff.mp hj).1
    have hempty : Scalar.IsPositiveFinite (empty spacing).spacing := hspacing
    obtain ⟨x, hx⟩ := exists_storeAll hempty (fun m hm => nomatch hm) hcolumns
    exact ⟨x, Except.bind_eq_ok.mpr ⟨(), checkStates_eq_ok.mpr hstates, hx⟩⟩

/-- If the names differ, the column of name number `j` is component `j` of the states. -/
theorem column?_of_ofStates (hnodup : names.Nodup) (hx : ofStates? spacing names states = .ok x)
    {j : Nat} (hj : j < names.length) :
    x.column? names[j] = some (component states j).toArray := by
  have hmem : (⟨names[j], (component states j).toArray⟩ : Column α) ∈ columnsOf names states :=
    mem_columnsOf.mpr ⟨j, List.getElem?_eq_getElem hj, rfl⟩
  rw [(Reached.ofStates hx).holds]
  exact lastStored_of_mem ((map_name_columnsOf names states).symm ▸ hnodup) hmem

/-- **A table from states is their transpose.** -/
theorem ofStates?_transposes (hnames : names ≠ []) (hnodup : names.Nodup)
    (hx : ofStates? spacing names states = .ok x) :
    x.length = states.length ∧ ∀ j t (hj : j < names.length) (ht : t < states.length),
      ∃ v, states[t][j]? = some v ∧ x.value ⟨names[j], t⟩ = .ok v := by
  have hstates := ((exists_ofStates?_iff hnames).mp ⟨x, hx⟩).2
  have hlong {j : Nat} (hj : j < names.length) : ∀ state ∈ states, j < state.length :=
    fun state hstate => (hstates state hstate).symm ▸ hj
  refine ⟨?_, fun j t hj ht => ?_⟩
  · have hpos := List.length_pos_iff.mpr hnames
    have hsize := (Reached.ofStates hx).built.column_size _ _ (column?_of_ofStates hnodup hx hpos)
    rw [length, hsize, Option.getD_some, List.size_toArray, length_component (hlong hpos)]
  · have hinside := hlong hj _ (List.getElem_mem ht)
    have hsample := getElem?_component (hlong hj) (List.getElem?_eq_getElem ht)
    refine ⟨states[t][j], List.getElem?_eq_getElem hinside, ?_⟩
    rw [value, column?_of_ofStates hnodup hx hj]
    simp only [List.getElem?_toArray, hsample, List.getElem?_eq_getElem hinside]

end States

/-- **Tables stay rectangular.** A table that is reached has a value for a sample if it has a column
of that name and the index lies inside, and the value is the one that was stored last. States become
a table if all of them fit the names, and the table is their transpose. -/
theorem tables_stay_rectangular :
    (∀ (x : SampledTrajectory α) (columns : List (Column α)), Reached x columns →
      ∀ name i, x.column? name = lastStored columns name ∧
        ((∃ v, x.value ⟨name, i⟩ = .ok v) ↔
          (∃ column, x.column? name = some column) ∧ i < x.length) ∧
        ∀ v, x.value ⟨name, i⟩ = .ok v ↔
          ∃ samples, lastStored columns name = some samples ∧ samples[i]? = some v) ∧
    ∀ (spacing : α) (names : List String) (states : List (List α)), names ≠ [] → names.Nodup →
      ((∃ x, ofStates? spacing names states = .ok x) ↔
        Scalar.IsPositiveFinite spacing ∧ ∀ state ∈ states, state.length = names.length) ∧
      ∀ x, ofStates? spacing names states = .ok x → x.length = states.length ∧
        ∀ j t (hj : j < names.length) (ht : t < states.length),
          ∃ v, states[t][j]? = some v ∧ x.value ⟨names[j], t⟩ = .ok v := by
  refine ⟨fun x columns h name i => ?_, fun spacing names states hnames hnodup => ?_⟩
  · have hcolumn := h.holds name
    refine ⟨hcolumn, h.built.value_iff ⟨name, i⟩, fun v => ?_⟩
    rw [← hcolumn]
    exact value_eq_ok
  · exact ⟨exists_ofStates?_iff hnames, fun x hx => ofStates?_transposes hnames hnodup hx⟩

/-- Two states make a table, other samples take the place of a column, and a column that is too
short is refused. -/
theorem tables_stay_rectangular_of_twoStates :
    ∃ x y : SampledTrajectory Exact,
      ofStates? (.fin 1) ["x", "y"] [[.fin 1, .fin 2], [.fin 3, .fin 4]] = .ok x ∧
      x.withSignal? "x" #[.fin 5, .fin 6] = .ok y ∧
      y.withSignal? "z" #[.fin 7] = .error (.trajectory (.sampleCount "z" 1 2)) ∧
      x.length = 2 ∧ x.value ⟨"x", 1⟩ = .ok (.fin 3) ∧
      y.value ⟨"x", 1⟩ = .ok (.fin 6) ∧ y.value ⟨"y", 1⟩ = .ok (.fin 4) ∧
      ¬ ∃ v, y.value ⟨"x", 2⟩ = .ok v := by
  obtain ⟨htables, hstates⟩ := @tables_stay_rectangular Exact _
  obtain ⟨x, y, hx, hy, hz⟩ : ∃ x y : SampledTrajectory Exact,
      ofStates? (.fin 1) ["x", "y"] [[.fin 1, .fin 2], [.fin 3, .fin 4]] = .ok x ∧
      x.withSignal? "x" #[.fin 5, .fin 6] = .ok y ∧
      y.withSignal? "z" #[.fin 7] = .error (.trajectory (.sampleCount "z" 1 2)) :=
    ⟨_, _, rfl, rfl, rfl⟩
  have hread := htables y _ (.refused (.stored (.ofStates hx) hy) hz)
  obtain ⟨-, hall⟩ := hstates (.fin 1) ["x", "y"] [[.fin 1, .fin 2], [.fin 3, .fin 4]] (by simp)
    (by decide)
  obtain ⟨hlength, hvalue⟩ := hall x hx
  refine ⟨x, y, hx, hy, hz, hlength, ?_, ?_, ?_, ?_⟩
  · obtain ⟨v, hv, hx⟩ := hvalue 0 1 (by decide) (by decide)
    obtain rfl : Exact.fin 3 = v := Option.some.inj hv
    exact hx
  · exact ((hread "x" 1).2.2 _).mpr ⟨_, rfl, rfl⟩
  · exact ((hread "y" 1).2.2 _).mpr ⟨_, rfl, rfl⟩
  · rw [(hread "x" 2).2.1]
    obtain ⟨-, -, rfl⟩ := withSignal?_eq_ok.mp hy
    exact fun h => Nat.lt_irrefl 2 h.2

end SignalTemporalLogic.SampledTrajectory
