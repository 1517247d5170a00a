import SignalTemporalLogic.Feasibility.Search
import SignalTemporalLogic.Proofs.Binary64Differences
import SignalTemporalLogic.Proofs.ModelCalls
import SignalTemporalLogic.Proofs.Runs

/-!
The bounds of stored variables. They are numbers and in order, and those of a binary variable lie
between zero and one, as long as two things do not happen: a binary variable is declared with a range
that has nothing in common with the unit interval, and a binary variable is fixed to a value outside
of it. Neither call is refused. The first one stores an inverted range, since the range is put in order
before it is cut; the second one stores the value.
-/

namespace SignalTemporalLogic

variable {α : Type} [Scalar α]

/-! ## Calls -/

/-- A call on a stored model, with its arguments. -/
inductive StoredModel.Call (α : Type) where
  | declare (name : String) (kind : VarKind) (bounds : Bounds α)
  | constrain (lhs : LinearExpr α VarId) (relation : Relation) (rhs : LinearExpr α VarId)
  | hint (v : VarId) (value : α)
  | fix (v : VarId) (value : α)

namespace StoredModel

def Call.perform : Call α → SolverCall α (StoredModel α) Unit
  | declare name kind bounds => do
    let _ ← addVariable name kind bounds
    return ()
  | constrain lhs relation rhs => addConstraint lhs relation rhs
  | hint v value => setStart v value
  | fix v value => StoredModel.fix v value

/-- The model after some calls, accepted and refused ones. -/
def after (m : StoredModel α) (calls : List (Call α)) : StoredModel α :=
  calls.foldl (fun m c => (c.perform m).2) m

theorem after_concat (m : StoredModel α) (calls : List (Call α)) (c : Call α) :
    m.after (calls ++ [c]) = (c.perform (m.after calls)).2 := by
  simp [after]

/-- What an accepted call does to a model. -/
inductive Call.Effect (m : StoredModel α) : Call α → StoredModel α → Prop
  | declare {name : String} {kind : VarKind} {bounds : Bounds α}
    (room : ∀ limit, m.variableLimit = some limit → m.vars.size < limit)
    (ordered : bounds.lower ≤ bounds.upper) : Effect m (.declare name kind bounds)
      { m with vars := m.vars.push ⟨name, kind, initialBounds kind bounds, none⟩ }
  | constrain {lhs rhs : LinearExpr α VarId} {relation : Relation} {c : Constraint α}
    (normal : normalize m.vars.size lhs relation rhs = .ok c) :
    Effect m (.constrain lhs relation rhs) { m with constraints := m.constraints.push c }
  | hint {v : VarId} {value : α} (known : v.index < m.vars.size) : Effect m (.hint v value)
      { m with vars := m.vars.modify v.index fun x => { x with start := some value } }
  | fix {v : VarId} {value : α} (finite : Scalar.IsFinite value) (known : v.index < m.vars.size) :
    Effect m (.fix v value)
      { m with vars := m.vars.modify v.index fun x => { x with bounds := .point value } }

/-- A call has its effect, or it is refused and leaves the model as it is. -/
theorem Call.perform_cases (c : Call α) (m : StoredModel α) :
    (∃ m', c.perform m = (.ok (), m') ∧ c.Effect m m') ∨
      ∃ refusal, c.perform m = (.error refusal, m) := by
  cases c with
  | declare name kind bounds =>
    rcases addVariable_cases (m := m) name kind bounds with
      ⟨hroom, hbounds, hrun⟩ | ⟨-, refusal, hrun⟩
    · exact .inl ⟨_, RunLogic.run_bind_ok _ hrun, .declare hroom hbounds⟩
    · exact .inr ⟨refusal, RunLogic.run_bind_error hrun⟩
  | constrain lhs relation rhs =>
    show (∃ m', addConstraint lhs relation rhs m = _ ∧ _) ∨ ∃ _, addConstraint lhs relation rhs m = _
    rw [addConstraint_eq]
    cases hnormal : normalize m.vars.size lhs relation rhs with
    | ok c => exact .inl ⟨_, rfl, .constrain hnormal⟩
    | error refusal => exact .inr ⟨refusal, rfl⟩
  | hint v value =>
    rcases update_run (m := m) v fun x => { x with start := some value } with
      ⟨hknown, hrun⟩ | ⟨-, hrefused⟩
    · exact .inl ⟨_, hrun, .hint hknown⟩
    · exact .inr hrefused
  | fix v value =>
    rcases fix_cases (m := m) v value with ⟨hfinite, hknown, hrun⟩ | hrefused
    · exact .inl ⟨_, hrun, .fix hfinite hknown⟩
    · exact .inr hrefused

end StoredModel

/-! ## Ranges that are cut -/

section Cuts

variable [OrderedScalar α] {a b c : α}

theorem Scalar.max_le_iff (ha : a ≤ a) (hb : b ≤ b) : Scalar.max a b ≤ c ↔ a ≤ c ∧ b ≤ c := by
  rcases quantitative_ordered.or_eq ha hb with ⟨he, hle⟩ | ⟨he, hle⟩ <;>
    rw [show Scalar.max a b = _ from he]
  · exact ⟨fun h => ⟨h, OrderedScalar.le_trans hle h⟩, And.left⟩
  · exact ⟨fun h => ⟨OrderedScalar.le_trans hle h, h⟩, And.right⟩

theorem Scalar.le_min_iff (ha : a ≤ a) (hb : b ≤ b) : c ≤ Scalar.min a b ↔ c ≤ a ∧ c ≤ b := by
  rcases quantitative_ordered.and_eq ha hb with ⟨he, hle⟩ | ⟨he, hle⟩ <;>
    rw [show Scalar.min a b = _ from he]
  · exact ⟨fun h => ⟨h, OrderedScalar.le_trans h hle⟩, And.left⟩
  · exact ⟨fun h => ⟨OrderedScalar.le_trans h hle, h⟩, And.right⟩

end Cuts

/-! ## Bounds -/

/-- What the bounds of a variable are meant to be. -/
structure Variable.WellFormed (var : Variable α) : Prop where
  ordered : var.bounds.lower ≤ var.bounds.upper
  unit : var.kind = .binary → 0 ≤ var.bounds.lower ∧ var.bounds.upper ≤ 1

instance (var : Variable α) : Decidable var.WellFormed :=
  decidable_of_iff (var.bounds.lower ≤ var.bounds.upper ∧
      (var.kind = .binary → 0 ≤ var.bounds.lower ∧ var.bounds.upper ≤ 1))
    ⟨fun ⟨ho, hu⟩ => ⟨ho, hu⟩, fun ⟨ho, hu⟩ => ⟨ho, hu⟩⟩

namespace StoredModel

def WellFormed (m : StoredModel α) : Prop := ∀ var ∈ m.vars, var.WellFormed

instance (m : StoredModel α) : Decidable m.WellFormed :=
  inferInstanceAs (Decidable (∀ var ∈ m.vars, var.WellFormed))

/-- The values give every binary variable zero or one. -/
def Switches (m : StoredModel α) (values : Array α) : Prop :=
  ∀ (i : Nat) (var : Variable α), m.vars[i]? = some var → var.kind = .binary →
    ∃ x, values[i]? = some x ∧ Scalar.IsSwitch x

instance (m : StoredModel α) (values : Array α) : Decidable (m.Switches values) :=
  decidable_of_iff (∀ i : Fin m.vars.size, m.vars[i].kind = .binary →
      values[i.val]?.any (fun x => Scalar.IsSwitch x) = true) <| by
    simp only [Option.any_eq_true, decide_eq_true_eq]
    constructor
    · intro h i var hvar
      obtain ⟨hi, rfl⟩ := Array.getElem?_eq_some_iff.mp hvar
      exact h ⟨i, hi⟩
    · intro h i
      exact h i _ (Array.getElem?_eq_getElem i.isLt)

/-- Declared ranges of binary variables meet the unit interval, and binary variables are fixed to
values inside it. -/
def Call.Proper (m : StoredModel α) : Call α → Prop
  | declare _ .binary bounds => bounds.lower ≤ 1 ∧ 0 ≤ bounds.upper
  | fix v value => m.isBinary v = true → 0 ≤ value ∧ value ≤ 1
  | _ => True

/-- The variable whose bounds the call writes, with these bounds. -/
def Call.written? (m : StoredModel α) : Call α → Option (Variable α)
  | declare name kind bounds => some ⟨name, kind, initialBounds kind bounds, none⟩
  | fix v value => (m.lookup? v).map fun var => { var with bounds := .point value }
  | constrain _ _ _ | hint _ _ => none

theorem forall_mem_modify {β : Type} {P : β → Prop} {bs : Array β} (i : Nat) (f : β → β)
    (h : ∀ b ∈ bs, P b) : (∀ b ∈ bs.modify i f, P b) ↔ ∀ b, bs[i]? = some b → P (f b) := by
  constructor
  · intro hmodified b hb
    have hat : (bs.modify i f)[i]? = some (f b) := by simp [Array.getElem?_modify, hb]
    exact hmodified _ (Array.mem_of_getElem? hat)
  · intro hf b hb
    obtain ⟨j, hj⟩ := Array.getElem?_of_mem hb
    rw [Array.getElem?_modify] at hj
    split at hj
    · next he =>
      obtain ⟨b', hb', rfl⟩ := Option.map_eq_some_iff.mp hj
      exact hf b' (he ▸ hb')
    · exact h b (Array.mem_of_getElem? hj)

section Steps

variable {m m' : StoredModel α} {c : Call α} {calls : List (Call α)}

/-- A property of bounds is kept if the bounds that are written have it. -/
theorem Call.Effect.forall_vars_iff {P : Variable α → Prop} (h : c.Effect m m')
    (hstart : ∀ var start, P var → P { var with start }) (hm : ∀ var ∈ m.vars, P var) :
    (∀ var ∈ m'.vars, P var) ↔ ∀ var, c.written? m = some var → P var := by
  cases h with
  | declare =>
    simp only [Call.written?, Array.mem_push, or_imp, forall_and, forall_eq, Option.some.injEq,
      forall_eq']
    exact and_iff_right hm
  | constrain => simpa [Call.written?] using hm
  | @hint v value known =>
    simp only [Call.written?, reduceCtorEq, false_imp_iff, implies_true, iff_true]
    refine (forall_mem_modify _ _ hm).mpr fun var hvar => hstart var _ ?_
    exact hm var (Array.mem_of_getElem? hvar)
  | fix =>
    rw [forall_mem_modify _ _ hm]
    simp [Call.written?, lookup?]

theorem initialBounds_numbers [WholeScalar α] (kind : VarKind) {bounds : Bounds α}
    (h : bounds.lower ≤ bounds.upper) :
    (initialBounds kind bounds).lower ≤ (initialBounds kind bounds).lower ∧
      (initialBounds kind bounds).upper ≤ (initialBounds kind bounds).upper := by
  have hlower : bounds.lower ≤ bounds.lower := OrderedScalar.le_left h
  have hupper : bounds.upper ≤ bounds.upper := OrderedScalar.le_right h
  cases kind with
  | continuous => exact ⟨hlower, hupper⟩
  | binary =>
    exact ⟨Extremum.join_number (e := .max) hlower OrderedScalar.zero_le_zero,
      Extremum.join_number (e := .min) hupper (OrderedScalar.le_right WholeScalar.zero_le_one)⟩

/-- A range that is cut to the unit interval is in order exactly if the two have something in
common. -/
theorem initialBounds_wellFormed_iff [WholeScalar α] {name : String} {bounds : Bounds α}
    (h : bounds.lower ≤ bounds.upper) :
    (⟨name, .binary, initialBounds .binary bounds, none⟩ : Variable α).WellFormed ↔
      bounds.lower ≤ 1 ∧ 0 ≤ bounds.upper := by
  have hlower : bounds.lower ≤ bounds.lower := OrderedScalar.le_left h
  have hupper : bounds.upper ≤ bounds.upper := OrderedScalar.le_right h
  have hzero : (0 : α) ≤ 0 := OrderedScalar.zero_le_zero
  have hunit : (0 : α) ≤ 1 := WholeScalar.zero_le_one
  have hone : (1 : α) ≤ 1 := OrderedScalar.le_right hunit
  have hordered : Scalar.max bounds.lower 0 ≤ Scalar.min bounds.upper 1 ↔
      bounds.lower ≤ 1 ∧ 0 ≤ bounds.upper := by
    rw [Scalar.max_le_iff hlower hzero, Scalar.le_min_iff hupper hone, Scalar.le_min_iff hupper hone]
    tauto
  obtain ⟨hleft, hright⟩ := initialBounds_numbers .binary h
  refine ⟨fun hwell => hordered.mp hwell.ordered, fun hmeet => ⟨hordered.mpr hmeet, fun _ => ?_⟩⟩
  exact ⟨((Scalar.max_le_iff hlower hzero).mp hleft).2,
    ((Scalar.le_min_iff hupper hone).mp hright).2⟩

/-- What is written are numbers, and in order unless the variable is binary. -/
theorem Call.Effect.written_numbers [WholeScalar α] (h : c.Effect m m') {var : Variable α}
    (hvar : c.written? m = some var) : ¬ Scalar.IsNaN var.bounds.lower ∧
      ¬ Scalar.IsNaN var.bounds.upper ∧
      (var.kind = .continuous → var.bounds.lower ≤ var.bounds.upper) := by
  cases h with
  | declare room ordered =>
    obtain rfl := Option.some.inj hvar
    obtain ⟨hlower, hupper⟩ := initialBounds_numbers _ ordered
    exact ⟨not_not.mpr hlower, not_not.mpr hupper, by rintro rfl; exact ordered⟩
  | constrain | hint => cases hvar
  | @fix v value finite known =>
    obtain ⟨var, -, rfl⟩ := Option.map_eq_some_iff.mp hvar
    have hvalue : value ≤ value := OrderedScalar.le_right (OrderedScalar.lt_iff.mp finite.1).1
    exact ⟨not_not.mpr hvalue, not_not.mpr hvalue, fun _ => hvalue⟩

/-- What is written is well formed exactly if the call is proper. -/
theorem Call.Effect.written_wellFormed_iff [WholeScalar α] (h : c.Effect m m') :
    (∀ var, c.written? m = some var → var.WellFormed) ↔ c.Proper m := by
  cases h with
  | @declare name kind bounds room ordered =>
    simp only [Call.written?, Option.some.injEq, forall_eq']
    cases kind with
    | continuous => exact iff_of_true ⟨ordered, nofun⟩ trivial
    | binary => exact initialBounds_wellFormed_iff ordered
  | constrain | hint => simp [Call.written?, Call.Proper]
  | @fix v value finite known =>
    have hvalue : value ≤ value := OrderedScalar.le_right (OrderedScalar.lt_iff.mp finite.1).1
    simp only [Call.written?, Call.Proper, isBinary, lookup?, Array.getElem?_eq_getElem known,
      Option.map_some, Option.some.injEq, forall_eq', Option.any_some, decide_eq_true_eq]
    exact ⟨Variable.WellFormed.unit, fun hunit => ⟨hvalue, hunit⟩⟩

theorem Call.Effect.tolerance_eq (h : c.Effect m m') : m'.tolerance = m.tolerance := by
  cases h <;> rfl

end Steps

/-! ## Runs -/

section Runs

variable {m : StoredModel α}

theorem after_tolerance (m : StoredModel α) (calls : List (Call α)) :
    (m.after calls).tolerance = m.tolerance := by
  induction calls using List.reverseRecOn with
  | nil => rfl
  | append_singleton calls c ih =>
    rw [after_concat, ← ih]
    rcases c.perform_cases (m.after calls) with ⟨m', hrun, heffect⟩ | ⟨_, hrun⟩ <;> rw [hrun]
    exact heffect.tolerance_eq

/-- What the search returns as feasible has passed the check. -/
theorem check_of_isFeasible (h : m.solve.isFeasible = true) :
    m.check m.solve.values = true := by
  cases hexplore : m.explore m.nodeLimit [m.declaredBox] with
  | found values =>
    by_cases hcheck : m.check values = true
    · simp only [solve, hexplore, hcheck, if_true]
    · simp [solve, hexplore, hcheck, Solution.isFeasible] at h
  | exhausted | aborted => simp [solve, hexplore, Solution.isFeasible] at h

variable [WholeScalar α]

theorem after_numbers (hnew : m.vars = #[]) (calls : List (Call α)) :
    ∀ var ∈ (m.after calls).vars, ¬ Scalar.IsNaN var.bounds.lower ∧
      ¬ Scalar.IsNaN var.bounds.upper ∧
      (var.kind = .continuous → var.bounds.lower ≤ var.bounds.upper) := by
  induction calls using List.reverseRecOn with
  | nil => simp [after, hnew]
  | append_singleton calls c ih =>
    rw [after_concat]
    rcases c.perform_cases (m.after calls) with ⟨m', hrun, heffect⟩ | ⟨_, hrun⟩ <;> rw [hrun]
    · exact (heffect.forall_vars_iff (fun _ _ h => h) ih).mpr fun var => heffect.written_numbers
    · exact ih

/-- One call keeps a model well formed exactly if it is proper or refused. -/
theorem wellFormed_perform_iff (hm : m.WellFormed) (c : Call α) :
    (c.perform m).2.WellFormed ↔ ((c.perform m).1 = .ok () → c.Proper m) := by
  rcases c.perform_cases m with ⟨m', hrun, heffect⟩ | ⟨refusal, hrun⟩ <;> rw [hrun]
  · rw [← heffect.written_wellFormed_iff]
    exact (heffect.forall_vars_iff (fun _ _ h => ⟨h.ordered, h.unit⟩) hm).trans
      ⟨fun h _ => h, fun h => h rfl⟩
  · exact iff_of_true hm nofun

/-- A run keeps it well formed throughout exactly if every call in it is proper or refused. -/
theorem wellFormed_throughout_iff (hm : m.WellFormed) (calls : List (Call α)) :
    (∀ done, done <+: calls → (m.after done).WellFormed) ↔
      ∀ done c, done ++ [c] <+: calls → (c.perform (m.after done)).1 = .ok () →
        c.Proper (m.after done) := by
  induction calls using List.reverseRecOn with
  | nil => simpa [after] using hm
  | append_singleton calls c ih =>
    -- the calls before the last one are judged by the induction hypothesis, the last one by its step
    simp only [List.prefix_concat_iff, or_imp, forall_and, forall_eq, List.append_singleton_inj,
      and_imp, forall_eq_apply_imp_iff, ih]
    refine and_congr_left fun hproper => ?_
    rw [after_concat]
    exact wellFormed_perform_iff (ih.mpr hproper calls (List.prefix_refl calls)) c

/-- Without a tolerance a check of a well-formed model lets binary variables be zero or one only. -/
theorem WellFormed.switches_of_check (hm : m.WellFormed) (hz : Scalar.IsZero m.tolerance)
    {values : Array α} (h : m.check values = true) : m.Switches values := by
  simp only [check, Bool.and_eq_true, decide_eq_true_eq, Array.all_eq_true] at h
  obtain ⟨⟨hsize, hadmits⟩, -⟩ := h
  intro i var hvar hkind
  obtain ⟨hi, rfl⟩ := Array.getElem?_eq_some_iff.mp hvar
  have hvalue : i < values.size := hsize ▸ hi
  obtain ⟨hlower, hupper⟩ := (hm _ (Array.getElem_mem hi)).unit hkind
  have hadmit := hadmits i (by simp [hsize, hi])
  rw [Array.getElem_zip] at hadmit
  exact ⟨values[i], Array.getElem?_eq_getElem hvalue,
    Variable.isSwitch_of_admits hz hkind hlower hupper hadmit⟩

end Runs

end StoredModel

open StoredModel

/-- **Well-formed bounds.** In a new model, after any calls, all bounds are numbers, and those of
continuous variables are in order. Bounds are well formed all along, with those of binary variables in
order and between zero and one, exactly if every accepted call is proper: one that declares a binary
variable gives it a range that meets the unit interval, and one that fixes a binary variable gives it a
value from there. In a model that is well formed and has no tolerance, all that a check accepts and all
that a search finds feasible gives every binary variable zero or one. -/
theorem stored_bounds_wellFormed_iff [WholeScalar α] {m : StoredModel α} (hnew : m.vars = #[])
    (calls : List (StoredModel.Call α)) :
    (∀ var ∈ (m.after calls).vars, ¬ Scalar.IsNaN var.bounds.lower ∧
      ¬ Scalar.IsNaN var.bounds.upper ∧
      (var.kind = .continuous → var.bounds.lower ≤ var.bounds.upper)) ∧
    ((∀ done, done <+: calls → (m.after done).WellFormed) ↔
      ∀ done c, done ++ [c] <+: calls → (c.perform (m.after done)).1 = .ok () →
        c.Proper (m.after done)) ∧
    ((m.after calls).WellFormed → Scalar.IsZero m.tolerance →
      (∀ values, (m.after calls).check values = true → (m.after calls).Switches values) ∧
      ((m.after calls).solve.isFeasible = true →
        (m.after calls).Switches (m.after calls).solve.values)) := by
  have hwell : m.WellFormed := by simp [StoredModel.WellFormed, hnew]
  refine ⟨after_numbers hnew calls, wellFormed_throughout_iff hwell calls, fun hafter hz => ?_⟩
  rw [← after_tolerance m calls] at hz
  exact ⟨fun values => hafter.switches_of_check hz,
    fun h => hafter.switches_of_check hz (check_of_isFeasible h)⟩

/-- A model without variables and without a tolerance. -/
def exactFloats : StoredModel Float := StoredModel.empty.withTolerance 0

/-- A binary variable that is declared with a wider range, then fixed, and a call that is refused. -/
def properCalls : List (StoredModel.Call Float) :=
  [.declare "b" .binary ⟨-3, 3⟩, .hint ⟨0⟩ 1, .fix ⟨0⟩ 1, .fix ⟨1⟩ 7]

theorem stored_bounds_wellFormed_iff_of_properCalls :
    exactFloats.vars = #[] ∧ (exactFloats.after properCalls).WellFormed ∧
      (exactFloats.after properCalls).check #[1] = true ∧
      (exactFloats.after properCalls).Switches #[1] := by
  obtain ⟨-, -, hswitches⟩ := stored_bounds_wellFormed_iff (m := exactFloats) rfl properCalls
  have hwell : (exactFloats.after properCalls).WellFormed := by decide +kernel
  have hcheck : (exactFloats.after properCalls).check #[1] = true := by decide +kernel
  exact ⟨rfl, hwell, hcheck, (hswitches hwell (by decide +kernel)).1 #[1] hcheck⟩

/-- A binary variable with the range `[2, 3]` is accepted and stored with the range `[2, 1]`. One that
is fixed to seven passes a check with this value, and a search finds it feasible. -/
theorem stored_bounds_leave_unit :
    ¬ (exactFloats.after [.declare "b" .binary ⟨2, 3⟩]).WellFormed ∧
      let m := exactFloats.after [.declare "b" .binary ⟨0, 1⟩, .fix ⟨0⟩ 7]
      (m.check #[7] = true ∧ ¬ m.Switches #[7]) ∧
        m.solve.isFeasible = true ∧ ¬ m.Switches m.solve.values := by
  decide +kernel

end SignalTemporalLogic
