import SignalTemporalLogic.Feasibility.Model

/-!
The calls on a stored model, one equation or case distinction each: what the call stores if it is
accepted, and when it is refused. A call that is refused leaves the model as it is.
-/

namespace SignalTemporalLogic.StoredModel

variable {α : Type} [Scalar α] {m : StoredModel α}

/-- Adding a variable to a model that has room for it. -/
def storeVariable (m : StoredModel α) (name : String) (kind : VarKind) (bounds : Bounds α) :
    SolverCall α (StoredModel α) VarId := do
  if ¬ bounds.lower ≤ bounds.upper then
    throw (.invalidBounds name bounds.lower bounds.upper)
  set { m with vars := m.vars.push ⟨name, kind, initialBounds kind bounds, none⟩ }
  return ⟨m.vars.size⟩

theorem storeVariable_cases (name : String) (kind : VarKind) (bounds : Bounds α) :
    (bounds.lower ≤ bounds.upper ∧ m.storeVariable name kind bounds m = (.ok ⟨m.vars.size⟩,
      { m with vars := m.vars.push ⟨name, kind, initialBounds kind bounds, none⟩ })) ∨
    ¬ bounds.lower ≤ bounds.upper ∧
      ∃ refusal, m.storeVariable name kind bounds m = (.error refusal, m) := by
  by_cases hbounds : bounds.lower ≤ bounds.upper
  · refine .inl ⟨hbounds, ?_⟩
    simp only [storeVariable, hbounds, not_true, if_false]
    rfl
  · refine .inr ⟨hbounds, .invalidBounds name bounds.lower bounds.upper, ?_⟩
    simp only [storeVariable, hbounds, not_false_iff, if_true]
    rfl

theorem addVariable_cases (name : String) (kind : VarKind) (bounds : Bounds α) :
    ((∀ limit, m.variableLimit = some limit → m.vars.size < limit) ∧ bounds.lower ≤ bounds.upper ∧
      addVariable name kind bounds m = (.ok ⟨m.vars.size⟩,
        { m with vars := m.vars.push ⟨name, kind, initialBounds kind bounds, none⟩ })) ∨
    ¬ ((∀ limit, m.variableLimit = some limit → m.vars.size < limit) ∧ bounds.lower ≤ bounds.upper) ∧
      ∃ refusal, addVariable name kind bounds m = (.error refusal, m) := by
  have hstored := storeVariable_cases (m := m) name kind bounds
  rcases Option.eq_none_or_eq_some m.variableLimit with hlimit | ⟨limit, hlimit⟩
  · have heq : addVariable name kind bounds m = m.storeVariable name kind bounds m := by
      obtain ⟨vars, constraints, limit, tolerance, nodeLimit⟩ := m
      obtain rfl : limit = none := hlimit
      rfl
    rw [heq]
    rcases hstored with ⟨hbounds, hrun⟩ | ⟨hbounds, hrefused⟩
    · exact .inl ⟨by simp [hlimit], hbounds, hrun⟩
    · exact .inr ⟨fun h => hbounds h.2, hrefused⟩
  · have heq : addVariable name kind bounds m =
        (do
          if limit ≤ m.vars.size then throw (.variableLimit limit name)
          m.storeVariable name kind bounds : SolverCall α (StoredModel α) VarId) m := by
      obtain ⟨vars, constraints, bound, tolerance, nodeLimit⟩ := m
      obtain rfl : bound = some limit := hlimit
      rfl
    by_cases hfull : limit ≤ m.vars.size
    · rw [if_pos hfull] at heq
      exact .inr ⟨fun h => Nat.not_lt_of_le hfull (h.1 limit hlimit), .variableLimit limit name, heq⟩
    · rw [if_neg hfull] at heq
      rw [heq]
      rcases hstored with ⟨hbounds, hrun⟩ | ⟨hbounds, hrefused⟩
      · exact .inl ⟨by simpa [hlimit] using hfull, hbounds, hrun⟩
      · exact .inr ⟨fun h => hbounds h.2, hrefused⟩

theorem addConstraint_eq {lhs rhs : LinearExpr α VarId} {relation : Relation} :
    addConstraint lhs relation rhs m =
      match normalize m.vars.size lhs relation rhs with
      | .ok c => (.ok (), { m with constraints := m.constraints.push c })
      | .error refusal => (.error refusal, m) := by
  have hget : addConstraint lhs relation rhs m = (do
      let c ← normalize m.vars.size lhs relation rhs
      set { m with constraints := m.constraints.push c } :
        SolverCall α (StoredModel α) Unit) m := rfl
  rw [hget]
  cases normalize m.vars.size lhs relation rhs <;> rfl

omit [Scalar α] in
theorem update_run (v : VarId) (f : Variable α → Variable α) :
    (v.index < m.vars.size ∧
      update v f m = (.ok (), { m with vars := m.vars.modify v.index f })) ∨
    ¬ v.index < m.vars.size ∧ ∃ refusal, update v f m = (.error refusal, m) := by
  have hget : update v f m = (if v.index < m.vars.size then
      set { m with vars := m.vars.modify v.index f }
    else throw (.unknownVariable v.index) : SolverCall α (StoredModel α) Unit) m := rfl
  rw [hget]
  by_cases h : v.index < m.vars.size
  · exact .inl ⟨h, by rw [if_pos h]; rfl⟩
  · exact .inr ⟨h, _, by rw [if_neg h]; rfl⟩

theorem fix_cases (v : VarId) (value : α) :
    (Scalar.IsFinite value ∧ v.index < m.vars.size ∧
      fix v value m = (.ok (), { m with vars := m.vars.modify v.index fun x =>
        { x with bounds := .point value } })) ∨
    ∃ refusal, fix v value m = (.error refusal, m) := by
  have hget : fix v value m = (if ¬ Scalar.IsFinite value then
      (throw (.notFixable value) : SolverCall α (StoredModel α) Unit) m
    else update v (fun x => { x with bounds := .point value }) m) := by
    by_cases hfinite : Scalar.IsFinite value <;> simp only [fix, hfinite] <;> rfl
  rw [hget]
  split
  · exact .inr ⟨_, rfl⟩
  · next hfinite => exact (update_run v _).imp (And.intro (Decidable.not_not.mp hfinite)) And.right

end SignalTemporalLogic.StoredModel
