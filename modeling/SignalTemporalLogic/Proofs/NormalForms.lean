import Mathlib
import SignalTemporalLogic.Proofs.BuiltModels
import SignalTemporalLogic.Proofs.CheckedAccess

/-!
What a call that adds a constraint does to a stored model. The constraint that is stored says what
the two sides say, however often a variable occurs on them, and it is about variables of the model.
So no check and no search of a model that is put together by calls looks up an unknown variable.
-/

namespace SignalTemporalLogic

namespace StoredModel

variable {m : StoredModel Exact} {lhs rhs : LinearExpr Exact VarId} {relation : Relation}

/-- What is accepted are the finite sums over known variables. -/
theorem addConstraint_ok_iff : (addConstraint lhs relation rhs m).1 = .ok () ↔
    (Statement.mk lhs relation rhs).Sound m.vars.size := by
  rw [addConstraint_eq]
  constructor
  · intro h
    cases hc : normalize m.vars.size lhs relation rhs with
    | ok c =>
      obtain ⟨hterms, hlhs, hrhs⟩ := finite_of_normalize hc
      exact ⟨hterms, hlhs, hrhs⟩
    | error refusal => simp [hc] at h
  · intro h
    obtain ⟨c, hc⟩ := exists_normalize_eq_ok relation h.terms h.lhs_constant h.rhs_constant
    rw [hc]

theorem check_push (c : Constraint Exact) (values : Array Exact) :
    check { m with constraints := m.constraints.push c } values =
      (m.check values && c.holdsAt m.tolerance values) := by
  simp only [check, Array.all_push, Bool.and_assoc]

/-- The stored constraint holds where the sides are in the relation. -/
theorem holdsAt_iff_of_normalize {count : Nat} {c : Constraint Exact}
    (h : normalize count lhs relation rhs = .ok c) (values : Array Rat) :
    c.holdsAt (.fin 0) (values.map .fin) = true ↔
      relation.Holds (lhs.valueAt (assignmentOf values)) (rhs.valueAt (assignmentOf values)) := by
  obtain ⟨hnormal, hrelation, -, hvalue⟩ := normalize_eq_ok h
  rw [hnormal.holdsAt_iff, Constraint.Holds, hrelation]
  exact Relation.holds_of_sub (hvalue _)

theorem Normal.closed (h : m.Normal) : Checked.Closed m := fun c hc => (h c hc).known

end StoredModel

open StoredModel

/-- **A stored constraint means what was asked for.** A call that adds a constraint and is accepted
appends one constraint, in normal form, and without a tolerance a check of it compares the values of
the two sides. A call that is refused leaves the model as it is. In a model that is put together by
calls no check and no search looks up an index past the end of what it is read from. -/
theorem constraint_stored_as_stated (m : StoredModel Exact) (lhs rhs : LinearExpr Exact VarId)
    (relation : Relation) :
    (∀ m', addConstraint lhs relation rhs m = (.ok (), m') →
      ∃ c : Constraint Exact, m' = { m with constraints := m.constraints.push c } ∧
        c.relation = relation ∧ c.Normal m.vars.size ∧
        (∀ values : Array Rat, c.holdsAt (.fin 0) (values.map .fin) = true ↔
          relation.Holds (lhs.valueAt (assignmentOf values)) (rhs.valueAt (assignmentOf values))) ∧
        ∀ values, m'.check values = (m.check values && c.holdsAt m.tolerance values)) ∧
    (∀ refusal m', addConstraint lhs relation rhs m = (.error refusal, m') → m' = m) ∧
    (m.Built → (∀ values, Checked.check m values = .ok (m.check values)) ∧
      Checked.solve m = .ok m.solve) := by
  rw [addConstraint_eq]
  refine ⟨fun m' h => ?_, fun refusal m' h => ?_, fun hbuilt => ?_⟩
  · cases hc : normalize m.vars.size lhs relation rhs with
    | error refusal => rw [hc] at h; cases h
    | ok c =>
      rw [hc] at h
      cases h
      obtain ⟨hnormal, hrelation, -⟩ := normalize_eq_ok hc
      exact ⟨c, rfl, hrelation, hnormal, holdsAt_iff_of_normalize hc, check_push c⟩
  · cases hc : normalize m.vars.size lhs relation rhs with
    | error refusal => rw [hc] at h; cases h; rfl
    | ok c => rw [hc] at h; cases h
  · have hclosed := hbuilt.normal.closed
    exact ⟨Checked.check_eq hclosed, Checked.solve_eq hclosed⟩

/-- Two variables without bounds. -/
def plane : StoredModel Exact :=
  let m := (addVariable "x" .continuous .unbounded .empty).2
  (addVariable "y" .continuous .unbounded m).2

theorem plane_built : plane.Built := .declared _ _ _ (.declared _ _ _ .empty)

/-- Had a constraint on a third variable been stored, a check would look it up. -/
example : Checked.check { plane with constraints := #[⟨[(.fin 1, ⟨2⟩)], .equal, .fin 0⟩] }
    #[.fin 0, .fin 0] = .error 2 := by
  cbv

/-- `2 x + 3 y - x + 1 ≤ 3 y + 5`. -/
def tangled : Statement where
  lhs := ⟨[(.fin 2, ⟨0⟩), (.fin 3, ⟨1⟩), (.fin (-1), ⟨0⟩)], .fin 1⟩
  relation := .lessEqual
  rhs := ⟨[(.fin 3, ⟨1⟩)], .fin 5⟩

/-- The plane with the tangled constraint, which is stored as `x ≤ 4`. -/
def halfPlane : StoredModel Exact :=
  { plane with constraints := #[⟨[(.fin 1, ⟨0⟩)], .lessEqual, .fin 4⟩] }

theorem addConstraint_tangled :
    addConstraint tangled.lhs tangled.relation tangled.rhs plane = (.ok (), halfPlane) := by
  cbv

theorem halfPlane_built : halfPlane.Built := by
  have hbuilt := plane_built.constrained tangled
  rwa [addConstraint_tangled] at hbuilt

/-- The variable `x` is collected, and `y` cancels. A third variable is not known. -/
theorem constraint_stored_as_stated_of_tangled :
    (∃ c : Constraint Exact, halfPlane = { plane with constraints := plane.constraints.push c } ∧
      c.relation = .lessEqual ∧ c.Normal plane.vars.size ∧
      (∀ values : Array Rat, c.holdsAt (.fin 0) (values.map .fin) = true ↔
        Relation.Holds .lessEqual (tangled.lhs.valueAt (assignmentOf values))
          (tangled.rhs.valueAt (assignmentOf values))) ∧
      ∀ values, halfPlane.check values =
        (plane.check values && c.holdsAt plane.tolerance values)) ∧
    (addConstraint (.ofVar ⟨2⟩) .equal (.ofConstant (.fin 0)) halfPlane).2 = halfPlane ∧
    (∀ values, Checked.check halfPlane values = .ok (halfPlane.check values)) ∧
    Checked.solve halfPlane = .ok halfPlane.solve := by
  have hrefused : (addConstraint (.ofVar ⟨2⟩) .equal (.ofConstant (.fin 0)) halfPlane).1 =
      .error (.unknownTerm 2) := by cbv
  obtain ⟨haccepted, -, -⟩ :=
    constraint_stored_as_stated plane tangled.lhs tangled.rhs tangled.relation
  obtain ⟨-, hunchanged, hlookups⟩ :=
    constraint_stored_as_stated halfPlane (.ofVar ⟨2⟩) (.ofConstant (.fin 0)) .equal
  exact ⟨haccepted halfPlane addConstraint_tangled, hunchanged _ _ (Prod.ext hrefused rfl),
    hlookups halfPlane_built⟩

end SignalTemporalLogic
