import SignalTemporalLogic.Proofs.ModelGrowth

/-!
Stored models that are put together by calls. All of their constraints are in normal form.
-/

namespace SignalTemporalLogic.StoredModel

/-- The models that are put together by calls. One that is refused leaves the model as it is. -/
inductive Built : StoredModel Exact → Prop
  | empty : Built .empty
  | limited {m : StoredModel Exact} (limit : Nat) (h : Built m) : Built (m.withVariableLimit limit)
  | tolerant {m : StoredModel Exact} (tolerance : Exact) (h : Built m) :
    Built (m.withTolerance tolerance)
  | budgeted {m : StoredModel Exact} (limit : Nat) (h : Built m) : Built (m.withNodeLimit limit)
  | declared {m : StoredModel Exact} (name : String) (kind : VarKind) (bounds : Bounds Exact)
    (h : Built m) : Built (addVariable name kind bounds m).2
  | constrained {m : StoredModel Exact} (s : Statement) (h : Built m) :
    Built (addConstraint s.lhs s.relation s.rhs m).2
  | hinted {m : StoredModel Exact} (v : VarId) (value : Exact) (h : Built m) :
    Built (setStart v value m).2
  | fixed {m : StoredModel Exact} (v : VarId) (value : Exact) (h : Built m) :
    Built (fix v value m).2

variable {m m' : StoredModel Exact}

/-- All constraints are in normal form. -/
def Normal (m : StoredModel Exact) : Prop := ∀ c ∈ m.constraints, c.Normal m.vars.size

theorem Grows.normal_of_normal {shapes : List Shape} {constraints : List (Constraint Exact)}
    (h : m.Grows m' shapes constraints) (hm : m.Normal) : m'.Normal := by
  intro c hc
  rw [← Array.mem_toList_iff, h.constraints_eq] at hc
  rcases List.mem_append.mp hc with hc | hc
  · exact (hm c (Array.mem_toList_iff.mp hc)).mono (by rw [h.size_eq]; omega)
  · exact h.normal c hc

theorem Built.normal (h : m.Built) : m.Normal := by
  induction h with
  | empty => exact fun c hc => absurd hc (Array.not_mem_empty c)
  | limited | tolerant | budgeted => assumption
  | @declared m name kind bounds _ ih =>
    rcases addVariable_run (m := m) name kind bounds with ⟨-, m', hrun, hgrows⟩ | ⟨-, _, hrun⟩ <;>
      rw [hrun]
    · exact hgrows.normal_of_normal ih
    · exact ih
  | @constrained m s _ ih =>
    rcases addConstraint_run (m := m) s with ⟨c, m', hrun, -, hgrows⟩ | ⟨-, _, hrun⟩ <;> rw [hrun]
    · exact hgrows.normal_of_normal ih
    · exact ih
  | @hinted m v value _ ih =>
    rcases setStart_run (m := m) v value with ⟨m', hrun, hgrows⟩ | ⟨-, _, hrun⟩ <;> rw [hrun]
    · exact hgrows.normal_of_normal ih
    · exact ih
  | @fixed m v value _ ih =>
    rcases fix_cases (m := m) v value with ⟨-, -, hrun⟩ | ⟨_, hrun⟩ <;> rw [hrun]
    · exact fun c hc => (ih c hc).mono (Array.size_modify ▸ Nat.le_refl _)
    · exact ih

end SignalTemporalLogic.StoredModel
