import SignalTemporalLogic.Proofs.LinearForms
import SignalTemporalLogic.Proofs.ModelCalls
import SignalTemporalLogic.Proofs.Runs

/-!
What the calls of an encoder do to a stored model: they only ever add to it. A call that is accepted
adds one variable or one constraint in normal form, and a call that is refused adds nothing.
-/

namespace SignalTemporalLogic

/-- What stays of a variable once it is declared. -/
structure Shape where
  kind : VarKind
  bounds : Bounds Exact

def Variable.shape (var : Variable Exact) : Shape := ⟨var.kind, var.bounds⟩

namespace Shape

/-- A real variable with the given range. -/
def real (bounds : Bounds Exact) : Shape := ⟨.continuous, bounds⟩

/-- A variable that is zero or one. -/
def selector : Shape := ⟨.binary, ⟨0, 1⟩⟩

/-- A variable of the shape may take the value if there is no tolerance. -/
structure Allows (s : Shape) (q : Rat) : Prop where
  contains : s.bounds.Contains q
  integral : s.kind = .binary → ∃ n : Int, q = n

theorem real_allows_iff {bounds : Bounds Exact} {q : Rat} :
    (real bounds).Allows q ↔ bounds.Contains q :=
  ⟨Allows.contains, fun h => ⟨h, fun hk => by cases hk⟩⟩

theorem selector_allows_iff {q : Rat} : selector.Allows q ↔ q = 0 ∨ q = 1 := by
  constructor
  · rintro ⟨hcontains, hintegral⟩
    obtain ⟨n, rfl⟩ := hintegral rfl
    obtain ⟨hlower, hupper⟩ := Bounds.contains_fin.mp hcontains
    have hn : n = 0 ∨ n = 1 := by
      have h0 : (0 : Int) ≤ n := by exact_mod_cast hlower
      have h1 : n ≤ 1 := by exact_mod_cast hupper
      omega
    rcases hn with rfl | rfl <;> simp
  · rintro (rfl | rfl)
    · exact ⟨Bounds.contains_fin.mpr (by norm_num), fun _ => ⟨0, by simp⟩⟩
    · exact ⟨Bounds.contains_fin.mpr (by norm_num), fun _ => ⟨1, by simp⟩⟩

end Shape

/-- The two sides of a constraint as they are passed to a model. -/
structure Statement where
  lhs : LinearExpr Exact VarId
  relation : Relation
  rhs : LinearExpr Exact VarId

namespace Statement

def Holds (s : Statement) (p : Assignment) : Prop :=
  s.relation.Holds (s.lhs.valueAt p) (s.rhs.valueAt p)

/-- A model may take in the statement. -/
structure Sound (s : Statement) (count : Nat) : Prop where
  terms : ∀ t ∈ s.lhs.terms ++ s.rhs.terms, Scalar.IsFinite t.1 ∧ t.2.index < count
  lhs_constant : Scalar.IsFinite s.lhs.constant
  rhs_constant : Scalar.IsFinite s.rhs.constant

/-- The constraint is the normal form of the statement. -/
def Stores (s : Statement) (c : Constraint Exact) : Prop :=
  ∃ count, StoredModel.normalize count s.lhs s.relation s.rhs = .ok c

theorem Stores.holds_iff {s : Statement} {c : Constraint Exact} (h : s.Stores c)
    (p : Assignment) : c.Holds p ↔ s.Holds p := by
  obtain ⟨count, h⟩ := h
  obtain ⟨-, hrelation, -, hvalue⟩ := StoredModel.normalize_eq_ok h
  unfold Constraint.Holds Statement.Holds
  rw [hrelation]
  exact Relation.holds_of_sub (hvalue p)

theorem stores_hold {statements : List Statement} {constraints : List (Constraint Exact)}
    (h : List.Forall₂ Stores statements constraints) {p : Assignment} :
    (∀ c ∈ constraints, c.Holds p) ↔ ∀ s ∈ statements, s.Holds p := by
  induction h with
  | nil => simp
  | cons hfirst _ ih => simp only [List.forall_mem_cons, ih, hfirst.holds_iff]

/-- The constraint has no other variables than the statement. -/
theorem Stores.exists_term {s : Statement} {c : Constraint Exact} (h : s.Stores c)
    {t : Exact × VarId} (ht : t ∈ c.terms) : ∃ u ∈ s.lhs.terms ++ s.rhs.terms, u.2 = t.2 := by
  obtain ⟨count, h⟩ := h
  exact (StoredModel.normalize_eq_ok h).2.2.1 t ht

theorem Stores.relation_eq {s : Statement} {c : Constraint Exact} (h : s.Stores c) :
    c.relation = s.relation := by
  obtain ⟨count, h⟩ := h
  exact (StoredModel.normalize_eq_ok h).2.1

/-- A stored equation as two limits. -/
theorem Stores.sub_eq {s : Statement} {c : Constraint Exact} (h : s.Stores c) (p : Assignment) :
    weigh p c.terms - c.rhs.toRat = s.lhs.valueAt p - s.rhs.valueAt p := by
  obtain ⟨count, h⟩ := h
  exact (StoredModel.normalize_eq_ok h).2.2.2 p

/-- A variable that is alone on one side keeps its coefficient. -/
theorem Stores.mem_terms {s : Statement} {c : Constraint Exact} (h : s.Stores c) {y : VarId}
    (hlhs : s.lhs = .ofVar y) (hy : ∀ t ∈ s.rhs.terms, t.2 ≠ y) : (.fin 1, y) ∈ c.terms := by
  obtain ⟨count, hnormalize⟩ := id h
  obtain ⟨hnormal, -⟩ := StoredModel.normalize_eq_ok hnormalize
  let p (x : Rat) : Assignment := Function.update (fun _ => 0) y x
  have hother : ∀ x u, u ≠ y → p x u = p 0 u := fun x u hu => by simp [p, hu]
  have hself : ∀ x, p x y = x := fun x => by simp [p]
  have hvalue : weigh (p 1) c.terms = weigh (p 0) c.terms + 1 := by
    have hrhs : s.rhs.valueAt (p 1) = s.rhs.valueAt (p 0) :=
      congrArg (· + s.rhs.constant.toRat) (weigh_congr fun t ht => hother 1 t.2 (hy t ht))
    have hone := h.sub_eq (p 1)
    have hzero := h.sub_eq (p 0)
    rw [hlhs, LinearExpr.valueAt_ofVar, hself] at hone hzero
    linarith
  have hmem : ∃ t ∈ c.terms, t.2 = y := by
    by_contra hnone
    push Not at hnone
    have hblind : weigh (p 1) c.terms = weigh (p 0) c.terms :=
      weigh_congr fun t ht => hother 1 t.2 (hnone t ht)
    linarith
  obtain ⟨⟨a, w⟩, hmem, rfl⟩ := hmem
  obtain ⟨q, rfl⟩ := Exact.isFinite_iff.mp (hnormal.finite _ hmem)
  obtain ⟨before, after, hterms⟩ := List.append_of_mem hmem
  have hapart := (hterms ▸ hnormal.toNormalTerms).ne_of_append
  have hbefore : weigh (p 1) before = weigh (p 0) before :=
    weigh_congr fun t ht => hother 1 t.2 (hapart t (List.mem_append_left _ ht))
  have hafter : weigh (p 1) after = weigh (p 0) after :=
    weigh_congr fun t ht => hother 1 t.2 (hapart t (List.mem_append_right _ ht))
  simp only [hterms, weigh_append, weigh_cons, hbefore, hafter, hself, Exact.toRat_fin] at hvalue
  obtain rfl : q = 1 := by linarith
  exact hmem

/-- Only what is sound is stored. -/
theorem Stores.sound {s : Statement} {c : Constraint Exact} (h : s.Stores c) :
    ∃ count, s.Sound count := by
  obtain ⟨count, h⟩ := h
  obtain ⟨hterms, hlhs, hrhs⟩ := StoredModel.finite_of_normalize h
  exact ⟨count, hterms, hlhs, hrhs⟩

end Statement

theorem Constraint.Normal.mono {count count' : Nat} {c : Constraint Exact} (h : c.Normal count)
    (hle : count ≤ count') : c.Normal count' :=
  { h with known := fun t ht => Nat.lt_of_lt_of_le (h.known t ht) hle }

namespace StoredModel

def shapes (m : StoredModel Exact) : List Shape := m.vars.toList.map Variable.shape

/-- So many variables may still be added. -/
def HasRoom (m : StoredModel Exact) (count : Nat) : Prop :=
  ∀ limit, m.variableLimit = some limit → m.vars.size + count ≤ limit

theorem HasRoom.of_none {m : StoredModel Exact} (h : m.variableLimit = none) (count : Nat) :
    m.HasRoom count :=
  fun limit hlimit => by simp [h] at hlimit

@[simp] theorem length_shapes (m : StoredModel Exact) : m.shapes.length = m.vars.size := by
  simp [shapes]

theorem lt_of_shape {m : StoredModel Exact} {i : Nat} {shape : Shape}
    (h : m.shapes[i]? = some shape) : i < m.vars.size := by
  rw [← length_shapes]
  exact (List.getElem?_eq_some_iff.mp h).1

theorem bounds_eq_of_shape {m : StoredModel Exact} {i : Nat} {shape : Shape}
    (hi : i < m.vars.size) (h : m.shapes[i]? = some shape) : m.vars[i].bounds = shape.bounds := by
  obtain ⟨_, rfl⟩ := List.getElem?_eq_some_iff.mp h
  simp [shapes, Variable.shape]

theorem satisfies_iff {m : StoredModel Exact} {p : Assignment} :
    m.Satisfies p ↔
      (∀ i (shape : Shape), m.shapes[i]? = some shape → shape.Allows (p ⟨i⟩)) ∧
      ∀ c ∈ m.constraints, c.Holds p := by
  have hallows : (∀ i (h : i < m.vars.size), m.vars[i].Allows (p ⟨i⟩)) ↔
      ∀ i (shape : Shape), m.shapes[i]? = some shape → shape.Allows (p ⟨i⟩) := by
    simp only [shapes, List.getElem?_map, Array.getElem?_toList, Option.map_eq_some_iff,
      Array.getElem?_eq_some_iff]
    constructor
    · rintro h i shape ⟨var, ⟨hi, rfl⟩, rfl⟩
      exact ⟨(h i hi).contains, (h i hi).integral⟩
    · intro h i hi
      have hshape := h i _ ⟨_, ⟨hi, rfl⟩, rfl⟩
      exact ⟨hshape.contains, hshape.integral⟩
  exact ⟨fun h => ⟨hallows.mp h.allows, h.holds⟩, fun h => ⟨hallows.mpr h.1, h.2⟩⟩

/-- The second model has the given variables and constraints on top of those of the first. -/
structure Grows (m m' : StoredModel Exact) (shapes : List Shape)
    (constraints : List (Constraint Exact)) : Prop where
  shapes_eq : m'.shapes = m.shapes ++ shapes
  constraints_eq : m'.constraints.toList = m.constraints.toList ++ constraints
  normal : ∀ c ∈ constraints, c.Normal m'.vars.size
  variableLimit_eq : m'.variableLimit = m.variableLimit
  tolerance_eq : m'.tolerance = m.tolerance
  nodeLimit_eq : m'.nodeLimit = m.nodeLimit

namespace Grows

variable {m m' m'' : StoredModel Exact} {shapes shapes' : List Shape}
  {constraints constraints' : List (Constraint Exact)}

theorem refl (m : StoredModel Exact) : m.Grows m [] [] :=
  ⟨by simp, by simp, by simp, rfl, rfl, rfl⟩

theorem size_eq (h : m.Grows m' shapes constraints) :
    m'.vars.size = m.vars.size + shapes.length := by
  rw [← length_shapes, h.shapes_eq, List.length_append, length_shapes]

theorem trans (h : m.Grows m' shapes constraints) (k : m'.Grows m'' shapes' constraints') :
    m.Grows m'' (shapes ++ shapes') (constraints ++ constraints') where
  shapes_eq := by rw [k.shapes_eq, h.shapes_eq, List.append_assoc]
  constraints_eq := by rw [k.constraints_eq, h.constraints_eq, List.append_assoc]
  normal c hc := by
    rcases List.mem_append.mp hc with hc | hc
    · exact (h.normal c hc).mono (by rw [k.size_eq]; omega)
    · exact k.normal c hc
  variableLimit_eq := k.variableLimit_eq.trans h.variableLimit_eq
  tolerance_eq := k.tolerance_eq.trans h.tolerance_eq
  nodeLimit_eq := k.nodeLimit_eq.trans h.nodeLimit_eq

theorem hasRoom_iff (h : m.Grows m' shapes constraints) {count : Nat} :
    m'.HasRoom count ↔ m.HasRoom (shapes.length + count) := by
  simp only [HasRoom, h.size_eq, h.variableLimit_eq, Nat.add_assoc]

theorem mem_of_mem (h : m.Grows m' shapes constraints) {c : Constraint Exact}
    (hc : c ∈ m.constraints) : c ∈ m'.constraints := by
  rw [← Array.mem_toList_iff] at hc ⊢
  rw [h.constraints_eq]
  exact List.mem_append_left _ hc

theorem mem_of_mem_added (h : m.Grows m' shapes constraints) {c : Constraint Exact}
    (hc : c ∈ constraints) : c ∈ m'.constraints := by
  rw [← Array.mem_toList_iff, h.constraints_eq]
  exact List.mem_append_right _ hc

theorem shape_of_shape (h : m.Grows m' shapes constraints) {i : Nat} {shape : Shape}
    (hi : m.shapes[i]? = some shape) : m'.shapes[i]? = some shape := by
  rw [h.shapes_eq, List.getElem?_append_left (List.getElem?_eq_some_iff.mp hi).1]
  exact hi

theorem shape_of_added (h : m.Grows m' shapes constraints) (i : Nat) :
    m'.shapes[m.vars.size + i]? = shapes[i]? := by
  rw [h.shapes_eq, List.getElem?_append_right (by simp), length_shapes, Nat.add_sub_cancel_left]

end Grows

/-! ## Calls -/

section Calls

variable {m : StoredModel Exact}

theorem addVariable_run (name : String) (kind : VarKind) (bounds : Bounds Exact) :
    ((m.HasRoom 1 ∧ bounds.lower ≤ bounds.upper) ∧ ∃ m',
      addVariable name kind bounds m = (.ok ⟨m.vars.size⟩, m') ∧
        m.Grows m' [⟨kind, initialBounds kind bounds⟩] []) ∨
    ¬ (m.HasRoom 1 ∧ bounds.lower ≤ bounds.upper) ∧
      ∃ refusal, addVariable name kind bounds m = (.error refusal, m) := by
  rcases addVariable_cases (m := m) name kind bounds with ⟨hroom, hbounds, hrun⟩ | hrefused
  · refine .inl ⟨⟨hroom, hbounds⟩, _, hrun, ?_, by simp, by simp, rfl, rfl, rfl⟩
    simp [shapes, Variable.shape]
  · exact .inr hrefused

theorem addConstraint_run (s : Statement) :
    (∃ c m', addConstraint s.lhs s.relation s.rhs m = (.ok (), m') ∧ s.Stores c ∧
      m.Grows m' [] [c]) ∨
    ¬ s.Sound m.vars.size ∧
      ∃ refusal, addConstraint s.lhs s.relation s.rhs m = (.error refusal, m) := by
  rw [addConstraint_eq]
  cases hc : normalize m.vars.size s.lhs s.relation s.rhs with
  | error refusal =>
    refine .inr ⟨fun h => ?_, refusal, rfl⟩
    obtain ⟨c, hc'⟩ := exists_normalize_eq_ok s.relation h.terms h.lhs_constant
      h.rhs_constant
    simp [hc'] at hc
  | ok c =>
    refine .inl ⟨c, _, rfl, ⟨_, hc⟩, ⟨by simp [shapes], by simp, ?_, rfl, rfl, rfl⟩⟩
    simpa using (normalize_eq_ok hc).1

theorem setStart_run (v : VarId) (value : Exact) :
    (∃ m', setStart v value m = (.ok (), m') ∧ m.Grows m' [] []) ∨
    ¬ v.index < m.vars.size ∧ ∃ refusal, setStart v value m = (.error refusal, m) := by
  rcases update_run (m := m) v fun x => { x with start := some value } with ⟨-, hrun⟩ | hrun
  · refine .inl ⟨_, hrun, ?_, by simp, by simp, rfl, rfl, rfl⟩
    rw [List.append_nil]
    refine List.ext_getElem? fun i => ?_
    simp only [shapes, List.getElem?_map, Array.getElem?_toList, Array.getElem?_modify]
    split
    · cases m.vars[i]? <;> rfl
    · rfl
  · exact .inr hrun

end Calls

end StoredModel

end SignalTemporalLogic
