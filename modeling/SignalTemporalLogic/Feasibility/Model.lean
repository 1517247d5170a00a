import SignalTemporalLogic.Linear.Solver

/-!
A solver model that is held in memory. Constraints are stored in normal form: all variables on the
left, each of them once, in order, and with a coefficient that is not zero.
-/

namespace SignalTemporalLogic

/-- A variable of a stored model: its position. -/
structure VarId where
  index : Nat
deriving DecidableEq

structure Variable (α : Type) where
  name : String
  kind : VarKind
  bounds : Bounds α
  start : Option α

/-- The sum of `coefficient * variable` over the terms stands in the relation to `rhs`. -/
structure Constraint (α : Type) where
  terms : List (α × VarId)
  relation : Relation
  rhs : α

structure StoredModel (α : Type) where
  vars : Array (Variable α)
  constraints : Array (Constraint α)
  variableLimit : Option Nat
  /-- By how much a bound or a constraint may be missed. -/
  tolerance : α
  /-- The number of nodes after which a search gives up. -/
  nodeLimit : Nat

namespace StoredModel

variable {α : Type} [Scalar α]

/-- No variables, and the usual limits. -/
def empty : StoredModel α where
  vars := #[]
  constraints := #[]
  variableLimit := none
  tolerance := 1 / Scalar.ofNat 10000000
  nodeLimit := 1000000

def withVariableLimit (m : StoredModel α) (limit : Nat) : StoredModel α :=
  { m with variableLimit := some limit }

def withTolerance (m : StoredModel α) (tolerance : α) : StoredModel α := { m with tolerance }

def withNodeLimit (m : StoredModel α) (nodeLimit : Nat) : StoredModel α := { m with nodeLimit }

def lookup? (m : StoredModel α) (v : VarId) : Option (Variable α) := m.vars[v.index]?

/-- The first variable of that name. -/
def find? (m : StoredModel α) (name : String) : Option VarId :=
  (m.vars.findIdx? (·.name = name)).map VarId.mk

def binaryCount (m : StoredModel α) : Nat := m.vars.countP (·.kind = .binary)

/-- The bounds that a new variable gets. Those of a binary variable are cut to `[0, 1]`. -/
def initialBounds (kind : VarKind) (bounds : Bounds α) : Bounds α :=
  match kind with
  | .continuous => bounds
  | .binary => ⟨Scalar.max bounds.lower 0, Scalar.min bounds.upper 1⟩

def addVariable (name : String) (kind : VarKind) (bounds : Bounds α) :
    SolverCall α (StoredModel α) VarId := do
  let m : StoredModel α ← get
  if let some limit := m.variableLimit then
    if limit ≤ m.vars.size then throw (.variableLimit limit name)
  if ¬ bounds.lower ≤ bounds.upper then
    throw (.invalidBounds name bounds.lower bounds.upper)
  set { m with vars := m.vars.push ⟨name, kind, initialBounds kind bounds, none⟩ }
  return ⟨m.vars.size⟩

/-- Adds a term to a sum in normal form, apart from coefficients that have become zero. -/
def mergeTerm (coefficient : α) (v : VarId) : List (α × VarId) → List (α × VarId)
  | [] => [(0 + coefficient, v)]
  | (c, w) :: rest =>
    if v.index < w.index then (0 + coefficient, v) :: (c, w) :: rest
    else if v = w then (c + coefficient, w) :: rest
    else (c, w) :: mergeTerm coefficient v rest

/-- Collects the terms into a sum in normal form. Terms have finite coefficients and known
variables. -/
def mergeTerms (count : Nat) (sum : List (α × VarId)) :
    List (α × VarId) → Except (Refusal α) (List (α × VarId))
  | [] => .ok sum
  | (c, v) :: rest =>
    if ¬ Scalar.IsFinite c then .error (.nonFiniteCoefficient c v.index)
    else if count ≤ v.index then .error (.unknownTerm v.index)
    else mergeTerms count (mergeTerm c v sum) rest

/-- The normal form of a constraint in a model with `count` variables. -/
def normalize (count : Nat) (lhs : LinearExpr α VarId) (relation : Relation)
    (rhs : LinearExpr α VarId) : Except (Refusal α) (Constraint α) := do
  let moved := rhs.terms.map fun (c, v) => (-c, v)
  let sum ← mergeTerms count [] (lhs.terms ++ moved)
  let constant := rhs.constant - lhs.constant
  if Scalar.IsFinite constant then
    return ⟨sum.filter fun (c, _) => ¬ Scalar.IsZero c, relation, constant⟩
  else throw (.nonFiniteConstant constant)

def addConstraint (lhs : LinearExpr α VarId) (relation : Relation) (rhs : LinearExpr α VarId) :
    SolverCall α (StoredModel α) Unit := do
  let m : StoredModel α ← get
  let c ← normalize m.vars.size lhs relation rhs
  set { m with constraints := m.constraints.push c }

/-- Changes a stored variable. -/
def update (v : VarId) (f : Variable α → Variable α) : SolverCall α (StoredModel α) Unit := do
  let m : StoredModel α ← get
  if v.index < m.vars.size then
    set { m with vars := m.vars.modify v.index f }
  else throw (.unknownVariable v.index)

def setStart (v : VarId) (value : α) : SolverCall α (StoredModel α) Unit :=
  update v fun x => { x with start := some value }

/-- Collapses the bounds of a variable to one finite value. -/
def fix (v : VarId) (value : α) : SolverCall α (StoredModel α) Unit := do
  if ¬ Scalar.IsFinite value then throw (.notFixable value)
  update v fun x => { x with bounds := .point value }

/-- The stored model as a solver model. -/
def solver : SolverModel α VarId (StoredModel α) where
  addVariable := addVariable
  addConstraint := addConstraint
  setStart := setStart

end StoredModel

end SignalTemporalLogic
