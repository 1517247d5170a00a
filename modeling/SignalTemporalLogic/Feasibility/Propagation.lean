import SignalTemporalLogic.Feasibility.Model

/-!
Bound propagation. A constraint `∑ aᵢ xᵢ ≤ rhs` limits each of its variables by what the least
values of the others leave of the right side. All constraints are applied in turn until nothing
changes any more, or for a fixed number of rounds.
-/

namespace SignalTemporalLogic

/-- A range for every variable. -/
abbrev Box (α : Type) := Array (Bounds α)

/-- A box with a note whether it was narrowed. -/
structure Narrowing (α : Type) where
  box : Box α
  changed : Bool

/-- The least value of a sum. Terms without a least value are counted instead. -/
structure LeastActivity (α : Type) where
  finite : α
  unbounded : Nat
  /-- The position of the last unbounded term. -/
  unboundedAt : Nat

variable {α : Type} [Scalar α]

def Box.range (box : Box α) (v : VarId) : Bounds α := box.getD v.index .unbounded

/-- The least value of `a * x` for `x` in the range. -/
def leastTerm (a : α) (range : Bounds α) : α := if 0 < a then a * range.lower else a * range.upper

namespace LeastActivity

def add (activity : LeastActivity α) (k : Nat) (contribution : α) : LeastActivity α :=
  if Scalar.IsFinite contribution then { activity with finite := activity.finite + contribution }
  else { activity with unbounded := activity.unbounded + 1, unboundedAt := k }

/-- The activity of terms in a box. -/
def ofTerms (box : Box α) (terms : List (α × VarId)) : LeastActivity α :=
  terms.zipIdx.foldl (fun activity ((a, v), k) => activity.add k (leastTerm a (box.range v)))
    ⟨0, 0, 0⟩

/-- The least value of the other terms, if it is finite. -/
def without? (activity : LeastActivity α) (k : Nat) (own : α) : Option α :=
  if activity.unbounded = 0 then some (activity.finite - own)
  else if activity.unbounded = 1 ∧ activity.unboundedAt = k then some activity.finite
  else none

end LeastActivity

namespace StoredModel

/-- The number of rounds after which propagation stops. -/
def maxRounds : Nat := 200

def isBinary (m : StoredModel α) (v : VarId) : Bool :=
  (m.lookup? v).any (·.kind = .binary)

/-- The range cut by `a * x ≤ a * bound`. It shrinks by more than the tolerance or not at all. -/
def cut (m : StoredModel α) (a bound : α) (binary : Bool) (range : Bounds α) :
    Option (Bounds α) :=
  if 0 < a then
    let bound := if binary then Scalar.floor (bound + m.tolerance) else bound
    if bound < range.upper - m.tolerance then some { range with upper := bound } else none
  else
    let bound := if binary then Scalar.ceil (bound - m.tolerance) else bound
    if range.lower + m.tolerance < bound then some { range with lower := bound } else none

/-- An inverted range is empty, unless it is inverted by no more than the tolerance. Then it is
collapsed to its middle. -/
def settle? (m : StoredModel α) (range : Bounds α) : Option (Bounds α) :=
  let gap := range.lower - range.upper
  if m.tolerance * (1 + Scalar.abs range.lower) < gap then none
  else if 0 < gap then some (.point (Scalar.midpoint range.lower range.upper))
  else some range

/-- Narrows the range of the variable in term `k`. -/
def tightenTerm (m : StoredModel α) (activity : LeastActivity α) (rhs : α) (n : Narrowing α) :
    (α × VarId) × Nat → Option (Narrowing α)
  | ((a, v), k) =>
    let range := n.box.range v
    match activity.without? k (leastTerm a range) with
    | none => some n
    | some rest =>
      let cut? := m.cut a ((rhs - rest) / a) (m.isBinary v) range
      (m.settle? (cut?.getD range)).map fun range =>
        { box := n.box.setIfInBounds v.index range, changed := n.changed || cut?.isSome }

/-- Propagates `∑ a x ≤ rhs`. There is no result if the constraint cannot be satisfied. -/
def tighten (m : StoredModel α) (terms : List (α × VarId)) (rhs : α) (n : Narrowing α) :
    Option (Narrowing α) :=
  let activity := LeastActivity.ofTerms n.box terms
  if activity.unbounded = 0 ∧ rhs + m.tolerance * (1 + Scalar.abs rhs) < activity.finite then none
  else terms.zipIdx.foldlM (m.tightenTerm activity rhs) n

/-- Propagates one constraint. An equation limits its sum from both sides. -/
def tightenConstraint (m : StoredModel α) (n : Narrowing α) (c : Constraint α) :
    Option (Narrowing α) :=
  let negated := c.terms.map fun (a, v) => (-a, v)
  match c.relation with
  | .lessEqual => m.tighten c.terms c.rhs n
  | .greaterEqual => m.tighten negated (-c.rhs) n
  | .equal => do m.tighten negated (-c.rhs) (← m.tighten c.terms c.rhs n)

/-- Applies all constraints once. -/
def propagateRound (m : StoredModel α) (box : Box α) : Option (Narrowing α) :=
  m.constraints.foldlM m.tightenConstraint ⟨box, false⟩

def propagateFor (m : StoredModel α) : Nat → Box α → Option (Box α)
  | 0, box => some box
  | rounds + 1, box => do
    let n ← m.propagateRound box
    if n.changed then m.propagateFor rounds n.box else return n.box

/-- The box that is left by the constraints, or nothing if one of them cannot be satisfied. -/
def propagate (m : StoredModel α) (box : Box α) : Option (Box α) := m.propagateFor maxRounds box

end StoredModel

end SignalTemporalLogic
