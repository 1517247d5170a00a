import SignalTemporalLogic.Feasibility.Check
import SignalTemporalLogic.Feasibility.Propagation

/-!
Search for a feasible assignment: depth first over the binary variables, with propagation at every
node. Once all binaries are decided, the continuous variables that are still open are set one at a
time. The search is exact if propagation determines those, as it does for an encoding whose samples
are fixed.
-/

namespace SignalTemporalLogic

inductive SolveStatus where
  | feasible
  | infeasible
  /-- The search gave up. -/
  | nodeLimit
deriving DecidableEq

structure Solution (α : Type) where
  status : SolveStatus
  /-- One value for each variable if the status is feasible, otherwise none. -/
  values : Array α

namespace Solution

variable {α : Type}

def isFeasible (s : Solution α) : Bool := s.status = .feasible

def value? (s : Solution α) (v : VarId) : Option α := s.values[v.index]?

end Solution

inductive SearchOutcome (α : Type) where
  | found (values : Array α)
  | exhausted
  | aborted

namespace StoredModel

variable {α : Type} [Scalar α]

/-- The first binary variable that the box leaves open. -/
def openBinary? (m : StoredModel α) (box : Box α) : Option Nat :=
  (m.vars.zip box).findIdx? fun (var, range) =>
    var.kind = .binary && Scalar.half < range.upper - range.lower

/-- The start value rounds to one. -/
def startsAtOne (m : StoredModel α) (i : Nat) : Bool :=
  ((m.lookup? ⟨i⟩).bind Variable.start).any (Scalar.half ≤ ·)

def assign (box : Box α) (i : Nat) (value : α) : Box α := box.setIfInBounds i (.point value)

/-- The two boxes of an open binary, the one of the start value first. -/
def branches (m : StoredModel α) (box : Box α) (i : Nat) : List (Box α) :=
  if m.startsAtOne i then [assign box i 1, assign box i 0]
  else [assign box i 0, assign box i 1]

/-- A value of the range: the start value if it lies inside, else the middle, else a finite end,
else zero. -/
def pick (start : Option α) (range : Bounds α) : α :=
  match start.filter fun s => range.lower ≤ s ∧ s ≤ range.upper with
  | some s => s
  | none =>
    if Scalar.IsFinite range.lower then
      if Scalar.IsFinite range.upper then Scalar.midpoint range.lower range.upper
      else range.lower
    else if Scalar.IsFinite range.upper then range.upper
    else 0

/-- Sets variable `i` to one value and propagates, unless it is determined already. -/
def pin (m : StoredModel α) (box : Box α) (i : Nat) : Option (Box α) :=
  let range := box.range ⟨i⟩
  if range.upper - range.lower ≤ m.tolerance then some box
  else m.propagate (assign box i (pick ((m.lookup? ⟨i⟩).bind Variable.start) range))

/-- Sets all variables that are still open, in order. -/
def complete (m : StoredModel α) (box : Box α) : Option (Array α) := do
  let box ← (List.range m.vars.size).foldlM m.pin box
  return box.map fun range => Scalar.midpoint range.lower range.upper

/-- Explores the pending boxes in order, and the branches of each before the next one. At most
`budget` boxes are looked at. -/
def explore (m : StoredModel α) : Nat → List (Box α) → SearchOutcome α
  | _, [] => .exhausted
  | 0, _ :: _ => .aborted
  | budget + 1, box :: pending =>
    match m.propagate box with
    | none => m.explore budget pending
    | some box =>
      match m.openBinary? box with
      | some i => m.explore budget (m.branches box i ++ pending)
      | none =>
        match m.complete box with
        | none => m.explore budget pending
        | some values => .found values

/-- The box of the declared bounds. -/
def declaredBox (m : StoredModel α) : Box α := m.vars.map Variable.bounds

/-- Searches for a feasible assignment. What the search finds is checked once more. -/
def solve (m : StoredModel α) : Solution α :=
  match m.explore m.nodeLimit [m.declaredBox] with
  | .found values => if m.check values then ⟨.feasible, values⟩ else ⟨.infeasible, #[]⟩
  | .exhausted => ⟨.infeasible, #[]⟩
  | .aborted => ⟨.nodeLimit, #[]⟩

end StoredModel

end SignalTemporalLogic
