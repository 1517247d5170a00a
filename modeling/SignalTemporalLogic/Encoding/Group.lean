import SignalTemporalLogic.Encoding.Context
import SignalTemporalLogic.Linear.Solver
import SignalTemporalLogic.Robustness.Tree

/-!
Big-M groups: constraints that make a new variable the minimum or the maximum of others. For
`r = min x₁ … xₙ` with binary selectors `d₁ … dₙ` they are

    r ≤ xᵢ,   r ≥ xᵢ - M * dᵢ,   d₁ + … + dₙ = n - 1

so that the one selector that is zero picks the operand that `r` equals. A maximum has the mirrored
inequalities `r ≥ xᵢ` and `r ≤ xᵢ + M * dᵢ`.
-/

namespace SignalTemporalLogic

/-- What emitting into a model changes: the model and the counts. -/
structure Emission (σ : Type) where
  solver : σ
  stats : EncodingStats

/-- A computation that emits into a model with state `σ`. -/
abbrev Emit (α σ β : Type) := ExceptT (Fault α) (StateM (Emission σ)) β

namespace Emit

variable {α V σ β : Type}

/-- Passes a call on to the model. -/
def call (act : SolverCall α σ β) : Emit α σ β := fun e =>
  match act e.solver with
  | (.ok b, solver) => (.ok b, { e with solver })
  | (.error refusal, solver) => (.error (.refused refusal), { e with solver })

def countVariable (kind : VarKind) : Emit α σ Unit :=
  modify fun e => match kind with
    | .continuous => { e with stats.continuous := e.stats.continuous + 1 }
    | .binary => { e with stats.binaries := e.stats.binaries + 1 }

def countConstraints (n : Nat) : Emit α σ Unit :=
  modify fun e => { e with stats.constraints := e.stats.constraints + n }

/-- Adds a variable, with a start value if there is one. -/
def newVariable (model : SolverModel α V σ) (name : String) (kind : VarKind) (bounds : Bounds α)
    (start : Option α) : Emit α σ V := do
  let v ← call (model.addVariable name kind bounds)
  countVariable kind
  if let some value := start then call (model.setStart v value)
  return v

end Emit

namespace Extremum

variable {α V σ : Type} [Scalar α]

/-- The name under which a group without operands is refused. -/
def operator : Extremum → GroupOperator
  | min => .min
  | max => .max

/-- The bounds of the extreme of operands with the given bounds. -/
def boundsOf : Extremum → List (Bounds α) → Bounds α
  | min => Bounds.minOf
  | max => Bounds.maxOf

/-- The relation in which the extreme stands to every operand. -/
def bound : Extremum → Relation
  | min => .lessEqual
  | max => .greaterEqual

/-- The opposite relation, which holds between the extreme and the selected operand only. -/
def relaxed : Extremum → Relation
  | min => .greaterEqual
  | max => .lessEqual

/-- The amount by which a selector loosens the relaxed constraint. -/
def slack (m : α) : Extremum → α
  | min => -m
  | max => m

/-- Adds the selectors from number `i` on, one for each remaining operand. The chosen one starts at
zero and the others at one. -/
def emitSelectors (model : SolverModel α V σ) (label : String) (chosen : Option Nat) (i : Nat) :
    Nat → Emit α σ (List V)
  | 0 => return []
  | count + 1 => do
    let start := chosen.map fun selected => if i = selected then (0 : α) else 1
    let d ← Emit.newVariable model s!"{label}_d{i}" .binary ⟨0, 1⟩ start
    let others ← emitSelectors model label chosen (i + 1) count
    return d :: others

/-- Ties the result `r` to one operand through its selector. -/
def emitPair (e : Extremum) (model : SolverModel α V σ) (m : α) (r operand selector : V) :
    Emit α σ Unit := do
  Emit.call (model.addConstraint (.ofVar r) e.bound (.ofVar operand))
  Emit.call (model.addConstraint (.ofVar r) e.relaxed
    ((LinearExpr.ofVar operand).plus (e.slack m) selector))
  Emit.countConstraints 2

/-- Adds the extreme of the operands to the model and returns its variable. A single operand is its
own extreme. The tree of the evaluation gives the start values. -/
def emit (e : Extremum) (model : SolverModel α V σ) (label : String)
    (operands : List (Encoded α V)) (bigM : BigM α) (start : Option (ScoreTree α)) :
    Emit α σ (Encoded α V) :=
  match operands with
  | [] => throw (.arity e.operator 1 0)
  | [single] => return single
  | _ => do
    let bounds := operands.map Encoded.bounds
    let m ← bigM.resolve bounds
    let result := e.boundsOf bounds
    let r ← Emit.newVariable model label .continuous result (start.map ScoreTree.score)
    let selectors ← emitSelectors model label (start.bind ScoreTree.chosen) 0 operands.length
    (operands.zip selectors).forM fun (operand, selector) =>
      e.emitPair model m r operand.var selector
    Emit.call (model.addConstraint (.sum selectors) .equal
      (.ofConstant (Scalar.ofNat (operands.length - 1))))
    Emit.countConstraints 1
    return ⟨r, result⟩

/-- Adds the extreme of the operands to a model outside of a session. -/
def addTo (e : Extremum) (model : SolverModel α V σ) (label : String)
    (operands : List (Encoded α V)) (bigM : BigM α) :
    ExceptT (Fault α) (StateM σ) (Encoded α V) := fun solver =>
  match (do bigM.validate; e.emit model label operands bigM none : Emit α σ _) ⟨solver, {}⟩ with
  | (result, emission) => (result, emission.solver)

end Extremum

end SignalTemporalLogic
