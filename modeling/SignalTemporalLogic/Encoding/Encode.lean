import SignalTemporalLogic.Encoding.Session

/-!
Encoding of a formula as linear constraints. The encoder follows the evaluator, but where that
computes a score the encoder adds a variable that is constrained to be the score, whatever values
the variables bound to the samples take. Predicates become equalities, a negation changes the sign,
and every minimum and maximum is a big-M group.
-/

namespace SignalTemporalLogic

variable {α V σ : Type} [Scalar α]

/-- The part of a tree of start values that belongs to an operand. -/
def startAt (start : Option (ScoreTree α)) (i : Nat) : Option (ScoreTree α) :=
  start.bind fun tree => tree.children[i]?

namespace Encode

/-- The terms of a predicate over the variables that are bound to its samples. -/
def predicateTerms (terms : List (α × Sample)) : Encode α V σ (List (α × V)) :=
  terms.mapM fun (c, sample) => do
    checkIndex sample.index
    let v ← (← context).boundVariable sample
    return (c, v)

/-- A variable that equals the given expression. -/
def equalTo (model : SolverModel α V σ) (role : VariableRole) (t : Nat) (bounds : Bounds α)
    (start : Option (ScoreTree α)) (value : LinearExpr α V) : Encode α V σ (Encoded α V) := do
  let label ← takeLabel role t
  emit do
    let y ← Emit.newVariable model label .continuous bounds (start.map ScoreTree.score)
    Emit.call (model.addConstraint (.ofVar y) .equal value)
    Emit.countConstraints 1
    return ⟨y, bounds⟩

/-- Only affine signals can be encoded. -/
def predicate (model : SolverModel α V σ) (signal : Signal α) (t : Nat)
    (start : Option (ScoreTree α)) : Encode α V σ (Encoded α V) := do
  let (terms, constant) ← signal.form.affinePart
  checkIndex t
  let samples ← signal.samplesAt t
  let terms ← predicateTerms ((terms.map Prod.fst).zip samples)
  equalTo model .predicate t signal.bounds start ⟨terms, constant⟩

/-- A variable for the negation of an encoded operand. -/
def negation (model : SolverModel α V σ) (t : Nat) (start : Option (ScoreTree α))
    (operand : Encoded α V) : Encode α V σ (Encoded α V) :=
  equalTo model .not t operand.bounds.negate start (.term (-1) operand.var)

/-- A variable for an extreme of encoded operands. -/
def group (model : SolverModel α V σ) (e : Extremum) (role : VariableRole) (t : Nat)
    (start : Option (ScoreTree α)) (operands : List (Encoded α V)) :
    Encode α V σ (Encoded α V) := do
  let bigM := (← context).settings.bigM
  let label ← takeLabel role t
  emit (e.emit model label operands bigM start)

/-- The running minima of the operands after `before`. -/
def minimaAfter (model : SolverModel α V σ) (t : Nat) (before : Encoded α V) :
    List (Encoded α V) → Encode α V σ (List (Encoded α V))
  | [] => return []
  | operand :: rest => do
    let minimum ← group model .min .untilBefore t none [before, operand]
    let others ← minimaAfter model t minimum rest
    return minimum :: others

/-- The running minima of the operands, the first operand being its own minimum. -/
def runningMinima (model : SolverModel α V σ) (t : Nat) :
    List (Encoded α V) → Encode α V σ (List (Encoded α V))
  | [] => return []
  | operand :: rest => return operand :: (← minimaAfter model t operand rest)

/-- One candidate of an until: the right operand there, and the minimum of the left operand over the
indices before it, if there are any. -/
def untilTerm (model : SolverModel α V σ) (t : Nat) :
    Encoded α V × Option (Encoded α V) → Encode α V σ (Encoded α V)
  | (right, none) => return right
  | (right, some before) => group model .min .untilTerm t none [right, before]

/-- The best candidate of an until. Before the first one lie `skipped` indices of the window from
the anchor on. -/
def untilBest (model : SolverModel α V σ) (t skipped : Nat) (start : Option (ScoreTree α))
    (rights lefts : List (Encoded α V)) : Encode α V σ (Encoded α V) := do
  let minima ← runningMinima model t lefts
  let before := (none :: minima.map some).drop skipped
  let terms ← (rights.zip before).mapM (untilTerm model t)
  group model .max .untilBest t start terms

mutual

/-- The variable of the formula at index `t`. -/
def formula (model : SolverModel α V σ) :
    Formula α → Nat → Option (ScoreTree α) → Encode α V σ (Encoded α V)
  | f@(.predicate _ signal), t, start => memoized f t (predicate model signal t start)
  | f@(.not _ (.not _ arg)), t, start =>
    -- Two negations cancel out; the inner one gets no variable.
    memoized f t (formula model arg t (startAt (startAt start 0) 0))
  | f@(.not _ arg), t, start =>
    memoized f t do
      negation model t start (← formula model arg t (startAt start 0))
  | f@(.and _ args), t, start =>
    memoized f t do
      group model .min .and t start (← operands model args t start 0)
  | f@(.or _ args), t, start =>
    memoized f t do
      group model .max .or t start (← operands model args t start 0)
  | f@(.always _ interval arg), t, start =>
    memoized f t do
      let w ← window interval t
      let scores ← w.mapM fun u => formula model arg u (startAt start (u - w.first))
      group model .min .always t start scores
  | f@(.eventually _ interval arg), t, start =>
    memoized f t do
      let w ← window interval t
      let scores ← w.mapM fun u => formula model arg u (startAt start (u - w.first))
      group model .max .eventually t start scores
  | f@(.holdsUntil _ interval left right), t, start =>
    memoized f t do
      let w ← window interval t
      let rights ← w.mapM fun u => formula model right u (startAt start (u - w.first))
      let lefts ← Index.mapRangeM
        (fun u => formula model left u (startAt start (w.size + (u - t)))) t (w.last - t)
      untilBest model t (w.first - t) start rights lefts
  | f@(.next _ arg), t, start =>
    memoized f t do
      let w ← nextWindow t
      formula model arg w.first (startAt start 0)

/-- The variables of the operands at index `t`, the first of which has position `i`. -/
def operands (model : SolverModel α V σ) :
    Operands α → Nat → Option (ScoreTree α) → Nat → Encode α V σ (List (Encoded α V))
  | .pair first second, t, start, i => do
    let x ← formula model first t (startAt start i)
    let y ← formula model second t (startAt start (i + 1))
    return [x, y]
  | .cons first rest, t, start, i => do
    let x ← formula model first t (startAt start i)
    let others ← operands model rest t start (i + 1)
    return x :: others

end

end Encode

namespace Formula

/-- Encodes the formula at an anchor and returns the variable that equals its robustness there. The
tree of an evaluation at the same anchor gives start values. -/
def encodeAt (model : SolverModel α V σ) (f : Formula α) (anchor : Nat)
    (start : Option (ScoreTree α)) : Encode α V σ V := do
  Encode.checkIndex anchor
  return (← Encode.formula model f anchor start).var

end Formula

end SignalTemporalLogic
