import SignalTemporalLogic.Formula.Basic

/-!
Building formulas. Every node that is built takes the next identity, so that two nodes share one
only if they are the same node.
-/

namespace SignalTemporalLogic

/-- A computation that builds formula nodes. Its state is the next free identity. -/
abbrev Build (α β : Type) := ExceptT (Fault α) (StateM NodeId) β

namespace Build

variable {α : Type} [Scalar α]

def freshId : Build α NodeId := modifyGet fun id => (id, ⟨id.index + 1⟩)

/-- A connective takes two operands or more. -/
def operands (operator : GroupOperator) (args : List (Formula α)) : Build α (Operands α) :=
  match Operands.ofList? args with
  | some args => pure args
  | none => throw (.arity operator 2 args.length)

def predicate (signal : Signal α) : Build α (Formula α) := return .predicate (← freshId) signal

def not (arg : Formula α) : Build α (Formula α) := return .not (← freshId) arg

def and (args : List (Formula α)) : Build α (Formula α) := do
  let args ← operands .and args
  return .and (← freshId) args

def or (args : List (Formula α)) : Build α (Formula α) := do
  let args ← operands .or args
  return .or (← freshId) args

def always (interval : TimeInterval α) (arg : Formula α) : Build α (Formula α) :=
  return .always (← freshId) interval arg

def eventually (interval : TimeInterval α) (arg : Formula α) : Build α (Formula α) :=
  return .eventually (← freshId) interval arg

def holdsUntil (interval : TimeInterval α) (left right : Formula α) : Build α (Formula α) :=
  return .holdsUntil (← freshId) interval left right

def next (arg : Formula α) : Build α (Formula α) := return .next (← freshId) arg

end Build

end SignalTemporalLogic
