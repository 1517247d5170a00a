import SignalTemporalLogic.Signal.Basic
import SignalTemporalLogic.Time.Interval

/-!
Formulas of bounded-time signal temporal logic. Every node carries an identity. A formula that
occurs in several places of a larger one keeps its identity, which is how an encoding recognises
what it has encoded already; two formulas that merely look alike have different ones.
-/

namespace SignalTemporalLogic

/-- The identity of a formula node. -/
structure NodeId where
  index : Nat
deriving DecidableEq

mutual

inductive Formula (α : Type) [Scalar α] where
  /-- Holds where the signal is positive. -/
  | predicate (id : NodeId) (signal : Signal α)
  | not (id : NodeId) (arg : Formula α)
  | and (id : NodeId) (args : Operands α)
  | or (id : NodeId) (args : Operands α)
  /-- Holds at every index of the window. -/
  | always (id : NodeId) (interval : TimeInterval α) (arg : Formula α)
  /-- Holds at some index of the window. -/
  | eventually (id : NodeId) (interval : TimeInterval α) (arg : Formula α)
  /-- `right` holds at some index of the window, and `left` at all indices before it. -/
  | holdsUntil (id : NodeId) (interval : TimeInterval α) (left right : Formula α)
  /-- Holds one sample later. -/
  | next (id : NodeId) (arg : Formula α)

/-- The operands of a connective: two or more. -/
inductive Operands (α : Type) [Scalar α] where
  | pair (first second : Formula α)
  | cons (first : Formula α) (rest : Operands α)

end

/-- The kind of a node. -/
inductive Operator where
  | predicate
  | not
  | and
  | or
  | always
  | eventually
  | holdsUntil
  | next
deriving DecidableEq

def Operator.name : Operator → String
  | predicate => "predicate"
  | not => "not"
  | and => "and"
  | or => "or"
  | always => "always"
  | eventually => "eventually"
  | holdsUntil => "until"
  | next => "next"

variable {α : Type} [Scalar α]

namespace Operands

def toList : Operands α → List (Formula α)
  | pair first second => [first, second]
  | cons first rest => first :: rest.toList

def ofList? : List (Formula α) → Option (Operands α)
  | [first, second] => some (pair first second)
  | first :: rest => (ofList? rest).map (cons first)
  | [] => none

theorem two_le_length_toList : (args : Operands α) → 2 ≤ args.toList.length
  | pair _ _ => Nat.le_refl _
  | cons _ rest => Nat.le_succ_of_le rest.two_le_length_toList

theorem ofList?_toList : (args : Operands α) → ofList? args.toList = some args
  | pair _ _ => rfl
  | cons first (pair _ _) => rfl
  | cons first (cons second rest) => by
    have h := ofList?_toList (cons second rest)
    simp only [toList] at h ⊢
    cases hr : rest.toList with
    | nil => have := rest.two_le_length_toList; simp [hr] at this
    | cons third others => rw [hr] at h; simp only [ofList?] at h ⊢; rw [h]; rfl

end Operands

namespace Formula

def id : Formula α → NodeId
  | predicate id _ | not id _ | and id _ | or id _ | always id _ _ | eventually id _ _
  | holdsUntil id _ _ _ | next id _ => id

def operator : Formula α → Operator
  | predicate .. => .predicate
  | not .. => .not
  | and .. => .and
  | or .. => .or
  | always .. => .always
  | eventually .. => .eventually
  | holdsUntil .. => .holdsUntil
  | next .. => .next

/-- The direct arguments, in order. -/
def children : Formula α → List (Formula α)
  | predicate _ _ => []
  | not _ arg | always _ _ arg | eventually _ _ arg | next _ arg => [arg]
  | and _ args | or _ args => args.toList
  | holdsUntil _ _ left right => [left, right]

end Formula

end SignalTemporalLogic
