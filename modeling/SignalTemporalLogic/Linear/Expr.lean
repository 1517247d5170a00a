import SignalTemporalLogic.Scalar.Basic

/-!
Linear expressions and the relations that constraints put between them.
-/

namespace SignalTemporalLogic

inductive Relation where
  | lessEqual
  | greaterEqual
  | equal
deriving DecidableEq

def Relation.text : Relation → String
  | lessEqual => "<="
  | greaterEqual => ">="
  | equal => "="

/-- The sum of `coefficient * variable` over the terms, plus the constant. A variable may occur in
several terms. -/
structure LinearExpr (α V : Type) where
  terms : List (α × V)
  constant : α

namespace LinearExpr

variable {α V : Type} [Scalar α]

def ofConstant (constant : α) : LinearExpr α V := ⟨[], constant⟩

def term (coefficient : α) (var : V) : LinearExpr α V := ⟨[(coefficient, var)], 0⟩

def ofVar (var : V) : LinearExpr α V := term 1 var

/-- The sum of variables, each with coefficient one. -/
def sum (vars : List V) : LinearExpr α V := ⟨vars.map (1, ·), 0⟩

def plus (e : LinearExpr α V) (coefficient : α) (var : V) : LinearExpr α V :=
  { e with terms := e.terms ++ [(coefficient, var)] }

def plusConstant (e : LinearExpr α V) (constant : α) : LinearExpr α V :=
  { e with constant := e.constant + constant }

end LinearExpr

end SignalTemporalLogic
