import Mathlib.Data.Set.Insert
import Mathlib.Order.Bounds.Basic
import Mathlib.Order.Interval.Set.Defs
import SignalTemporalLogic.Robustness.Evaluate

/-!
What a formula means, said without folds and loops: which predicate evaluations it asks for, when it
is defined, and which value it has, as a relation that uses only the order of the values.
-/

namespace SignalTemporalLogic

variable {α Y : Type} [Scalar α]

mutual

/-- The formula at `t` asks for the value of the signal at `u`. -/
def Formula.Asks (policy : WindowPolicy) (x : Trajectory α) :
    Formula α → Nat → Signal α → Nat → Prop
  | .predicate _ own, t, signal, u => signal = own ∧ u = t
  | .not _ arg, t, signal, u => arg.Asks policy x t signal u
  | .and _ args, t, signal, u | .or _ args, t, signal, u => args.Asks policy x t signal u
  | .always _ interval arg, t, signal, u | .eventually _ interval arg, t, signal, u =>
    ∃ w, x.window policy interval t = .ok w ∧ ∃ v ∈ w, arg.Asks policy x v signal u
  | .holdsUntil _ interval left right, t, signal, u =>
    ∃ w, x.window policy interval t = .ok w ∧
      ((∃ v ∈ w, right.Asks policy x v signal u) ∨
        ∃ v, t ≤ v ∧ v < w.last ∧ left.Asks policy x v signal u)
  | .next _ arg, t, signal, u => t + 1 < x.length ∧ arg.Asks policy x (t + 1) signal u

/-- One of the operands at `t` asks for the value of the signal at `u`. -/
def Operands.Asks (policy : WindowPolicy) (x : Trajectory α) :
    Operands α → Nat → Signal α → Nat → Prop
  | .pair first second, t, signal, u =>
    first.Asks policy x t signal u ∨ second.Asks policy x t signal u
  | .cons first rest, t, signal, u =>
    first.Asks policy x t signal u ∨ rest.Asks policy x t signal u

end

mutual

/-- Every window and every predicate value that the formula asks for at `t` exists. -/
def Formula.Defined (policy : WindowPolicy) (x : Trajectory α) : Formula α → Nat → Prop
  | .predicate _ signal, t => ∃ a, x.signalValue signal t = .ok a
  | .not _ arg, t => arg.Defined policy x t
  | .and _ args, t | .or _ args, t => args.Defined policy x t
  | .always _ interval arg, t | .eventually _ interval arg, t =>
    ∃ w, x.window policy interval t = .ok w ∧ ∀ u ∈ w, arg.Defined policy x u
  | .holdsUntil _ interval left right, t =>
    ∃ w, x.window policy interval t = .ok w ∧ (∀ u ∈ w, right.Defined policy x u) ∧
      ∀ u, t ≤ u → u < w.last → left.Defined policy x u
  | .next _ arg, t => t + 1 < x.length ∧ arg.Defined policy x (t + 1)

def Operands.Defined (policy : WindowPolicy) (x : Trajectory α) : Operands α → Nat → Prop
  | .pair first second, t => first.Defined policy x t ∧ second.Defined policy x t
  | .cons first rest, t => first.Defined policy x t ∧ rest.Defined policy x t

end

section Means

variable [LE Y] (negate : Y → Y) (read : α → Y)

mutual

/-- The value of the formula at `t`, where predicates are read by `read`, a negation is `negate`, a
conjunction the least and a disjunction the greatest of its operands. At each candidate `u` of an
until stands the least of the right operand at `u` and the left operand at the indices from `t` up to
`u`. -/
def Formula.Means (policy : WindowPolicy) (x : Trajectory α) : Formula α → Nat → Y → Prop
  | .predicate _ signal, t, y => ∃ a, x.signalValue signal t = .ok a ∧ y = read a
  | .not _ arg, t, y => ∃ v, arg.Means policy x t v ∧ y = negate v
  | .and _ args, t, y => ∃ values, args.Means policy x t values ∧ IsLeast {v | v ∈ values} y
  | .or _ args, t, y => ∃ values, args.Means policy x t values ∧ IsGreatest {v | v ∈ values} y
  | .always _ interval arg, t, y =>
    ∃ w, x.window policy interval t = .ok w ∧ ∃ value : Nat → Y,
      (∀ u ∈ w, arg.Means policy x u (value u)) ∧ IsLeast (value '' {u | u ∈ w}) y
  | .eventually _ interval arg, t, y =>
    ∃ w, x.window policy interval t = .ok w ∧ ∃ value : Nat → Y,
      (∀ u ∈ w, arg.Means policy x u (value u)) ∧ IsGreatest (value '' {u | u ∈ w}) y
  | .holdsUntil _ interval left right, t, y =>
    ∃ w, x.window policy interval t = .ok w ∧ ∃ before here candidate : Nat → Y,
      (∀ u ∈ w, right.Means policy x u (here u)) ∧
      (∀ u, t ≤ u → u < w.last → left.Means policy x u (before u)) ∧
      (∀ u ∈ w, IsLeast (insert (here u) (before '' Set.Ico t u)) (candidate u)) ∧
      IsGreatest (candidate '' {u | u ∈ w}) y
  | .next _ arg, t, y => t + 1 < x.length ∧ arg.Means policy x (t + 1) y

/-- The values of the operands at `t`, in order. -/
def Operands.Means (policy : WindowPolicy) (x : Trajectory α) : Operands α → Nat → List Y → Prop
  | .pair first second, t, values =>
    ∃ v w, first.Means policy x t v ∧ second.Means policy x t w ∧ values = [v, w]
  | .cons first rest, t, values =>
    ∃ v others, first.Means policy x t v ∧ rest.Means policy x t others ∧ values = v :: others

end

end Means

end SignalTemporalLogic
