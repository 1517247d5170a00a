import SignalTemporalLogic.Extremum
import SignalTemporalLogic.Robustness.Evaluate

/-!
The scores of all the evaluations that the robustness of a formula is made of, as a tree. Each node
that takes an extreme names the child, or the candidate of an until, that attains it first.
-/

namespace SignalTemporalLogic

structure ScoreTree (α : Type) where
  score : α
  /-- The position of the operand that the score was taken from. -/
  chosen : Option Nat
  /-- For an until, the right operand at each candidate, followed by the left operand at each index
  from the anchor up to the last candidate; otherwise the operands in order. -/
  children : List (ScoreTree α)

namespace ScoreTree

variable {α : Type}

def leaf (score : α) : ScoreTree α := ⟨score, none, []⟩

variable [Scalar α]

/-- A node that takes an extreme of its children. -/
def select (e : Extremum) (children : List (ScoreTree α)) : ScoreTree α :=
  let (chosen, score) := e.first (children.map ScoreTree.score)
  ⟨score, some chosen, children⟩

/-- The score of each candidate of an until: the least of the right operand there and the left
operand before it. Before the first candidate lie `skipped` scores of the left operand. -/
def untilTerms (skipped : Nat) (rights lefts : List (ScoreTree α)) : List α :=
  rights.zipIdx.map fun (right, k) =>
    (lefts.take (skipped + k)).foldl (fun least left => Scalar.min least left.score) right.score

/-- A node of an until, taking the best candidate. -/
def selectUntil (skipped : Nat) (rights lefts : List (ScoreTree α)) : ScoreTree α :=
  let (chosen, score) := Extremum.max.first (untilTerms skipped rights lefts)
  ⟨score, some chosen, rights ++ lefts⟩

end ScoreTree

variable {α : Type} [Scalar α]

mutual

/-- The tree of the formula at time `t`. -/
def Formula.treeAt (policy : WindowPolicy) (x : Trajectory α) :
    Formula α → Nat → Except (Fault α) (ScoreTree α)
  | .predicate _ signal, t => return .leaf (← x.signalValue signal t)
  | .not _ arg, t => do
    let child ← arg.treeAt policy x t
    return ⟨-child.score, none, [child]⟩
  | .and _ args, t => return .select .min (← args.treesAt policy x t)
  | .or _ args, t => return .select .max (← args.treesAt policy x t)
  | .always _ interval arg, t => do
    let w ← x.window policy interval t
    return .select .min (← w.mapM fun u => arg.treeAt policy x u)
  | .eventually _ interval arg, t => do
    let w ← x.window policy interval t
    return .select .max (← w.mapM fun u => arg.treeAt policy x u)
  | .holdsUntil _ interval left right, t => do
    let w ← x.window policy interval t
    let rights ← w.mapM fun u => right.treeAt policy x u
    let lefts ← Index.mapRangeM (fun u => left.treeAt policy x u) t (w.last - t)
    return .selectUntil (w.first - t) rights lefts
  | .next _ arg, t => do
    let w ← x.nextWindow policy t
    let child ← arg.treeAt policy x w.first
    return ⟨child.score, none, [child]⟩

/-- The trees of the operands at time `t`, in order. -/
def Operands.treesAt (policy : WindowPolicy) (x : Trajectory α) :
    Operands α → Nat → Except (Fault α) (List (ScoreTree α))
  | .pair first second, t => return [← first.treeAt policy x t, ← second.treeAt policy x t]
  | .cons first rest, t => return (← first.treeAt policy x t) :: (← rest.treesAt policy x t)

end

/-- The tree of the formula at an anchor inside the trajectory. -/
def Formula.robustnessTree (policy : WindowPolicy) (f : Formula α) (x : Trajectory α)
    (anchor : Nat) : Except (Fault α) (ScoreTree α) := do
  x.checkIndex anchor
  f.treeAt policy x anchor

end SignalTemporalLogic
