import Std.Data.TreeMap
import SignalTemporalLogic.Trajectory.Basic

/-!
Trajectories that are tables: one column of samples per signal, all of one length.
-/

namespace SignalTemporalLogic

structure SampledTrajectory (α : Type) where
  spacing : α
  /-- The common length of the columns; a table without columns has none. -/
  length? : Option Nat
  columns : Std.TreeMap String (Array α)

namespace SampledTrajectory

variable {α : Type}

/-- No column yet. -/
def empty (spacing : α) : SampledTrajectory α := ⟨spacing, none, ∅⟩

def length (x : SampledTrajectory α) : Nat := x.length?.getD 0

def column? (x : SampledTrajectory α) (name : String) : Option (Array α) := x.columns[name]?

/-- The stored sample: the name is looked up before the index. -/
def value (x : SampledTrajectory α) (sample : Sample) : Except (Fault α) α :=
  match x.column? sample.name with
  | none => .error (.unbound sample)
  | some column =>
    match column[sample.index]? with
    | none => .error (.outOfRange sample.index column.size)
    | some v => .ok v

def toTrajectory (x : SampledTrajectory α) : Trajectory α := ⟨x.value, x.spacing, x.length⟩

variable [Scalar α]

/-- Adds a column, or replaces the one of that name. -/
def withSignal? (x : SampledTrajectory α) (name : String) (samples : Array α) :
    Except (Fault α) (SampledTrajectory α) :=
  if ¬ Scalar.IsPositiveFinite x.spacing then
    .error (.trajectory (.samplingInterval x.spacing))
  else
    let size := samples.size
    let expected := x.length?.getD size
    if size = expected then
      .ok { x with length? := some size, columns := x.columns.insert name samples }
    else .error (.trajectory (.sampleCount name size expected))

/-- Every state has one component for each of `count` names. The first one that has not is
reported with its position, counted from `position` on. -/
def checkStates (count : Nat) (position : Nat) : List (List α) → Except (Fault α) Unit
  | [] => .ok ()
  | state :: rest =>
    if state.length = count then checkStates count (position + 1) rest
    else .error (.trajectory (.componentCount position state.length count))

/-- A table from states, component `i` of each being a sample of `names[i]`. -/
def ofStates? (spacing : α) (names : List String) (states : List (List α)) :
    Except (Fault α) (SampledTrajectory α) := do
  checkStates names.length 0 states
  names.zipIdx.foldlM (fun x (name, i) =>
      x.withSignal? name (states.filterMap (·[i]?)).toArray)
    (empty spacing)

/-- Equal as numbers: NaN differs from itself, and zeros of either sign agree. -/
def sameNumber (a b : α) : Bool := a ≤ b ∧ b ≤ a

def sameSamples (a b : Array α) : Bool :=
  a.size = b.size && (a.zip b).all fun (v, w) => sameNumber v w

/-- Same sampling interval, length and columns. The order in which columns were added plays no
part. -/
def same (x y : SampledTrajectory α) : Bool :=
  sameNumber x.spacing y.spacing && x.length? = y.length? && x.columns.size = y.columns.size &&
    x.columns.toList.all fun (name, samples) =>
      match y.column? name with
      | some others => sameSamples samples others
      | none => false

end SampledTrajectory

end SignalTemporalLogic
