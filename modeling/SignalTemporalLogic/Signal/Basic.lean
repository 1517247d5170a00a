import SignalTemporalLogic.Bounds
import SignalTemporalLogic.Fault

/-!
Signals: real functions of sampled variables around a query time. A predicate over a signal holds
where the signal is positive. The arguments of a signal are given by labels. The only kind of label
there is names a sample a fixed distance away from the query time. Callers may add kinds of their
own, with any sample for each query time; those are left out.
-/

namespace SignalTemporalLogic

/-- How the value of a signal comes about. -/
inductive SignalForm (α : Type) where
  /-- `name - threshold` -/
  | above (name : String) (threshold : α)
  /-- `threshold - name` -/
  | below (name : String) (threshold : α)
  /-- The sum of the terms and the constant. -/
  | affine (terms : List (α × SampleLabel)) (constant : α)
  /-- A function of any kind. It can be evaluated, but has no linear encoding. -/
  | nonlinear (name : String) (labels : List SampleLabel) (function : List α → α)

/-- A signal with the declared range of its values. -/
structure Signal (α : Type) where
  form : SignalForm α
  bounds : Bounds α

namespace SignalForm

variable {α : Type} [Scalar α]

/-- Coefficients with their labels, and the constant, of a signal that is affine. -/
def affinePart : SignalForm α → Except (Fault α) (List (α × SampleLabel) × α)
  | above name threshold => .ok ([(1, .current name)], -threshold)
  | below name threshold => .ok ([(-1, .current name)], threshold)
  | affine terms constant => .ok (terms, constant)
  | nonlinear name _ _ => .error (.notAffine name)

/-- The arguments, in order. -/
def labels : SignalForm α → List SampleLabel
  | above name _ | below name _ => [.current name]
  | affine terms _ => terms.map Prod.snd
  | nonlinear _ labels _ => labels

/-- The sum of `coefficient * argument`, from left to right, starting with the constant. -/
def affineValue (coefficients : List α) (constant : α) (arguments : List α) : α :=
  (coefficients.zip arguments).foldl (fun sum (c, x) => sum + c * x) constant

/-- The value at the given arguments. -/
def apply (arguments : List α) : SignalForm α → α
  | above _ threshold => affineValue [1] (-threshold) arguments
  | below _ threshold => affineValue [-1] threshold arguments
  | affine terms constant => affineValue (terms.map Prod.fst) constant arguments
  | nonlinear _ _ function => function arguments

section Text

variable [ScalarText α]

open ScalarText (text)

/-- A summand after the first. Its sign becomes the operator. -/
def laterTermText (c : α) (rest : String) : String :=
  if c < 0 then s!" - {text (-c)}{rest}" else s!" + {text c}{rest}"

def termsText : List (α × SampleLabel) → String
  | [] => ""
  | (c, label) :: rest =>
    s!"{text c}*{label.text}" ++
      String.join (rest.map fun (c, label) => laterTermText c s!"*{label.text}")

/-- A constant of zero is left out unless it stands alone. -/
def affineText (terms : List (α × SampleLabel)) (constant : α) : String :=
  let constantText :=
    if terms.isEmpty then text constant
    else if Scalar.IsZero constant then ""
    else laterTermText constant ""
  termsText terms ++ constantText ++ " > 0"

/-- The predicate over the signal. -/
def describe : SignalForm α → String
  | above name threshold => s!"{name} > {text threshold}"
  | below name threshold => s!"{name} < {text threshold}"
  | affine terms constant => affineText terms constant
  | nonlinear name _ _ => s!"{name}(..) > 0"

end Text

end SignalForm

namespace Signal

variable {α : Type} [Scalar α]

def ofForm (form : SignalForm α) : Signal α := ⟨form, .unbounded⟩

/-- Holds where the named signal is above the threshold. -/
def greaterThan (name : String) (threshold : α) : Signal α := ofForm (.above name threshold)

/-- Holds where the named signal is below the threshold. -/
def lessThan (name : String) (threshold : α) : Signal α := ofForm (.below name threshold)

/-- A sum of scaled samples and a constant. -/
def affine? (labels : List SampleLabel) (coefficients : List α) (constant : α) :
    Except (Fault α) (Signal α) :=
  if labels.length ≠ coefficients.length then
    .error (.signal (.labelCount labels.length coefficients.length))
  else if (∀ c ∈ coefficients, Scalar.IsFinite c) ∧ Scalar.IsFinite constant then
    .ok (ofForm (.affine (coefficients.zip labels) constant))
  else .error (.signal .notFinite)

def nonlinear (name : String) (labels : List SampleLabel) (function : List α → α) : Signal α :=
  ofForm (.nonlinear name labels function)

/-- Declares the range of the signal. It bounds the predicate's variable in an encoding. -/
def withBounds? (signal : Signal α) (lower upper : α) : Except (Fault α) (Signal α) :=
  if lower ≤ upper then .ok { signal with bounds := ⟨lower, upper⟩ }
  else .error (.signal (.valueBounds lower upper))

/-- The sample that a label names at time `t`. -/
def sampleAt (label : SampleLabel) (t : Nat) : Except (Fault α) Sample :=
  match label.at? t with
  | some sample => .ok sample
  | none => .error (.signal (.noSample label t))

/-- The samples that the signal reads at time `t`, in the order of its arguments. -/
def samplesAt (signal : Signal α) (t : Nat) : Except (Fault α) (List Sample) :=
  signal.form.labels.mapM (sampleAt · t)

/-- The predicate over the signal, as text. -/
def text [ScalarText α] (signal : Signal α) : String := signal.form.describe

end Signal

end SignalTemporalLogic
