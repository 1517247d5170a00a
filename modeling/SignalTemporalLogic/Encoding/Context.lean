import SignalTemporalLogic.Encoding.BigM
import SignalTemporalLogic.Encoding.Site
import SignalTemporalLogic.Time.Window

/-!
What an encoding session remembers: its settings, the variables bound to samples, the nodes encoded
so far, the labels given out, and counts of what was emitted.
-/

namespace SignalTemporalLogic

/-- A variable that stands for a score, with its range. -/
structure Encoded (α V : Type) where
  var : V
  bounds : Bounds α

/-- Counts of what a session emitted. -/
structure EncodingStats where
  continuous : Nat := 0
  binaries : Nat := 0
  constraints : Nat := 0
  memoHits : Nat := 0
deriving DecidableEq

structure EncodingSettings (α : Type) where
  bigM : BigM α
  /-- The number of samples that the model describes. -/
  horizon : Nat
  spacing : α
  policy : WindowPolicy
  /-- What the names of all created variables begin with. -/
  labelStem : String

/-- A node encoded at an index. -/
structure MemoEntry (α V : Type) [Scalar α] where
  formula : Formula α
  encoded : Encoded α V

/-- The state of one session. It belongs to one solver model. -/
structure EncodingContext (α V : Type) [Scalar α] where
  settings : EncodingSettings α
  bindings : Std.TreeMap Sample V := ∅
  memo : Std.TreeMap Site (MemoEntry α V) := ∅
  nextLabel : Nat := 0
  stats : EncodingStats := {}

/-- The part that a variable plays in an encoding. -/
inductive VariableRole where
  | predicate
  | not
  | and
  | or
  | always
  | eventually
  | untilBefore
  | untilTerm
  | untilBest
deriving DecidableEq

def VariableRole.tag : VariableRole → String
  | predicate => "pred"
  | not => "not"
  | and => "and"
  | or => "or"
  | always => "alw"
  | eventually => "eve"
  | untilBefore => "until_prefix"
  | untilTerm => "until_term"
  | untilBest => "until"

/-- The settings of a session as they are chosen. A big-M policy and a horizon have to be. -/
structure EncodingOptions (α : Type) [Scalar α] where
  bigM : Option (BigM α) := none
  horizon : Option Nat := none
  spacing : α := 1
  policy : WindowPolicy := .strict
  labelStem : String := "stl"

namespace EncodingOptions

variable {α : Type} [Scalar α]

/-- The settings, if they are complete and sound. -/
def settings? (options : EncodingOptions α) : Except (Fault α) (EncodingSettings α) := do
  let some bigM := options.bigM | throw (.bigM .missing)
  bigM.validate
  let some horizon := options.horizon | throw (.trajectory .noHorizon)
  if Scalar.IsPositiveFinite options.spacing then
    return ⟨bigM, horizon, options.spacing, options.policy, options.labelStem⟩
  else throw (.trajectory (.samplingInterval options.spacing))

end EncodingOptions

namespace EncodingContext

variable {α V : Type} [Scalar α]

/-- A context in which nothing is bound or encoded yet. -/
def ofOptions? (options : EncodingOptions α) : Except (Fault α) (EncodingContext α V) :=
  return { settings := ← options.settings? }

/-- Lets predicates that read the sample be encoded over `var`. -/
def bind (ctx : EncodingContext α V) (sample : Sample) (var : V) : EncodingContext α V :=
  { ctx with bindings := ctx.bindings.insert sample var }

/-- The variable that was bound to the sample last. -/
def boundVariable (ctx : EncodingContext α V) (sample : Sample) : Except (Fault α) V :=
  match ctx.bindings[sample]? with
  | some var => .ok var
  | none => .error (.unbound sample)

/-- The variable of a node at an index, if it has been encoded. -/
def encoded? (ctx : EncodingContext α V) (f : Formula α) (t : Nat) : Option (Encoded α V) :=
  (ctx.memo[f.site t]?).map MemoEntry.encoded

def isEncoded (ctx : EncodingContext α V) (f : Formula α) (t : Nat) : Bool :=
  ctx.memo.contains (f.site t)

/-- Notes the variable of a node at an index. -/
def remember (ctx : EncodingContext α V) (f : Formula α) (t : Nat) (encoded : Encoded α V) :
    EncodingContext α V :=
  { ctx with memo := ctx.memo.insert (f.site t) ⟨f, encoded⟩ }

theorem getElem?_remember (ctx : EncodingContext α V) (f : Formula α) (t : Nat)
    (encoded : Encoded α V) (site : Site) :
    (ctx.remember f t encoded).memo[site]? =
      if f.site t = site then some ⟨f, encoded⟩ else ctx.memo[site]? := by
  simp only [remember, Std.TreeMap.getElem?_insert, Site.compare_eq_eq_iff]

theorem isEncoded_iff {ctx : EncodingContext α V} {f : Formula α} {t : Nat} :
    ctx.isEncoded f t = true ↔ ∃ entry, ctx.memo[f.site t]? = some entry := by
  rw [isEncoded, Std.TreeMap.contains_eq_isSome_getElem?, Option.isSome_iff_exists]

theorem isEncoded_remember {ctx : EncodingContext α V} {f g : Formula α} {t u : Nat}
    {encoded : Encoded α V} : (ctx.remember f t encoded).isEncoded g u = true ↔
      f.site t = g.site u ∨ ctx.isEncoded g u = true := by
  rw [isEncoded_iff, isEncoded_iff, getElem?_remember]
  split <;> simp_all

/-- Notes that a node was found encoded already. -/
def countHit (ctx : EncodingContext α V) : EncodingContext α V :=
  { ctx with stats := { ctx.stats with memoHits := ctx.stats.memoHits + 1 } }

/-- The name of variable number `n` of a session. -/
def labelText (stem : String) (role : VariableRole) (n anchor : Nat) : String :=
  s!"{stem}_{role.tag}{n}_t{anchor}"

/-- A name that was not given out before in this session. -/
def takeLabel (ctx : EncodingContext α V) (role : VariableRole) (anchor : Nat) :
    String × EncodingContext α V :=
  (labelText ctx.settings.labelStem role ctx.nextLabel anchor,
    { ctx with nextLabel := ctx.nextLabel + 1 })

end EncodingContext

end SignalTemporalLogic
