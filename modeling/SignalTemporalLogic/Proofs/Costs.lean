import Mathlib.Algebra.BigOperators.Group.List.Basic
import Mathlib.Algebra.Group.Prod
import SignalTemporalLogic.Proofs.Remembering

/-!
What the steps of an encoding add to the model, in numbers of variables and constraints. A step that
returns has added a number that depends on the lengths of its lists alone: not on bounds, start
values or labels, and not on the model.
-/

namespace SignalTemporalLogic

variable {α V σ S ε β γ : Type}

/-- Numbers of continuous variables, of binary variables, and of constraints. -/
abbrev Cost := ℕ × ℕ × ℕ

/-- The counts of what was added to the model. -/
def EncodingStats.emitted (stats : EncodingStats) : Cost :=
  (stats.continuous, stats.binaries, stats.constraints)

/-- A big-M group has its extreme, a selector for each operand, two inequalities for each operand,
and the sum of the selectors. A single operand is its own extreme. -/
def groupCost (operands : ℕ) : Cost :=
  if 1 < operands then (1, operands, 2 * operands + 1) else 0

/-! ## Computations that add a known number -/

/-- Whenever the computation returns, it has raised the count by `cost`, and the result is as
asserted. -/
def Spends (count : S → Cost) (cost : Cost) (act : ExceptT ε (StateM S) β) (post : β → Prop) :
    Prop :=
  ∀ s b s', act s = (.ok b, s') → count s' = count s + cost ∧ post b

namespace Spends

variable {count : S → Cost} {cost cost' : Cost} {act : ExceptT ε (StateM S) β} {post : β → Prop}

theorem pure {b : β} (h : post b) :
    Spends count 0 (Pure.pure b : ExceptT ε (StateM S) β) post := by
  rintro s _ _ ⟨⟩
  exact ⟨(add_zero _).symm, h⟩

theorem lift (x : Except ε β) :
    Spends count 0 (liftM x : ExceptT ε (StateM S) β) fun _ => True := by
  intro s b s' hrun
  cases x with
  | error e => cases hrun
  | ok c =>
    cases hrun
    exact ⟨(add_zero _).symm, trivial⟩

theorem bind {next : β → ExceptT ε (StateM S) γ} {post' : γ → Prop}
    (h : Spends count cost act post) (hnext : ∀ b, post b → Spends count cost' (next b) post') :
    Spends count (cost + cost') (act >>= next) post' := by
  intro s c s' hrun
  rcases hact : act s with ⟨e | b, u⟩
  · rw [RunLogic.run_bind_error hact] at hrun
    cases hrun
  · rw [RunLogic.run_bind_ok next hact] at hrun
    obtain ⟨hcount, hb⟩ := h s b u hact
    obtain ⟨hcount', hc⟩ := hnext b hb u c s' hrun
    exact ⟨by rw [hcount', hcount, add_assoc], hc⟩

theorem of_eq (h : Spends count cost act post) (heq : cost = cost') :
    Spends count cost' act post := heq ▸ h

/-- Visits in a row add what each of them adds. -/
theorem mapM {visit : γ → ExceptT ε (StateM S) β} {price : γ → Cost} {items : List γ}
    (h : ∀ d ∈ items, Spends count (price d) (visit d) fun _ => True) :
    Spends count (items.map price).sum (items.mapM visit) fun bs =>
      bs.length = items.length := by
  induction items with
  | nil => exact pure rfl
  | cons d items ih =>
    rw [List.mapM_cons, List.map_cons, List.sum_cons]
    refine (h d (by simp)).bind fun b _ => ?_
    refine ((ih fun d' hd' => h d' (by simp [hd'])).bind fun bs hbs => pure ?_).of_eq (add_zero _)
    exact congrArg Nat.succ hbs

theorem forM {visit : γ → ExceptT ε (StateM S) PUnit} (cost : Cost)
    (h : ∀ d, Spends count cost (visit d) fun _ => True) (items : List γ) :
    Spends count (items.length • cost) (items.forM visit) fun _ => True := by
  induction items with
  | nil => exact (pure trivial).of_eq (zero_nsmul _).symm
  | cons d items ih =>
    exact ((h d).bind fun _ _ => ih).of_eq (succ_nsmul' cost items.length).symm

end Spends

/-! ## Emissions -/

namespace Emission

/-- What has been counted so far. -/
def emitted (e : Emission σ) : Cost := e.stats.emitted

end Emission

/-- What one variable counts. -/
def VarKind.cost : VarKind → Cost
  | continuous => (1, 0, 0)
  | binary => (0, 1, 0)

namespace Emit

theorem spends_call (act : SolverCall α σ β) :
    Spends Emission.emitted 0 (call act) fun _ => True := by
  intro e b e' hrun
  unfold call at hrun
  rcases hact : act e.solver with ⟨refusal | c, solver⟩ <;> rw [hact] at hrun <;> cases hrun
  exact ⟨(add_zero _).symm, trivial⟩

theorem spends_countVariable (kind : VarKind) :
    Spends Emission.emitted kind.cost (countVariable kind : Emit α σ Unit) fun _ => True := by
  rintro e _ _ ⟨⟩
  cases kind <;> exact ⟨rfl, trivial⟩

theorem spends_countConstraints (n : ℕ) :
    Spends Emission.emitted (0, 0, n) (countConstraints n : Emit α σ Unit) fun _ => True := by
  rintro e _ _ ⟨⟩
  exact ⟨rfl, trivial⟩

theorem spends_newVariable (model : SolverModel α V σ) (name : String) (kind : VarKind)
    (bounds : Bounds α) (start : Option α) :
    Spends Emission.emitted kind.cost (newVariable model name kind bounds start)
      fun _ => True := by
  refine ((spends_call _).bind fun v _ => (spends_countVariable kind).bind fun _ _ => ?_).of_eq
    (show 0 + (kind.cost + 0) = kind.cost by rw [zero_add, add_zero])
  cases start with
  | none => exact .pure trivial
  | some value =>
    exact ((spends_call _).bind fun _ _ => .pure trivial).of_eq (add_zero 0)

end Emit

variable [Scalar α]

namespace Extremum

theorem spends_emitSelectors (model : SolverModel α V σ) (label : String) (chosen : Option Nat)
    (i count : ℕ) :
    Spends Emission.emitted (0, count, 0) (emitSelectors model label chosen i count)
      fun selectors => selectors.length = count := by
  induction count generalizing i with
  | zero => exact .pure rfl
  | succ count ih =>
    have hcost : VarKind.binary.cost + ((0, count, 0) + 0) = (0, count + 1, 0) := by
      simp [VarKind.cost, Nat.add_comm]
    refine ((Emit.spends_newVariable model _ .binary _ _).bind fun d _ => (ih (i + 1)).bind
      fun ds hds => .pure ?_).of_eq hcost
    exact congrArg Nat.succ hds

theorem spends_emitPair (e : Extremum) (model : SolverModel α V σ) (m : α)
    (r operand selector : V) :
    Spends Emission.emitted (0, 0, 2) (e.emitPair model m r operand selector) fun _ => True :=
  ((Emit.spends_call _).bind fun _ _ => (Emit.spends_call _).bind fun _ _ =>
    Emit.spends_countConstraints 2).of_eq rfl

/-- **A group adds what it costs**, whichever extreme it takes. -/
theorem spends_emit (e : Extremum) (model : SolverModel α V σ) (label : String)
    (operands : List (Encoded α V)) (bigM : BigM α) (start : Option (ScoreTree α)) :
    Spends Emission.emitted (groupCost operands.length)
      (e.emit model label operands bigM start) fun _ => True := by
  match operands with
  | [] => exact nofun
  | [single] => exact .pure trivial
  | first :: second :: rest =>
    let n := (first :: second :: rest).length
    rw [emit_eq model (by simp)]
    refine ((Spends.lift _).bind fun m _ => (Emit.spends_newVariable model _ .continuous _ _).bind
      fun r _ => (spends_emitSelectors model label _ 0 n).bind fun selectors hselectors =>
        ?_).of_eq (?_ : 0 + ((1, 0, 0) + ((0, n, 0) + (0, 0, 2 * n + 1))) = groupCost n)
    · refine ((Spends.forM (0, 0, 2) (fun _ => e.spends_emitPair model m r _ _) _).bind
        fun _ _ => (Emit.spends_call _).bind fun _ _ => (Emit.spends_countConstraints 1).bind
          fun _ _ => .pure trivial).of_eq ?_
      simp [hselectors, n]
      omega
    · have hn : 1 < n := by simp [n]
      simp [groupCost, hn]

end Extremum

/-! ## Steps of an encoding -/

/-- What a session has counted so far. -/
def Session.emitted (s : Session α V σ) : Cost := s.context.stats.emitted

namespace Encode

variable {model : SolverModel α V σ} {t : Nat} {start : Option (ScoreTree α)}

theorem spends_emit {act : Emit α σ β} {cost : Cost} {post : β → Prop}
    (h : Spends Emission.emitted cost act post) :
    Spends Session.emitted cost (emit act : Encode α V σ β) post := by
  intro s b s' hrun
  unfold emit at hrun
  rcases hact : act ⟨s.solver, s.context.stats⟩ with ⟨result, e⟩
  rw [hact] at hrun
  cases hrun
  exact h ⟨s.solver, s.context.stats⟩ b e hact

theorem spends_takeLabel (role : VariableRole) (t : Nat) :
    Spends Session.emitted 0 (takeLabel role t : Encode α V σ String) fun _ => True := by
  rintro s _ _ ⟨⟩
  exact ⟨(add_zero _).symm, trivial⟩

theorem spends_context :
    Spends Session.emitted 0 (context : Encode α V σ (EncodingContext α V)) fun _ => True := by
  rintro s _ _ ⟨⟩
  exact ⟨(add_zero _).symm, trivial⟩

theorem spends_equalTo (role : VariableRole) (bounds : Bounds α) (value : LinearExpr α V) :
    Spends Session.emitted (1, 0, 1) (equalTo model role t bounds start value) fun _ => True :=
  ((spends_takeLabel role t).bind fun _ _ =>
    spends_emit ((Emit.spends_newVariable model _ .continuous _ _).bind fun _ _ =>
      (Emit.spends_call _).bind fun _ _ => (Emit.spends_countConstraints 1).bind fun _ _ =>
        .pure trivial)).of_eq rfl

theorem spends_predicate (source : Signal α) :
    Spends Session.emitted (1, 0, 1) (predicate model source t start) fun _ => True := by
  rw [predicate_eq]
  exact (spends_context.bind fun _ _ => (Spends.lift _).bind fun value _ =>
    spends_equalTo _ _ _).of_eq rfl

theorem spends_group (e : Extremum) (role : VariableRole) (operands : List (Encoded α V)) :
    Spends Session.emitted (groupCost operands.length) (group model e role t start operands)
      fun _ => True :=
  (spends_context.bind fun _ _ => (spends_takeLabel role t).bind fun _ _ =>
    spends_emit (e.spends_emit model _ operands _ start)).of_eq (by simp)

theorem spends_minimaAfter (before : Encoded α V) (operands : List (Encoded α V)) :
    Spends Session.emitted (operands.length • groupCost 2) (minimaAfter model t before operands)
      fun minima => minima.length = operands.length := by
  induction operands generalizing before with
  | nil =>
    rw [List.length_nil, zero_nsmul]
    exact .pure rfl
  | cons operand rest ih =>
    rw [List.length_cons, succ_nsmul', ← add_zero (rest.length • groupCost 2)]
    refine (spends_group .min .untilBefore [before, operand]).bind fun minimum _ =>
      (ih minimum).bind fun others hothers => .pure ?_
    exact congrArg Nat.succ hothers

theorem spends_runningMinima (operands : List (Encoded α V)) :
    Spends Session.emitted ((operands.length - 1) • groupCost 2) (runningMinima model t operands)
      fun minima => minima.length = operands.length := by
  cases operands with
  | nil =>
    rw [List.length_nil, Nat.zero_sub, zero_nsmul]
    exact .pure rfl
  | cons operand rest =>
    rw [List.length_cons, Nat.add_sub_cancel, ← add_zero (rest.length • groupCost 2)]
    refine (spends_minimaAfter operand rest).bind fun minima hminima => .pure ?_
    exact congrArg Nat.succ hminima

/-- The candidates that have left operands before them, of `candidates` in a row after the first
`skipped` indices: all of them, but for one at the anchor itself. -/
def laterCandidates (skipped candidates : ℕ) : ℕ :=
  if skipped = 0 then candidates - 1 else candidates

/-- A candidate without left operands before it is its right operand. -/
def termCost (term : Encoded α V × Option (Encoded α V)) : Cost :=
  if term.2.isSome then groupCost 2 else 0

omit [Scalar α] in
theorem sum_termCost_some {rights before : List (Encoded α V)}
    (hlength : rights.length ≤ before.length) :
    ((rights.zip (before.map some)).map termCost).sum = rights.length • groupCost 2 := by
  rw [List.sum_eq_card_nsmul _ (groupCost 2)]
  · simp [hlength]
  · intro cost hcost
    obtain ⟨term, hterm, rfl⟩ := List.mem_map.mp hcost
    obtain ⟨operand, -, hoperand⟩ := List.mem_map.mp (List.of_mem_zip hterm).2
    simp [termCost, ← hoperand]

omit [Scalar α] in
/-- Of the candidates only one at the anchor has no left operands before it. -/
theorem sum_termCost {skipped : ℕ} {rights minima : List (Encoded α V)}
    (hlength : rights.length + skipped = minima.length + 1) :
    ((rights.zip ((none :: minima.map some).drop skipped)).map termCost).sum =
      laterCandidates skipped rights.length • groupCost 2 := by
  cases skipped with
  | zero =>
    cases rights with
    | nil => cases hlength
    | cons right rest =>
      have hrest : rest.length ≤ minima.length := by
        simp only [List.length_cons] at hlength
        omega
      rw [List.drop_zero, List.zip_cons_cons, List.map_cons, List.sum_cons,
        sum_termCost_some hrest]
      exact zero_add _
  | succ skipped =>
    rw [List.drop_succ_cons, ← List.map_drop, sum_termCost_some]
    · rfl
    · rw [List.length_drop]
      omega

theorem spends_untilTerm (term : Encoded α V × Option (Encoded α V)) :
    Spends Session.emitted (termCost term) (untilTerm model t term) fun _ => True := by
  match term with
  | (right, none) => exact .pure trivial
  | (right, some before) => exact spends_group .min .untilTerm [right, before]

/-- **An until adds a group for every running minimum after the first, one for every candidate after
the anchor, and one for the best candidate.** -/
theorem spends_untilBest {skipped : ℕ} {rights lefts : List (Encoded α V)}
    (hlength : rights.length + skipped = lefts.length + 1) :
    Spends Session.emitted
      ((lefts.length - 1 + laterCandidates skipped rights.length) • groupCost 2 +
        groupCost rights.length)
      (untilBest model t skipped start rights lefts) fun _ => True := by
  rw [add_nsmul, add_assoc]
  refine (spends_runningMinima lefts).bind fun minima hminima => ?_
  rw [← hminima] at hlength
  rw [← sum_termCost hlength]
  refine (Spends.mapM fun term _ => spends_untilTerm term).bind fun terms hterms => ?_
  have hcount : terms.length = rights.length := by
    rw [hterms, List.length_zip, List.length_drop, List.length_cons, List.length_map]
    omega
  exact hcount ▸ spends_group .max .untilBest terms

end Encode

end SignalTemporalLogic
