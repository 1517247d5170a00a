import SignalTemporalLogic.Linear.Journal
import SignalTemporalLogic.Proofs.Evaluation
import SignalTemporalLogic.Proofs.Failures
import SignalTemporalLogic.Proofs.GuardedScores

/-!
The encoder with a guard before every step that may have nothing to go on with. An extreme of no
operands ends in a dead end here, not in a fault, and the operands of a window or of an until are
counted as they are visited, so that no index is taken from another one unless it has to be. No dead
end is ever reached: the guarded encoder is the encoder, and no encoding finds too few operands.
-/

namespace SignalTemporalLogic

namespace Guarded

variable {ε S β γ β' γ' : Type}

/-! ## Runs -/

/-- A computation that changes a state and may end in a dead end. -/
abbrev Run (ε S β : Type) := ExceptT (Halt ε) (StateM S) β

/-- A step that has no dead ends. -/
def step (act : ExceptT ε (StateM S) β) : Run ε S β := fun s => (lift (act s).1, (act s).2)

/-- Whatever the state is, both computations change it alike. They return related results, or fail
with one fault of the given kind. -/
def Follows (kind : ε → Prop) (R : β → γ → Prop) (act : ExceptT ε (StateM S) β)
    (guarded : Run ε S γ) : Prop :=
  ∀ s, EndAlike (fun e halt => kind e ∧ Passed e halt) R (act s).1 (guarded s).1 ∧
    (act s).2 = (guarded s).2

namespace Follows

variable {kind : ε → Prop} {R : β → γ → Prop} {Q : β' → γ' → Prop} {act : ExceptT ε (StateM S) β}
  {guarded : Run ε S γ}

theorem pure {b : β} {c : γ} (h : R b c) :
    Follows kind R (Pure.pure b : ExceptT ε (StateM S) β) (Pure.pure c) := fun _ => ⟨h, rfl⟩

theorem bind {next : β → ExceptT ε (StateM S) β'} {next' : γ → Run ε S γ'}
    (h : Follows kind R act guarded) (hnext : ∀ b c, R b c → Follows kind Q (next b) (next' c)) :
    Follows kind Q (act >>= next) (guarded >>= next') := by
  intro s
  obtain ⟨hends, hstate⟩ := h s
  rcases hact : act s with ⟨e | b, u⟩ <;> rcases hguarded : guarded s with ⟨halt | c, u'⟩ <;>
    rw [hact, hguarded] at hends hstate
  case error.error =>
    rw [RunLogic.run_bind_error hact, RunLogic.run_bind_error hguarded]
    exact ⟨hends, hstate⟩
  case ok.ok =>
    obtain rfl : u = u' := hstate
    rw [RunLogic.run_bind_ok next hact, RunLogic.run_bind_ok next' hguarded]
    exact hnext b c hends u
  all_goals exact hends.elim

theorem imp {R' : β → γ → Prop} (h : Follows kind R act guarded) (hR : ∀ b c, R b c → R' b c) :
    Follows kind R' act guarded := fun s => ⟨(h s).1.imp hR, (h s).2⟩

/-- What both do alike without a look at the state. -/
theorem lift {x : Except ε β} {x' : Except (Halt ε) γ} (h : EndAlike Passed R x x')
    (hkind : ∀ e, x = .error e → kind e) :
    Follows kind R (liftM x : ExceptT ε (StateM S) β) (liftM x' : Run ε S γ) := by
  intro s
  cases x <;> cases x'
  case error.error e halt => exact ⟨⟨hkind e rfl, h⟩, rfl⟩
  case ok.ok => exact ⟨h, rfl⟩
  all_goals exact h.elim

theorem step (h : FailsOnly kind act) : Follows kind Eq act (Guarded.step act) := by
  intro s
  refine ⟨?_, rfl⟩
  rcases hact : act s with ⟨e | b, u⟩ <;> simp only [Guarded.step, hact]
  · exact ⟨h s e (congrArg Prod.fst hact), rfl⟩
  · exact rfl

theorem mapM {δ δ' : Type} {visit : δ → ExceptT ε (StateM S) β} {visit' : δ' → Run ε S β}
    {items : List δ} {items' : List δ'}
    (h : List.Forall₂ (fun d d' => Follows kind Eq (visit d) (visit' d')) items items') :
    Follows kind (fun bs cs => bs = cs ∧ bs.length = items.length) (items.mapM visit)
      (items'.mapM visit') := by
  induction h with
  | nil => exact .pure ⟨rfl, rfl⟩
  | cons hfirst _ ih =>
    rw [List.mapM_cons, List.mapM_cons]
    refine hfirst.bind fun b _ hb => ih.bind fun bs _ ⟨hbs, hlength⟩ => ?_
    exact .pure ⟨by rw [hb, hbs], congrArg Nat.succ hlength⟩

/-- The computations are one, and it has no other faults. -/
theorem eq_step {guarded : Run ε S β} (h : Follows kind Eq act guarded) :
    guarded = Guarded.step act ∧ FailsOnly kind act := by
  constructor
  · funext s
    obtain ⟨hends, hstate⟩ := h s
    rcases hact : act s with ⟨e | b, u⟩ <;> rcases hguarded : guarded s with ⟨halt | c, u'⟩ <;>
      rw [hact, hguarded] at hends hstate <;> obtain rfl : u = u' := hstate <;>
      simp only [Guarded.step, hact]
    case error.error => exact Prod.ext (congrArg Except.error hends.2) rfl
    case ok.ok => exact Prod.ext (congrArg Except.ok (Eq.symm hends)) rfl
    all_goals exact hends.elim
  · intro s e he
    have hends := (h s).1
    rw [he] at hends
    cases hguarded : (guarded s).1 with
    | ok => rw [hguarded] at hends; exact hends.elim
    | error => rw [hguarded] at hends; exact hends.1

end Follows

/-! ## Visits of ranges -/

/-- The positions of the indices of a range. -/
theorem zipIdx_range' (first count position : Nat) :
    (List.range' first count).zipIdx position =
      (List.range' first count).map fun u => (u, position + (u - first)) :=
  List.ext_getElem (by simp) fun k _ _ => by simp

theorem mapRange_follows {kind : ε → Prop} {visit : Nat → ExceptT ε (StateM S) β}
    {visit' : Nat × Nat → Run ε S β} {first count : Nat} (position : Nat)
    (h : ∀ u, first ≤ u → u < first + count →
      Follows kind Eq (visit u) (visit' (u, position + (u - first)))) :
    Follows kind (fun bs cs => bs = cs ∧ bs.length = count) (Index.mapRangeM visit first count)
      (((List.range' first count).zipIdx position).mapM visit') := by
  rw [Index.mapRangeM_eq_mapM, zipIdx_range', List.mapM_map]
  refine (Follows.mapM (List.forall₂_same.mpr fun u hu => ?_)).imp fun bs cs ⟨heq, hlength⟩ =>
    ⟨heq, hlength.trans List.length_range'⟩
  obtain ⟨hlow, hhigh⟩ := List.mem_range'_1.mp hu
  exact h u hlow hhigh

theorem mapWindow_follows {kind : ε → Prop} {visit : Nat → ExceptT ε (StateM S) β}
    {visit' : Nat × Nat → Run ε S β} {w : Window}
    (h : ∀ u ∈ w, Follows kind Eq (visit u) (visit' (u, u - w.first))) :
    Follows kind (fun bs cs => bs = cs ∧ bs.length = w.size) (w.mapM visit)
      ((ends w).indices.zipIdx.mapM visit') := by
  rw [Window.mapM, indices_ends]
  refine mapRange_follows 0 fun u hlow hhigh => ?_
  rw [Nat.zero_add]
  exact h u (Window.mem_iff.mpr ⟨hlow, hhigh⟩)

/-! ## Groups -/

section Encoder

variable {α V σ : Type} [Scalar α]

/-- A guarded computation in a session. -/
abbrev Encoding (α V σ β : Type) [Scalar α] := Run (Fault α) (Session α V σ) β

/-- Emits into the model of the session. -/
def emit (act : Run (Fault α) (Emission σ) β) : Encoding α V σ β := fun s =>
  match act ⟨s.solver, s.context.stats⟩ with
  | (result, e) => (result, { solver := e.solver, context := { s.context with stats := e.stats } })

/-- Adds the extreme of the operands to the model. All selectors but one are one. -/
def emitExtreme (e : Extremum) (model : SolverModel α V σ) (label : String)
    (operands : List (Encoded α V)) (bigM : BigM α) (start : Option (ScoreTree α)) :
    Run (Fault α) (Emission σ) (Encoded α V) :=
  match operands with
  | [] => throw (.deadEnd .noOperands)
  | [single] => return single
  | _ => do
    let bounds := operands.map Encoded.bounds
    let m ← lift (bigM.resolve bounds)
    let result := e.boundsOf bounds
    let r ← step (Emit.newVariable model label .continuous result (start.map ScoreTree.score))
    let selectors ←
      step (Extremum.emitSelectors model label (start.bind ScoreTree.chosen) 0 operands.length)
    step ((operands.zip selectors).forM fun (operand, selector) =>
      e.emitPair model m r operand.var selector)
    let others ← difference operands.length 1
    step (Emit.call (model.addConstraint (.sum selectors) .equal
      (.ofConstant (Scalar.ofNat others))))
    step (Emit.countConstraints 1)
    return ⟨r, result⟩

def group (model : SolverModel α V σ) (e : Extremum) (role : VariableRole) (t : Nat)
    (start : Option (ScoreTree α)) (operands : List (Encoded α V)) :
    Encoding α V σ (Encoded α V) := do
  let bigM := (← step Encode.context).settings.bigM
  let label ← step (Encode.takeLabel role t)
  emit (emitExtreme e model label operands bigM start)

theorem emit_follows {kind : Fault α → Prop} {act : Emit α σ β}
    {guarded : Run (Fault α) (Emission σ) β} (h : Follows kind Eq act guarded) :
    Follows kind Eq (Encode.emit act : Encode α V σ β) (emit guarded) := by
  intro s
  obtain ⟨hends, hstate⟩ := h ⟨s.solver, s.context.stats⟩
  exact ⟨hends, congrArg (fun e : Emission σ =>
    (⟨e.solver, { s.context with stats := e.stats }⟩ : Session α V σ)) hstate⟩

/-- A group that has operands leads to no dead end, and only a constant or the model can be at
fault. -/
theorem emitExtreme_follows {e : Extremum} {model : SolverModel α V σ} {label : String}
    {operands : List (Encoded α V)} {bigM : BigM α} {start : Option (ScoreTree α)}
    (hne : operands ≠ []) :
    Follows (¬ ·.IsArity) Eq (e.emit model label operands bigM start)
      (emitExtreme e model label operands bigM start) := by
  have hmodel := model.refusesOnly_not_isArity
  match operands with
  | [] => exact absurd rfl hne
  | [single] => exact .pure rfl
  | first :: second :: rest =>
    rw [Extremum.emit_eq model (by simp), emitExtreme]
    · simp only [difference_eq (show 1 ≤ (first :: second :: rest).length by simp), pure_bind]
      refine (Follows.lift (lift_alike _) fun _ => BigM.not_isArity_of_resolve).bind
        fun m _ hm => ?_
      refine (Follows.step (newVariable_failsOnly hmodel _ _ _ _)).bind fun r _ hr => ?_
      refine (Follows.step (emitSelectors_failsOnly hmodel _ _ _ _)).bind fun selectors _ hs => ?_
      subst hm hr hs
      refine (Follows.step (FailsOnly.forM (fun _ => emitPair_failsOnly hmodel _ _ _ _ _) _)).bind
        fun _ _ _ => ?_
      refine (Follows.step (FailsOnly.call (hmodel.addConstraint _ _ _))).bind fun _ _ _ => ?_
      exact (Follows.step (FailsOnly.update _)).bind fun _ _ _ => .pure rfl
    all_goals simp

theorem group_follows {model : SolverModel α V σ} {e : Extremum} {role : VariableRole} {t : Nat}
    {start : Option (ScoreTree α)} {operands : List (Encoded α V)} (hne : operands ≠ []) :
    Follows (¬ ·.IsArity) Eq (Encode.group model e role t start operands)
      (group model e role t start operands) := by
  refine (Follows.step FailsOnly.context).bind fun ctx _ hctx => ?_
  refine (Follows.step (FailsOnly.takeLabel role t)).bind fun label _ hlabel => ?_
  subst hctx hlabel
  exact emit_follows (emitExtreme_follows hne)

theorem groupOf_follows {model : SolverModel α V σ} {e : Extremum} {role : VariableRole} {t : Nat}
    {start : Option (ScoreTree α)} {act : Encode α V σ (List (Encoded α V))}
    {guarded : Encoding α V σ (List (Encoded α V))}
    (h : Follows (¬ ·.IsArity) (fun bs cs => bs = cs ∧ bs ≠ []) act guarded) :
    Follows (¬ ·.IsArity) Eq (do Encode.group model e role t start (← act))
      (do group model e role t start (← guarded)) :=
  h.bind fun _ _ ⟨heq, hne⟩ => heq ▸ group_follows hne

/-! ## Untils -/

def minimaAfter (model : SolverModel α V σ) (t : Nat) (before : Encoded α V) :
    List (Encoded α V) → Encoding α V σ (List (Encoded α V))
  | [] => return []
  | operand :: rest => do
    let minimum ← group model .min .untilBefore t none [before, operand]
    return minimum :: (← minimaAfter model t minimum rest)

def runningMinima (model : SolverModel α V σ) (t : Nat) :
    List (Encoded α V) → Encoding α V σ (List (Encoded α V))
  | [] => return []
  | operand :: rest => return operand :: (← minimaAfter model t operand rest)

/-- The candidate `u` of an until at `t`. The running minima start at `t`, so the two indices tell
which of them is the one over all that lies before the candidate. -/
def encodeTerm (model : SolverModel α V σ) (t : Nat) (minima : List (Encoded α V)) (u : Nat)
    (right : Encoded α V) : Encoding α V σ (Encoded α V) :=
  if u = t then return right
  else do
    let before ← element minima (← difference (← difference u t) 1)
    group model .min .untilTerm t none [right, before]

def untilBest (model : SolverModel α V σ) (t : Nat) (start : Option (ScoreTree α))
    (candidates : List Nat) (rights lefts : List (Encoded α V)) :
    Encoding α V σ (Encoded α V) := do
  let minima ← runningMinima model t lefts
  let terms ← (candidates.zip rights).mapM fun (u, right) => encodeTerm model t minima u right
  group model .max .untilBest t start terms

theorem minimaAfter_follows {model : SolverModel α V σ} {t : Nat} {before : Encoded α V}
    (operands : List (Encoded α V)) :
    Follows (¬ ·.IsArity) (fun bs cs => bs = cs ∧ bs.length = operands.length)
      (Encode.minimaAfter model t before operands) (minimaAfter model t before operands) := by
  induction operands generalizing before with
  | nil => exact .pure ⟨rfl, rfl⟩
  | cons operand rest ih =>
    refine (group_follows (by simp)).bind fun minimum _ hminimum => ?_
    subst hminimum
    refine ih.bind fun others _ ⟨hothers, hlength⟩ => ?_
    exact .pure ⟨by rw [hothers], congrArg Nat.succ hlength⟩

theorem runningMinima_follows {model : SolverModel α V σ} {t : Nat}
    (operands : List (Encoded α V)) :
    Follows (¬ ·.IsArity) (fun bs cs => bs = cs ∧ bs.length = operands.length)
      (Encode.runningMinima model t operands) (runningMinima model t operands) := by
  cases operands with
  | nil => exact .pure ⟨rfl, rfl⟩
  | cons operand rest =>
    refine (minimaAfter_follows rest).bind fun others _ ⟨hothers, hlength⟩ => ?_
    exact .pure ⟨by rw [hothers], congrArg Nat.succ hlength⟩

/-- Whatever lies before a candidate has a running minimum, unless nothing does. -/
theorem encodeTerm_follows {model : SolverModel α V σ} {t u : Nat} {minima : List (Encoded α V)}
    {right : Encoded α V} {before : Option (Encoded α V)} (htu : t ≤ u)
    (hbefore : (none :: minima.map some)[u - t]? = some before) :
    Follows (¬ ·.IsArity) Eq (Encode.untilTerm model t (right, before))
      (encodeTerm model t minima u right) := by
  unfold encodeTerm
  by_cases hu : u = t
  · subst hu
    rw [Nat.sub_self, List.getElem?_cons_zero, Option.some.injEq] at hbefore
    subst hbefore
    rw [if_pos rfl]
    exact .pure rfl
  · obtain ⟨j, hj⟩ : ∃ j, u - t = j + 1 := ⟨u - t - 1, by omega⟩
    rw [hj, List.getElem?_cons_succ, List.getElem?_map, Option.map_eq_some_iff] at hbefore
    obtain ⟨minimum, hminimum, rfl⟩ := hbefore
    obtain ⟨hinside, rfl⟩ := List.getElem?_eq_some_iff.mp hminimum
    rw [if_neg hu, difference_eq htu, pure_bind, hj, difference_eq (by omega), pure_bind,
      Nat.add_sub_cancel, element_eq hinside, pure_bind]
    exact group_follows (by simp)

theorem untilBest_follows {model : SolverModel α V σ} {t : Nat} {w : Window}
    {start : Option (ScoreTree α)} {rights lefts : List (Encoded α V)} (hfirst : t ≤ w.first)
    (hrights : rights.length = w.size) (hlefts : lefts.length = w.last - t) :
    Follows (¬ ·.IsArity) Eq (Encode.untilBest model t (w.first - t) start rights lefts)
      (untilBest model t start (ends w).indices rights lefts) := by
  have hle := w.first_le_last
  refine (runningMinima_follows lefts).bind fun minima _ ⟨heq, hminima⟩ => ?_
  subst heq
  have hterms : List.Forall₂ (fun term candidate => Follows (¬ ·.IsArity) Eq
        (Encode.untilTerm model t term) (encodeTerm model t minima candidate.1 candidate.2))
      (rights.zip ((none :: minima.map some).drop (w.first - t)))
      ((ends w).indices.zip rights) := by
    rw [indices_ends]
    refine List.forall₂_iff_get.mpr ⟨?_, fun k h h' => ?_⟩
    · simp only [List.length_zip, List.length_drop, List.length_cons, List.length_map,
        List.length_range', hminima, hlefts, hrights, Window.size]
      omega
    · -- Candidate number `k` is `w.first + k`, and `w.first - t + k` left operands lie before it.
      simp only [List.get_eq_getElem, List.getElem_zip, List.getElem_drop, List.getElem_range']
      refine encodeTerm_follows (by omega) (List.getElem?_eq_some_iff.mpr ⟨?_, ?_⟩)
      · simp only [List.length_zip, List.length_drop, List.length_cons, List.length_map] at h
        simp only [List.length_cons, List.length_map]
        omega
      · congr 1
        omega
  refine (Follows.mapM hterms).bind fun terms _ ⟨heq, hlength⟩ => ?_
  subst heq
  refine group_follows (ne_nil_of_size w ?_)
  rw [hlength, hterms.length_eq, List.length_zip, hrights, indices_ends, List.length_range',
    Nat.min_self]

/-! ## Formulas -/

def memoized (f : Formula α) (t : Nat) (encode : Encoding α V σ (Encoded α V)) :
    Encoding α V σ (Encoded α V) := do
  match (← step Encode.context).encoded? f t with
  | some hit =>
    step (Encode.modifyContext .countHit)
    return hit
  | none =>
    let encoded ← encode
    step (Encode.modifyContext (·.remember f t encoded))
    return encoded

/-- The window of an interval at an index of the session's horizon. -/
def sessionWindow (interval : TimeInterval α) (t : Nat) : Encoding α V σ Span := do
  let settings := (← step Encode.context).settings
  window settings.policy interval settings.spacing t settings.horizon

def sessionNextWindow (t : Nat) : Encoding α V σ Span := do
  let settings := (← step Encode.context).settings
  (offsets settings.policy t 1 1 settings.horizon : Except (Halt (Fault α)) Span)

mutual

/-- The variable of the formula at index `t`. -/
def formula (model : SolverModel α V σ) :
    Formula α → Nat → Option (ScoreTree α) → Encoding α V σ (Encoded α V)
  | f@(.predicate _ signal), t, start =>
    memoized f t (step (Encode.predicate model signal t start))
  | f@(.not _ (.not _ arg)), t, start =>
    memoized f t (formula model arg t (startAt (startAt start 0) 0))
  | f@(.not _ arg), t, start =>
    memoized f t do
      let operand ← formula model arg t (startAt start 0)
      step (Encode.negation model t start operand)
  | f@(.and _ args), t, start =>
    memoized f t do
      group model .min .and t start (← operands model args t start 0)
  | f@(.or _ args), t, start =>
    memoized f t do
      group model .max .or t start (← operands model args t start 0)
  | f@(.always _ interval arg), t, start =>
    memoized f t do
      let w ← sessionWindow interval t
      let scores ← w.indices.zipIdx.mapM fun (u, k) => formula model arg u (startAt start k)
      group model .min .always t start scores
  | f@(.eventually _ interval arg), t, start =>
    memoized f t do
      let w ← sessionWindow interval t
      let scores ← w.indices.zipIdx.mapM fun (u, k) => formula model arg u (startAt start k)
      group model .max .eventually t start scores
  | f@(.holdsUntil _ interval left right), t, start =>
    memoized f t do
      let w ← sessionWindow interval t
      let rights ← w.indices.zipIdx.mapM fun (u, k) => formula model right u (startAt start k)
      let lefts ← ((List.range' t (w.last - t)).zipIdx rights.length).mapM
        fun (u, k) => formula model left u (startAt start k)
      untilBest model t start w.indices rights lefts
  | f@(.next _ arg), t, start =>
    memoized f t do
      let w ← sessionNextWindow t
      formula model arg w.first (startAt start 0)

/-- The variables of the operands at index `t`, the first of which has position `i`. -/
def operands (model : SolverModel α V σ) :
    Operands α → Nat → Option (ScoreTree α) → Nat → Encoding α V σ (List (Encoded α V))
  | .pair first second, t, start, i => do
    let x ← formula model first t (startAt start i)
    let y ← formula model second t (startAt start (i + 1))
    return [x, y]
  | .cons first rest, t, start, i => do
    let x ← formula model first t (startAt start i)
    let others ← operands model rest t start (i + 1)
    return x :: others

end

def encodeAt (model : SolverModel α V σ) (f : Formula α) (anchor : Nat)
    (start : Option (ScoreTree α)) : Encoding α V σ V := do
  step (Encode.checkIndex anchor)
  return (← formula model f anchor start).var

theorem memoized_follows {kind : Fault α → Prop} {f : Formula α} {t : Nat}
    {encode : Encode α V σ (Encoded α V)} {encode' : Encoding α V σ (Encoded α V)}
    (h : Follows kind Eq encode encode') :
    Follows kind Eq (Encode.memoized f t encode) (memoized f t encode') := by
  refine (Follows.step FailsOnly.context).bind fun ctx _ hctx => ?_
  subst hctx
  cases ctx.encoded? f t with
  | some hit => exact (Follows.step (FailsOnly.update _)).bind fun _ _ _ => .pure rfl
  | none =>
    refine h.bind fun encoded _ hencoded => ?_
    subst hencoded
    exact (Follows.step (FailsOnly.update _)).bind fun _ _ _ => .pure rfl

theorem sessionWindow_follows {interval : TimeInterval α} {t : Nat} (ht : t ≤ Index.last) :
    Follows (¬ ·.IsArity) (Framed t) (Encode.window interval t : Encode α V σ Window)
      (sessionWindow interval t) := by
  refine (Follows.step FailsOnly.context).bind fun ctx _ hctx => ?_
  subst hctx
  exact .lift (window_alike ht) fun _ => WindowPolicy.not_isArity_of_window

theorem sessionNextWindow_follows {t : Nat} (ht : t ≤ Index.last) :
    Follows (¬ ·.IsArity) (Framed t) (Encode.nextWindow t : Encode α V σ Window)
      (sessionNextWindow t) := by
  refine (Follows.step FailsOnly.context).bind fun ctx _ hctx => ?_
  subst hctx
  exact .lift (offsets_alike ht) fun _ => WindowPolicy.not_isArity_of_offsets

/-- All that is visited lies between the anchor and the last index. -/
theorem groupWindow_follows {model : SolverModel α V σ} {e : Extremum} {role : VariableRole}
    {interval : TimeInterval α} {t : Nat} {start : Option (ScoreTree α)}
    (visit : Nat → Nat → Encode α V σ (Encoded α V))
    {visit' : Nat × Nat → Encoding α V σ (Encoded α V)} (ht : t ≤ Index.last)
    (h : ∀ u k, u ≤ Index.last → Follows (¬ ·.IsArity) Eq (visit u k) (visit' (u, k))) :
    Follows (¬ ·.IsArity) Eq
      (do
        let w ← Encode.window interval t
        let scores ← w.mapM fun u => visit u (u - w.first)
        Encode.group model e role t start scores)
      (do
        let w ← sessionWindow interval t
        let scores ← w.indices.zipIdx.mapM visit'
        group model e role t start scores) := by
  refine (sessionWindow_follows ht).bind fun w _ hframed => ?_
  obtain ⟨rfl, -, hlast⟩ := hframed
  have hvisits := mapWindow_follows fun u hu => h u (u - w.first) (hu.2.trans hlast)
  exact groupOf_follows (hvisits.imp fun _ _ hsized => ⟨hsized.1, ne_nil_of_size w hsized.2⟩)

mutual

/- What is carried from a node to the nodes below it is only that the anchor is an index: a window
begins at its anchor or later and ends at an index. -/
theorem formula_follows (model : SolverModel α V σ) :
    ∀ (f : Formula α) (t : Nat) (start : Option (ScoreTree α)), t ≤ Index.last →
      Follows (¬ ·.IsArity) Eq (Encode.formula model f t start) (formula model f t start)
  | .predicate _ signal, t, start, _ => by
    rw [Encode.formula, formula]
    exact memoized_follows (.step (predicate_not_isArity model signal t start))
  | .not _ arg, t, start, ht => by
    cases arg with
    | not _ inner =>
      rw [Encode.formula, formula]
      exact memoized_follows (formula_follows model inner t _ ht)
    | predicate | and | or | always | eventually | holdsUntil | next =>
      rw [Encode.formula, formula]
      · refine memoized_follows ((formula_follows model _ t _ ht).bind fun x _ hx => ?_)
        subst hx
        exact .step (equalTo_failsOnly model.refusesOnly_not_isArity _ _ _ _ _)
      all_goals rintro _ _ ⟨⟩
  | .and _ args, t, start, ht => by
    rw [Encode.formula, formula]
    exact memoized_follows (groupOf_follows (operands_follows model args t start 0 ht))
  | .or _ args, t, start, ht => by
    rw [Encode.formula, formula]
    exact memoized_follows (groupOf_follows (operands_follows model args t start 0 ht))
  | .always _ interval arg, t, start, ht => by
    rw [Encode.formula, formula]
    exact memoized_follows (groupWindow_follows
      (fun u k => Encode.formula model arg u (startAt start k)) ht
      fun u k hu => formula_follows model arg u (startAt start k) hu)
  | .eventually _ interval arg, t, start, ht => by
    rw [Encode.formula, formula]
    exact memoized_follows (groupWindow_follows
      (fun u k => Encode.formula model arg u (startAt start k)) ht
      fun u k hu => formula_follows model arg u (startAt start k) hu)
  | .holdsUntil _ interval left right, t, start, ht => by
    rw [Encode.formula, formula]
    refine memoized_follows ((sessionWindow_follows ht).bind fun w _ ⟨hw, hfirst, hlast⟩ => ?_)
    subst hw
    refine (mapWindow_follows fun u hu => formula_follows model right u _ (hu.2.trans hlast)).bind
      fun rights _ ⟨hr, hrights⟩ => ?_
    subst hr
    refine (mapRange_follows rights.length fun u hu hv => ?_).bind fun lefts _ ⟨hl, hlefts⟩ => ?_
    · rw [hrights]
      exact formula_follows model left u _ (by simp only [ends] at *; omega)
    · subst hl
      exact untilBest_follows hfirst hrights hlefts
  | .next _ arg, t, start, ht => by
    rw [Encode.formula, formula]
    refine memoized_follows ((sessionNextWindow_follows ht).bind fun w _ ⟨hw, _, hlast⟩ => ?_)
    subst hw
    exact formula_follows model arg w.first _ (w.first_le_last.trans hlast)

theorem operands_follows (model : SolverModel α V σ) :
    ∀ (args : Operands α) (t : Nat) (start : Option (ScoreTree α)) (i : Nat), t ≤ Index.last →
      Follows (¬ ·.IsArity) (fun bs cs => bs = cs ∧ bs ≠ [])
        (Encode.operands model args t start i) (operands model args t start i)
  | .pair first second, t, start, i, ht => by
    rw [Encode.operands, operands]
    refine (formula_follows model first t _ ht).bind fun _ _ hx => ?_
    exact (formula_follows model second t _ ht).bind fun _ _ hy => .pure ⟨by rw [hx, hy], by simp⟩
  | .cons first rest, t, start, i, ht => by
    rw [Encode.operands, operands]
    refine (formula_follows model first t _ ht).bind fun _ _ hx => ?_
    exact (operands_follows model rest t _ _ ht).bind fun _ _ hy =>
      .pure ⟨by rw [hx, hy.1], by simp⟩

end

theorem encodeAt_follows (model : SolverModel α V σ) (f : Formula α) {anchor : Nat}
    (start : Option (ScoreTree α)) (hanchor : anchor ≤ Index.last) :
    Follows (¬ ·.IsArity) Eq (f.encodeAt model anchor start) (encodeAt model f anchor start) := by
  refine (Follows.step (checkIndex_not_isArity anchor)).bind fun _ _ _ => ?_
  exact (formula_follows model f anchor start hanchor).bind fun _ _ h => .pure (h ▸ rfl)

/-- **The tree builder and the encoder reach no dead end.** Wherever they are anchored, the guards
change nothing: every extreme is taken of something, every index is subtracted from one that is as
large, and every position lies inside its list. So no encoding finds too few operands. -/
theorem folds_reach_no_deadEnd (policy : WindowPolicy) (x : Trajectory α)
    (model : SolverModel α V σ) (f : Formula α) (start : Option (ScoreTree α)) {anchor : Nat}
    (hanchor : anchor ≤ Index.last) :
    (robustnessTree policy x f anchor = lift (f.robustnessTree policy x anchor) ∧
      ∀ reason, robustnessTree policy x f anchor ≠ .error (.deadEnd reason)) ∧
    (encodeAt model f anchor start = step (f.encodeAt model anchor start) ∧
      ∀ s reason, (encodeAt model f anchor start s).1 ≠ .error (.deadEnd reason)) ∧
    ∀ s operator expected found,
      (f.encodeAt model anchor start s).1 ≠ .error (.arity operator expected found) := by
  obtain ⟨hencode, harity⟩ := (encodeAt_follows model f start hanchor).eq_step
  have htree : robustnessTree policy x f anchor = lift (f.robustnessTree policy x anchor) :=
    robustnessTree_eq f hanchor
  refine ⟨⟨htree, fun reason => ?_⟩, ⟨hencode, fun s reason => ?_⟩, fun s _ _ _ h => ?_⟩
  · rw [htree]
    exact lift_ne_deadEnd
  · rw [hencode]
    exact lift_ne_deadEnd
  · exact harity s _ h trivial

end Encoder

/-- A session over a journal, with a variable for each of four samples, that clips windows. -/
def fourSampleSession : Session Exact String (Journal Exact) where
  solver := #[]
  context := [0, 1, 2, 3].foldl (fun ctx i => ctx.bind ⟨"x", i⟩ s!"x[{i}]")
    { settings := ⟨.constant (.fin 10), 4, .fin 1, .clamp, "stl"⟩ }

/-- An until whose window is clipped to the last sample, after one score of the left operand. Both
runs return. -/
theorem folds_reach_no_deadEnd_of_lateSwitch :
    2 ≤ Index.last ∧
    ((robustnessTree .clamp fourSamples lateSwitch 2 =
        lift (lateSwitch.robustnessTree .clamp fourSamples 2) ∧
      ∀ reason, robustnessTree .clamp fourSamples lateSwitch 2 ≠ .error (.deadEnd reason)) ∧
    (encodeAt (Journal.solver ⟨true, none, none⟩) lateSwitch 2 none =
        step (lateSwitch.encodeAt (Journal.solver ⟨true, none, none⟩) 2 none) ∧
      ∀ s reason, (encodeAt (Journal.solver ⟨true, none, none⟩) lateSwitch 2 none s).1 ≠
        .error (.deadEnd reason)) ∧
    ∀ s operator expected found,
      (lateSwitch.encodeAt (Journal.solver ⟨true, none, none⟩) 2 none s).1 ≠
        .error (.arity operator expected found)) ∧
    (robustnessTree .clamp fourSamples lateSwitch 2).isOk = true ∧
    (encodeAt (Journal.solver ⟨true, none, none⟩) lateSwitch 2 none fourSampleSession).1.isOk =
      true :=
  ⟨by decide, folds_reach_no_deadEnd .clamp fourSamples (Journal.solver ⟨true, none, none⟩)
    lateSwitch none (by decide), by decide +kernel, by decide +kernel⟩

end Guarded

end SignalTemporalLogic
