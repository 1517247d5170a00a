import SignalTemporalLogic.Proofs.Metering
import SignalTemporalLogic.Proofs.Repetitions

/-!
The two window policies side by side. They differ only in what becomes of a window that runs past
the last sample. Where the strict policy finds nothing to refuse there is nothing to clip, so
clipping gives the same windows, and with them the same values, the same score trees and the same
encodings.
-/

namespace SignalTemporalLogic

/-! ## Windows -/

theorem WindowPolicy.resolve_clamp {anchor lo hi length : Nat} {w : Window}
    (h : strict.resolve anchor lo hi length = .ok w) :
    clamp.resolve anchor lo hi length = .ok w := by
  unfold resolve at h ⊢
  by_cases ordered : lo ≤ hi
  · have hle := Index.saturatingAdd_mono (Nat.le_refl anchor) ordered
    by_cases outside : length ≤ Index.saturatingAdd anchor hi
    · simp [ordered, outside] at h
    · have hstart : ¬ length ≤ Index.saturatingAdd anchor lo := by omega
      have hend : min (Index.saturatingAdd anchor hi) (length - 1) =
          Index.saturatingAdd anchor hi := by omega
      simpa [ordered, outside, hstart, hend] using h
  · simp [ordered] at h

variable {α : Type} [Scalar α]

theorem WindowPolicy.window_clamp {interval : TimeInterval α} {spacing : α} {anchor length : Nat}
    {w : Window} (h : strict.window interval spacing anchor length = .ok w) :
    clamp.window interval spacing anchor length = .ok w := by
  obtain ⟨lo, hi, hoffsets, hresolve⟩ := window_eq_ok.mp h
  exact window_eq_ok.mpr ⟨lo, hi, hoffsets, resolve_clamp hresolve⟩

theorem WindowPolicy.offsets_clamp {anchor lo hi length : Nat} {w : Window}
    (h : (strict.offsets anchor lo hi length : Except (Fault α) Window) = .ok w) :
    (clamp.offsets anchor lo hi length : Except (Fault α) Window) = .ok w :=
  offsets_eq_ok.mpr (resolve_clamp (offsets_eq_ok.mp h))

/-! ## Evaluation -/

omit [Scalar α] in
theorem Trajectory.mirrors_clamp (x : Trajectory α) : x.Mirrors .strict .clamp x 0 0 where
  spacing_eq := rfl
  resolve {i j _ _ w} hij hw := by
    obtain rfl : i = j := hij
    exact ⟨w, WindowPolicy.resolve_clamp hw, rfl, rfl⟩

theorem Signal.repeatedIn_self (x : Trajectory α) (signal : Signal α) :
    signal.RepeatedIn x x 0 0 := by
  intro u v huv
  obtain rfl : u = v := huv
  exact .refl _

/-! ## Encodings -/

section Encodings

variable {V σ β γ : Type}

def EncodingSettings.withPolicy (settings : EncodingSettings α) (policy : WindowPolicy) :
    EncodingSettings α :=
  { settings with policy }

/-- The context under another policy. -/
def EncodingContext.withPolicy (ctx : EncodingContext α V) (policy : WindowPolicy) :
    EncodingContext α V :=
  { ctx with settings := ctx.settings.withPolicy policy }

def Session.withPolicy (s : Session α V σ) (policy : WindowPolicy) : Session α V σ :=
  { s with context := s.context.withPolicy policy }

/-- The plan under the strict policy is the plan under the other one. -/
theorem Formula.plan_clamp {settings : EncodingSettings α} (hpolicy : settings.policy = .strict)
    {f : Formula α} {t : Nat} {start : Option (ScoreTree α)} {plan : Plan α}
    (h : f.plan settings t start = .ok plan) :
    f.plan (settings.withPolicy .clamp) t start = .ok plan := by
  cases f with
  | predicate | and | or => exact h
  | not _ arg => cases arg <;> exact h
  | always | eventually | holdsUntil =>
    obtain ⟨w, hw, h⟩ := Except.bind_eq_ok.mp h
    rw [hpolicy] at hw
    exact Except.bind_eq_ok.mpr ⟨w, WindowPolicy.window_clamp hw, h⟩
  | next =>
    obtain ⟨w, hw, h⟩ := Except.bind_eq_ok.mp h
    rw [hpolicy] at hw
    exact Except.bind_eq_ok.mpr ⟨w, WindowPolicy.offsets_clamp hw, h⟩

namespace Encode

/-- What the first computation returns under the strict policy, the second one returns under the
other policy, and it leaves the same session but for the policy. -/
def ClampExtends (act act' : Encode α V σ β) : Prop :=
  ∀ s b s', s.context.settings.policy = .strict → act s = (.ok b, s') →
    s'.context.settings.policy = .strict ∧
      act' (s.withPolicy .clamp) = (.ok b, s'.withPolicy .clamp)

namespace ClampExtends

variable {act act' : Encode α V σ β}

theorem lift {x x' : Except (Fault α) β} (h : Repeats x x') :
    ClampExtends (liftM x : Encode α V σ β) (liftM x') := by
  intro s b s' hpolicy hrun
  cases x with
  | error e => cases hrun
  | ok c =>
    cases hrun
    rw [h b rfl]
    exact ⟨hpolicy, rfl⟩

theorem pure (b : β) : ClampExtends (Pure.pure b : Encode α V σ β) (Pure.pure b) :=
  lift (.refl (.ok b))

theorem bind {next next' : β → Encode α V σ γ} (h : ClampExtends act act')
    (hnext : ∀ b, ClampExtends (next b) (next' b)) :
    ClampExtends (act >>= next) (act' >>= next') := by
  intro s c s' hpolicy hrun
  rcases hact : act s with ⟨e | b, u⟩
  · rw [RunLogic.run_bind_error hact] at hrun
    cases hrun
  · rw [RunLogic.run_bind_ok next hact] at hrun
    obtain ⟨hu, hact'⟩ := h s b u hpolicy hact
    obtain ⟨hs', hnext'⟩ := hnext b u c s' hu hrun
    exact ⟨hs', (RunLogic.run_bind_ok next' hact').trans hnext'⟩

theorem mapM {visit visit' : γ → Encode α V σ β} {items : List γ}
    (h : ∀ d ∈ items, ClampExtends (visit d) (visit' d)) :
    ClampExtends (items.mapM visit) (items.mapM visit') := by
  induction items with
  | nil => exact pure []
  | cons d items ih =>
    rw [List.mapM_cons, List.mapM_cons]
    refine (h d (by simp)).bind fun b => ?_
    exact (ih fun d' hd' => h d' (by simp [hd'])).bind fun bs => pure (b :: bs)

/-- What follows may depend on the context, which is under the one policy or the other. -/
theorem withContext {next next' : EncodingContext α V → Encode α V σ β}
    (h : ∀ ctx, ctx.settings.policy = .strict →
      ClampExtends (next ctx) (next' (ctx.withPolicy .clamp))) :
    ClampExtends (context >>= next) (context >>= next') :=
  fun s b s' hpolicy hrun => h s.context hpolicy s b s' hpolicy hrun

/-- A change of the context that neither sees nor touches the policy. -/
theorem modifyContext (change : EncodingContext α V → EncodingContext α V)
    (h : ∀ ctx policy, change (ctx.withPolicy policy) = (change ctx).withPolicy policy) :
    ClampExtends (modifyContext change : Encode α V σ Unit) (modifyContext change) := by
  intro s b s' hpolicy hrun
  cases hrun
  have hstrict : s.context.withPolicy .strict = s.context := by
    rw [← hpolicy]
    rfl
  refine ⟨?_, ?_⟩
  · show (change s.context).settings.policy = .strict
    rw [← hstrict, h]
    rfl
  · show (Except.ok (), (⟨s.solver, change (s.context.withPolicy .clamp)⟩ : Session α V σ)) = _
    rw [h]
    rfl

/-- Models are not told the policy. -/
theorem emit (act : Emit α σ β) : ClampExtends (emit act : Encode α V σ β) (emit act) := by
  intro s b s' hpolicy hrun
  have hemission : (⟨s.solver, (s.context.withPolicy .clamp).stats⟩ : Emission σ) =
      ⟨s.solver, s.context.stats⟩ := rfl
  rcases hact : act ⟨s.solver, s.context.stats⟩ with ⟨result, e⟩
  simp only [Encode.emit, hact, Session.withPolicy, hemission] at hrun ⊢
  cases hrun
  exact ⟨hpolicy, rfl⟩

theorem takeLabel (role : VariableRole) (t : Nat) :
    ClampExtends (takeLabel role t : Encode α V σ String) (takeLabel role t) := by
  rw [takeLabel_eq]
  exact withContext fun ctx _ =>
    (modifyContext (fun ctx => { ctx with nextLabel := ctx.nextLabel + 1 }) fun _ _ => rfl).bind
      fun _ => pure _

/-! ### Steps of an encoding -/

variable {model : SolverModel α V σ} {t : Nat} {start : Option (ScoreTree α)}

theorem equalTo {role : VariableRole} {bounds : Bounds α} {value : LinearExpr α V} :
    ClampExtends (equalTo model role t bounds start value)
      (equalTo model role t bounds start value) :=
  (takeLabel role t).bind fun _ => emit _

theorem predicate {source : Signal α} :
    ClampExtends (predicate model source t start) (predicate model source t start) := by
  rw [predicate_eq]
  refine withContext fun ctx _ => (lift ?_).bind fun value => equalTo
  exact Repeats.refl (ctx.linearForm source t)

theorem group {e : Extremum} {role : VariableRole} {operands : List (Encoded α V)} :
    ClampExtends (group model e role t start operands) (group model e role t start operands) :=
  withContext fun _ _ => (takeLabel role t).bind fun _ => emit _

theorem minimaAfter {before : Encoded α V} {operands : List (Encoded α V)} :
    ClampExtends (minimaAfter model t before operands) (minimaAfter model t before operands) := by
  induction operands generalizing before with
  | nil => exact pure []
  | cons operand rest ih =>
    exact group.bind fun minimum => ih.bind fun others => pure _

theorem runningMinima {operands : List (Encoded α V)} :
    ClampExtends (runningMinima model t operands) (runningMinima model t operands) := by
  cases operands with
  | nil => exact pure []
  | cons operand rest => exact minimaAfter.bind fun _ => pure _

theorem untilBest {skipped : Nat} {rights lefts : List (Encoded α V)} :
    ClampExtends (untilBest model t skipped start rights lefts)
      (untilBest model t skipped start rights lefts) := by
  refine runningMinima.bind fun minima => (mapM fun term _ => ?_).bind fun terms => group
  match term with
  | (right, none) => exact pure right
  | (right, some before) => exact group

theorem carryOut {plan : Plan α} {visit : Task α → Encode α V σ (Encoded α V)}
    (h : ∀ k ∈ plan.tasks, ClampExtends (visit k) (visit k)) :
    ClampExtends (carryOut model t start visit plan) (carryOut model t start visit plan) := by
  cases plan with
  | signal source => exact predicate
  | same k => exact h k (by simp [Plan.tasks])
  | negated k => exact (h k (by simp [Plan.tasks])).bind fun _ => equalTo
  | extreme e role tasks => exact (mapM h).bind fun _ => group
  | candidates skipped rights lefts =>
    refine (mapM fun k hk => h k (List.mem_append_left _ hk)).bind fun xs => ?_
    exact (mapM fun k hk => h k (List.mem_append_right _ hk)).bind fun ys => untilBest

/-- **A formula that is encoded under the strict policy is encoded alike under the other one.** -/
theorem formula (f : Formula α) (t : Nat) (start : Option (ScoreTree α)) :
    ClampExtends (formula model f t start) (formula model f t start) := by
  induction f, t, start using Formula.induction_on_plan with
  | step f t start ih =>
    rw [formula_eq, memoized]
    refine withContext fun ctx _ => ?_
    have hmemo : (ctx.withPolicy .clamp).encoded? f t = ctx.encoded? f t := rfl
    rw [hmemo]
    cases ctx.encoded? f t with
    | some hit => exact (modifyContext .countHit fun _ _ => rfl).bind fun _ => pure hit
    | none =>
      refine bind (withContext fun ctx hpolicy => ?_) fun encoded =>
        (modifyContext (·.remember f t encoded) fun _ _ => rfl).bind fun _ => pure encoded
      cases hplan : f.plan ctx.settings t start with
      | error e =>
        intro s b s' _ hrun
        cases hrun
      | ok plan =>
        have hplan' : f.plan (ctx.withPolicy .clamp).settings t start = .ok plan :=
          Formula.plan_clamp hpolicy hplan
        rw [hplan']
        exact carryOut fun k hk => ih _ plan hplan k hk

theorem encodeAt (f : Formula α) (anchor : Nat) (start : Option (ScoreTree α)) :
    ClampExtends (f.encodeAt model anchor start) (f.encodeAt model anchor start) := by
  have hcheck : ClampExtends (checkIndex anchor : Encode α V σ Unit) (checkIndex anchor) := by
    rw [(checkIndex_consults anchor).eq_read]
    exact withContext fun ctx _ => lift (Repeats.refl (ctx.inside anchor))
  exact hcheck.bind fun _ => (formula f anchor start).bind fun encoded => pure encoded.var

end ClampExtends

end Encode

end Encodings

/-! ## Both policies -/

/-- **Clipping extends the strict policy**: whatever is returned under the strict policy is returned
under the clipping one. This holds of robustness, verdicts and score trees over any trajectory. And
if an encoding succeeds in a session with the strict policy, then in the same session with the other
one it makes the same calls on the model, every one with the same outcome, returns the same
variable, and leaves the same context but for the policy. -/
theorem clamp_extends_strict {V σ : Type} (f : Formula α) (anchor : Nat) :
    (∀ x : Trajectory α,
      (∀ v, f.robustness .strict x anchor = .ok v → f.robustness .clamp x anchor = .ok v) ∧
      (∀ b, f.satisfied .strict x anchor = .ok b → f.satisfied .clamp x anchor = .ok b) ∧
      ∀ tree, f.robustnessTree .strict x anchor = .ok tree →
        f.robustnessTree .clamp x anchor = .ok tree) ∧
    ∀ (model : SolverModel α V σ) (start : Option (ScoreTree α)) (solver : σ)
      (ctx : EncodingContext α V),
      let encode (policy : WindowPolicy) :=
        f.encodeAt model.metered anchor start ⟨⟨solver, [], []⟩, ctx.withPolicy policy⟩
      (∀ policy, f.encodeAt model anchor start ⟨solver, ctx.withPolicy policy⟩ =
        ((encode policy).1, (encode policy).2.unmetered)) ∧
      ∀ v, (encode .strict).1 = .ok v →
        (encode .clamp).1 = .ok v ∧ (encode .clamp).2.solver = (encode .strict).2.solver ∧
          (encode .clamp).2.context = (encode .strict).2.context.withPolicy .clamp := by
  refine ⟨fun x => ?_, fun model start solver ctx => ?_⟩
  · have hmirrors := x.mirrors_clamp
    have hsignals : ∀ signal ∈ f.signals, signal.RepeatedIn x x 0 0 :=
      fun signal _ => signal.repeatedIn_self x
    exact ⟨Formula.evaluate_repeats .quantitative hmirrors hsignals rfl id,
      Formula.evaluate_repeats .qualitative hmirrors hsignals rfl id,
      Formula.robustnessTree_repeats hmirrors hsignals rfl id⟩
  · intro encode
    refine ⟨fun policy => f.encodeAt_unmetered model anchor start
      ⟨⟨solver, [], []⟩, ctx.withPolicy policy⟩, fun v hv => ?_⟩
    have hextends : Encode.ClampExtends (f.encodeAt model.metered anchor start)
        (f.encodeAt model.metered anchor start) := .encodeAt f anchor start
    obtain ⟨-, hclamped⟩ := hextends ⟨⟨solver, [], []⟩, ctx.withPolicy .strict⟩ v
      (encode .strict).2 rfl (Prod.ext hv rfl)
    have hrun : encode .clamp = (.ok v, (encode .strict).2.withPolicy .clamp) := hclamped
    rw [hrun]
    exact ⟨rfl, rfl, rfl⟩

/-- All windows of the formula fit into three samples, so it has one robustness and one encoding,
of twelve calls. -/
theorem clamp_extends_strict_of_aheadThroughout :
    let model : SolverModel Exact String (Journal Exact) := Journal.solver ⟨true, none, none⟩
    let clamped := aheadThroughout.encodeAt model.metered 0 none
      ⟨⟨#[], [], []⟩, threeSampleSession.context.withPolicy .clamp⟩
    aheadThroughout.robustness .clamp threeSamples.toTrajectory 0 = .ok (.fin 2) ∧
      clamped.1 = .ok "stl_alw2_t0" ∧ clamped.2.solver.accepted.length = 12 := by
  intro model clamped
  let strict := aheadThroughout.encodeAt model.metered 0 none
    ⟨⟨#[], [], []⟩, threeSampleSession.context.withPolicy .strict⟩
  have hscore : aheadThroughout.robustness .strict threeSamples.toTrajectory 0 = .ok (.fin 2) := by
    decide +kernel
  have hvariable : strict.1 = .ok "stl_alw2_t0" := by decide +kernel
  have hlength : strict.2.solver.accepted.length = 12 := by decide +kernel
  obtain ⟨hevaluation, hencoding⟩ := clamp_extends_strict aheadThroughout 0
  obtain ⟨hresult, hsolver, -⟩ :=
    (hencoding model none #[] threeSampleSession.context).2 _ hvariable
  exact ⟨(hevaluation threeSamples.toTrajectory).1 _ hscore, hresult, by rw [hsolver, hlength]⟩

end SignalTemporalLogic
