import SignalTemporalLogic.Proofs.Readings

/-!
Soundness of encoding. Whatever a caller did in a session, what it has encoded is right: in every
vector that the model accepts, the variable of an encoded formula is the robustness of the formula on
the trajectory that the vector describes.
-/

namespace SignalTemporalLogic

/-- The trajectory over the horizon whose samples are the values of the variables bound to them. -/
def EncodingContext.trajectory (ctx : EncodingContext Exact VarId) (values : Array Rat) :
    Trajectory Exact where
  value sample := do
    if ctx.settings.horizon ≤ sample.index then
      throw (.outOfRange sample.index ctx.settings.horizon)
    let v ← ctx.boundVariable sample
    let some q := values[v.index]? | throw (.unbound sample)
    return .fin q
  spacing := ctx.settings.spacing
  length := ctx.settings.horizon

theorem EncodingContext.trajectory_followed {ctx : EncodingContext Exact VarId}
    {values : Array Rat} (h : ∀ (sample : Sample) (v : VarId), ctx.bindings[sample]? = some v →
      v.index < values.size) :
    ctx.Follows (ctx.trajectory values) (assignmentOf values) := by
  refine ⟨rfl, rfl, fun sample v hv hindex => ?_⟩
  have hbound : ctx.boundVariable sample = .ok v := by rw [boundVariable, hv]
  have hknown := h sample v hv
  simp only [trajectory, Nat.not_le.mpr hindex, if_false, hbound]
  simp [assignmentOf, hknown, pure, Except.pure]

section Encoded

variable {s : StoredSession} {f : Formula Exact} {t : Nat} {e : Encoded Exact VarId}

theorem Encode.memoized_of_encoded (h : s.context.encoded? f t = some e)
    (act : Encode Exact VarId (StoredModel Exact) (Encoded Exact VarId)) :
    (Encode.memoized f t act s).1 = .ok e := by
  have hcontext : Encode.context s = (.ok s.context, s) := rfl
  rw [Encode.memoized, RunLogic.run_bind_ok _ hcontext, h]
  rfl

/-- A formula that has been encoded keeps its variable. -/
theorem Encode.formula_of_encoded (h : s.context.encoded? f t = some e)
    (start : Option (ScoreTree Exact)) :
    (Encode.formula StoredModel.solver f t start s).1 = .ok e := by
  cases f with
  | not id arg =>
    cases arg with
    | not id' inner =>
      rw [Encode.formula]
      exact memoized_of_encoded h _
    | predicate | and | or | always | eventually | holdsUntil | next =>
      rw [Encode.formula]
      · exact memoized_of_encoded h _
      · rintro _ _ ⟨⟩
  | predicate | and | or | always | eventually | holdsUntil | next =>
    rw [Encode.formula]
    exact memoized_of_encoded h _

theorem Formula.encodeAt_of_encoded (h : s.context.encoded? f t = some e)
    (ht : t < s.context.settings.horizon) (start : Option (ScoreTree Exact)) :
    (f.encodeAt StoredModel.solver t start s).1 = .ok e.var := by
  have hcheck : Encode.checkIndex t s = (.ok (), s) := by
    have hcontext : Encode.context s = (.ok s.context, s) := rfl
    rw [Encode.checkIndex, RunLogic.run_bind_ok _ hcontext]
    simp only [Nat.not_le.mpr ht, if_false]
    rfl
  have hformula := Encode.formula_of_encoded h start
  rcases hrun : Encode.formula StoredModel.solver f t start s with ⟨result, s'⟩
  rw [hrun] at hformula
  obtain rfl : result = .ok e := hformula
  rw [Formula.encodeAt, RunLogic.run_bind_ok _ hcheck, RunLogic.run_bind_ok _ hrun]
  rfl

end Encoded

/-- **What is encoded is sound.** Whatever calls led to a session, failed ones among them, and
whatever its big-M constants are: if the model accepts a vector, then every formula that has been
encoded has a variable, which is what another encoding of it returns, and in the vector the variable
is the robustness of the formula on the trajectory that the vector describes. -/
theorem encoding_sound {lib : FormulaLibrary Exact} {w : Workspace} (h : w.Reached (Call.Admissible lib))
    {values : Array Rat} (hcheck : w.model.check (values.map .fin) = true) {f : Formula Exact}
    (hf : f ∈ lib.formulas) {t : Nat} (hencoded : w.context.isEncoded f t = true) :
    ∃ v q, (w.context.encoded? f t).map Encoded.var = some v ∧
      (∀ start, (f.encodeAt StoredModel.solver t start w.session).1 = .ok v) ∧
      values[v.index]? = some q ∧
      f.robustness w.context.settings.policy (w.context.trajectory values) t = .ok (.fin q) := by
  obtain ⟨session, own⟩ := w
  obtain ⟨l, hl, -, hbinds⟩ := h.exists_ledger
  obtain rfl : l.session = session := hl
  obtain ⟨hsize, hsat⟩ := (StoredModel.check_iff l.tolerance_eq l.normal values).mp hcheck
  have hfollows : l.context.Follows (l.context.trajectory values) (assignmentOf values) :=
    EncodingContext.trajectory_followed fun sample v hv => hsize ▸ hbinds sample v hv
  obtain ⟨entry, hentry⟩ : ∃ entry, l.context.memo[f.site t]? = some entry := by
    rw [← Option.isSome_iff_exists, ← Std.TreeMap.contains_eq_isSome_getElem?]
    exact hencoded
  obtain ⟨hlib, hid, u, hu, hdenoted⟩ := l.remembered _ entry hentry
  obtain rfl : entry.formula = f := lib.unique _ hlib _ hf hid
  have hmemo : l.context.encoded? entry.formula t = some entry.encoded := by
    rw [EncodingContext.encoded?, hentry]
    rfl
  have hrobustness := Ledger.robustness_eq hsat hfollows hu hdenoted
  have hinside : t < l.context.settings.horizon := (Formula.evaluate_eq_ok.mp hrobustness).1
  obtain ⟨g, hg, houtput⟩ := hdenoted.exists_output
  have hindex : entry.encoded.var.index < values.size :=
    hsize ▸ houtput ▸ l.index_lt hg
  have hvalue : assignmentOf values entry.encoded.var = values[entry.encoded.var.index] := by
    simp [assignmentOf, hindex]
  exact ⟨entry.encoded.var, values[entry.encoded.var.index], by simp [hmemo],
    Formula.encodeAt_of_encoded hmemo hinside, Array.getElem?_eq_getElem hindex,
    hvalue ▸ hrobustness⟩

/-- `x > 0` at two samples in a row. -/
def steady : Formula Exact :=
  .always ⟨0⟩ .firstStep (.predicate ⟨1⟩ (.greaterThan "x" (.fin 0)))

def steadyLibrary : FormulaLibrary Exact :=
  .over steady ⟨1⟩ (.greaterThan "x" (.fin 0)) rfl (by decide)

/-- A session over two samples with a big-M constant of one. -/
def steadyContext : EncodingContext Exact VarId where
  settings := ⟨.constant (.fin 1), 2, .fin 1, .strict, "stl"⟩

/-- The first encoding fails after it has encoded the predicate at the first sample, as the second
sample is not bound yet. -/
def interruptedCalls : List Call :=
  [.addVariable "x[0]" .continuous .unbounded, .addVariable "x[1]" .continuous .unbounded,
    .bind ⟨"x", 0⟩ ⟨0⟩, .encodeAt steady 0 none, .bind ⟨"x", 1⟩ ⟨1⟩, .encodeAt steady 0 none]

def interruptedSession : Workspace :=
  interruptedCalls.foldl Workspace.after (.fresh steadyContext none 100)

theorem interruptedSession_reached :
    interruptedSession.Reached (Call.Admissible steadyLibrary) := by
  have hfresh : (Workspace.fresh steadyContext none 100).Reached (Call.Admissible steadyLibrary) :=
    @Workspace.Reached.fresh _ { bigM := some (.constant (.fin 1)), horizon := some 2 }
      steadyContext none 100 rfl (by decide)
  refine hfresh.run ⟨trivial, trivial, ⟨?_, ?_⟩, .inl rfl, ⟨?_, ?_⟩, .inl rfl, trivial⟩
  all_goals decide +kernel

theorem encoding_sound_of_interruptedSession :
    steady.robustness .strict (interruptedSession.context.trajectory #[3, 2, 3, 2, 2, 1, 0]) 0 =
      .ok (.fin 2) := by
  have hcheck : interruptedSession.model.check
      ((#[3, 2, 3, 2, 2, 1, 0] : Array Rat).map .fin) = true := by decide +kernel
  have hencoded : interruptedSession.context.isEncoded steady 0 = true := by decide +kernel
  obtain ⟨v, q, hv, -, hq, hrobustness⟩ := encoding_sound interruptedSession_reached
    hcheck (.inl rfl) hencoded
  have hvar : (interruptedSession.context.encoded? steady 0).map Encoded.var = some ⟨4⟩ := by
    decide +kernel
  obtain rfl : v = ⟨4⟩ := Option.some.inj (hv.symm.trans hvar)
  obtain rfl : 2 = q := Option.some.inj hq
  have hpolicy : interruptedSession.context.settings.policy = .strict := by decide +kernel
  exact hpolicy ▸ hrobustness

end SignalTemporalLogic
