import SignalTemporalLogic.Proofs.Readings
import SignalTemporalLogic.Proofs.Settling

/-!
Completeness of encoding. A session in which the caller has no more than variables for samples
excludes no trajectory: if the big-M constants are large enough, every trajectory inside the ranges
extends to a vector that the model accepts.
-/

namespace SignalTemporalLogic

/-- The caller adds real variables, binds them to samples, none of which it binds twice, and encodes
formulas of the library. Every encoding returns. -/
def Call.Plain (lib : FormulaLibrary Exact) (w : Workspace) : Call → Prop
  | addVariable _ kind _ => kind = .continuous
  | bind sample v => w.context.bindings[sample]? = none ∧ v ∈ w.own
  | encodeAt f anchor start => f ∈ lib.formulas ∧
    ∃ v, (f.encodeAt StoredModel.solver anchor start w.session).1 = .ok v
  | addConstraint _ => False
  | fix .. => False

namespace Ledger

variable {lib : FormulaLibrary Exact}

/-- The model consists of the caller's real variables and of gates, and nothing else. -/
structure Accounts (l : Ledger lib) (own : List VarId) : Prop where
  arranged : Gate.Arranged l.gates
  stored : List.Forall₂ Statement.Stores (l.gates.flatMap Gate.statements)
    l.model.constraints.toList
  covered : ∀ v : VarId, v.index < l.model.vars.size → v ∈ own ∨ ∃ g ∈ l.gates, g.Adds v
  real : ∀ v ∈ own, ∃ bounds, l.model.shapes[v.index]? = some (.real bounds)
  bound : ∀ (sample : Sample) (v : VarId), l.context.bindings[sample]? = some v → v ∈ own

variable {l l' : Ledger lib} {own : List VarId}

theorem end_le (l : Ledger lib) : ∀ g ∈ l.gates,
    g.output.var.index + g.shapes.length ≤ l.model.vars.size := by
  intro g hg
  have hlast : g.Adds ⟨g.output.var.index + (g.shapes.length - 1)⟩ := by
    obtain ⟨-, hlt⟩ := g.adds_output
    exact ⟨by simp, by simp; omega⟩
  have hlt := l.lt_of_adds hg hlast
  simp only at hlt
  omega

/-- An encoding that returns adds gates and nothing else. -/
theorem Accounts.tidy (h : l.Accounts own) (htidy : l.Tidy l') : l'.Accounts own := by
  obtain ⟨-, hbindings, gates, constraints, hgates, hsequence, hstores, hgrows⟩ := htidy
  obtain ⟨harranged, hstored, hcovered, hreal, hbound⟩ := h
  refine ⟨hgates ▸ harranged.append l.end_le hsequence, ?_, fun v hv => ?_, fun v hv => ?_,
    fun sample v hv => hbound sample v (hbindings ▸ hv)⟩
  · rw [hgates, List.flatMap_append, hgrows.constraints_eq]
    exact List.rel_append hstored hstores
  · rw [hgates]
    by_cases hold : v.index < l.model.vars.size
    · exact (hcovered v hold).imp_right fun ⟨g, hg, hadds⟩ =>
        ⟨g, List.mem_append_left _ hg, hadds⟩
    · rw [hgrows.size_eq] at hv
      obtain ⟨g, hg, hadds⟩ := hsequence.exists_adds (Nat.not_lt.mp hold) hv
      exact .inr ⟨g, List.mem_append_right _ hg, hadds⟩
  · obtain ⟨bounds, hbounds⟩ := hreal v hv
    exact ⟨bounds, hgrows.shape_of_shape hbounds⟩

/-- A plain call keeps to the account. -/
theorem exists_plain_after {w : Workspace} (hsession : l.session = w.session) (hown : l.Own w.own)
    (haccounts : l.Accounts w.own) {c : Call} (hc : c.Plain lib w) :
    ∃ l' : Ledger lib, l'.session = (w.after c).session ∧ l'.Own (w.after c).own ∧
      l'.Accounts (w.after c).own := by
  obtain ⟨session, own⟩ := w
  obtain rfl : l.session = session := hsession
  cases c with
  | addVariable name kind bounds =>
    obtain rfl : kind = .continuous := hc
    rcases StoredModel.addVariable_run (m := l.model) name .continuous bounds with
      ⟨-, m, hrun, hgrows⟩ | ⟨-, refusal, hrun⟩
    · obtain ⟨l', hl', hgates, hlater⟩ := l.exists_grown { l.session with solver := m }
        ⟨.refl _, _, _, hgrows⟩
      obtain ⟨harranged, hstored, hcovered, hreal, hbound⟩ := haccounts
      have hmodel : l'.model = m := by rw [Ledger.model, hl']
      have hsize : l'.model.vars.size = l.model.vars.size + 1 := hmodel ▸ hgrows.size_eq
      have hnew := hgrows.shape_of_added 0
      simp only [Workspace.after, Workspace.model, hrun]
      refine ⟨l', hl', hown.cons hlater hgates (by omega), hgates ▸ harranged, ?_, fun v hv => ?_,
        List.forall_mem_cons.mpr ⟨⟨bounds, by rw [hmodel]; exact hnew⟩, fun v hv => ?_⟩,
        fun sample v hv => List.mem_cons_of_mem _ (hbound sample v (hlater.bindings_eq ▸ hv))⟩
      · rw [hgates, hmodel, hgrows.constraints_eq, List.append_nil]
        exact hstored
      · rw [hgates]
        rcases Nat.lt_succ_iff_lt_or_eq.mp (hsize ▸ hv) with hv | hv
        · exact (hcovered v hv).imp_left (List.mem_cons_of_mem _)
        · obtain ⟨i⟩ := v
          obtain rfl : i = l.model.vars.size := hv
          exact .inl (List.mem_cons_self)
      · obtain ⟨b, hb⟩ := hreal v hv
        exact ⟨b, hmodel ▸ hgrows.shape_of_shape hb⟩
    · simp only [Workspace.after, Workspace.model, hrun]
      exact ⟨l, rfl, hown, haccounts⟩
  | addConstraint s => cases hc
  | fix v value => cases hc
  | bind sample v =>
    obtain ⟨hfree, hv⟩ := hc
    obtain ⟨l', hl', hgates⟩ := l.exists_bound v hfree
    have hmodel : l'.model = l.model := by rw [Ledger.model, hl']
    obtain ⟨harranged, hstored, hcovered, hreal, hbound⟩ := haccounts
    refine ⟨l', hl', ⟨fun u hu => hmodel ▸ hown.known u hu, fun u hu => hgates ▸ hown.apart u hu⟩,
      hgates ▸ harranged, by rw [hgates, hmodel]; exact hstored,
      fun u hu => by rw [hgates]; exact hcovered u (hmodel ▸ hu), fun u hu => hmodel ▸ hreal u hu,
      fun other u hu => ?_⟩
    have hbound' : (l.context.bind sample v).bindings[other]? = some u := by
      rwa [Ledger.context, hl'] at hu
    simp only [EncodingContext.bind, Std.TreeMap.getElem?_insert] at hbound'
    split at hbound'
    · obtain rfl := Option.some.inj hbound'
      exact hv
    · exact hbound other u hbound'
  | encodeAt f anchor start =>
    obtain ⟨hf, v, hv⟩ := hc
    have hleads := l.leads_encodeAt True f anchor start hf (.inl trivial) (.inl trivial)
    rcases hrun : f.encodeAt StoredModel.solver anchor start l.session with ⟨result, s⟩
    obtain rfl : result = .ok v := by rw [← hv, hrun]
    obtain ⟨l', hl', htidy, -⟩ := (RunLogic.leads_of_ok hrun).mp hleads
    simp only [Workspace.after, hrun]
    exact ⟨l', hl', hown.later htidy.later, haccounts.tidy htidy⟩

/-- Signals are read from variables of the caller. -/
theorem Accounts.own_of_source (h : l.Accounts own) {g : Gate} (hg : g ∈ l.gates) {v : VarId}
    (hv : v ∈ g.sources) : v ∈ own := by
  obtain ⟨-, -, hsourced, -, -⟩ := l.recorded g hg
  cases g with
  | signal source t terms constant y =>
    obtain ⟨-, labelled, samples, -, -, hresolves⟩ := hsourced
    obtain ⟨term, hterm, rfl⟩ := List.mem_map.mp hv
    obtain ⟨input, -, -, -, hbound⟩ := (exists_of_forall₂ hresolves).2 term hterm
    exact h.bound _ _ hbound
  | negation => cases hv
  | extreme => cases hv

/-- **Values of the caller's variables extend to the whole model.** -/
theorem Accounts.satisfies (h : l.Accounts own) (hown : l.Own own) {p : Assignment}
    {R : Bounds Exact → Rat → Prop} (hsuits : l.context.settings.bigM.Suits R)
    (hranges : ∀ v ∈ own, ∀ bounds, l.model.shapes[v.index]? = some (.real bounds) →
      bounds.Contains (p v))
    (hsignals : ∀ source t terms constant y, .signal source t terms constant y ∈ l.gates →
      R source.bounds (weigh p terms + constant.toRat)) :
    l.model.Satisfies (l.gates.foldl Gate.settle p) ∧
      ∀ v ∈ own, l.gates.foldl Gate.settle p v = p v := by
  have hsettled := Gate.settled hsuits h.arranged (fun g hg => (l.recorded g hg).formed)
    (fun g hg v hv => hown.apart v (h.own_of_source hg hv)) hsignals
  have hkept : ∀ v ∈ own, l.gates.foldl Gate.settle p v = p v :=
    fun v hv => hsettled.kept v (hown.apart v hv)
  refine ⟨StoredModel.satisfies_iff.mpr ⟨fun i shape hshape => ?_, fun c hc => ?_⟩, hkept⟩
  · have hi : i < l.model.vars.size := by
      simpa using (List.getElem?_eq_some_iff.mp hshape).1
    rcases h.covered ⟨i⟩ hi with hmem | ⟨g, hg, hle, hlt⟩
    · obtain ⟨bounds, hreal⟩ := h.real _ hmem
      obtain rfl := Option.some.inj (hshape.symm.trans hreal)
      rw [hkept _ hmem]
      exact Shape.real_allows_iff.mpr (hranges _ hmem bounds hreal)
    · obtain ⟨j, rfl⟩ := Nat.exists_eq_add_of_le hle
      have hj : j < g.shapes.length := by
        simp only at hlt
        omega
      have hplaced := (l.recorded g hg).placed j _ (List.getElem?_eq_getElem hj)
      obtain rfl := Option.some.inj (hplaced.symm.trans hshape)
      exact hsettled.allowed g hg j _ (List.getElem?_eq_getElem hj)
  · obtain ⟨st, hst, hstores⟩ := (exists_of_forall₂ h.stored).2 c (Array.mem_toList_iff.mpr hc)
    obtain ⟨g, hg, hst⟩ := List.mem_flatMap.mp hst
    exact (hstores.holds_iff _).mpr (hsettled.holds g hg st hst)

end Ledger

/-- Accounts are kept by calls of any rule that keeps them in each call. -/
theorem Workspace.Reached.exists_account_by {lib : FormulaLibrary Exact}
    {rule : Workspace → Call → Prop} {w : Workspace} (h : w.Reached rule)
    (hafter : ∀ {l : Ledger lib} {w : Workspace} {c : Call}, l.session = w.session →
      l.Own w.own → l.Accounts w.own → rule w c →
      ∃ l' : Ledger lib, l'.session = (w.after c).session ∧ l'.Own (w.after c).own ∧
        l'.Accounts (w.after c).own) :
    ∃ l : Ledger lib, l.session = w.session ∧ l.Own w.own ∧ l.Accounts w.own := by
  induction h with
  | fresh variableLimit nodeLimit hcontext hhorizon =>
    obtain ⟨l, hl, hgates, hbindings⟩ := @Ledger.exists_fresh lib _ _ variableLimit nodeLimit hcontext
      hhorizon
    have hvars : l.model.vars = #[] := by rw [Ledger.model, hl, Workspace.fresh]
    have hconstraints : l.model.constraints = #[] := by rw [Ledger.model, hl, Workspace.fresh]
    refine ⟨l, hl, ⟨by simp [Workspace.fresh], by simp [Workspace.fresh]⟩, ⟨?_, ?_, ?_, by simp [Workspace.fresh], ?_⟩⟩
    · rw [hgates]
      exact ⟨.nil, by simp⟩
    · rw [hgates, hconstraints]
      exact .nil
    · simp [hvars]
    · simp [hbindings]
  | call _ hc ih =>
    obtain ⟨l, hl, hown, haccounts⟩ := ih
    exact hafter hl hown haccounts hc

theorem Workspace.Reached.exists_account {lib : FormulaLibrary Exact} {w : Workspace}
    (h : w.Reached (Call.Plain lib)) :
    ∃ l : Ledger lib, l.session = w.session ∧ l.Own w.own ∧ l.Accounts w.own :=
  h.exists_account_by fun hl hown haccounts => Ledger.exists_plain_after hl hown haccounts

/-- The trajectory of the given length with the given samples. -/
def Trajectory.ofSamples (x : Sample → Rat) (spacing : Exact) (length : Nat) :
    Trajectory Exact where
  value sample :=
    if length ≤ sample.index then .error (.outOfRange sample.index length) else .ok (.fin (x sample))
  spacing := spacing
  length := length

/-- **Encoding is complete.** In a session in which the caller adds, binds and encodes, and nothing
fails, take samples in the ranges of the variables bound to them, with which the predicates that are
encoded have values in the ranges of their signals. If big-M constants come from bounds, or if the
constant is at least twice as large as all those values, then the model accepts a vector with these
samples. Samples that share a variable have to be the same, and the range of a variable that is not
bound may not be empty. -/
theorem encoding_complete {lib : FormulaLibrary Exact} {w : Workspace}
    (h : w.Reached (Call.Plain lib)) (x : Sample → Rat)
    (hranges : ∀ (sample : Sample) (v : VarId), w.context.bindings[sample]? = some v →
      ∃ var, w.model.lookup? v = some var ∧ var.bounds.Contains (x sample))
    (hshared : ∀ (sample sample' : Sample) (v : VarId), w.context.bindings[sample]? = some v →
      w.context.bindings[sample']? = some v → x sample = x sample')
    (hrest : ∀ v ∈ w.own, ∃ var q, w.model.lookup? v = some var ∧ var.bounds.Contains q)
    (hpredicates : ∀ id source t q, .predicate id source ∈ lib.formulas →
      w.context.isEncoded (.predicate id source) t = true →
      (Trajectory.ofSamples x w.context.settings.spacing w.context.settings.horizon).signalValue
        source t = .ok (.fin q) → source.bounds.Contains q)
    (hbigM : w.context.settings.bigM = .fromBounds ∨ ∃ m limit,
      w.context.settings.bigM = .constant (.fin m) ∧ 2 * limit ≤ m ∧
      ∀ id source t q, .predicate id source ∈ lib.formulas →
        w.context.isEncoded (.predicate id source) t = true →
        (Trajectory.ofSamples x w.context.settings.spacing w.context.settings.horizon).signalValue
          source t = .ok (.fin q) → |q| ≤ limit) :
    ∃ values : Array Rat, w.model.check (values.map .fin) = true ∧
      ∀ (sample : Sample) (v : VarId), w.context.bindings[sample]? = some v →
        values[v.index]? = some (x sample) := by
  obtain ⟨session, own⟩ := w
  obtain ⟨l, hl, hown, haccounts⟩ := h.exists_account
  obtain rfl : l.session = session := hl
  set trajectory := Trajectory.ofSamples x l.context.settings.spacing l.context.settings.horizon
    with htrajectory
  -- what the range of a variable says, once through `lookup?` and once through its shape
  have hlookup : ∀ {v : VarId} {var : Variable Exact} {bounds : Bounds Exact},
      l.model.lookup? v = some var → l.model.shapes[v.index]? = some (.real bounds) →
      var.bounds = bounds := by
    intro v var bounds hvar hshape
    have hshape' : l.model.shapes[v.index]? = some var.shape := by
      simpa [StoredModel.shapes] using ⟨var, hvar, rfl⟩
    exact congrArg Shape.bounds (Option.some.inj (hshape'.symm.trans hshape))
  have hvalues : ∀ v : VarId, ∃ q : Rat, (v ∈ own → ∀ bounds,
      l.model.shapes[v.index]? = some (.real bounds) → bounds.Contains q) ∧
      ∀ sample : Sample, l.context.bindings[sample]? = some v → q = x sample := by
    intro v
    by_cases hv : ∃ sample : Sample, l.context.bindings[sample]? = some v
    · obtain ⟨sample, hsample⟩ := hv
      obtain ⟨var, hvar, hcontains⟩ := hranges sample v hsample
      exact ⟨x sample, fun _ bounds hbounds => hlookup hvar hbounds ▸ hcontains,
        fun other hother => hshared sample other v hsample hother⟩
    · by_cases hmem : v ∈ own
      · obtain ⟨var, q, hvar, hcontains⟩ := hrest v hmem
        exact ⟨q, fun _ bounds hbounds => hlookup hvar hbounds ▸ hcontains,
          fun sample hsample => absurd ⟨sample, hsample⟩ hv⟩
      · exact ⟨0, fun h => absurd h hmem, fun sample hsample => absurd ⟨sample, hsample⟩ hv⟩
  choose p hcontains hbound using hvalues
  have hfollows : l.context.Follows trajectory p := by
    refine ⟨rfl, rfl, fun sample v hv hindex => ?_⟩
    simp only [htrajectory, Trajectory.ofSamples, Nat.not_le.mpr hindex, if_false]
    rw [hbound v sample hv]
  have hextend : ∀ {R : Bounds Exact → Rat → Prop}, l.context.settings.bigM.Suits R →
      (∀ source t terms constant y, .signal source t terms constant y ∈ l.gates →
        R source.bounds (weigh p terms + constant.toRat)) →
      ∃ values : Array Rat, l.model.check (values.map .fin) = true ∧
        ∀ (sample : Sample) (v : VarId), l.context.bindings[sample]? = some v →
          values[v.index]? = some (x sample) := by
    intro R hsuits hsignals
    obtain ⟨hsat, hkept⟩ := haccounts.satisfies hown hsuits (fun v hv => hcontains v hv) hsignals
    refine ⟨_, StoredModel.check_ofFn l.tolerance_eq l.normal hsat, fun sample v hv => ?_⟩
    have hmem := haccounts.bound sample v hv
    have hknown := hown.known v hmem
    simp [hknown, hkept v hmem, hbound v sample hv]
  have hsignal : ∀ source t terms constant y, .signal source t terms constant y ∈ l.gates →
      source.bounds.Contains (weigh p terms + constant.toRat) := by
    intro source t terms constant y hg
    obtain ⟨id, hlib, hencoded⟩ := l.named source t terms constant y hg
    exact hpredicates id source t _ hlib hencoded (Ledger.signalValue_of_mem hfollows hg)
  rcases hbigM with hbigM | ⟨m, limit, hbigM, hle, hlimit⟩
  · have hsuits : l.context.settings.bigM.Suits Bounds.Contains := hbigM ▸ BigM.suits_fromBounds
    exact hextend hsuits hsignal
  · have hsuits : l.context.settings.bigM.Suits fun b q => b.Contains q ∧ |q| ≤ limit :=
      hbigM ▸ BigM.suits_constant hle
    refine hextend hsuits fun source t terms constant y hg => ⟨hsignal _ _ _ _ _ hg, ?_⟩
    obtain ⟨id, hlib, hencoded⟩ := l.named source t terms constant y hg
    exact hlimit id source t _ hlib hencoded (Ledger.signalValue_of_mem hfollows hg)

/-- `x > 0` at one of two samples in a row, for `x` between -10 and 10. -/
def bounded : Signal Exact := ⟨.above "x" (.fin 0), ⟨.fin (-10), .fin 10⟩⟩

def sometime : Formula Exact :=
  .eventually ⟨0⟩ .firstStep (.predicate ⟨1⟩ bounded)

def sometimeLibrary : FormulaLibrary Exact :=
  .over sometime ⟨1⟩ bounded rfl (by decide)

/-- A session over two samples with big-M constants from bounds. -/
def sometimeContext : EncodingContext Exact VarId where
  settings := ⟨.fromBounds, 2, .fin 1, .strict, "stl"⟩

def sometimeCalls : List Call :=
  [.addVariable "x[0]" .continuous ⟨.fin (-10), .fin 10⟩,
    .addVariable "x[1]" .continuous ⟨.fin (-10), .fin 10⟩,
    .bind ⟨"x", 0⟩ ⟨0⟩, .bind ⟨"x", 1⟩ ⟨1⟩, .encodeAt sometime 0 none]

def sometimeSession : Workspace :=
  sometimeCalls.foldl Workspace.after (.fresh sometimeContext none 100)

theorem sometimeSession_reached : sometimeSession.Reached (Call.Plain sometimeLibrary) := by
  have hfresh : (Workspace.fresh sometimeContext none 100).Reached (Call.Plain sometimeLibrary) :=
    @Workspace.Reached.fresh _ { bigM := some .fromBounds, horizon := some 2 } sometimeContext none
      100 rfl (by decide)
  refine hfresh.run ⟨rfl, rfl, ⟨?_, ?_⟩, ⟨?_, ?_⟩, ⟨.inl rfl, ⟨4⟩, ?_⟩, trivial⟩
  all_goals decide +kernel

theorem sometimeSession_bindings {sample : Sample} {v : VarId}
    (h : sometimeSession.context.bindings[sample]? = some v) :
    (sample = ⟨"x", 0⟩ ∧ v = ⟨0⟩) ∨ (sample = ⟨"x", 1⟩ ∧ v = ⟨1⟩) := by
  have hlist : sometimeSession.context.bindings.toList =
      [(⟨"x", 0⟩, ⟨0⟩), (⟨"x", 1⟩, ⟨1⟩)] := by decide +kernel
  have hmem := Std.TreeMap.mem_toList_iff_getElem?_eq_some.mpr h
  simpa [hlist] using hmem

theorem sometimeSession_lookup {v : VarId} (h : v = ⟨0⟩ ∨ v = ⟨1⟩) :
    ∃ var, sometimeSession.model.lookup? v = some var ∧ var.bounds = bounded.bounds := by
  have hbounds : (sometimeSession.model.lookup? v).map
      (fun var => (var.bounds.lower, var.bounds.upper)) = some (.fin (-10), .fin 10) := by
    rcases h with rfl | rfl <;> decide +kernel
  obtain ⟨var, hvar, hpair⟩ := Option.map_eq_some_iff.mp hbounds
  obtain ⟨hlower, hupper⟩ := Prod.mk.inj hpair
  exact ⟨var, hvar, congrArg₂ Bounds.mk hlower hupper⟩

/-- Three at the first sample and minus two at the others. -/
def dropped (sample : Sample) : Rat := if sample.index = 0 then 3 else -2

theorem dropped_contains (sample : Sample) : bounded.bounds.Contains (dropped sample) := by
  refine Bounds.contains_fin.mpr ?_
  by_cases h : sample.index = 0 <;> simp [dropped, h] <;> norm_num

theorem encoding_complete_of_sometimeSession :
    ∃ values : Array Rat, sometimeSession.model.check (values.map .fin) = true ∧
      values[0]? = some 3 ∧ values[1]? = some (-2 : Rat) := by
  have hspacing : sometimeSession.context.settings.spacing = .fin 1 := by decide +kernel
  have hhorizon : sometimeSession.context.settings.horizon = 2 := by decide +kernel
  have hbigM : sometimeSession.context.settings.bigM = .fromBounds := by
    have hmatch : (match sometimeSession.context.settings.bigM with
        | .fromBounds => true
        | .constant _ => false) = true := by decide +kernel
    split at hmatch
    · next h => exact h
    · cases hmatch
  obtain ⟨values, hcheck, hvalues⟩ := encoding_complete sometimeSession_reached dropped
    (fun sample v hv => by
      obtain ⟨var, hvar, hbounds⟩ := sometimeSession_lookup
        ((sometimeSession_bindings hv).imp And.right And.right)
      exact ⟨var, hvar, hbounds ▸ dropped_contains sample⟩)
    (fun sample sample' v hv hv' => by
      rcases sometimeSession_bindings hv with ⟨rfl, rfl⟩ | ⟨rfl, rfl⟩ <;>
        rcases sometimeSession_bindings hv' with ⟨rfl, h⟩ | ⟨rfl, h⟩ <;>
        first | rfl | exact absurd h (by decide))
    (fun v hv => by
      have hown : sometimeSession.own = [⟨1⟩, ⟨0⟩] := by decide +kernel
      obtain ⟨var, hvar, hbounds⟩ := sometimeSession_lookup (v := v) (by
        rw [hown] at hv
        simpa [or_comm] using hv)
      exact ⟨var, 3, hvar, hbounds ▸ dropped_contains ⟨"x", 0⟩⟩)
    (fun id source t q hlib _ hq => by
      have hsource : source = bounded := by
        rcases hlib with h | h
        · cases h
        · exact (Formula.predicate.inj h).2
      subst hsource
      rw [hspacing, hhorizon] at hq
      have ht : t < 2 := Trajectory.lt_of_signalValue hq
      have hvalue : ∀ u < 2, (Trajectory.ofSamples dropped (.fin 1) 2).signalValue bounded u =
          .ok (.fin (dropped ⟨"x", u⟩)) := by decide +kernel
      obtain rfl := Exact.fin.inj (Except.ok.inj ((hvalue t ht).symm.trans hq))
      exact dropped_contains _)
    (.inl hbigM)
  exact ⟨values, hcheck, hvalues ⟨"x", 0⟩ ⟨0⟩ (by decide +kernel),
    hvalues ⟨"x", 1⟩ ⟨1⟩ (by decide +kernel)⟩

end SignalTemporalLogic
