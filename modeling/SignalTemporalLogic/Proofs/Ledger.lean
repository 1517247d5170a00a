import SignalTemporalLogic.Proofs.SessionSteps

/-!
The ledger of a session: the gates that its model contains. Every remembered node stands for its
unrolling, every gate is in the model with all its variables and constraints, and every gate of a
signal belongs to a remembered predicate. What a failed encoding leaves behind is in the model too,
but in no gate; an encoding that returns leaves only gates behind.
-/

namespace SignalTemporalLogic

open RunLogic

/-- Formulas among which a node is known by its identity. -/
structure FormulaLibrary (α : Type) [Scalar α] where
  formulas : Set (Formula α)
  closed : ∀ f ∈ formulas, ∀ g ∈ f.children, g ∈ formulas
  unique : ∀ f ∈ formulas, ∀ g ∈ formulas, f.id = g.id → f = g

/-- A formula over one predicate, and the predicate. -/
def FormulaLibrary.over {α : Type} [Scalar α] (f : Formula α) (id : NodeId) (signal : Signal α)
    (hchildren : f.children = [.predicate id signal]) (hid : f.id ≠ id) : FormulaLibrary α where
  formulas := {g | g = f ∨ g = .predicate id signal}
  closed := by
    intro g hg child hchild
    rcases hg with rfl | rfl
    · exact .inr (List.mem_singleton.mp (hchildren ▸ hchild))
    · cases hchild
  unique := by
    intro g hg g' hg' h
    rcases hg with rfl | rfl <;> rcases hg' with rfl | rfl
    · rfl
    · exact absurd h hid
    · exact absurd h.symm hid
    · rfl

namespace Gate

/-- The gate of a signal reads what is bound to the samples of the signal. -/
def Sourced (ctx : EncodingContext Exact VarId) : Gate → Prop
  | signal source t terms constant _ => ctx.Reads source t terms constant
  | _ => True

/-- The gate is in the model of the session. -/
structure Recorded (g : Gate) (s : StoredSession) : Prop where
  formed : g.Formed s.context.settings.bigM
  ordered : g.output.bounds.lower ≤ g.output.bounds.upper
  sourced : g.Sourced s.context
  stored : ∀ st ∈ g.statements, ∃ c ∈ s.solver.constraints, st.Stores c
  placed : ∀ i shape, g.shapes[i]? = some shape →
    s.solver.shapes[g.output.var.index + i]? = some shape

/-- The gates come one after the other from variable `count` on, and each takes its operands from
those before it. -/
def Sequence : List Gate → Nat → List Gate → Prop
  | _, _, [] => True
  | earlier, count, g :: rest =>
    g.output.var.index = count ∧
      (∀ x ∈ g.operands, x.var.index < count ∧ ∃ g' ∈ earlier, g'.output = x) ∧
      Sequence (earlier ++ [g]) (count + g.shapes.length) rest

theorem sequence_append {earlier gates gates' : List Gate} {count : Nat}
    (h : Sequence earlier count gates)
    (k : Sequence (earlier ++ gates) (count + (gates.flatMap shapes).length) gates') :
    Sequence earlier count (gates ++ gates') := by
  induction gates generalizing earlier count with
  | nil => simpa using k
  | cons g rest ih =>
    obtain ⟨houtput, hoperands, hrest⟩ := h
    refine ⟨houtput, hoperands, ih hrest ?_⟩
    simpa [Nat.add_assoc] using k

theorem Sequence.count_le {earlier gates : List Gate} {count : Nat}
    (h : Sequence earlier count gates) : ∀ g ∈ gates, count ≤ g.output.var.index := by
  induction gates generalizing earlier count with
  | nil => simp
  | cons g rest ih =>
    obtain ⟨houtput, -, hrest⟩ := h
    intro g' hg'
    rcases List.mem_cons.mp hg' with rfl | hg'
    · exact houtput.ge
    · exact (Nat.le_add_right _ _).trans (ih hrest g' hg')

end Gate

/-- The settings are the same and nothing is bound anew. -/
structure EncodingContext.Preserves (ctx ctx' : EncodingContext Exact VarId) : Prop where
  settings_eq : ctx'.settings = ctx.settings
  bound : ∀ (sample : Sample) (v : VarId), ctx.bindings[sample]? = some v → ctx'.bindings[sample]? = some v

section Preservation

variable {ctx ctx' : EncodingContext Exact VarId}

theorem EncodingContext.Agrees.preserves (h : ctx.Agrees ctx') : ctx.Preserves ctx' :=
  ⟨h.settings_eq, fun _ _ hv => h.bindings_eq ▸ hv⟩

theorem EncodingContext.Reads.mono {source : Signal Exact} {t : Nat}
    {terms : List (Exact × VarId)} {constant : Exact} (h : ctx.Reads source t terms constant)
    (hctx : ctx.Preserves ctx') : ctx'.Reads source t terms constant := by
  obtain ⟨hinside, labelled, samples, haffine, hsamples, hterms⟩ := h
  refine ⟨hctx.settings_eq ▸ hinside, labelled, samples, haffine, hsamples, hterms.imp ?_⟩
  rintro input term ⟨hcoefficient, hindex, hbound⟩
  exact ⟨hcoefficient, hctx.settings_eq ▸ hindex, hctx.bound _ _ hbound⟩

theorem Gate.Sourced.mono {g : Gate} (h : g.Sourced ctx) (hctx : ctx.Preserves ctx') :
    g.Sourced ctx' := by
  cases g with
  | signal => exact EncodingContext.Reads.mono h hctx
  | negation => trivial
  | extreme => trivial

theorem Gate.Recorded.mono {g : Gate} {s s' : StoredSession} (h : g.Recorded s)
    (hctx : s.context.Preserves s'.context) {shapes : List Shape}
    {constraints : List (Constraint Exact)}
    (hgrows : s.solver.Grows s'.solver shapes constraints) : g.Recorded s' where
  formed := hctx.settings_eq ▸ h.formed
  ordered := h.ordered
  sourced := h.sourced.mono hctx
  stored st hst := by
    obtain ⟨c, hc, hstores⟩ := h.stored st hst
    exact ⟨c, hgrows.mem_of_mem hc, hstores⟩
  placed i shape hi := hgrows.shape_of_shape (h.placed i shape hi)

end Preservation

/-- The formula at an index of the horizon, as an expression. -/
def EncodingSettings.unroll (settings : EncodingSettings Exact) (f : Formula Exact) (t : Nat) :
    Except (Fault Exact) (Unrolled Exact) :=
  f.unroll settings.policy settings.spacing settings.horizon t

/-- What is remembered of a formula at an index is a variable for its unrolling. -/
def MemoEntry.Valid (lib : FormulaLibrary Exact) (settings : EncodingSettings Exact)
    (gates : List Gate) (site : Site) (entry : MemoEntry Exact VarId) : Prop :=
  entry.formula ∈ lib.formulas ∧ entry.formula.id = site.node ∧
    ∃ u, settings.unroll entry.formula site.index = .ok u ∧ u.DenotedBy gates entry.encoded

theorem MemoEntry.Valid.mono {lib : FormulaLibrary Exact} {settings settings' : EncodingSettings Exact}
    {gates gates' : List Gate} {site : Site} {entry : MemoEntry Exact VarId}
    (h : entry.Valid lib settings gates site) (hsettings : settings' = settings)
    (hgates : gates ⊆ gates') : entry.Valid lib settings' gates' site := by
  obtain ⟨hlib, hid, u, hu, hdenoted⟩ := h
  exact ⟨hlib, hid, u, hsettings ▸ hu, Unrolled.DenotedBy.mono hgates u _ hdenoted⟩

/-- A session over formulas of a library, with the gates in its model. -/
structure Ledger (lib : FormulaLibrary Exact) where
  session : StoredSession
  gates : List Gate
  horizon_le : session.context.settings.horizon ≤ Index.last
  tolerance_eq : session.solver.tolerance = .fin 0
  normal : ∀ c ∈ session.solver.constraints, c.Normal session.solver.vars.size
  recorded : ∀ g ∈ gates, g.Recorded session
  remembered : ∀ (site : Site) (entry : MemoEntry Exact VarId), session.context.memo[site]? = some entry →
    entry.Valid lib session.context.settings gates site
  named : ∀ source t terms constant y, .signal source t terms constant y ∈ gates →
    ∃ id, .predicate id source ∈ lib.formulas ∧
      session.context.isEncoded (.predicate id source) t = true

namespace Ledger

variable {lib : FormulaLibrary Exact}

abbrev model (w : Ledger lib) : StoredModel Exact := w.session.solver

abbrev context (w : Ledger lib) : EncodingContext Exact VarId := w.session.context

/-- The second ledger may come after the first. -/
structure Later (w w' : Ledger lib) : Prop where
  settings_eq : w'.context.settings = w.context.settings
  bindings_eq : w'.context.bindings = w.context.bindings
  gates_subset : w.gates ⊆ w'.gates
  /-- New gates add new variables. -/
  fresh : ∀ g ∈ w'.gates, g ∈ w.gates ∨ w.model.vars.size ≤ g.output.var.index
  model_grows : ∃ shapes constraints, w.model.Grows w'.model shapes constraints

/-- The second ledger adds nothing but gates to the first. -/
structure Tidy (w w' : Ledger lib) : Prop where
  settings_eq : w'.context.settings = w.context.settings
  bindings_eq : w'.context.bindings = w.context.bindings
  exists_gates : ∃ gates constraints, w'.gates = w.gates ++ gates ∧
    Gate.Sequence w.gates w.model.vars.size gates ∧
    List.Forall₂ Statement.Stores (gates.flatMap Gate.statements) constraints ∧
    w.model.Grows w'.model (gates.flatMap Gate.shapes) constraints

theorem Tidy.later {w w' : Ledger lib} (h : w.Tidy w') : w.Later w' := by
  obtain ⟨hsettings, hbindings, gates, constraints, hgates, hsequence, -, hgrows⟩ := h
  refine ⟨hsettings, hbindings, hgates ▸ List.subset_append_left _ _, fun g hg => ?_, _, _, hgrows⟩
  rw [hgates] at hg
  exact (List.mem_append.mp hg).imp_right (hsequence.count_le g)

/-- Encodings, followed through ledgers. -/
def logic (lib : FormulaLibrary Exact) (fails : Prop) : RunLogic StoredSession (Ledger lib) where
  state := session
  later := Later
  tidy := Tidy
  fails := fails
  tidy_refl w := ⟨rfl, rfl, [], [], by simp, trivial, .nil, .refl w.model⟩
  tidy_trans := by
    rintro u v w ⟨hs, hb, gates, cs, hg, hseq, hstores, hgrows⟩
      ⟨ks, kb, gates', cs', kg, kseq, kstores, kgrows⟩
    refine ⟨ks.trans hs, kb.trans hb, gates ++ gates', cs ++ cs', ?_, ?_, ?_, ?_⟩
    · rw [kg, hg, List.append_assoc]
    · refine Gate.sequence_append hseq ?_
      rw [← hg, ← hgrows.size_eq]
      exact kseq
    · rw [List.flatMap_append]
      exact List.rel_append hstores kstores
    · rw [List.flatMap_append]
      exact hgrows.trans kgrows
  later_of_tidy := Tidy.later
  later_trans := by
    rintro u v w ⟨hs, hb, hg, hfresh, _, _, hgrows⟩ ⟨ks, kb, kg, kfresh, _, _, kgrows⟩
    refine ⟨ks.trans hs, kb.trans hb, List.Subset.trans hg kg, fun g hmem => ?_, _, _,
      hgrows.trans kgrows⟩
    rcases kfresh g hmem with hmem | hle
    · exact hfresh g hmem
    · rw [hgrows.size_eq] at hle
      exact .inr ((Nat.le_add_right _ _).trans hle)

/-! ## Steps of a ledger -/

section Steps

variable {s' : StoredSession}

/-- A ledger for a session that has grown by some gates. -/
theorem exists_next (w : Ledger lib) (s' : StoredSession) (new : List Gate) {shapes : List Shape}
    {constraints : List (Constraint Exact)} (hctx : w.context.Preserves s'.context)
    (hgrows : w.model.Grows s'.solver shapes constraints) (hnew : ∀ g ∈ new, g.Recorded s')
    (hremembered : ∀ (site : Site) (entry : MemoEntry Exact VarId),
      s'.context.memo[site]? = some entry →
      entry.Valid lib w.context.settings (w.gates ++ new) site)
    (hencoded : ∀ f t, w.context.isEncoded f t = true → s'.context.isEncoded f t = true)
    (hnamed : ∀ source t terms constant y, .signal source t terms constant y ∈ new →
      ∃ id, .predicate id source ∈ lib.formulas ∧
        s'.context.isEncoded (.predicate id source) t = true) :
    ∃ w' : Ledger lib, w'.session = s' ∧ w'.gates = w.gates ++ new := by
  refine ⟨{
    session := s'
    gates := w.gates ++ new
    horizon_le := hctx.settings_eq ▸ w.horizon_le
    tolerance_eq := hgrows.tolerance_eq.trans w.tolerance_eq
    normal := fun c hc => ?_
    recorded := fun g hg => ?_
    remembered := fun site entry hentry => hctx.settings_eq ▸ hremembered site entry hentry
    named := fun source t terms constant y hmem => ?_ }, rfl, rfl⟩
  · rw [← Array.mem_toList_iff, hgrows.constraints_eq] at hc
    rcases List.mem_append.mp hc with hc | hc
    · exact (w.normal c (Array.mem_toList_iff.mp hc)).mono
        (by rw [hgrows.size_eq]; exact Nat.le_add_right _ _)
    · exact hgrows.normal c hc
  · rcases List.mem_append.mp hg with hg | hg
    · exact (w.recorded g hg).mono hctx hgrows
    · exact hnew g hg
  · rcases List.mem_append.mp hmem with hmem | hmem
    · obtain ⟨id, hlib, h⟩ := w.named source t terms constant y hmem
      exact ⟨id, hlib, hencoded _ t h⟩
    · exact hnamed source t terms constant y hmem

theorem isEncoded_of_agrees {ctx ctx' : EncodingContext Exact VarId} (h : ctx.Agrees ctx')
    (f : Formula Exact) (t : Nat) : ctx'.isEncoded f t = ctx.isEncoded f t := by
  rw [EncodingContext.isEncoded, h.memo_eq, EncodingContext.isEncoded]

/-- A ledger for a session that has grown but has no new gate. -/
theorem exists_grown (w : Ledger lib) (s' : StoredSession) (h : w.session.Grows s') :
    ∃ w' : Ledger lib, w'.session = s' ∧ w'.gates = w.gates ∧ w.Later w' := by
  obtain ⟨hagrees, shapes, constraints, hgrows⟩ := h
  obtain ⟨w', rfl, hgates⟩ := w.exists_next s' [] hagrees.preserves hgrows (by simp)
    (fun site entry hentry =>
      (List.append_nil w.gates).symm ▸ w.remembered site entry (hagrees.memo_eq ▸ hentry))
    (fun f t hf => (isEncoded_of_agrees hagrees f t).trans hf) (by simp)
  rw [List.append_nil] at hgates
  exact ⟨w', rfl, hgates, hagrees.settings_eq, hagrees.bindings_eq,
    hgates ▸ List.Subset.refl _, fun g hg => .inl (hgates ▸ hg), _, _, hgrows⟩

/-- A ledger for a session in which only labels and counts have changed. -/
theorem exists_relabelled (w : Ledger lib) (s' : StoredSession) (hagrees : w.context.Agrees s'.context)
    (hsolver : s'.solver = w.model) :
    ∃ w' : Ledger lib, w'.session = s' ∧ w'.gates = w.gates ∧ w.Tidy w' := by
  have hgrows : w.model.Grows s'.solver [] [] := hsolver ▸ .refl w.model
  obtain ⟨w', rfl, hgates, -⟩ := w.exists_grown s' ⟨hagrees, _, _, hgrows⟩
  exact ⟨w', rfl, hgates, hagrees.settings_eq, hagrees.bindings_eq, [], [], by simp [hgates],
    trivial, .nil, hgrows⟩

/-- The result of a gate is a variable of the model. -/
theorem index_lt (w : Ledger lib) {g : Gate} (hg : g ∈ w.gates) :
    g.output.var.index < w.model.vars.size := by
  have hfirst : ∃ shape, g.shapes[0]? = some shape := by cases g <;> exact ⟨_, rfl⟩
  obtain ⟨shape, hshape⟩ := hfirst
  exact StoredModel.lt_of_shape ((w.recorded g hg).placed 0 shape hshape)

/-- A gate that was just emitted is recorded. -/
theorem recorded_of_gains {g : Gate} {s : StoredSession} (h : s.Gains s' g)
    (hformed : g.Formed s.context.settings.bigM)
    (hordered : g.output.bounds.lower ≤ g.output.bounds.upper) (hsourced : g.Sourced s.context)
    (hindex : g.output.var.index = s.solver.vars.size) : g.Recorded s' := by
  obtain ⟨hagrees, constraints, hstores, hgrows⟩ := h
  refine ⟨hagrees.settings_eq ▸ hformed, hordered, hsourced.mono hagrees.preserves, ?_, ?_⟩
  · intro st hst
    obtain ⟨i, hi, rfl⟩ := List.mem_iff_getElem.mp hst
    have hlength := hstores.length_eq
    exact ⟨constraints[i], hgrows.mem_of_mem_added (List.getElem_mem _),
      List.Forall₂.get hstores hi (hlength ▸ hi)⟩
  · intro i shape hi
    rw [hindex, hgrows.shape_of_added]
    exact hi

theorem tidy_of_gains {w w' : Ledger lib} {g : Gate} (h : w.session.Gains s' g)
    (hindex : g.output.var.index = w.model.vars.size)
    (hoperands : ∀ x ∈ g.operands, ∃ g' ∈ w.gates, g'.output = x)
    (hsolver : w'.model = s'.solver) (hsettings : w'.context.settings = s'.context.settings)
    (hbindings : w'.context.bindings = s'.context.bindings) (hgates : w'.gates = w.gates ++ [g]) :
    w.Tidy w' := by
  obtain ⟨hagrees, constraints, hstores, hgrows⟩ := h
  refine ⟨hsettings.trans hagrees.settings_eq, hbindings.trans hagrees.bindings_eq, [g],
    constraints, hgates, ⟨hindex, fun x hx => ?_, trivial⟩, by simpa using hstores, ?_⟩
  · obtain ⟨g', hg', rfl⟩ := hoperands x hx
    exact ⟨w.index_lt hg', g', hg', rfl⟩
  · rw [hsolver]
    simpa using hgrows

/-- A ledger with a new gate that is not that of a signal. -/
theorem exists_gained (w : Ledger lib) {g : Gate} (h : w.session.Gains s' g)
    (hformed : g.Formed w.context.settings.bigM)
    (hordered : g.output.bounds.lower ≤ g.output.bounds.upper)
    (hindex : g.output.var.index = w.model.vars.size)
    (hoperands : ∀ x ∈ g.operands, ∃ g' ∈ w.gates, g'.output = x)
    (hplain : ∀ source t terms constant y, g ≠ .signal source t terms constant y) :
    ∃ w' : Ledger lib, w'.session = s' ∧ w'.gates = w.gates ++ [g] ∧ w.Tidy w' := by
  have hgains := h
  obtain ⟨hagrees, constraints, hstores, hgrows⟩ := hgains
  have hsourced : g.Sourced w.context := by
    cases g with
    | signal source t terms constant y => exact absurd rfl (hplain source t terms constant y)
    | negation => trivial
    | extreme => trivial
  have hrecorded := recorded_of_gains h hformed hordered hsourced hindex
  obtain ⟨w', rfl, hgates⟩ := w.exists_next s' [g] hagrees.preserves hgrows
    (by simpa using hrecorded)
    (fun site entry hentry => (w.remembered site entry (hagrees.memo_eq ▸ hentry)).mono rfl
      (List.subset_append_left _ _))
    (fun f t hf => (isEncoded_of_agrees hagrees f t).trans hf)
    (fun source t terms constant y hmem =>
      absurd (List.mem_singleton.mp hmem).symm (hplain source t terms constant y))
  exact ⟨w', rfl, hgates, tidy_of_gains h hindex hoperands rfl rfl rfl hgates⟩

end Steps

/-! ## Remembering -/

section Remembering

variable {f : Formula Exact} {t : Nat} {x : Encoded Exact VarId}

theorem preserves_remember (ctx : EncodingContext Exact VarId) :
    ctx.Preserves (ctx.remember f t x) :=
  ⟨rfl, fun _ _ h => h⟩

/-- The session in which one more node is remembered. -/
def remembering (s : StoredSession) (f : Formula Exact) (t : Nat) (x : Encoded Exact VarId) :
    StoredSession :=
  { s with context := s.context.remember f t x }

/-- A ledger in which one more node is remembered. -/
theorem exists_remembered (w : Ledger lib) {u : Unrolled Exact} (hf : f ∈ lib.formulas)
    (hu : w.context.settings.unroll f t = .ok u) (hx : u.DenotedBy w.gates x) :
    ∃ w' : Ledger lib, w'.session = remembering w.session f t x ∧ w'.gates = w.gates ∧
      w.Tidy w' := by
  obtain ⟨w', hsession, hgates⟩ := w.exists_next (remembering w.session f t x) []
    (preserves_remember w.context) (.refl w.model) (by simp)
    (fun site entry hentry => by
      rw [List.append_nil]
      rw [remembering, EncodingContext.getElem?_remember] at hentry
      split at hentry
      · next hsite =>
        obtain rfl := Option.some.inj hentry
        subst hsite
        exact ⟨hf, rfl, u, hu, hx⟩
      · exact w.remembered site entry hentry)
    (fun g v hg => EncodingContext.isEncoded_remember.mpr (.inr hg)) (by simp)
  rw [List.append_nil] at hgates
  refine ⟨w', hsession, hgates, ?_, ?_, [], [], by simp [hgates], trivial, .nil, ?_⟩
  all_goals
    simp only [context, model, hsession]
    first | rfl | exact .refl w.session.solver

/-- A ledger with the gate of a predicate, which is remembered. -/
theorem exists_predicate (w : Ledger lib) {s' : StoredSession} {id : NodeId}
    {source : Signal Exact} {terms : List (Exact × VarId)} {constant : Exact}
    (hf : .predicate id source ∈ lib.formulas)
    (hbounds : source.bounds.lower ≤ source.bounds.upper)
    (hreads : w.context.Reads source t terms constant)
    (h : w.session.Gains s' (.signal source t terms constant ⟨w.model.vars.size⟩)) :
    ∃ w' : Ledger lib,
      w'.session = remembering s' (.predicate id source) t
        ⟨⟨w.model.vars.size⟩, source.bounds⟩ ∧
      w'.gates = w.gates ++ [.signal source t terms constant ⟨w.model.vars.size⟩] ∧
      w.Tidy w' := by
  set g := Gate.signal source t terms constant ⟨w.model.vars.size⟩ with hg
  have hgains := h
  obtain ⟨hagrees, constraints, hstores, hgrows⟩ := hgains
  have hctx : w.context.Preserves (s'.context.remember (.predicate id source) t
      ⟨⟨w.model.vars.size⟩, source.bounds⟩) :=
    ⟨hagrees.settings_eq, fun sample v hv => hagrees.bindings_eq ▸ hv⟩
  have hrecorded : g.Recorded (remembering s' (.predicate id source) t
      ⟨⟨w.model.vars.size⟩, source.bounds⟩) :=
    (recorded_of_gains h trivial hbounds hreads rfl).mono (preserves_remember s'.context)
      (.refl s'.solver)
  obtain ⟨w', hsession, hgates⟩ := w.exists_next (remembering s' (.predicate id source) t
      ⟨⟨w.model.vars.size⟩, source.bounds⟩) [g] hctx hgrows
    (by simpa using hrecorded)
    (fun site entry hentry => by
      rw [remembering, EncodingContext.getElem?_remember] at hentry
      split at hentry
      · next hsite =>
        obtain rfl := Option.some.inj hentry
        subst hsite
        exact ⟨hf, rfl, .signal source t, rfl, terms, constant, _, by simp [hg], rfl⟩
      · exact (w.remembered site entry (hagrees.memo_eq ▸ hentry)).mono rfl
          (List.subset_append_left _ _))
    (fun f v hv => EncodingContext.isEncoded_remember.mpr
      (.inr ((isEncoded_of_agrees hagrees f v).trans hv)))
    (fun source' t' terms' constant' y' hmem => by
      obtain ⟨rfl, rfl, -⟩ := Gate.signal.inj (List.mem_singleton.mp hmem)
      exact ⟨id, hf, EncodingContext.isEncoded_remember.mpr (.inl rfl)⟩)
  refine ⟨w', hsession, hgates, tidy_of_gains h rfl (by simp [hg, Gate.operands]) ?_ ?_ ?_ hgates⟩
  all_goals
    simp only [context, model, hsession]
    rfl

end Remembering

end Ledger

end SignalTemporalLogic
