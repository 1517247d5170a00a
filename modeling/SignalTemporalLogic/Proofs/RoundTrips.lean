import SignalTemporalLogic.Proofs.Accounting
import SignalTemporalLogic.Proofs.FiniteValues
import SignalTemporalLogic.Proofs.PreparedSessions
import SignalTemporalLogic.Proofs.SelectorSearch
import SignalTemporalLogic.Proofs.StoredBounds

/-!
Round trips: a formula is encoded over fixed samples, the model is solved, and the variable of the
formula has the robustness that the evaluation gives. Where an evaluation has a value, the formula
can be unrolled over signals that it asks for, so that the encoding returns and the samples extend
to a solution. Whether the search finds one depends on how many layers of groups the unrolling has.
-/

namespace SignalTemporalLogic

/-! ## Unrolling what is defined -/

/-- A run over a range returns if each of its steps does. -/
theorem Index.exists_mapRangeM {ε β : Type} {visit : Nat → Except ε β} {P : β → Prop}
    (start count : Nat) (h : ∀ u, start ≤ u → u < start + count → ∃ b, visit u = .ok b ∧ P b) :
    ∃ bs, mapRangeM visit start count = .ok bs ∧ bs.length = count ∧ ∀ b ∈ bs, P b := by
  induction count generalizing start with
  | zero => exact ⟨[], rfl, rfl, by simp⟩
  | succ count ih =>
    obtain ⟨b, hb, hPb⟩ := h start (Nat.le_refl _) (by omega)
    obtain ⟨bs, hbs, hlength, hall⟩ := ih (start + 1) fun u hu hu' => h u (by omega) (by omega)
    exact ⟨b :: bs, by simp [mapRangeM, hb, hbs], by simp [hlength],
      List.forall_mem_cons.mpr ⟨hPb, hall⟩⟩

section Unrolling

variable {α : Type} [Scalar α] {policy : WindowPolicy} {x : Trajectory α}

/-- The formula at `t` asks for the value of the signal at `n`, and there is one. -/
def Formula.Obtains (policy : WindowPolicy) (x : Trajectory α) (f : Formula α) (t : Nat)
    (signal : Signal α) (n : Nat) : Prop :=
  f.Asks policy x t signal n ∧ ∃ a, x.signalValue signal n = .ok a

/-- One of the operands at `t` asks for the value of the signal at `n`, and there is one. -/
def Operands.Obtains (policy : WindowPolicy) (x : Trajectory α) (args : Operands α) (t : Nat)
    (signal : Signal α) (n : Nat) : Prop :=
  args.Asks policy x t signal n ∧ ∃ a, x.signalValue signal n = .ok a

mutual

/-- A formula that is defined can be unrolled, over signals whose values it asks for. -/
theorem Formula.exists_unroll (hlen : x.length ≤ Index.last) : ∀ (f : Formula α) (t : Nat),
    f.Defined policy x t →
    ∃ u, f.unroll policy x.spacing x.length t = .ok u ∧ u.All (f.Obtains policy x t)
  | .predicate _ signal, t, h => ⟨.signal signal t, rfl, ⟨rfl, rfl⟩, h⟩
  | .not _ arg, t, h => by
    cases arg with
    | not _ inner => exact Formula.exists_unroll hlen inner t h
    | predicate | and | or | always | eventually | holdsUntil | next =>
      rw [Formula.Defined] at h
      obtain ⟨u, hu, hall⟩ := Formula.exists_unroll hlen _ t h
      exact ⟨.negation u, Except.bind_eq_ok.mpr ⟨u, hu, rfl⟩, hall⟩
  | .and _ args, t, h | .or _ args, t, h => by
    obtain ⟨us, hus, hall⟩ := Operands.exists_unroll hlen args t h
    exact ⟨_, Except.bind_eq_ok.mpr ⟨us, hus, rfl⟩, Unrolled.group_all.mpr hall⟩
  | .always _ interval arg, t, ⟨w, hw, h⟩ | .eventually _ interval arg, t, ⟨w, hw, h⟩ => by
    have harg : ∀ v ∈ w, ∃ u, arg.unroll policy x.spacing x.length v = .ok u ∧
        u.All fun signal n => (∃ w, x.window policy interval t = .ok w ∧
          ∃ v ∈ w, arg.Asks policy x v signal n) ∧ ∃ a, x.signalValue signal n = .ok a :=
      fun v hv => (Formula.exists_unroll hlen arg v (h v hv)).imp fun u ⟨hu, hall⟩ =>
        ⟨hu, hall.mono (fun _ _ => And.imp_left fun hasks => ⟨w, hw, v, hv, hasks⟩) u⟩
    obtain ⟨us, hus, -, hall⟩ := Index.exists_mapRangeM w.first w.size fun v hv hv' =>
      harg v (Window.mem_iff.mpr ⟨hv, hv'⟩)
    exact ⟨_, Except.bind_eq_ok.mpr ⟨w, hw, Except.bind_eq_ok.mpr ⟨us, hus, rfl⟩⟩,
      Unrolled.group_all.mpr hall⟩
  | .holdsUntil id interval left right, t, ⟨w, hw, hright, hleft⟩ => by
    have hrights : ∀ v ∈ w, ∃ u, right.unroll policy x.spacing x.length v = .ok u ∧
        u.All (Formula.Obtains policy x (.holdsUntil id interval left right) t) := fun v hv =>
      (Formula.exists_unroll hlen right v (hright v hv)).imp fun u ⟨hu, hall⟩ =>
        ⟨hu, hall.mono (fun _ _ => And.imp_left fun hasks => ⟨w, hw, .inl ⟨v, hv, hasks⟩⟩) u⟩
    have hlefts : ∀ v, t ≤ v → v < w.last → ∃ u, left.unroll policy x.spacing x.length v = .ok u ∧
        u.All (Formula.Obtains policy x (.holdsUntil id interval left right) t) := fun v hv hv' =>
      (Formula.exists_unroll hlen left v (hleft v hv hv')).imp fun u ⟨hu, hall⟩ =>
        ⟨hu, hall.mono (fun _ _ => And.imp_left fun hasks => ⟨w, hw, .inr ⟨v, hv, hv', hasks⟩⟩) u⟩
    obtain ⟨rights, hrights, hcount, hall⟩ := Index.exists_mapRangeM w.first w.size fun v hv hv' =>
      hrights v (Window.mem_iff.mpr ⟨hv, hv'⟩)
    obtain ⟨lefts, hlefts, hcount', hall'⟩ := Index.exists_mapRangeM t (w.last - t) fun v hv hv' =>
      hlefts v hv (by omega)
    have hfirst := (WindowPolicy.window_bounds hlen hw).1
    have hle := w.first_le_last
    have hsize : w.size = w.last - w.first + 1 := rfl
    exact ⟨_, Except.bind_eq_ok.mpr ⟨w, hw, Except.bind_eq_ok.mpr ⟨rights, hrights,
      Except.bind_eq_ok.mpr ⟨lefts, hlefts, rfl⟩⟩⟩, (Unrolled.untilBest_all (by omega)
        (List.ne_nil_of_length_pos (by omega))).mpr ⟨hall, hall'⟩⟩
  | .next _ arg, t, ⟨hlt, h⟩ => by
    have hw : (policy.offsets t 1 1 x.length : Except (Fault α) Window) =
        .ok ⟨t + 1, t + 1, Nat.le_refl _⟩ :=
      (WindowPolicy.offsets_one_eq_ok hlen).mpr ⟨hlt, rfl, rfl⟩
    obtain ⟨u, hu, hall⟩ := Formula.exists_unroll hlen arg (t + 1) h
    exact ⟨u, Except.bind_eq_ok.mpr ⟨_, hw, hu⟩,
      hall.mono (fun _ _ => And.imp_left fun hasks => ⟨hlt, hasks⟩) u⟩

theorem Operands.exists_unroll (hlen : x.length ≤ Index.last) : ∀ (args : Operands α) (t : Nat),
    args.Defined policy x t →
    ∃ us, args.unroll policy x.spacing x.length t = .ok us ∧
      ∀ u ∈ us, u.All (args.Obtains policy x t)
  | .pair first second, t, ⟨hfirst, hsecond⟩ => by
    obtain ⟨u, hu, hall⟩ := Formula.exists_unroll hlen first t hfirst
    obtain ⟨v, hv, hall'⟩ := Formula.exists_unroll hlen second t hsecond
    refine ⟨[u, v], Except.bind_eq_ok.mpr ⟨u, hu, Except.bind_eq_ok.mpr ⟨v, hv, rfl⟩⟩, ?_⟩
    exact List.forall_mem_cons.mpr ⟨hall.mono (fun _ _ => And.imp_left .inl) u,
      List.forall_mem_singleton.mpr (hall'.mono (fun _ _ => And.imp_left .inr) v)⟩
  | .cons first rest, t, ⟨hfirst, hrest⟩ => by
    obtain ⟨u, hu, hall⟩ := Formula.exists_unroll hlen first t hfirst
    obtain ⟨us, hus, hall'⟩ := Operands.exists_unroll hlen rest t hrest
    refine ⟨u :: us, Except.bind_eq_ok.mpr ⟨u, hu, Except.bind_eq_ok.mpr ⟨us, hus, rfl⟩⟩, ?_⟩
    exact List.forall_mem_cons.mpr ⟨hall.mono (fun _ _ => And.imp_left .inl) u,
      fun v hv => (hall' v hv).mono (fun _ _ => And.imp_left .inr) v⟩

end

end Unrolling

/-! ## Nodes that are reached -/

namespace EncodingSettings

variable {α : Type} [Scalar α] {settings : EncodingSettings α} {policy : WindowPolicy}
  {x : Trajectory α} {e e' : Formula α × Nat} {signal : Signal α} {n : Nat}

theorem RestsOn.asks (hlen : x.length ≤ Index.last) (hpolicy : settings.policy = policy)
    (hspacing : settings.spacing = x.spacing) (hlength : settings.horizon = x.length)
    (h : settings.RestsOn e e') (hasks : e'.1.Asks policy x e'.2 signal n) :
    e.1.Asks policy x e.2 signal n := by
  obtain ⟨f, t⟩ := e
  obtain ⟨es, hes, hmem⟩ := h
  unfold Formula.sources at hes
  split at hes
  · next id id' inner hf =>
    obtain rfl : f = .not id (.not id' inner) := hf
    cases hes
    cases List.mem_singleton.mp hmem
    exact hasks
  · rw [hpolicy, hspacing, hlength] at hes
    exact Formula.asks_of_uses hlen hes hmem hasks

/-- A formula asks for what the nodes ask for that are reached from it. -/
theorem Reaches.asks (hlen : x.length ≤ Index.last) (hpolicy : settings.policy = policy)
    (hspacing : settings.spacing = x.spacing) (hlength : settings.horizon = x.length)
    (h : settings.Reaches e e') (hasks : e'.1.Asks policy x e'.2 signal n) :
    e.1.Asks policy x e.2 signal n := by
  induction h with
  | refl => exact hasks
  | tail _ hrests ih => exact ih (hrests.asks hlen hpolicy hspacing hlength hasks)

end EncodingSettings

/-! ## Ledgers over fixed samples -/

/-- The variables of a model. -/
def StoredModel.ids (m : StoredModel Exact) : List VarId := (List.range m.vars.size).map VarId.mk

@[simp] theorem StoredModel.mem_ids {m : StoredModel Exact} {v : VarId} :
    v ∈ m.ids ↔ v.index < m.vars.size := by
  simp only [ids, List.mem_map, List.mem_range]
  exact ⟨fun ⟨_, hi, he⟩ => he ▸ hi, fun h => ⟨v.index, h, rfl⟩⟩

/-- A prepared session has no gates, and all variables are the caller's. -/
theorem Session.Prepared.exists_ledger {s : StoredSession} {policy : WindowPolicy}
    {x : Trajectory Exact} (h : s.Prepared policy x) (hlen : x.length ≤ Index.last)
    (htolerance : s.solver.tolerance = .fin 0) (lib : FormulaLibrary Exact) :
    ∃ l : Ledger lib, l.session = s ∧ l.gates = [] ∧ l.Own s.solver.ids ∧
      l.Accounts s.solver.ids := by
  refine ⟨{
    session := s
    gates := []
    horizon_le := h.serves.horizon_eq.symm ▸ hlen
    tolerance_eq := htolerance
    normal := by simp [h.constraints_eq]
    recorded := by simp
    remembered := by simp [h.memo_eq]
    named := by simp }, rfl, rfl, ⟨fun v hv => StoredModel.mem_ids.mp hv, by simp⟩,
    ⟨⟨.nil, by simp⟩, ?_, fun v hv => .inl (StoredModel.mem_ids.mpr hv), fun v hv => ?_,
      fun sample v hv => StoredModel.mem_ids.mpr (h.known sample v hv)⟩⟩
  · simp [Ledger.model, h.constraints_eq]
  · have hlt := StoredModel.mem_ids.mp hv
    obtain ⟨hkind, -⟩ := h.stands v _ (Array.getElem?_eq_getElem hlt)
    refine ⟨s.solver.vars[v.index].bounds, ?_⟩
    simp [Ledger.model, StoredModel.shapes, hlt, Variable.shape, Shape.real, hkind]

theorem StoredModel.range_declaredBox_of_shape {m : StoredModel Exact} {v : VarId} {shape : Shape}
    (h : m.shapes[v.index]? = some shape) : m.declaredBox.range v = shape.bounds := by
  rw [range_declaredBox (lt_of_shape h), bounds_eq_of_shape _ h]

@[simp] theorem StoredModel.size_declaredBox {m : StoredModel Exact} :
    m.declaredBox.size = m.vars.size := Array.size_map

namespace Ledger.Pinned

variable {lib : FormulaLibrary Exact} {l : Ledger lib} {own : List VarId}

/-- If the model has a solution, then the search begins with a box that has one. -/
theorem alive (h : l.Pinned own) {p : Assignment} (hsat : l.model.Satisfies p) :
    l.model.Alive l.gates l.model.declaredBox where
  size_eq := StoredModel.size_declaredBox
  solved := by
    refine ⟨p, hsat, fun v => ?_⟩
    by_cases hv : v.index < l.model.vars.size
    · rw [StoredModel.range_declaredBox hv]
      exact (hsat.allows v.index hv).contains
    · rw [Box.range_of_size_le (by simpa using hv)]
      exact Bounds.contains_unbounded _
  fixed v hv hadds := by
    rcases h.covered v hv with hown | ⟨g, hg, hv⟩
    · obtain ⟨q, hq⟩ := h.fixed v hown
      exact ⟨q, Box.pins_of_point (StoredModel.range_declaredBox_of_shape hq)⟩
    · exact absurd hv (hadds g hg)
  switches g hg d hd := .inl (StoredModel.range_declaredBox_of_shape (l.shape_of_switch hg hd))

end Ledger.Pinned

/-! ## After an encoding -/

section RoundTrip

variable {lib : FormulaLibrary Exact} {policy : WindowPolicy} {x : Trajectory Exact}
  {s : StoredSession} {f : Formula Exact} {anchor : Nat} {u : Unrolled Exact}
  {y : Encoded Exact VarId}

/-- The ledger of a session in which the formula and nothing else was encoded, over fixed
samples. -/
structure Ledger.AfterEncoding (l : Ledger lib) (s : StoredSession) (policy : WindowPolicy)
    (x : Trajectory Exact) (f : Formula Exact) (anchor : Nat) (u : Unrolled Exact)
    (y : Encoded Exact VarId) : Prop where
  pinned : l.Pinned s.solver.ids
  settings_eq : l.context.settings = s.context.settings
  bindings_eq : l.context.bindings = s.context.bindings
  shape_eq : ∀ v ∈ s.solver.ids, l.model.shapes[v.index]? = s.solver.shapes[v.index]?
  unrolls : s.context.settings.unroll f anchor = .ok u
  denoted : u.DenotedBy l.gates y
  within : ∀ g ∈ l.gates, g.Within l.gates u.layers
  asked : ∀ source t terms constant v, .signal source t terms constant v ∈ l.gates →
    f.Asks policy x anchor source t

/-- A signal over rationals that has a value in its range can be encoded. -/
theorem Session.Prepared.encodable (hs : s.Prepared policy x) {l : Ledger lib} (hl : l.session = s)
    {source : Signal Exact} {t : Nat} {a : Exact} (hform : source.form.Rational)
    (ha : x.signalValue source t = .ok a) (hordered : source.bounds.lower ≤ source.bounds.upper) :
    l.Encodable source t := by
  subst hl
  obtain ⟨value, hvalue⟩ := (hs.serves.linearForm_iff source t).mpr
    ⟨hform.elim fun _ ⟨_, hpart, _⟩ => ⟨_, hpart⟩, a, ha⟩
  have hreads := EncodingContext.reads_of_linearForm hvalue
  obtain ⟨hterms, hconstant⟩ := hreads.finite hform
  refine ⟨hordered, _, _, hreads, hconstant, fun term hterm => ⟨hterms term hterm, ?_⟩⟩
  obtain ⟨-, _, _, -, -, hresolves⟩ := hreads
  obtain ⟨input, -, -, -, hbound⟩ := (exists_of_forall₂ hresolves).2 term hterm
  exact hs.known _ _ hbound

/-- The nodes that an encoding in a prepared session remembers are reached from the formula. -/
theorem Session.Prepared.asked_of_isEncoded (hs : s.Prepared policy x)
    (hlen : x.length ≤ Index.last) (hf : f ∈ lib.formulas) {start : Option (ScoreTree Exact)}
    {root : VarId} {s' : StoredSession}
    (hrun : f.encodeAt StoredModel.solver anchor start s = (.ok root, s'))
    {id : NodeId} {source : Signal Exact} {t : Nat} (hlib : .predicate id source ∈ lib.formulas)
    (hencoded : s'.context.isEncoded (.predicate id source) t = true) :
    f.Asks policy x anchor source t := by
  obtain ⟨hintact, hwithin⟩ := EncodingContext.intact_of_memo_eq hs.memo_eq
    (hs.serves.horizon_eq.symm ▸ hlen)
  obtain ⟨w, hw, -, -, howes⟩ := (leads_encodeAt_owes (w := ⟨s, hintact, hwithin lib⟩)
    StoredModel.solver anchor start hf).exists_post (congrArg Prod.fst hrun)
  have hstate : w.val = s' := hw.trans (congrArg Prod.snd hrun)
  rw [← hstate] at hencoded
  obtain ⟨entry, hentry, hformula⟩ := w.property.1.remembers w.property.2 hlib hencoded
  have hreaches := (howes.added hentry).resolve_left (by simp [hs.memo_eq])
  rw [hformula] at hreaches
  exact EncodingSettings.Reaches.asks hlen hs.serves.policy_eq hs.serves.spacing_eq
    hs.serves.horizon_eq hreaches ⟨rfl, rfl⟩

/-- Over fixed samples every variable is a point. -/
theorem Session.Prepared.shape_eq_point (hs : s.Prepared policy x)
    (hfixed : ∀ v var, s.solver.lookup? v = some var → ∃ q, var.bounds = .point (.fin q))
    {v : VarId} (hv : v ∈ s.solver.ids) :
    ∃ q, s.solver.shapes[v.index]? = some (.real (.point (.fin q))) := by
  have hlt := StoredModel.mem_ids.mp hv
  obtain ⟨hkind, -⟩ := hs.stands v _ (Array.getElem?_eq_getElem hlt)
  obtain ⟨q, hq⟩ := hfixed v _ (Array.getElem?_eq_getElem hlt)
  refine ⟨q, ?_⟩
  simp [StoredModel.shapes, hlt, Variable.shape, Shape.real, hkind, hq]

/-- Variables that exist keep what they are. -/
theorem Ledger.Tidy.shape_eq {l l' : Ledger lib} (h : l.Tidy l') {v : VarId}
    (hv : v.index < l.model.vars.size) :
    l'.model.shapes[v.index]? = l.model.shapes[v.index]? := by
  obtain ⟨shapes, constraints, hgrows⟩ := h.later.model_grows
  have hlt : v.index < l.model.shapes.length := by simpa using hv
  rw [List.getElem?_eq_getElem hlt]
  exact hgrows.shape_of_shape (List.getElem?_eq_getElem hlt)

/-- **The encoding returns**, with the gates of the unrolled formula. -/
theorem Session.Prepared.exists_afterEncoding (hs : s.Prepared policy x)
    (hlen : x.length ≤ Index.last) (htolerance : s.solver.tolerance = .fin 0)
    (hfixed : ∀ v var, s.solver.lookup? v = some var → ∃ q, var.bounds = .point (.fin q))
    (hf : f ∈ lib.formulas) {m : Rat} (hbigM : s.context.settings.bigM = .constant (.fin m))
    (hsignals : ∀ source t a, f.Asks policy x anchor source t → x.signalValue source t = .ok a →
      source.form.Rational ∧ source.bounds.lower ≤ source.bounds.upper)
    (hinside : anchor < x.length) (hdefined : f.Defined policy x anchor)
    (start : Option (ScoreTree Exact)) :
    ∃ root s', f.encodeAt StoredModel.solver anchor start s = (.ok root, s') ∧
      ∃ (l : Ledger lib) (u : Unrolled Exact) (y : Encoded Exact VarId), l.session = s' ∧
        y.var = root ∧ l.AfterEncoding s policy x f anchor u y := by
  obtain ⟨l, rfl, hgates, hown, haccounts⟩ := hs.exists_ledger hlen htolerance lib
  obtain ⟨u, hu, hall⟩ := Formula.exists_unroll hlen f anchor hdefined
  have hunroll : l.context.settings.unroll f anchor = .ok u := by
    rw [EncodingSettings.unroll, hs.serves.policy_eq, hs.serves.spacing_eq, hs.serves.horizon_eq]
    exact hu
  have hready : l.Ready False f anchor :=
    .inr ⟨⟨hs.limit_eq, m, hbigM⟩, u, hunroll, hall.mono (fun source t ⟨hasks, a, ha⟩ =>
      have ⟨hform, hordered⟩ := hsignals source t a hasks ha
      hs.encodable rfl hform ha hordered) u⟩
  have hleads := l.leads_encodeAt False f anchor start hf
    (.inr (hs.serves.horizon_eq.symm ▸ hinside)) hready
  obtain ⟨root, hroot⟩ := hleads.exists_ok id
  obtain ⟨l', hl', htidy, y, hy, u', hu', hyields⟩ := hleads.exists_post hroot
  obtain rfl := Except.ok.inj (hunroll.symm.trans hu')
  have hrun : f.encodeAt StoredModel.solver anchor start l.session = (.ok root, l'.session) :=
    Prod.ext hroot hl'.symm
  have hshape : ∀ v ∈ l.model.ids, l'.model.shapes[v.index]? = l.model.shapes[v.index]? :=
    fun v hv => htidy.shape_eq (StoredModel.mem_ids.mp hv)
  refine ⟨root, _, hrun, l', u, y, rfl, hy, {
    pinned := ⟨haccounts.tidy htidy, hown.later htidy.later,
      fun v hv => hshape v hv ▸ hs.shape_eq_point hfixed hv⟩
    settings_eq := htidy.settings_eq
    bindings_eq := htidy.bindings_eq
    shape_eq := hshape
    unrolls := hunroll
    denoted := (List.forall₂_cons.mp hyields.denoted).1
    within := fun g hg => ?_
    asked := fun source t terms constant v hg => ?_ }⟩
  · obtain ⟨e, he, hle⟩ := (hyields.covers g hg).resolve_left (by simp [hgates])
    exact ⟨e, he, by simpa [Unrolled.listLayers] using hle⟩
  · obtain ⟨id, hlib, hencoded⟩ := l'.named source t terms constant v hg
    exact hs.asked_of_isEncoded hlen hf hrun hlib hencoded

namespace Ledger.AfterEncoding

variable {l : Ledger lib} {p : Assignment}

/-- The samples extend to a solution. -/
theorem exists_satisfies (h : l.AfterEncoding s policy x f anchor u y) (hs : s.Prepared policy x)
    {R : Bounds Exact → Rat → Prop} (hsuits : s.context.settings.bigM.Suits R)
    (hvalues : ∀ source t q, f.Asks policy x anchor source t →
      x.signalValue source t = .ok (.fin q) → R source.bounds q) :
    ∃ p, l.model.Satisfies p := by
  obtain ⟨p, hp⟩ := hs.exists_value
  have hfollows : l.context.Follows x p := {
    length_eq := by rw [h.settings_eq, hs.serves.horizon_eq]
    spacing_eq := by rw [h.settings_eq, hs.serves.spacing_eq]
    value_eq := fun sample v hv _ => hp sample v (h.bindings_eq ▸ hv) }
  have hbounds : ∀ v ∈ s.solver.ids, ∀ bounds, l.model.shapes[v.index]? = some (.real bounds) →
      bounds.Contains (p v) := by
    intro v hv bounds hbounds
    rw [h.shape_eq v hv] at hbounds
    have hlt := StoredModel.mem_ids.mp hv
    obtain ⟨-, -, sample, q, hbound, hvalue, hcontains⟩ :=
      hs.stands v _ (Array.getElem?_eq_getElem hlt)
    obtain rfl := Exact.fin.inj (Except.ok.inj (hvalue.symm.trans (hp sample v hbound)))
    have hsame : s.solver.vars[v.index].bounds = bounds :=
      StoredModel.bounds_eq_of_shape hlt hbounds
    exact hsame ▸ hcontains
  obtain ⟨hsat, -⟩ := h.pinned.toAccounts.satisfies (p := p) h.pinned.owned
    (h.settings_eq.symm ▸ hsuits) hbounds fun source t terms constant v hg =>
      hvalues source t _ (h.asked source t terms constant v hg)
        (Ledger.signalValue_of_mem hfollows hg)
  exact ⟨_, hsat⟩

/-- A solution has the samples. -/
theorem follows (h : l.AfterEncoding s policy x f anchor u y) (hs : s.Prepared policy x)
    (hsat : l.model.Satisfies p) : l.context.Follows x p where
  length_eq := by rw [h.settings_eq, hs.serves.horizon_eq]
  spacing_eq := by rw [h.settings_eq, hs.serves.spacing_eq]
  value_eq sample v hv _ := by
    rw [h.bindings_eq] at hv
    have hlt := hs.known sample v hv
    have hmem : v ∈ s.solver.ids := StoredModel.mem_ids.mpr hlt
    obtain ⟨q, hq⟩ := h.pinned.fixed v hmem
    obtain ⟨-, -, sample', q', hbound, hvalue, hcontains⟩ :=
      hs.stands v _ (Array.getElem?_eq_getElem hlt)
    obtain rfl := hs.alone sample sample' v hv hbound
    have hallowed := Shape.real_allows_iff.mp ((StoredModel.satisfies_iff.mp hsat).1 v.index _ hq)
    rw [h.shape_eq v hmem] at hq
    have hpoint : s.solver.vars[v.index].bounds = .point (.fin q) :=
      StoredModel.bounds_eq_of_shape hlt hq
    rw [hpoint, Bounds.contains_point] at hcontains
    rw [hvalue, hcontains, Bounds.contains_point.mp hallowed]

/-- In a solution the variable of the formula has its robustness. -/
theorem robustness_eq (h : l.AfterEncoding s policy x f anchor u y) (hs : s.Prepared policy x)
    (hsat : l.model.Satisfies p) : f.robustness policy x anchor = .ok (.fin (p y.var)) := by
  have hunroll : l.context.settings.unroll f anchor = .ok u := h.settings_eq ▸ h.unrolls
  have hrobustness := Ledger.robustness_eq hsat (h.follows hs hsat) hunroll h.denoted
  rwa [h.settings_eq, hs.serves.policy_eq] at hrobustness

/-- What the search returns as feasible is the robustness. -/
theorem value_eq (h : l.AfterEncoding s policy x f anchor u y) (hs : s.Prepared policy x)
    (hfeasible : l.model.solve.status = .feasible) :
    ∃ r, f.robustness policy x anchor = .ok r ∧ l.model.solve.value? y.var = some r := by
  have hcheck := StoredModel.check_of_isFeasible (m := l.model) (decide_eq_true hfeasible)
  obtain ⟨rationals, hrationals⟩ := h.pinned.exists_rationals hcheck
  rw [hrationals] at hcheck
  obtain ⟨hsize, hsat⟩ := (StoredModel.check_iff l.tolerance_eq l.normal rationals).mp hcheck
  obtain ⟨g, hg, houtput⟩ := h.denoted.exists_output
  have hlt : y.var.index < rationals.size := hsize ▸ houtput ▸ l.index_lt hg
  refine ⟨_, h.robustness_eq hs hsat, ?_⟩
  simp [Solution.value?, hrationals, assignmentOf, hlt]

end Ledger.AfterEncoding

/-- **Encoding and solving gives the robustness.** Take a session with a variable for each sample of
a trajectory, fixed to the sample, and nothing else, without a tolerance, and a formula over affine
signals that has a robustness. The values of its predicates lie in the ranges of their signals, and
the big-M constant is at least twice as large as all of them. Then the encoding returns a variable,
and the solver either finds no solution or one in which the variable has the robustness. Unless it
is out of nodes, it does find one if propagation has more than two rounds for each layer of groups
in the unrolled formula. -/
theorem round_trip {r : Exact} {m limit : Rat} (hs : s.Prepared policy x)
    (hlen : x.length ≤ Index.last) (htolerance : s.solver.tolerance = .fin 0)
    (hfixed : ∀ v var, s.solver.lookup? v = some var → ∃ q, var.bounds = .point (.fin q))
    (hf : f ∈ lib.formulas)
    (haffine : ∀ source t, f.Asks policy x anchor source t → source.form.Rational)
    (hranges : ∀ source t q, f.Asks policy x anchor source t →
      x.signalValue source t = .ok (.fin q) → source.bounds.Contains q ∧ |q| ≤ limit)
    (hbigM : s.context.settings.bigM = .constant (.fin m)) (hle : 2 * limit ≤ m)
    (hrobustness : f.robustness policy x anchor = .ok r) (start : Option (ScoreTree Exact)) :
    ∃ root s' u, f.encodeAt StoredModel.solver anchor start s = (.ok root, s') ∧
      s.context.settings.unroll f anchor = .ok u ∧
      (s'.solver.solve.status = .feasible → s'.solver.solve.value? root = some r) ∧
      (2 * u.layers < StoredModel.maxRounds → s'.solver.solve.status ≠ .nodeLimit →
        s'.solver.solve.status = .feasible) := by
  obtain ⟨hinside, hvalue⟩ := Formula.evaluate_eq_ok.mp hrobustness
  have hdefined := Formula.defined_of_valueAt hlen f anchor r hvalue
  let R : Bounds Exact → Rat → Prop := fun b q => b.Contains q ∧ |q| ≤ limit
  have hsignals : ∀ source t a, f.Asks policy x anchor source t →
      x.signalValue source t = .ok a →
        source.form.Rational ∧ source.bounds.lower ≤ source.bounds.upper := by
    intro source t a hasks ha
    obtain ⟨w, -⟩ := hs.exists_warm lib R
    obtain ⟨q, rfl⟩ := w.exists_signalValue_eq (haffine source t hasks) ha
    exact ⟨haffine source t hasks, (hranges source t q hasks ha).1.lower_le_upper⟩
  obtain ⟨root, s', hrun, l, u, y, rfl, rfl, h⟩ := hs.exists_afterEncoding hlen htolerance hfixed hf
    hbigM hsignals hinside hdefined start
  refine ⟨y.var, _, u, hrun, h.unrolls, fun hfeasible => ?_, fun hlayers hnodes => ?_⟩
  · obtain ⟨r', hr', hfound⟩ := h.value_eq hs hfeasible
    obtain rfl := Except.ok.inj (hrobustness.symm.trans hr')
    exact hfound
  · have hsuits : s.context.settings.bigM.Suits R := hbigM ▸ BigM.suits_constant hle
    obtain ⟨p, hsat⟩ := h.exists_satisfies hs hsuits hranges
    exact h.pinned.wired.solve (h.pinned.alive hsat) hlayers h.within hnodes

end RoundTrip

/-- A session with a variable fixed to each sample of the table of two. -/
def fixedSampleSession : StoredSession where
  solver :=
    ⟨#[⟨"x[0]", .continuous, .point (.fin 3), none⟩,
      ⟨"x[1]", .continuous, .point (.fin (-2)), none⟩], #[], none, .fin 0, 100⟩
  context := { twoSampleSession.context with
    settings := ⟨.constant (.fin 20), 2, .fin 1, .strict, "stl"⟩ }

theorem fixedSampleSession_lookup {v : VarId} {var : Variable Exact}
    (h : fixedSampleSession.solver.lookup? v = some var) :
    (v = ⟨0⟩ ∧ var = ⟨"x[0]", .continuous, .point (.fin 3), none⟩) ∨
      (v = ⟨1⟩ ∧ var = ⟨"x[1]", .continuous, .point (.fin (-2)), none⟩) := by
  have hv : v.index < 2 := StoredModel.lt_of_lookup? h
  obtain ⟨i⟩ := v
  replace hv : i = 0 ∨ i = 1 := by simp only at hv; omega
  rcases hv with rfl | rfl
  · exact .inl ⟨rfl, (Option.some.inj h).symm⟩
  · exact .inr ⟨rfl, (Option.some.inj h).symm⟩

theorem fixedSampleSession_prepared :
    fixedSampleSession.Prepared .strict twoSamples.toTrajectory where
  serves := { twoSampleSession_prepared.serves with
    horizon_eq := rfl, spacing_eq := rfl, policy_eq := rfl }
  memo_eq := rfl
  limit_eq := rfl
  constraints_eq := rfl
  known := twoSampleSession_prepared.known
  alone := twoSampleSession_prepared.alone
  stands v var h := by
    rcases fixedSampleSession_lookup h with ⟨rfl, rfl⟩ | ⟨rfl, rfl⟩
    · exact ⟨rfl, rfl, ⟨"x", 0⟩, 3, twoSampleSession_bindings.mpr (.inl ⟨rfl, rfl⟩),
        by decide +kernel, Bounds.contains_point.mpr rfl⟩
    · exact ⟨rfl, rfl, ⟨"x", 1⟩, -2, twoSampleSession_bindings.mpr (.inr ⟨rfl, rfl⟩),
        by decide +kernel, Bounds.contains_point.mpr rfl⟩

/-- The maximum of 3 and -2 comes back from the solver. -/
theorem round_trip_of_fixedSamples :
    ∃ root s', sometime.encodeAt StoredModel.solver 0 none fixedSampleSession = (.ok root, s') ∧
      s'.solver.solve.status = .feasible ∧ s'.solver.solve.value? root = some (.fin 3) := by
  have hasks {source : Signal Exact} {t : Nat}
      (h : sometime.Asks .strict twoSamples.toTrajectory 0 source t) : source = bounded :=
    h.elim fun _ ⟨_, _, _, hsource, _⟩ => hsource
  obtain ⟨root, s', u, hrun, hunroll, hvalue, hsolve⟩ :=
    @round_trip sometimeLibrary .strict twoSamples.toTrajectory fixedSampleSession sometime 0
      (.fin 3) 20 10 fixedSampleSession_prepared (by decide) rfl
      (fun v var h => by
        rcases fixedSampleSession_lookup h with ⟨-, rfl⟩ | ⟨-, rfl⟩ <;> exact ⟨_, rfl⟩)
      (.inl rfl)
      (fun source t h => by
        obtain rfl := hasks h
        exact ⟨[(.fin 1, ⟨"x", 0⟩)], .fin 0, by decide +kernel, by decide +kernel,
          by decide +kernel⟩)
      (fun source t q h hq => by
        obtain rfl := hasks h
        have ht : t < 2 := Trajectory.lt_of_signalValue hq
        have hvalue : ∀ u < 2, twoSamples.toTrajectory.signalValue bounded u =
            .ok (.fin (dropped ⟨"x", u⟩)) := by decide +kernel
        obtain rfl := Exact.fin.inj (Except.ok.inj ((hvalue t ht).symm.trans hq))
        have hcontains := dropped_contains ⟨"x", t⟩
        exact ⟨hcontains, abs_le.mpr (Bounds.contains_fin.mp hcontains)⟩)
      rfl (by norm_num) (by decide +kernel) none
  have hlayers : (fixedSampleSession.context.settings.unroll sometime 0).toOption.map
      Unrolled.layers = some 1 := by decide +kernel
  have hnodes : (sometime.encodeAt StoredModel.solver 0 none
      fixedSampleSession).2.solver.solve.status ≠ .nodeLimit := by decide +kernel
  rw [hunroll] at hlayers
  rw [hrun] at hnodes
  have hone : u.layers = 1 := Option.some.inj hlayers
  have hfeasible := hsolve (by rw [hone]; decide) hnodes
  exact ⟨root, s', hrun, hfeasible, hvalue hfeasible⟩

end SignalTemporalLogic
