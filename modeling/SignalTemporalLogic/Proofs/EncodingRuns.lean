import SignalTemporalLogic.Proofs.Ledger

/-!
What an encoding does to a ledger. A formula that is encoded gives a variable for its unrolling, by
induction on the formula; each connective follows from what a group, a negation, a memoized node and
a run over a window give.
-/

namespace SignalTemporalLogic

open RunLogic

namespace Ledger

variable {lib : FormulaLibrary Exact} {fails : Prop}

/-! ## Results -/

/-- All gates since the first ledger have results of at most `n` layers. -/
def Covers (w w' : Ledger lib) (n : Nat) : Prop :=
  ∀ g ∈ w'.gates, g ∈ w.gates ∨ ∃ v : Unrolled Exact, v.DenotedBy w'.gates g.output ∧ v.layers ≤ n

/-- Since the first ledger the variables have come to stand for the expressions. -/
structure Yields (w w' : Ledger lib) (us : List (Unrolled Exact))
    (xs : List (Encoded Exact VarId)) : Prop where
  denoted : List.Forall₂ (Unrolled.DenotedBy w'.gates) us xs
  covers : w.Covers w' (Unrolled.listLayers us)

section Results

variable {u v w : Ledger lib} {us vs : List (Unrolled Exact)} {xs ys : List (Encoded Exact VarId)}

theorem denoted_mono (h : List.Forall₂ (Unrolled.DenotedBy v.gates) us xs)
    (hgates : v.gates ⊆ w.gates) : List.Forall₂ (Unrolled.DenotedBy w.gates) us xs :=
  h.imp fun _ _ => Unrolled.DenotedBy.mono hgates _ _

theorem Covers.mono {n n' : Nat} (h : u.Covers v n) (hle : n ≤ n') : u.Covers v n' := fun g hg =>
  (h g hg).imp_right fun ⟨e, he, hn⟩ => ⟨e, he, hn.trans hle⟩

theorem Covers.trans {n n' : Nat} (h : u.Covers v n) (k : v.Covers w n')
    (hgates : v.gates ⊆ w.gates) : u.Covers w (max n n') := by
  intro g hg
  rcases k g hg with hg | ⟨e, he, hn⟩
  · exact (h g hg).imp_right fun ⟨e, he, hn⟩ =>
      ⟨e, Unrolled.DenotedBy.mono hgates _ _ he, hn.trans (Nat.le_max_left _ _)⟩
  · exact .inr ⟨e, he, hn.trans (Nat.le_max_right _ _)⟩

theorem covers_of_eq {n : Nat} (h : w.gates = v.gates) : v.Covers w n := fun _ hg => .inl (h ▸ hg)

theorem Yields.append (h : u.Yields v us xs) (k : v.Yields w vs ys) (hgates : v.gates ⊆ w.gates) :
    u.Yields w (us ++ vs) (xs ++ ys) where
  denoted := List.rel_append (denoted_mono h.denoted hgates) k.denoted
  covers := by
    rw [Unrolled.listLayers_append]
    exact h.covers.trans k.covers hgates

theorem Yields.nil (w : Ledger lib) : w.Yields w [] [] := ⟨.nil, covers_of_eq rfl⟩

/-- What stands for something is the result of a gate, and so a variable with an ordered range. -/
theorem Yields.output (h : u.Yields v us xs) {x : Encoded Exact VarId} (hx : x ∈ xs) :
    (∃ g ∈ v.gates, g.output = x) ∧ x.var.index < v.model.vars.size ∧
      x.bounds.lower ≤ x.bounds.upper := by
  obtain ⟨i, hi, rfl⟩ := List.mem_iff_getElem.mp hx
  have hdenoted := List.Forall₂.get h.denoted (h.denoted.length_eq ▸ hi) hi
  obtain ⟨g, hg, he⟩ := Unrolled.DenotedBy.exists_output hdenoted
  rw [List.get_eq_getElem] at he
  exact ⟨⟨g, hg, he⟩, he ▸ v.index_lt hg, he ▸ (v.recorded g hg).ordered⟩

end Results

/-! ## Readiness -/

/-- There is no limit to variables, and big-M constants are always found. -/
structure Roomy (w : Ledger lib) : Prop where
  limit_eq : w.model.variableLimit = none
  constant : ∃ q, w.context.settings.bigM = .constant (.fin q)

/-- The signal can be encoded at the index. -/
structure Encodable (w : Ledger lib) (source : Signal Exact) (t : Nat) : Prop where
  ordered : source.bounds.lower ≤ source.bounds.upper
  reads : ∃ terms constant, w.context.Reads source t terms constant ∧ Scalar.IsFinite constant ∧
    ∀ t ∈ terms, Scalar.IsFinite t.1 ∧ t.2.index < w.model.vars.size

section Readiness

variable {w w' : Ledger lib}

theorem Tidy.preserves (h : w.Tidy w') : w.context.Preserves w'.context :=
  ⟨h.settings_eq, fun _ _ hv => h.bindings_eq ▸ hv⟩

theorem Tidy.gates_subset (h : w.Tidy w') : w.gates ⊆ w'.gates := h.later.gates_subset

theorem Roomy.mono (h : w.Roomy) (htidy : w.Tidy w') : w'.Roomy := by
  obtain ⟨shapes, constraints, hgrows⟩ := htidy.later.model_grows
  exact ⟨hgrows.variableLimit_eq.trans h.limit_eq, htidy.settings_eq ▸ h.constant⟩

theorem Encodable.mono {source : Signal Exact} {t : Nat} (h : w.Encodable source t)
    (htidy : w.Tidy w') : w'.Encodable source t := by
  obtain ⟨shapes, constraints, hgrows⟩ := htidy.later.model_grows
  obtain ⟨terms, constant, hreads, hconstant, hterms⟩ := h.reads
  refine ⟨h.ordered, terms, constant, hreads.mono htidy.preserves, hconstant, fun t ht => ?_⟩
  exact ⟨(hterms t ht).1, by rw [hgrows.size_eq]; exact Nat.lt_add_right _ (hterms t ht).2⟩

end Readiness

/-! ## Steps -/

section Steps

variable {w v : Ledger lib} {β : Type}

theorem leads_of_stepping {act : Encode Exact VarId (StoredModel Exact) β}
    {post : β → Ledger lib → Prop}
    (h : (stepping fails).Leads w.session act fun b s =>
      ∃ w' : Ledger lib, w'.session = s ∧ w.Tidy w' ∧ post b w') :
    (logic lib fails).Leads w act post := by
  rcases hrun : act w.session with ⟨fault | b, s⟩
  · obtain ⟨hfails, s', rfl, hgrows⟩ := (leads_of_error hrun).mp h
    obtain ⟨w', hsession, -, hlater⟩ := w.exists_grown _ hgrows
    exact (leads_of_error hrun).mpr ⟨hfails, w', hsession, hlater⟩
  · obtain ⟨s', rfl, -, w', hsession, htidy, hpost⟩ := (leads_of_ok hrun).mp h
    exact (leads_of_ok hrun).mpr ⟨w', hsession, htidy, hpost⟩

/-- A group of operands that stand for expressions stands for their extreme. -/
theorem leads_group_yields {e : Extremum} {role : VariableRole} {t : Nat}
    {start : Option (ScoreTree Exact)} {us : List (Unrolled Exact)}
    {xs : List (Encoded Exact VarId)} (hyields : w.Yields v us xs)
    (hready : fails ∨ v.Roomy ∧ us ≠ []) :
    (logic lib fails).Leads v (Encode.group StoredModel.solver e role t start xs)
      fun x v' => w.Yields v' [.group e us] [x] := by
  have hlength := hyields.denoted.length_eq
  have hoperands : fails ∨ xs ≠ [] ∧ v.model.variableLimit = none ∧
      (∀ x ∈ xs, x.var.index < v.model.vars.size ∧ x.bounds.lower ≤ x.bounds.upper) ∧
      ∃ m, v.context.settings.bigM.resolve (xs.map Encoded.bounds) = .ok m ∧
        Scalar.IsFinite m := by
    refine hready.imp_right fun ⟨hroomy, hne⟩ => ?_
    obtain ⟨q, hq⟩ := hroomy.constant
    refine ⟨?_, hroomy.limit_eq, fun x hx => (hyields.output hx).2, .fin q, by rw [hq]; rfl,
      by simp⟩
    rw [← List.length_pos_iff] at hne ⊢
    omega
  refine leads_of_stepping (leads_group hoperands ?_ ?_)
  · rintro x s' rfl hagrees hsolver
    obtain ⟨u, rfl⟩ := List.length_eq_one_iff.mp hlength
    obtain ⟨v', hsession, hgates, htidy⟩ := v.exists_relabelled s' hagrees hsolver
    refine ⟨v', hsession, htidy, denoted_mono hyields.denoted htidy.gates_subset, ?_⟩
    exact (hyields.covers.trans (covers_of_eq hgates) htidy.gates_subset).mono
      (Nat.max_le.mpr ⟨Nat.le_refl _, Nat.le_refl _⟩)
  · intro m s' hm htwo hordered hgains
    have hselectors : ((List.range' (v.session.solver.vars.size + 1) xs.length).map VarId.mk).length =
        xs.length := by simp
    have hfinite := hgains.extends_solver.isFinite hselectors (List.length_pos_iff.mp (by omega))
    obtain ⟨v', hsession, hgates, htidy⟩ := v.exists_gained hgains ⟨htwo, rfl, hm, hfinite⟩ hordered
      rfl (fun x hx => (hyields.output hx).1) (by simp)
    have hgroup : Unrolled.group e us = .extreme e us := by
      match us with
      | [] | [_] => simp at hlength; omega
      | _ :: _ :: _ => rfl
    have hdenoted := denoted_mono hyields.denoted htidy.gates_subset
    have hresult : (Unrolled.group e us).DenotedBy v'.gates
        ⟨⟨v.session.solver.vars.size⟩, e.boundsOf (xs.map Encoded.bounds)⟩ := by
      rw [hgroup]
      have hmem : Gate.extreme e m xs ⟨v.session.solver.vars.size⟩
          ((List.range' (v.session.solver.vars.size + 1) xs.length).map VarId.mk) ∈ v'.gates := by
        simp [hgates]
      exact ⟨m, xs, _, _, hmem, Unrolled.listDenotedBy_iff.mpr hdenoted, rfl⟩
    refine ⟨v', hsession, htidy, .cons hresult .nil, fun g hg => ?_⟩
    rw [hgates] at hg
    rcases List.mem_append.mp hg with hg | hg
    · refine (hyields.covers g hg).imp_right fun ⟨u, hu, hn⟩ =>
        ⟨u, Unrolled.DenotedBy.mono htidy.gates_subset _ _ hu, hn.trans ?_⟩
      simpa [Unrolled.listLayers] using Unrolled.listLayers_le_group e
    · rw [List.mem_singleton.mp hg]
      exact .inr ⟨_, hresult, by simp [Unrolled.listLayers]⟩

theorem leads_negation_yields {t : Nat} {start : Option (ScoreTree Exact)} {u : Unrolled Exact}
    {x : Encoded Exact VarId} (hyields : w.Yields v [u] [x]) (hready : fails ∨ v.Roomy) :
    (logic lib fails).Leads v (Encode.negation StoredModel.solver t start x)
      fun y v' => w.Yields v' [.negation u] [y] := by
  obtain ⟨houtput, hindex, hordered⟩ := hyields.output (List.mem_singleton.mpr rfl)
  refine leads_of_stepping (leads_negation
    (hready.imp_right fun h => ⟨h.limit_eq, hordered, hindex⟩) fun s' hnegated hgains => ?_)
  obtain ⟨v', hsession, hgates, htidy⟩ := v.exists_gained hgains trivial hnegated rfl
    (by simpa [Gate.operands] using houtput) (by simp)
  have hdenoted := denoted_mono hyields.denoted htidy.gates_subset
  have hresult : (Unrolled.negation u).DenotedBy v'.gates
      ⟨⟨v.session.solver.vars.size⟩, x.bounds.negate⟩ :=
    ⟨x, _, by rw [hgates]; simp, (List.forall₂_cons.mp hdenoted).1, rfl⟩
  refine ⟨v', hsession, htidy, .cons hresult .nil, fun g hg => ?_⟩
  rw [hgates] at hg
  rcases List.mem_append.mp hg with hg | hg
  · rcases hyields.covers g hg with hold | hnew
    · exact .inl hold
    · obtain ⟨u, hu, hn⟩ := hnew
      exact .inr ⟨u, Unrolled.DenotedBy.mono htidy.gates_subset _ _ hu, hn⟩
  · rw [List.mem_singleton.mp hg]
    exact .inr ⟨_, hresult, by simp [Unrolled.listLayers]⟩

/-! ## Memoized nodes -/

theorem leads_ledger_context {post : EncodingContext Exact VarId → Ledger lib → Prop}
    (h : post w.context w) : (logic lib fails).Leads w Encode.context post :=
  leads_bind (leads_get (leads_pure h))

/-- The variable stands for the formula at the index. -/
def Encodes (w v : Ledger lib) (f : Formula Exact) (t : Nat) (x : Encoded Exact VarId) : Prop :=
  ∃ u, w.context.settings.unroll f t = .ok u ∧ w.Yields v [u] [x]

/-- A node that was encoded before has the variable that it got then. -/
theorem leads_hit {f : Formula Exact} {t : Nat} {x : Encoded Exact VarId} (hf : f ∈ lib.formulas)
    (h : w.context.encoded? f t = some x) :
    (logic lib fails).Leads w (do
      Encode.modifyContext .countHit
      return x : Encode Exact VarId (StoredModel Exact) _) (fun x v => w.Encodes v f t x) := by
  obtain ⟨v, hsession, hgates, htidy⟩ := w.exists_relabelled
    { w.session with context := w.context.countHit } ⟨rfl, rfl, rfl⟩ rfl
  refine leads_bind (leads_modify v hsession htidy (leads_pure ?_))
  obtain ⟨entry, hentry, rfl⟩ := Option.map_eq_some_iff.mp h
  obtain ⟨hlib, hid, u, hu, hdenoted⟩ := w.remembered _ entry hentry
  rw [lib.unique entry.formula hlib f hf hid] at hu
  exact ⟨u, hu, .cons (hgates ▸ hdenoted) .nil, covers_of_eq hgates⟩

/-- A node is remembered with what its encoding gives. -/
theorem leads_memoized {f : Formula Exact} {t : Nat} {act : Encode Exact VarId (StoredModel Exact) _}
    (hf : f ∈ lib.formulas)
    (h : (logic lib fails).Leads w act fun x v => w.Encodes v f t x) :
    (logic lib fails).Leads w (Encode.memoized f t act) fun x v => w.Encodes v f t x := by
  refine leads_bind (leads_ledger_context ?_)
  cases hmemo : w.context.encoded? f t with
  | some x => exact leads_hit hf hmemo
  | none =>
    refine leads_bind (h.mono fun x v hv ⟨u, hu, hyields⟩ => ?_)
    obtain ⟨v', hsession, hgates, htidy⟩ := v.exists_remembered hf
      (hv.settings_eq ▸ hu) (List.forall₂_cons.mp hyields.denoted).1
    refine leads_bind (leads_modify v' hsession htidy (leads_pure ⟨u, hu, ?_⟩))
    exact ⟨hgates ▸ hyields.denoted, fun g hg => hgates ▸ hyields.covers g (hgates ▸ hg)⟩

/-- A predicate is remembered together with its gate. -/
theorem leads_predicate_encodes {id : NodeId} {source : Signal Exact} {t : Nat}
    {start : Option (ScoreTree Exact)} (hf : .predicate id source ∈ lib.formulas)
    (hready : fails ∨ w.Roomy ∧ w.Encodable source t) :
    (logic lib fails).Leads w (Encode.memoized (.predicate id source) t
      (Encode.predicate StoredModel.solver source t start))
      fun x v => w.Encodes v (.predicate id source) t x := by
  refine leads_bind (leads_ledger_context ?_)
  cases hmemo : w.context.encoded? (.predicate id source) t with
  | some x => exact leads_hit hf hmemo
  | none =>
    -- the step that remembers is taken together with the gate, as no ledger lies between them
    have hsteps : (stepping fails).Leads w.session
        (Encode.predicate StoredModel.solver source t start) fun x s' =>
          ∃ v : Ledger lib, v.session = remembering s' (.predicate id source) t x ∧ w.Tidy v ∧
            w.Encodes v (.predicate id source) t x :=
      leads_predicate (hready.imp_right fun h => ⟨h.1.limit_eq, h.2.ordered, h.2.reads⟩)
        fun terms constant s' hbounds hreads hgains => by
          obtain ⟨v, hsession, hgates, htidy⟩ := w.exists_predicate hf hbounds hreads hgains
          have hdenoted : (Unrolled.signal source t).DenotedBy v.gates
              ⟨⟨w.session.solver.vars.size⟩, source.bounds⟩ :=
            ⟨terms, constant, _, hgates ▸ List.mem_append_right _ (List.mem_singleton.mpr rfl), rfl⟩
          refine ⟨v, hsession, htidy, .signal source t, rfl, .cons hdenoted .nil, fun g hg => ?_⟩
          rw [hgates] at hg
          rcases List.mem_append.mp hg with hg | hg
          · exact .inl hg
          · rw [List.mem_singleton.mp hg]
            exact .inr ⟨_, hdenoted, Nat.zero_le _⟩
    rcases hrun : Encode.predicate StoredModel.solver source t start w.session with ⟨fault | x, s⟩
    · obtain ⟨hfails, s', rfl, hgrows⟩ := (leads_of_error hrun).mp hsteps
      obtain ⟨v, hsession, -, hlater⟩ := w.exists_grown _ hgrows
      exact (leads_of_error (run_bind_error hrun)).mpr ⟨hfails, v, hsession, hlater⟩
    · obtain ⟨s', rfl, -, v, hsession, htidy, hencodes⟩ := (leads_of_ok hrun).mp hsteps
      refine (leads_of_ok (b := x) (s := remembering s' (.predicate id source) t x)
        ((run_bind_ok _ hrun).trans rfl)).mpr ?_
      exact ⟨v, hsession, htidy, hencodes⟩

/-! ## Runs over windows -/

theorem Tidy.trans {u : Ledger lib} (h : u.Tidy v) (k : v.Tidy w) : u.Tidy w :=
  (logic lib True).tidy_trans h k

theorem yields_refl {us : List (Unrolled Exact)} {xs : List (Encoded Exact VarId)}
    (h : List.Forall₂ (Unrolled.DenotedBy v.gates) us xs) : v.Yields v us xs :=
  ⟨h, covers_of_eq rfl⟩

theorem leads_window {interval : TimeInterval Exact} {t : Nat} {post : Window → Ledger lib → Prop}
    (hready : fails ∨ ∃ win, w.context.settings.policy.window interval w.context.settings.spacing t
      w.context.settings.horizon = .ok win)
    (hpost : ∀ win, w.context.settings.policy.window interval w.context.settings.spacing t
      w.context.settings.horizon = .ok win → post win w) :
    (logic lib fails).Leads w (Encode.window interval t) post :=
  leads_bind (leads_ledger_context (leads_lift hpost hready))

theorem leads_nextWindow {t : Nat} {post : Window → Ledger lib → Prop}
    (hready : fails ∨ ∃ win, (w.context.settings.policy.offsets t 1 1 w.context.settings.horizon :
      Except (Fault Exact) Window) = .ok win)
    (hpost : ∀ win, (w.context.settings.policy.offsets t 1 1 w.context.settings.horizon :
      Except (Fault Exact) Window) = .ok win → post win w) :
    (logic lib fails).Leads w (Encode.nextWindow t) post :=
  leads_bind (leads_ledger_context (leads_lift hpost hready))

/-- Results over consecutive indices stand for the expressions there. -/
theorem leads_range_yields {visit : Nat → Encode Exact VarId (StoredModel Exact) (Encoded Exact VarId)}
    (unroll : Nat → Except (Fault Exact) (Unrolled Exact)) {start count : Nat}
    (h : ∀ u v, start ≤ u → u < start + count → w.Tidy v →
      (logic lib fails).Leads v (visit u) fun x v' => ∃ e, unroll u = .ok e ∧ v.Yields v' [e] [x]) :
    (logic lib fails).Leads w (Index.mapRangeM visit start count) fun xs v =>
      ∃ us, Index.mapRangeM unroll start count = .ok us ∧ w.Yields v us xs := by
  induction count generalizing start w with
  | zero => exact leads_pure ⟨[], rfl, .nil w⟩
  | succ count ih =>
    refine leads_bind ((h start w (Nat.le_refl _) (by omega) ((logic lib fails).tidy_refl w)).mono ?_)
    rintro x v hv ⟨e, he, hfirst⟩
    refine leads_bind ((@ih v (start + 1) fun u v' hu hu' hv' =>
      h u v' (by omega) (by omega) (hv.trans hv')).mono ?_)
    rintro xs v' hv' ⟨us, hus, hrest⟩
    refine leads_pure ⟨e :: us, ?_, hfirst.append hrest hv'.gates_subset⟩
    simp [Index.mapRangeM, he, hus]

/-! ## Until -/

theorem leads_minimaAfter {t : Nat} {before : Unrolled Exact} {us : List (Unrolled Exact)}
    {b : Encoded Exact VarId} {xs : List (Encoded Exact VarId)} (hready : fails ∨ v.Roomy)
    (h : List.Forall₂ (Unrolled.DenotedBy v.gates) (before :: us) (b :: xs)) :
    (logic lib fails).Leads v (Encode.minimaAfter StoredModel.solver t b xs) fun ms v' =>
      v.Yields v' (Unrolled.minimaAfter before us) ms := by
  induction xs generalizing v before us b with
  | nil =>
    obtain ⟨-, hus⟩ := List.forall₂_cons.mp h
    obtain rfl := List.forall₂_nil_right_iff.mp hus
    exact leads_pure (.nil v)
  | cons x rest ih =>
    obtain ⟨hb, hus⟩ := List.forall₂_cons.mp h
    obtain ⟨u, us', hu, hrest, rfl⟩ := List.forall₂_cons_right_iff.mp hus
    refine leads_bind ((leads_group_yields (yields_refl (.cons hb (.cons hu .nil)))
      (hready.imp_right fun h => ⟨h, by simp⟩)).mono ?_)
    intro m v₁ hv₁ hm
    refine leads_bind ((ih (hready.imp_right (·.mono hv₁))
      (.cons (List.forall₂_cons.mp hm.denoted).1 (denoted_mono hrest hv₁.gates_subset))).mono ?_)
    intro ms v₂ hv₂ hms
    exact leads_pure (hm.append hms hv₂.gates_subset)

theorem leads_runningMinima {t : Nat} {us : List (Unrolled Exact)}
    {xs : List (Encoded Exact VarId)} (hready : fails ∨ v.Roomy)
    (h : List.Forall₂ (Unrolled.DenotedBy v.gates) us xs) :
    (logic lib fails).Leads v (Encode.runningMinima StoredModel.solver t xs) fun ms v' =>
      v.Yields v' (Unrolled.runningMinima us) ms := by
  cases h with
  | nil => exact leads_pure (.nil v)
  | cons hu hrest =>
    refine leads_bind ((leads_minimaAfter hready (.cons hu hrest)).mono fun ms v' hv' hms => ?_)
    exact leads_pure ((yields_refl (.cons hu .nil)).append hms hv'.gates_subset)

/-- An operand with what comes before it. -/
def DenotesCandidate (v : Ledger lib) (u : Unrolled Exact × Option (Unrolled Exact))
    (x : Encoded Exact VarId × Option (Encoded Exact VarId)) : Prop :=
  u.1.DenotedBy v.gates x.1 ∧ Option.Rel (Unrolled.DenotedBy v.gates) u.2 x.2

theorem leads_untilTerm {t : Nat} {u : Unrolled Exact × Option (Unrolled Exact)}
    {x : Encoded Exact VarId × Option (Encoded Exact VarId)} (hready : fails ∨ v.Roomy)
    (h : v.DenotesCandidate u x) :
    (logic lib fails).Leads v (Encode.untilTerm StoredModel.solver t x) fun y v' =>
      v.Yields v' [Unrolled.untilTerm u] [y] := by
  obtain ⟨right, before⟩ := u
  obtain ⟨r, b⟩ := x
  obtain ⟨hright, hbefore⟩ := h
  cases hbefore with
  | none => exact leads_pure (yields_refl (.cons hright .nil))
  | some hbefore =>
    exact leads_group_yields (yields_refl (.cons hright (.cons hbefore .nil)))
      (hready.imp_right fun h => ⟨h, by simp⟩)

theorem DenotesCandidate.mono {u : Unrolled Exact × Option (Unrolled Exact)}
    {x : Encoded Exact VarId × Option (Encoded Exact VarId)} (h : v.DenotesCandidate u x)
    (hgates : v.gates ⊆ w.gates) : w.DenotesCandidate u x := by
  obtain ⟨right, before⟩ := u
  obtain ⟨r, b⟩ := x
  obtain ⟨hright, hbefore⟩ := h
  refine ⟨Unrolled.DenotedBy.mono hgates _ _ hright, ?_⟩
  cases hbefore with
  | none => exact .none
  | some hbefore => exact .some (Unrolled.DenotedBy.mono hgates _ _ hbefore)

theorem leads_untilTerms {t : Nat} {us : List (Unrolled Exact × Option (Unrolled Exact))}
    {xs : List (Encoded Exact VarId × Option (Encoded Exact VarId))} (hready : fails ∨ v.Roomy)
    (h : List.Forall₂ v.DenotesCandidate us xs) :
    (logic lib fails).Leads v (xs.mapM (Encode.untilTerm StoredModel.solver t)) fun ys v' =>
      v.Yields v' (us.map Unrolled.untilTerm) ys := by
  induction xs generalizing v us with
  | nil =>
    obtain rfl := List.forall₂_nil_right_iff.mp h
    exact leads_pure (.nil v)
  | cons x rest ih =>
    obtain ⟨u, us', hu, hrest, rfl⟩ := List.forall₂_cons_right_iff.mp h
    rw [List.mapM_cons]
    refine leads_bind ((leads_untilTerm hready hu).mono fun y v₁ hv₁ hy => ?_)
    refine leads_bind ((ih (hready.imp_right (·.mono hv₁))
      (hrest.imp fun _ _ h => h.mono hv₁.gates_subset)).mono fun ys v₂ hv₂ hys => ?_)
    exact leads_pure (hy.append hys hv₂.gates_subset)

theorem forall₂_zip {α β γ δ : Type} {R : α → β → Prop} {S : γ → δ → Prop} {as : List α}
    {bs : List β} {cs : List γ} {ds : List δ} (h : List.Forall₂ R as bs) (k : List.Forall₂ S cs ds) :
    List.Forall₂ (fun p q => R p.1 q.1 ∧ S p.2 q.2) (as.zip cs) (bs.zip ds) := by
  induction h generalizing cs ds with
  | nil => simp
  | cons hab _ ih =>
    cases k with
    | nil => simp
    | cons hcd hrest => exact .cons ⟨hab, hcd⟩ (ih hrest)

/-- The best candidate of an until. -/
theorem leads_untilBest_yields {t skipped : Nat} {start : Option (ScoreTree Exact)}
    {rights lefts : List (Unrolled Exact)} {xs ys : List (Encoded Exact VarId)}
    (hlength : rights.length + skipped = lefts.length + 1) (hne : rights ≠ [])
    (hready : fails ∨ v.Roomy) (hrights : List.Forall₂ (Unrolled.DenotedBy v.gates) rights xs)
    (hlefts : List.Forall₂ (Unrolled.DenotedBy v.gates) lefts ys)
    (hcovers : w.Covers v (max (Unrolled.listLayers rights) (Unrolled.listLayers lefts))) :
    (logic lib fails).Leads v (Encode.untilBest StoredModel.solver t skipped start xs ys)
      fun x v' => w.Yields v' [.untilBest skipped rights lefts] [x] := by
  obtain ⟨hright, hminimum⟩ := Unrolled.listLayers_le_untilBest hlength hne
  refine leads_bind ((leads_runningMinima hready hlefts).mono fun ms v₁ hv₁ hms => ?_)
  have hbefore : List.Forall₂ (Option.Rel (Unrolled.DenotedBy v₁.gates))
      (none :: (Unrolled.runningMinima lefts).map some) (none :: ms.map some) :=
    .cons .none (List.forall₂_map_left_iff.mpr (List.forall₂_map_right_iff.mpr
      (hms.denoted.imp fun _ _ => .some)))
  have hcandidates := forall₂_zip (denoted_mono hrights hv₁.gates_subset)
    (List.forall₂_drop skipped hbefore)
  refine leads_bind ((leads_untilTerms (hready.imp_right (·.mono hv₁)) hcandidates).mono
    fun ts v₂ hv₂ hts => ?_)
  have hterms : Unrolled.untilTerms skipped rights lefts ≠ [] := by
    rw [← List.length_pos_iff, Unrolled.length_untilTerms hlength]
    exact List.length_pos_iff.mpr hne
  have hcovered : w.Covers v₂ (Unrolled.untilBest skipped rights lefts).layers := by
    refine ((hcovers.trans hms.covers hv₁.gates_subset).trans hts.covers hv₂.gates_subset).mono ?_
    refine Nat.max_le.mpr ⟨Nat.max_le.mpr ⟨Nat.max_le.mpr ⟨hright, ?_⟩, hminimum⟩,
      Unrolled.listLayers_le_group _⟩
    exact Unrolled.listLayers_le_runningMinima.trans hminimum
  refine (leads_group_yields (yields_refl hts.denoted) (hready.imp_right fun h =>
    ⟨(h.mono hv₁).mono hv₂, hterms⟩)).mono fun x v₃ hv₃ hx => ⟨hx.denoted, ?_⟩
  exact (hcovered.trans hx.covers hv₃.gates_subset).mono
    (Nat.max_le.mpr ⟨by simp [Unrolled.listLayers], Nat.le_refl _⟩)

end Steps

/-! ## Formulas -/

/-- Runs may fail, or the formula can be encoded at the index. -/
def Ready (fails : Prop) (w : Ledger lib) (f : Formula Exact) (t : Nat) : Prop :=
  fails ∨ w.Roomy ∧ ∃ u, w.context.settings.unroll f t = .ok u ∧ u.All w.Encodable

/-- Runs may fail, or all the operands can be encoded at the index. -/
def OperandsReady (fails : Prop) (w : Ledger lib) (args : Operands Exact) (t : Nat) : Prop :=
  fails ∨ w.Roomy ∧ ∃ us, args.unroll w.context.settings.policy w.context.settings.spacing
    w.context.settings.horizon t = .ok us ∧ ∀ u ∈ us, u.All w.Encodable

/-- Runs may fail, or there is a window all over which the formula can be encoded. -/
def WindowReady (fails : Prop) (w : Ledger lib) (interval : TimeInterval Exact)
    (arg : Formula Exact) (t : Nat) : Prop :=
  fails ∨ w.Roomy ∧ ∃ win us, w.context.settings.policy.window interval w.context.settings.spacing
    t w.context.settings.horizon = .ok win ∧
    win.mapM (w.context.settings.unroll arg) = .ok us ∧ ∀ u ∈ us, u.All w.Encodable

section Formulas

theorem Ready.mono {w v : Ledger lib} {f : Formula Exact} {t : Nat} (h : w.Ready fails f t)
    (htidy : w.Tidy v) : v.Ready fails f t := by
  refine h.imp_right fun ⟨hroomy, u, hu, hall⟩ => ⟨hroomy.mono htidy, u, ?_, ?_⟩
  · rw [htidy.settings_eq]
    exact hu
  · exact Unrolled.All.mono (fun _ _ h => h.mono htidy) u hall

/-- Where a group of the operands can be encoded, so can the operands. -/
theorem OperandsReady.of_group {w : Ledger lib} {e : Extremum} {args : Operands Exact} {t : Nat}
    (h : fails ∨ w.Roomy ∧ ∃ u, (do
      let us ← args.unroll w.context.settings.policy w.context.settings.spacing
        w.context.settings.horizon t
      return Unrolled.group e us) = Except.ok u ∧ u.All w.Encodable) : w.OperandsReady fails args t := by
  refine h.imp_right fun ⟨hroomy, u, hu, hall⟩ => ?_
  obtain ⟨us, hus, hu⟩ := Except.bind_eq_ok.mp hu
  obtain rfl := Except.pure_eq_ok.mp hu
  exact ⟨hroomy, us, hus, Unrolled.group_all.mp hall⟩

/-- Where a group over a window can be encoded, so can the formula all over the window. -/
theorem WindowReady.of_group {w : Ledger lib} {e : Extremum} {interval : TimeInterval Exact}
    {arg : Formula Exact} {t : Nat}
    (h : fails ∨ w.Roomy ∧ ∃ u, (do
      let win ← w.context.settings.policy.window interval w.context.settings.spacing t
        w.context.settings.horizon
      let us ← win.mapM (w.context.settings.unroll arg)
      return Unrolled.group e us) = Except.ok u ∧ u.All w.Encodable) :
    w.WindowReady fails interval arg t := by
  refine h.imp_right fun ⟨hroomy, u, hu, hall⟩ => ?_
  obtain ⟨win, hwin, hu⟩ := Except.bind_eq_ok.mp hu
  obtain ⟨us, hus, hu⟩ := Except.bind_eq_ok.mp hu
  obtain rfl := Except.pure_eq_ok.mp hu
  exact ⟨hroomy, win, us, hwin, hus, Unrolled.group_all.mp hall⟩

theorem Operands.unroll_ne_nil {policy : WindowPolicy} {spacing : Exact} {length t : Nat}
    {us : List (Unrolled Exact)} (args : Operands Exact)
    (h : args.unroll policy spacing length t = .ok us) : us ≠ [] := by
  cases args with
  | pair first second =>
    obtain ⟨u, -, h⟩ := Except.bind_eq_ok.mp h
    obtain ⟨v, -, h⟩ := Except.bind_eq_ok.mp h
    rintro rfl
    cases h
  | cons first rest =>
    obtain ⟨u, -, h⟩ := Except.bind_eq_ok.mp h
    obtain ⟨us, -, h⟩ := Except.bind_eq_ok.mp h
    rintro rfl
    cases h

/-- Every index of a range that was unrolled has an expression. -/
theorem exists_of_unrolled {w : Ledger lib} {arg : Formula Exact} {first count : Nat}
    {us : List (Unrolled Exact)}
    (h : Index.mapRangeM (w.context.settings.unroll arg) first count = .ok us)
    (hall : ∀ u ∈ us, u.All w.Encodable) (u : Nat) (hu : first ≤ u) (hu' : u < first + count) :
    ∃ x, w.context.settings.unroll arg u = .ok x ∧ x.All w.Encodable := by
  obtain ⟨value, rfl, hvalue⟩ := Index.eq_map_of_mapRangeM h
  exact ⟨value u, hvalue u hu hu', hall _ (List.mem_map_of_mem (List.mem_range'_1.mpr ⟨hu, hu'⟩))⟩

/-- The encodings of a formula at consecutive indices stand for its expressions there. -/
theorem leads_indices_yields {w : Ledger lib} {arg : Formula Exact} {first count : Nat}
    (startOf : Nat → Option (ScoreTree Exact))
    (hready : fails ∨ w.Roomy ∧ ∀ u, first ≤ u → u < first + count →
      ∃ x, w.context.settings.unroll arg u = .ok x ∧ x.All w.Encodable)
    (harg : ∀ u v start, w.Tidy v → v.Ready fails arg u →
      (logic lib fails).Leads v (Encode.formula StoredModel.solver arg u start)
        fun x v' => v.Encodes v' arg u x) :
    (logic lib fails).Leads w
      (Index.mapRangeM (fun u => Encode.formula StoredModel.solver arg u (startOf u)) first count)
      fun xs v => ∃ us, Index.mapRangeM (w.context.settings.unroll arg) first count = .ok us ∧
        w.Yields v us xs := by
  refine leads_range_yields (w.context.settings.unroll arg) fun u v hu hu' hv => ?_
  have hready' : v.Ready fails arg u := hready.imp_right fun ⟨hroomy, hall⟩ => by
    obtain ⟨x, hx, hxall⟩ := hall u hu hu'
    refine ⟨hroomy.mono hv, x, ?_, Unrolled.All.mono (fun _ _ h => h.mono hv) x hxall⟩
    rw [hv.settings_eq]
    exact hx
  refine (harg u v _ hv hready').mono fun x v' _ ⟨y, hy, hyields⟩ => ⟨y, ?_, hyields⟩
  rwa [hv.settings_eq] at hy

/-- A window of expressions as a group. -/
theorem leads_window_yields {w : Ledger lib} {e : Extremum} {role : VariableRole}
    {interval : TimeInterval Exact} {arg : Formula Exact} {t : Nat}
    {start : Option (ScoreTree Exact)}
    (hready : w.WindowReady fails interval arg t)
    (harg : ∀ u v start, w.Tidy v → v.Ready fails arg u →
      (logic lib fails).Leads v (Encode.formula StoredModel.solver arg u start)
        fun x v' => v.Encodes v' arg u x) :
    (logic lib fails).Leads w (do
      let win ← Encode.window interval t
      let scores ← win.mapM fun u =>
        Encode.formula StoredModel.solver arg u (startAt start (u - win.first))
      Encode.group StoredModel.solver e role t start scores) fun x v =>
        ∃ win us, w.context.settings.policy.window interval w.context.settings.spacing t
          w.context.settings.horizon = .ok win ∧
          win.mapM (w.context.settings.unroll arg) = .ok us ∧ w.Yields v [.group e us] [x] := by
  refine leads_bind (leads_window (hready.imp_right fun ⟨_, win, _, hwin, _⟩ => ⟨win, hwin⟩)
    fun win hwin => ?_)
  have hindices : fails ∨ w.Roomy ∧ ∀ u, win.first ≤ u → u < win.first + win.size →
      ∃ x, w.context.settings.unroll arg u = .ok x ∧ x.All w.Encodable :=
    hready.imp_right fun ⟨hroomy, win', us, hwin', hus, hall⟩ => by
      obtain rfl := Except.ok.inj (hwin.symm.trans hwin')
      exact ⟨hroomy, exists_of_unrolled hus hall⟩
  refine leads_bind ((leads_indices_yields _ hindices harg).mono
    fun xs v hv ⟨us, hus, hyields⟩ => ?_)
  have hne : us ≠ [] := by
    rintro rfl
    obtain ⟨value, hvalue, -⟩ := Index.eq_map_of_mapRangeM hus
    simp [Window.size] at hvalue
  exact (leads_group_yields hyields (hready.imp_right fun h => ⟨h.1.mono hv, hne⟩)).mono
    fun x v' _ hx => ⟨win, us, hwin, hus, hx⟩

/-- The candidates of an until as groups. -/
theorem leads_until_yields {w : Ledger lib} {id : NodeId} {interval : TimeInterval Exact}
    {left right : Formula Exact} {t : Nat} {start : Option (ScoreTree Exact)}
    (hready : w.Ready fails (.holdsUntil id interval left right) t)
    (hright : ∀ u v start, w.Tidy v → v.Ready fails right u →
      (logic lib fails).Leads v (Encode.formula StoredModel.solver right u start)
        fun x v' => v.Encodes v' right u x)
    (hleft : ∀ u v start, w.Tidy v → v.Ready fails left u →
      (logic lib fails).Leads v (Encode.formula StoredModel.solver left u start)
        fun x v' => v.Encodes v' left u x) :
    (logic lib fails).Leads w (do
      let win ← Encode.window interval t
      let rights ← win.mapM fun u =>
        Encode.formula StoredModel.solver right u (startAt start (u - win.first))
      let lefts ← Index.mapRangeM (fun u =>
        Encode.formula StoredModel.solver left u (startAt start (win.size + (u - t)))) t
          (win.last - t)
      Encode.untilBest StoredModel.solver t (win.first - t) start rights lefts) fun x v =>
        w.Encodes v (.holdsUntil id interval left right) t x := by
  have hwindow : fails ∨ w.Roomy ∧ ∃ win rights lefts,
      w.context.settings.policy.window interval w.context.settings.spacing t
        w.context.settings.horizon = .ok win ∧
      win.mapM (w.context.settings.unroll right) = .ok rights ∧
      Index.mapRangeM (w.context.settings.unroll left) t (win.last - t) = .ok lefts ∧
      (Unrolled.untilBest (win.first - t) rights lefts).All w.Encodable :=
    hready.imp_right fun ⟨hroomy, u, hu, hall⟩ => by
      obtain ⟨win, hwin, hu⟩ := Except.bind_eq_ok.mp hu
      obtain ⟨rights, hrights, hu⟩ := Except.bind_eq_ok.mp hu
      obtain ⟨lefts, hlefts, hu⟩ := Except.bind_eq_ok.mp hu
      obtain rfl := Except.pure_eq_ok.mp hu
      exact ⟨hroomy, win, rights, lefts, hwin, hrights, hlefts, hall⟩
  refine leads_bind (leads_window (hwindow.imp_right fun ⟨_, win, _, _, hwin, _⟩ => ⟨win, hwin⟩)
    fun win hwin => ?_)
  have hfirst := (WindowPolicy.window_bounds w.horizon_le hwin).1
  have hle := win.first_le_last
  have hsizes : ∀ {rights lefts : List (Unrolled Exact)},
      win.mapM (w.context.settings.unroll right) = .ok rights →
      Index.mapRangeM (w.context.settings.unroll left) t (win.last - t) = .ok lefts →
      rights.length + (win.first - t) = lefts.length + 1 ∧ rights ≠ [] := by
    intro rights lefts hrights hlefts
    obtain ⟨here, rfl, -⟩ := Index.eq_map_of_mapRangeM hrights
    obtain ⟨before, rfl, -⟩ := Index.eq_map_of_mapRangeM hlefts
    exact ⟨by simp [Window.size]; omega, by simp [Window.size]⟩
  have hindices : fails ∨ w.Roomy ∧
      (∀ u, win.first ≤ u → u < win.first + win.size →
        ∃ x, w.context.settings.unroll right u = .ok x ∧ x.All w.Encodable) ∧
      ∀ u, t ≤ u → u < t + (win.last - t) →
        ∃ x, w.context.settings.unroll left u = .ok x ∧ x.All w.Encodable :=
    hwindow.imp_right fun ⟨hroomy, win', rights, lefts, hwin', hrights, hlefts, hall⟩ => by
      obtain rfl := Except.ok.inj (hwin.symm.trans hwin')
      obtain ⟨hlength, hne⟩ := hsizes hrights hlefts
      obtain ⟨hall, hall'⟩ := (Unrolled.untilBest_all hlength hne).mp hall
      exact ⟨hroomy, exists_of_unrolled hrights hall, exists_of_unrolled hlefts hall'⟩
  refine leads_bind ((leads_indices_yields _ (hindices.imp_right fun h => ⟨h.1, h.2.1⟩)
    hright).mono fun xs v hv ⟨rights, hrights, hxs⟩ => ?_)
  have hlater : fails ∨ v.Roomy ∧ ∀ u, t ≤ u → u < t + (win.last - t) →
      ∃ x, v.context.settings.unroll left u = .ok x ∧ x.All v.Encodable :=
    hindices.imp_right fun ⟨hroomy, _, hall⟩ => by
      refine ⟨hroomy.mono hv, fun u hu hu' => ?_⟩
      obtain ⟨x, hx, hxall⟩ := hall u hu hu'
      rw [← hv.settings_eq] at hx
      exact ⟨x, hx, Unrolled.All.mono (fun _ _ h => h.mono hv) x hxall⟩
  refine leads_bind ((leads_indices_yields _ hlater fun u v' start hv' =>
    hleft u v' start (hv.trans hv')).mono fun ys v' hv' ⟨lefts, hlefts, hys⟩ => ?_)
  rw [hv.settings_eq] at hlefts
  obtain ⟨hlength, hne⟩ := hsizes hrights hlefts
  refine (leads_untilBest_yields hlength hne (hready.imp_right fun h => (h.1.mono hv).mono hv')
    (denoted_mono hxs.denoted hv'.gates_subset) hys.denoted
    (hxs.covers.trans hys.covers hv'.gates_subset)).mono fun x v'' _ hx => ⟨_, ?_, hx⟩
  exact Except.bind_eq_ok.mpr ⟨win, hwin,
    Except.bind_eq_ok.mpr ⟨rights, hrights, Except.bind_eq_ok.mpr ⟨lefts, hlefts, rfl⟩⟩⟩

mutual

/-- **An encoded formula gives a variable for its unrolling.** -/
theorem leads_formula : ∀ (f : Formula Exact) (t : Nat) (start : Option (ScoreTree Exact))
    (w : Ledger lib), f ∈ lib.formulas → w.Ready fails f t →
    (logic lib fails).Leads w (Encode.formula StoredModel.solver f t start)
      fun x v => w.Encodes v f t x
  | .predicate id source, t, start, w, hf, hready => by
    rw [Encode.formula]
    refine leads_predicate_encodes hf (hready.imp_right fun ⟨hroomy, u, hu, hall⟩ => ⟨hroomy, ?_⟩)
    obtain rfl := Except.pure_eq_ok.mp hu
    exact hall
  | .not id arg, t, start, w, hf, hready => by
    cases arg with
    | not id' inner =>
      have harg : .not id' inner ∈ lib.formulas := lib.closed _ hf _ (List.mem_singleton.mpr rfl)
      have hinner : inner ∈ lib.formulas := lib.closed _ harg _ (List.mem_singleton.mpr rfl)
      rw [Encode.formula]
      exact leads_memoized hf (leads_formula inner t _ w hinner hready)
    | predicate | and | or | always | eventually | holdsUntil | next =>
      have harg := lib.closed _ hf _ (List.mem_singleton.mpr rfl)
      have hready' : w.Ready fails _ t := hready.imp_right fun ⟨hroomy, u, hu, hall⟩ => by
        obtain ⟨v, hv, hu⟩ := Except.bind_eq_ok.mp hu
        obtain rfl := Except.pure_eq_ok.mp hu
        exact ⟨hroomy, v, hv, hall⟩
      rw [Encode.formula]
      · refine leads_memoized hf (leads_bind ((leads_formula _ t (startAt start 0) w harg hready').mono
          fun x v hv ⟨u, hu, hyields⟩ => ?_))
        refine (leads_negation_yields hyields (hready.imp_right fun h => h.1.mono hv)).mono
          fun y v' _ hy => ⟨.negation u, ?_, hy⟩
        exact Except.bind_eq_ok.mpr ⟨u, hu, rfl⟩
      · rintro _ _ ⟨⟩
  | .and id args, t, start, w, hf, hready => by
    have hargs : w.OperandsReady fails args t := .of_group hready
    rw [Encode.formula]
    refine leads_memoized hf (leads_bind ((leads_operands args t start 0 w (lib.closed _ hf)
      hargs).mono fun xs v hv ⟨us, hus, hyields⟩ => ?_))
    refine (leads_group_yields hyields (hready.imp_right fun h =>
      ⟨h.1.mono hv, Operands.unroll_ne_nil args hus⟩)).mono fun x v' _ hx => ⟨_, ?_, hx⟩
    exact Except.bind_eq_ok.mpr ⟨us, hus, rfl⟩
  | .or id args, t, start, w, hf, hready => by
    have hargs : w.OperandsReady fails args t := .of_group hready
    rw [Encode.formula]
    refine leads_memoized hf (leads_bind ((leads_operands args t start 0 w (lib.closed _ hf)
      hargs).mono fun xs v hv ⟨us, hus, hyields⟩ => ?_))
    refine (leads_group_yields hyields (hready.imp_right fun h =>
      ⟨h.1.mono hv, Operands.unroll_ne_nil args hus⟩)).mono fun x v' _ hx => ⟨_, ?_, hx⟩
    exact Except.bind_eq_ok.mpr ⟨us, hus, rfl⟩
  | .always id interval arg, t, start, w, hf, hready => by
    have hwindow : w.WindowReady fails interval arg t := .of_group hready
    have harg : arg ∈ lib.formulas := lib.closed _ hf _ (List.mem_singleton.mpr rfl)
    rw [Encode.formula]
    refine leads_memoized hf ((leads_window_yields hwindow fun u v start _ hv =>
      leads_formula arg u start v harg hv).mono
        fun x v hv ⟨win, us, hwin, hus, hyields⟩ => ⟨_, ?_, hyields⟩)
    exact Except.bind_eq_ok.mpr ⟨win, hwin, Except.bind_eq_ok.mpr ⟨us, hus, rfl⟩⟩
  | .eventually id interval arg, t, start, w, hf, hready => by
    have hwindow : w.WindowReady fails interval arg t := .of_group hready
    have harg : arg ∈ lib.formulas := lib.closed _ hf _ (List.mem_singleton.mpr rfl)
    rw [Encode.formula]
    refine leads_memoized hf ((leads_window_yields hwindow fun u v start _ hv =>
      leads_formula arg u start v harg hv).mono
        fun x v hv ⟨win, us, hwin, hus, hyields⟩ => ⟨_, ?_, hyields⟩)
    exact Except.bind_eq_ok.mpr ⟨win, hwin, Except.bind_eq_ok.mpr ⟨us, hus, rfl⟩⟩
  | .holdsUntil id interval left right, t, start, w, hf, hready => by
    have hleft : left ∈ lib.formulas := lib.closed _ hf _ (by simp [Formula.children])
    have hright : right ∈ lib.formulas := lib.closed _ hf _ (by simp [Formula.children])
    rw [Encode.formula]
    exact leads_memoized hf (leads_until_yields hready
      (fun u v start _ hv => leads_formula right u start v hright hv)
      fun u v start _ hv => leads_formula left u start v hleft hv)
  | .next id arg, t, start, w, hf, hready => by
    have hwindow : fails ∨ w.Roomy ∧ ∃ win,
        (w.context.settings.policy.offsets t 1 1 w.context.settings.horizon :
          Except (Fault Exact) Window) = .ok win ∧
        ∃ u, w.context.settings.unroll arg win.first = .ok u ∧ u.All w.Encodable :=
      hready.imp_right fun ⟨hroomy, u, hu, hall⟩ => by
        obtain ⟨win, hwin, hu⟩ := Except.bind_eq_ok.mp hu
        exact ⟨hroomy, win, hwin, u, hu, hall⟩
    have harg : arg ∈ lib.formulas := lib.closed _ hf _ (List.mem_singleton.mpr rfl)
    rw [Encode.formula]
    refine leads_memoized hf (leads_bind (leads_nextWindow
      (hwindow.imp_right fun ⟨_, win, hwin, _⟩ => ⟨win, hwin⟩) fun win hwin => ?_))
    have hready' : w.Ready fails arg win.first := hwindow.imp_right
      fun ⟨hroomy, win', hwin', hall⟩ => by
        obtain rfl := Except.ok.inj (hwin.symm.trans hwin')
        exact ⟨hroomy, hall⟩
    refine (leads_formula arg win.first _ w harg hready').mono
      fun x v hv ⟨u, hu, hyields⟩ => ⟨u, ?_, hyields⟩
    exact Except.bind_eq_ok.mpr ⟨win, hwin, hu⟩

theorem leads_operands : ∀ (args : Operands Exact) (t : Nat) (start : Option (ScoreTree Exact))
    (i : Nat) (w : Ledger lib), (∀ g ∈ args.toList, g ∈ lib.formulas) →
    w.OperandsReady fails args t →
    (logic lib fails).Leads w (Encode.operands StoredModel.solver args t start i) fun xs v =>
      ∃ us, args.unroll w.context.settings.policy w.context.settings.spacing
        w.context.settings.horizon t = .ok us ∧ w.Yields v us xs
  | .pair first second, t, start, i, w, hargs, hready => by
    have hfirst : w.Ready fails first t := hready.imp_right fun ⟨hroomy, us, hus, hall⟩ => by
      obtain ⟨u, hu, hus⟩ := Except.bind_eq_ok.mp hus
      obtain ⟨v, hv, hus⟩ := Except.bind_eq_ok.mp hus
      obtain rfl := Except.pure_eq_ok.mp hus
      exact ⟨hroomy, u, hu, hall u (by simp)⟩
    have hsecond : w.Ready fails second t := hready.imp_right fun ⟨hroomy, us, hus, hall⟩ => by
      obtain ⟨u, hu, hus⟩ := Except.bind_eq_ok.mp hus
      obtain ⟨v, hv, hus⟩ := Except.bind_eq_ok.mp hus
      obtain rfl := Except.pure_eq_ok.mp hus
      exact ⟨hroomy, v, hv, hall v (by simp)⟩
    refine leads_bind ((leads_formula first t _ w (hargs _ (by simp [Operands.toList]))
      hfirst).mono fun x v hv ⟨u, hu, hx⟩ => ?_)
    refine leads_bind ((leads_formula second t _ v (hargs _ (by simp [Operands.toList]))
      (hsecond.mono hv)).mono fun y v' hv' ⟨u', hu', hy⟩ => ?_)
    rw [hv.settings_eq] at hu'
    refine leads_pure ⟨[u, u'], ?_, hx.append hy hv'.gates_subset⟩
    exact Except.bind_eq_ok.mpr ⟨u, hu, Except.bind_eq_ok.mpr ⟨u', hu', rfl⟩⟩
  | .cons first rest, t, start, i, w, hargs, hready => by
    have hfirst : w.Ready fails first t := hready.imp_right fun ⟨hroomy, us, hus, hall⟩ => by
      obtain ⟨u, hu, hus⟩ := Except.bind_eq_ok.mp hus
      obtain ⟨others, hothers, hus⟩ := Except.bind_eq_ok.mp hus
      obtain rfl := Except.pure_eq_ok.mp hus
      exact ⟨hroomy, u, hu, hall u (by simp)⟩
    refine leads_bind ((leads_formula first t _ w (hargs _ (by simp [Operands.toList]))
      hfirst).mono fun x v hv ⟨u, hu, hx⟩ => ?_)
    have hrest : v.OperandsReady fails rest t := hready.imp_right fun ⟨hroomy, us, hus, hall⟩ => by
      obtain ⟨u, hu, hus⟩ := Except.bind_eq_ok.mp hus
      obtain ⟨others, hothers, hus⟩ := Except.bind_eq_ok.mp hus
      obtain rfl := Except.pure_eq_ok.mp hus
      rw [← hv.settings_eq] at hothers
      exact ⟨hroomy.mono hv, others, hothers, fun u hu =>
        Unrolled.All.mono (fun _ _ h => h.mono hv) u (hall u (List.mem_cons_of_mem _ hu))⟩
    refine leads_bind ((leads_operands rest t start (i + 1) v
      (fun g hg => hargs g (List.mem_cons_of_mem _ hg)) hrest).mono
        fun xs v' hv' ⟨us, hus, hxs⟩ => ?_)
    rw [hv.settings_eq] at hus
    refine leads_pure ⟨u :: us, ?_, hx.append hxs hv'.gates_subset⟩
    exact Except.bind_eq_ok.mpr ⟨u, hu, Except.bind_eq_ok.mpr ⟨us, hus, rfl⟩⟩

end

end Formulas

end Ledger

end SignalTemporalLogic
