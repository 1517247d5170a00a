import SignalTemporalLogic.Extremum
import SignalTemporalLogic.Proofs.Meaning
import SignalTemporalLogic.Proofs.Windows

/-!
The evaluations that the value of a formula at an index is made of. What is evaluated next never
depends on a value, so these can be listed beforehand, and a property of all evaluations is proved
by induction over them.
-/

namespace SignalTemporalLogic

variable {α : Type} [Scalar α]

/-- The evaluations that the formula at `t` uses, in a domain of `length` samples: the operands in
order, at all indices of a window; for an until the right operand at each candidate, followed by the
left operand at each index from `t` up to the last candidate. -/
def Formula.uses (policy : WindowPolicy) (spacing : α) (length : Nat) :
    Formula α → Nat → Except (Fault α) (List (Formula α × Nat))
  | .predicate _ _, _ => return []
  | .not _ arg, t => return [(arg, t)]
  | .and _ args, t | .or _ args, t => return args.toList.map (·, t)
  | .always _ interval arg, t | .eventually _ interval arg, t => do
    let w ← policy.window interval spacing t length
    return (List.range' w.first w.size).map (arg, ·)
  | .holdsUntil _ interval left right, t => do
    let w ← policy.window interval spacing t length
    return (List.range' w.first w.size).map (right, ·) ++
      (List.range' t (w.last - t)).map (left, ·)
  | .next _ arg, t => do
    let w ← policy.offsets t 1 1 length
    return [(arg, w.first)]

/-- The extreme that the formula takes of everything it uses, if that is how it is evaluated. -/
def Formula.extreme? : Formula α → Option Extremum
  | .and _ _ | .always _ _ _ => some .min
  | .or _ _ | .eventually _ _ _ => some .max
  | _ => none

section Induction

variable {policy : WindowPolicy} {spacing : α} {length : Nat}

theorem Operands.sizeOf_lt_of_mem [SizeOf α] {g : Formula α} :
    ∀ {args : Operands α}, g ∈ args.toList → sizeOf g < sizeOf args
  | .pair first second, h => by
    simp only [Operands.pair.sizeOf_spec]
    rcases List.mem_pair.mp h with rfl | rfl
    · omega
    · omega
  | .cons first rest, h => by
    simp only [Operands.cons.sizeOf_spec]
    rcases List.mem_cons.mp h with rfl | h
    · omega
    · have := Operands.sizeOf_lt_of_mem h
      omega

theorem Formula.sizeOf_lt_of_mem_children [SizeOf α] {f g : Formula α} (h : g ∈ f.children) :
    sizeOf g < sizeOf f := by
  cases f with
  | predicate => cases h
  | not | always | eventually | next =>
    cases List.mem_singleton.mp h
    simp only [Formula.not.sizeOf_spec, Formula.always.sizeOf_spec, Formula.eventually.sizeOf_spec,
      Formula.next.sizeOf_spec]
    omega
  | and | or =>
    have := Operands.sizeOf_lt_of_mem h
    simp only [Formula.and.sizeOf_spec, Formula.or.sizeOf_spec]
    omega
  | holdsUntil =>
    simp only [Formula.holdsUntil.sizeOf_spec]
    rcases List.mem_pair.mp h with rfl | rfl
    · omega
    · omega

/-- A formula uses only evaluations of its arguments. -/
theorem Formula.mem_children_of_uses {f : Formula α} {t : Nat} {es : List (Formula α × Nat)}
    (h : f.uses policy spacing length t = .ok es) {e : Formula α × Nat} (he : e ∈ es) :
    e.1 ∈ f.children := by
  cases f with
  | predicate => cases h; cases he
  | not => cases h; cases List.mem_singleton.mp he; exact List.mem_singleton_self _
  | and | or =>
    cases h
    obtain ⟨g, hg, rfl⟩ := List.mem_map.mp he
    exact hg
  | always | eventually =>
    obtain ⟨w, -, h⟩ := Except.bind_eq_ok.mp h
    cases h
    obtain ⟨u, -, rfl⟩ := List.mem_map.mp he
    exact List.mem_singleton_self _
  | holdsUntil =>
    obtain ⟨w, -, h⟩ := Except.bind_eq_ok.mp h
    cases h
    rcases List.mem_append.mp he with he | he <;> obtain ⟨u, -, rfl⟩ := List.mem_map.mp he <;>
      simp [Formula.children]
  | next =>
    obtain ⟨w, -, h⟩ := Except.bind_eq_ok.mp h
    cases h
    cases List.mem_singleton.mp he
    exact List.mem_singleton_self _

/-- No extreme is taken of nothing. -/
theorem Formula.uses_ne_nil {f : Formula α} {t : Nat} {e : Extremum} (he : f.extreme? = some e)
    {es : List (Formula α × Nat)} (h : f.uses policy spacing length t = .ok es) : es ≠ [] := by
  cases f with
  | and _ args | or _ args =>
    cases h
    have := args.two_le_length_toList
    exact List.ne_nil_of_length_pos (by rw [List.length_map]; omega)
  | always | eventually =>
    obtain ⟨w, -, h⟩ := Except.bind_eq_ok.mp h
    cases h
    exact List.ne_nil_of_length_pos (by simp [Window.size])
  | predicate | not | holdsUntil | next => cases he

/-- What holds of an evaluation if it holds of all those it uses holds of every evaluation. -/
theorem Formula.induction_on_uses (policy : WindowPolicy) (spacing : α) (length : Nat)
    {P : Formula α → Nat → Prop}
    (step : ∀ f t, (∀ es, f.uses policy spacing length t = .ok es → ∀ e ∈ es, P e.1 e.2) → P f t)
    (f : Formula α) (t : Nat) : P f t :=
  step f t fun _ hes e he =>
    have := Formula.sizeOf_lt_of_mem_children (Formula.mem_children_of_uses hes he)
    Formula.induction_on_uses policy spacing length step e.1 e.2
termination_by sizeOf f

end Induction

/-! ## Definedness and reading -/

section Trajectories

variable {policy : WindowPolicy} {x : Trajectory α}

/-- The value of a predicate exists; other formulas read nothing themselves. -/
def Formula.Readable (x : Trajectory α) : Formula α → Nat → Prop
  | .predicate _ signal, t => ∃ a, x.signalValue signal t = .ok a
  | _, _ => True

theorem Operands.defined_iff {t : Nat} :
    ∀ args : Operands α, args.Defined policy x t ↔ ∀ g ∈ args.toList, g.Defined policy x t
  | .pair _ _ => by simp [Operands.Defined, Operands.toList]
  | .cons _ rest => by
    simp [Operands.Defined, Operands.toList, rest.defined_iff]

theorem Operands.asks_iff {t u : Nat} {signal : Signal α} :
    ∀ args : Operands α, args.Asks policy x t signal u ↔
      ∃ g ∈ args.toList, g.Asks policy x t signal u
  | .pair _ _ => by simp [Operands.Asks, Operands.toList]
  | .cons _ rest => by
    simp [Operands.Asks, Operands.toList, rest.asks_iff]

/-- A formula is defined where its own predicate value, its window, and all it uses are. -/
theorem Formula.defined_iff (hlen : x.length ≤ Index.last) {f : Formula α} {t : Nat} :
    f.Defined policy x t ↔ f.Readable x t ∧
      ∃ es, f.uses policy x.spacing x.length t = .ok es ∧ ∀ e ∈ es, e.1.Defined policy x e.2 := by
  cases f with
  | predicate _ signal => simp [Formula.Defined, Formula.Readable, Formula.uses]
  | not _ arg => simp [Formula.Defined, Formula.Readable, Formula.uses]
  | and _ args | or _ args =>
    simp [Formula.Defined, Formula.Readable, Formula.uses, Operands.defined_iff]
  | always _ interval arg | eventually _ interval arg =>
    simp only [Formula.Defined, Formula.Readable, Formula.uses, Trajectory.window,
      Except.bind_eq_ok, Except.pure_eq_ok, true_and]
    constructor
    · rintro ⟨w, hw, harg⟩
      refine ⟨_, ⟨w, hw, rfl⟩, fun e he => ?_⟩
      obtain ⟨u, hu, rfl⟩ := List.mem_map.mp he
      exact harg u (Window.mem_iff.mpr (List.mem_range'_1.mp hu))
    · rintro ⟨_, ⟨w, hw, rfl⟩, hall⟩
      refine ⟨w, hw, fun u hu => hall (arg, u) ?_⟩
      exact List.mem_map_of_mem (List.mem_range'_1.mpr (Window.mem_iff.mp hu))
  | holdsUntil _ interval left right =>
    simp only [Formula.Defined, Formula.Readable, Formula.uses, Trajectory.window,
      Except.bind_eq_ok, Except.pure_eq_ok, true_and]
    constructor
    · rintro ⟨w, hw, hright, hleft⟩
      refine ⟨_, ⟨w, hw, rfl⟩, fun e he => ?_⟩
      rcases List.mem_append.mp he with he | he <;> obtain ⟨u, hu, rfl⟩ := List.mem_map.mp he <;>
        rw [List.mem_range'_1] at hu
      · exact hright u (Window.mem_iff.mpr hu)
      · exact hleft u hu.1 (by omega)
    · rintro ⟨_, ⟨w, hw, rfl⟩, hall⟩
      refine ⟨w, hw, fun u hu => hall (right, u) ?_, fun u hu hv => hall (left, u) ?_⟩
      · exact List.mem_append_left _
          (List.mem_map_of_mem (List.mem_range'_1.mpr (Window.mem_iff.mp hu)))
      · exact List.mem_append_right _
          (List.mem_map_of_mem (List.mem_range'_1.mpr (by omega)))
  | next _ arg =>
    simp only [Formula.Defined, Formula.Readable, Formula.uses, Except.bind_eq_ok,
      Except.pure_eq_ok, true_and]
    constructor
    · rintro ⟨hlt, hdef⟩
      have hw : (policy.offsets t 1 1 x.length : Except (Fault α) Window) =
          .ok ⟨t + 1, t + 1, Nat.le_refl _⟩ :=
        (WindowPolicy.offsets_one_eq_ok hlen).mpr ⟨hlt, rfl, rfl⟩
      exact ⟨_, ⟨_, hw, rfl⟩, by simpa using hdef⟩
    · rintro ⟨_, ⟨w, hw, rfl⟩, hall⟩
      obtain ⟨hlt, hfirst, -⟩ := (WindowPolicy.offsets_one_eq_ok hlen).mp hw
      exact ⟨hlt, hfirst ▸ hall _ (List.mem_singleton_self _)⟩

/-- A formula asks for what the evaluations it uses ask for. -/
theorem Formula.asks_of_uses (hlen : x.length ≤ Index.last) {f : Formula α} {t : Nat}
    {es : List (Formula α × Nat)} (hes : f.uses policy x.spacing x.length t = .ok es)
    {e : Formula α × Nat} (he : e ∈ es) {signal : Signal α} {u : Nat}
    (h : e.1.Asks policy x e.2 signal u) : f.Asks policy x t signal u := by
  cases f with
  | predicate => cases hes; cases he
  | not _ arg => cases hes; cases List.mem_singleton.mp he; exact h
  | and _ args | or _ args =>
    cases hes
    obtain ⟨g, hg, rfl⟩ := List.mem_map.mp he
    exact args.asks_iff.mpr ⟨g, hg, h⟩
  | always _ interval arg | eventually _ interval arg =>
    obtain ⟨w, hw, hes⟩ := Except.bind_eq_ok.mp hes
    cases hes
    obtain ⟨v, hv, rfl⟩ := List.mem_map.mp he
    exact ⟨w, hw, v, Window.mem_iff.mpr (List.mem_range'_1.mp hv), h⟩
  | holdsUntil _ interval left right =>
    obtain ⟨w, hw, hes⟩ := Except.bind_eq_ok.mp hes
    cases hes
    refine ⟨w, hw, ?_⟩
    rcases List.mem_append.mp he with he | he <;> obtain ⟨v, hv, rfl⟩ := List.mem_map.mp he <;>
      rw [List.mem_range'_1] at hv
    · exact .inl ⟨v, Window.mem_iff.mpr hv, h⟩
    · exact .inr ⟨v, hv.1, by omega, h⟩
  | next _ arg =>
    obtain ⟨w, hw, hes⟩ := Except.bind_eq_ok.mp hes
    cases hes
    cases List.mem_singleton.mp he
    obtain ⟨hlt, hfirst, -⟩ := (WindowPolicy.offsets_one_eq_ok hlen).mp hw
    exact ⟨hlt, hfirst ▸ h⟩

end Trajectories

end SignalTemporalLogic
