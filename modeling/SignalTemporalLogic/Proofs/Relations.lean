import SignalTemporalLogic.Proofs.Meaning
import SignalTemporalLogic.Proofs.Windows

/-!
Two evaluations of one formula, side by side: in two semantics, over two trajectories of one shape.
Evaluation never looks at a value, so the two take the same steps. Whatever relation the connectives
keep and the predicate values start with is then a relation of the results, and if one evaluation
fails so does the other one, at the same place.
-/

namespace SignalTemporalLogic

/-- Both computations return and the results are related by `R`, or both fail and the faults are
related by `E`. -/
def EndAlike {ε ε' β γ : Type} (E : ε → ε' → Prop) (R : β → γ → Prop) :
    Except ε β → Except ε' γ → Prop
  | .ok b, .ok c => R b c
  | .error e, .error e' => E e e'
  | _, _ => False

/-! ## Computations -/

namespace EndAlike

section Steps

variable {ε ε' β γ β' γ' : Type} {E : ε → ε' → Prop} {R : β → γ → Prop} {Q : β' → γ' → Prop}

theorem pure {b : β} {c : γ} (h : R b c) : EndAlike E R (Pure.pure b) (Pure.pure c) := h

theorem bind {act : Except ε β} {act' : Except ε' γ} {next : β → Except ε β'}
    {next' : γ → Except ε' γ'} (h : EndAlike E R act act')
    (hnext : ∀ b c, R b c → EndAlike E Q (next b) (next' c)) :
    EndAlike E Q (act >>= next) (act' >>= next') := by
  cases act <;> cases act'
  case ok.ok b c => exact hnext b c h
  case error.error => exact h
  all_goals exact h.elim

/-- What is related are the results. -/
theorem with_results {act : Except ε β} {act' : Except ε' γ} (h : EndAlike E R act act') :
    EndAlike E (fun b c => R b c ∧ act = .ok b ∧ act' = .ok c) act act' := by
  cases act <;> cases act'
  case ok.ok => exact ⟨h, rfl, rfl⟩
  all_goals exact h

/-- A first step that both have in common can only fail with the same fault. -/
theorem bind_same {E : ε → ε → Prop} {δ : Type} (hE : ∀ e, E e e) (act : Except ε δ)
    {next : δ → Except ε β} {next' : δ → Except ε γ}
    (h : ∀ d, act = .ok d → EndAlike E R (next d) (next' d)) :
    EndAlike E R (act >>= next) (act >>= next') := by
  cases act with
  | error e => exact hE e
  | ok d => exact h d rfl

theorem mapRangeM {visit : Nat → Except ε β} {visit' : Nat → Except ε' γ} (start count : Nat)
    (h : ∀ u, start ≤ u → u < start + count → EndAlike E R (visit u) (visit' u)) :
    EndAlike E (List.Forall₂ R) (Index.mapRangeM visit start count)
      (Index.mapRangeM visit' start count) := by
  induction count generalizing start with
  | zero => exact .nil
  | succ count ih =>
    have hfirst := h start (Nat.le_refl _) (by omega)
    have hothers := ih (start + 1) fun u hu hv => h u (by omega) (by omega)
    exact hfirst.bind fun _ _ hb => hothers.bind fun _ _ hbs => .cons hb hbs

theorem mapM {δ δ' : Type} {visit : δ → Except ε β} {visit' : δ' → Except ε' γ} {ds : List δ}
    {ds' : List δ'} (h : List.Forall₂ (fun d d' => EndAlike E R (visit d) (visit' d')) ds ds') :
    EndAlike E (List.Forall₂ R) (ds.mapM visit) (ds'.mapM visit') := by
  induction h with
  | nil => exact .nil
  | cons hfirst _ ih =>
    rw [List.mapM_cons, List.mapM_cons]
    exact hfirst.bind fun _ _ hb => ih.bind fun _ _ hbs => .cons hb hbs

theorem imp {R' : β → γ → Prop} {act : Except ε β} {act' : Except ε' γ} (h : EndAlike E R act act')
    (hR : ∀ b c, R b c → R' b c) : EndAlike E R' act act' := by
  cases act <;> cases act'
  case ok.ok b c => exact hR b c h
  all_goals exact h

/-- What both computations have in common is whether they return. -/
theorem ok_iff {act : Except ε β} {act' : Except ε' γ} (h : EndAlike E R act act') :
    (∃ b, act = .ok b) ↔ ∃ c, act' = .ok c := by
  cases act <;> cases act' <;> simp_all [EndAlike]

/-- Computations that return in the same cases are alike in what their results have in common. -/
theorem of_ok_iff {act : Except ε β} {act' : Except ε' γ}
    (h : (∃ b, act = .ok b) ↔ ∃ c, act' = .ok c)
    (hR : ∀ b c, act = .ok b → act' = .ok c → R b c) : EndAlike (fun _ _ => True) R act act' := by
  cases act with
  | ok b =>
    obtain ⟨c, rfl⟩ := h.mp ⟨b, rfl⟩
    exact hR b c rfl rfl
  | error e =>
    cases act' with
    | ok c => exact nomatch h.mpr ⟨c, rfl⟩
    | error e' => trivial

end Steps

theorem mapWindowM {ε ε' β γ : Type} {E : ε → ε' → Prop} {R : β → γ → Prop}
    {visit : Nat → Except ε β} {visit' : Nat → Except ε' γ} (w : Window)
    (h : ∀ u ∈ w, EndAlike E R (visit u) (visit' u)) :
    EndAlike E (List.Forall₂ R) (w.mapM visit) (w.mapM visit') :=
  mapRangeM w.first w.size fun u hu hv => h u (Window.mem_iff.mpr ⟨hu, hv⟩)

end EndAlike

/-! ## Semantics -/

/-- A relation between the values of two semantics that conjunctions and disjunctions keep. -/
structure Semantics.Related {α Y Z : Type} (S : Semantics α Y) (T : Semantics α Z)
    (R : Y → Z → Prop) : Prop where
  and {a a' : Y} {b b' : Z} : R a b → R a' b' → R (S.and a a') (T.and b b')
  or {a a' : Y} {b b' : Z} : R a b → R a' b' → R (S.or a a') (T.or b b')
  always : R S.always T.always
  eventually : R S.eventually T.eventually

namespace Semantics.Related

variable {α Y Z : Type} {S : Semantics α Y} {T : Semantics α Z} {R : Y → Z → Prop}

theorem all (h : S.Related T R) {values : List Y} {values' : List Z}
    (hvalues : List.Forall₂ R values values') : R (S.all values) (T.all values') :=
  List.rel_foldl (P := R) (R := R) (fun _ _ hab _ _ hv => h.and hab hv) h.always hvalues

theorem any (h : S.Related T R) {values : List Y} {values' : List Z}
    (hvalues : List.Forall₂ R values values') : R (S.any values) (T.any values') :=
  List.rel_foldl (P := R) (R := R) (fun _ _ hab _ _ hv => h.or hab hv) h.eventually hvalues

theorem untilFrom {E : Fault α → Fault α → Prop} (h : S.Related T R)
    {left right : Nat → Except (Fault α) Y} {left' right' : Nat → Except (Fault α) Z}
    {before result : Y} {before' result' : Z} {candidate more : Nat}
    (hbefore : R before before') (hresult : R result result')
    (hright : ∀ u, candidate ≤ u → u ≤ candidate + more → EndAlike E R (right u) (right' u))
    (hleft : ∀ u, candidate ≤ u → u < candidate + more → EndAlike E R (left u) (left' u)) :
    EndAlike E R (S.untilFrom left right before result candidate more)
      (T.untilFrom left' right' before' result' candidate more) := by
  have hhere := hright candidate (Nat.le_refl _) (by omega)
  induction more generalizing before before' result result' candidate with
  | zero => exact hhere.bind fun _ _ hr => h.or hresult (h.and hr hbefore)
  | succ more ih =>
    have hlast := hleft candidate (Nat.le_refl _) (by omega)
    refine hhere.bind fun _ _ hr => hlast.bind fun _ _ hl => ?_
    exact ih (h.and hbefore hl) (h.or hresult (h.and hr hbefore))
      (fun u hu hv => hright u (by omega) (by omega))
      (fun u hu hv => hleft u (by omega) (by omega)) (hright _ (by omega) (by omega))

end Semantics.Related

/-! ## Formulas -/

section NegationFree

variable {α : Type} [Scalar α]

mutual

/-- The formula contains no negation. -/
def Formula.NegationFree : Formula α → Prop
  | .predicate _ _ => True
  | .not _ _ => False
  | .and _ args | .or _ args => args.NegationFree
  | .always _ _ arg | .eventually _ _ arg | .next _ arg => arg.NegationFree
  | .holdsUntil _ _ left right => left.NegationFree ∧ right.NegationFree

def Operands.NegationFree : Operands α → Prop
  | .pair first second => first.NegationFree ∧ second.NegationFree
  | .cons first rest => first.NegationFree ∧ rest.NegationFree

end

end NegationFree

section Formulas

variable {α Y Z : Type} [Scalar α] {S : Semantics α Y} {T : Semantics α Z} {R : Y → Z → Prop}
  {E : Fault α → Fault α → Prop} {policy : WindowPolicy} {x y : Trajectory α}

/-- On one trajectory, both evaluations read the same predicate values. -/
theorem Trajectory.signalValue_alike {signal : Signal α} {u : Nat}
    (h : ∀ a, x.signalValue signal u = .ok a → R (S.atomic a) (T.atomic a)) :
    EndAlike Eq (fun a b => R (S.atomic a) (T.atomic b)) (x.signalValue signal u)
      (x.signalValue signal u) := by
  cases hvalue : x.signalValue signal u with
  | error e => exact rfl
  | ok a => exact h a hvalue

mutual

/-- **Evaluation keeps what the connectives keep**: the values of a formula are related, provided
that the predicate values it asks for are. Negations matter only to formulas that have one. -/
theorem Formula.valueAt_alike (hR : S.Related T R) (hE : ∀ e, E e e)
    (hlen : x.length ≤ Index.last) (hspacing : y.spacing = x.spacing)
    (hlength : y.length = x.length) :
    ∀ (f : Formula α) (t : Nat),
      (f.NegationFree ∨ ∀ a b, R a b → R (S.not a) (T.not b)) →
      (∀ signal u, f.Asks policy x t signal u →
        EndAlike E (fun a b => R (S.atomic a) (T.atomic b)) (x.signalValue signal u)
          (y.signalValue signal u)) →
      EndAlike E R (f.valueAt S policy x t) (f.valueAt T policy y t)
  | .predicate _ signal, t, _, hasks =>
    (hasks signal t ⟨rfl, rfl⟩).bind fun _ _ h => h
  | .not _ arg, t, hnot, hasks => by
    have hkeeps := hnot.resolve_left not_false
    have harg := Formula.valueAt_alike hR hE hlen hspacing hlength arg t (.inr hkeeps) hasks
    exact harg.bind fun a b h => hkeeps a b h
  | .and _ args, t, hnot, hasks => by
    have hargs := Operands.valuesAt_alike hR hE hlen hspacing hlength args t hnot hasks
    exact hargs.bind fun _ _ h => hR.all h
  | .or _ args, t, hnot, hasks => by
    have hargs := Operands.valuesAt_alike hR hE hlen hspacing hlength args t hnot hasks
    exact hargs.bind fun _ _ h => hR.any h
  | .always _ interval arg, t, hnot, hasks => by
    unfold Formula.valueAt Trajectory.window
    rw [hspacing, hlength]
    refine .bind_same hE _ fun w hw => ?_
    have hvisits := EndAlike.mapWindowM w fun u hu =>
      Formula.valueAt_alike hR hE hlen hspacing hlength arg u hnot
        fun signal v h => hasks signal v ⟨w, hw, u, hu, h⟩
    exact hvisits.bind fun _ _ h => hR.all h
  | .eventually _ interval arg, t, hnot, hasks => by
    unfold Formula.valueAt Trajectory.window
    rw [hspacing, hlength]
    refine .bind_same hE _ fun w hw => ?_
    have hvisits := EndAlike.mapWindowM w fun u hu =>
      Formula.valueAt_alike hR hE hlen hspacing hlength arg u hnot
        fun signal v h => hasks signal v ⟨w, hw, u, hu, h⟩
    exact hvisits.bind fun _ _ h => hR.any h
  | .holdsUntil _ interval left right, t, hnot, hasks => by
    have hleft (w : Window) (hw : x.window policy interval t = .ok w) (u : Nat) (hu : t ≤ u)
        (hv : u < w.last) := Formula.valueAt_alike hR hE hlen hspacing hlength left u
      (hnot.imp_left And.left) fun signal v h => hasks signal v ⟨w, hw, .inr ⟨u, hu, hv, h⟩⟩
    have hright (w : Window) (hw : x.window policy interval t = .ok w) (u : Nat) (hu : u ∈ w) :=
      Formula.valueAt_alike hR hE hlen hspacing hlength right u
        (hnot.imp_left And.right) fun signal v h => hasks signal v ⟨w, hw, .inl ⟨u, hu, h⟩⟩
    unfold Formula.valueAt Trajectory.window
    rw [hspacing, hlength]
    refine .bind_same hE _ fun w hw => ?_
    have hfirst := (WindowPolicy.window_bounds hlen hw).1
    have hlast := w.first_le_last
    have hearlier := EndAlike.mapRangeM t (w.first - t) fun u hu hv =>
      hleft w hw u hu (by omega)
    exact hearlier.bind fun _ _ h => hR.untilFrom (hR.all h) hR.eventually
      (fun u hu hv => hright w hw u ⟨hu, by omega⟩)
      (fun u hu hv => hleft w hw u (by omega) (by omega))
  | .next _ arg, t, hnot, hasks => by
    unfold Formula.valueAt Trajectory.nextWindow
    rw [hlength]
    refine .bind_same hE _ fun w hw => ?_
    obtain ⟨hlt, hfirst, -⟩ := (WindowPolicy.offsets_one_eq_ok hlen).mp hw
    rw [hfirst]
    exact Formula.valueAt_alike hR hE hlen hspacing hlength arg (t + 1) hnot
      fun signal u h => hasks signal u ⟨hlt, h⟩

theorem Operands.valuesAt_alike (hR : S.Related T R) (hE : ∀ e, E e e)
    (hlen : x.length ≤ Index.last) (hspacing : y.spacing = x.spacing)
    (hlength : y.length = x.length) :
    ∀ (args : Operands α) (t : Nat),
      (args.NegationFree ∨ ∀ a b, R a b → R (S.not a) (T.not b)) →
      (∀ signal u, args.Asks policy x t signal u →
        EndAlike E (fun a b => R (S.atomic a) (T.atomic b)) (x.signalValue signal u)
          (y.signalValue signal u)) →
      EndAlike E (List.Forall₂ R) (args.valuesAt S policy x t) (args.valuesAt T policy y t)
  | .pair first second, t, hnot, hasks => by
    have hfirst := Formula.valueAt_alike hR hE hlen hspacing hlength first t
      (hnot.imp_left And.left) fun signal u h => hasks signal u (.inl h)
    have hsecond := Formula.valueAt_alike hR hE hlen hspacing hlength second t
      (hnot.imp_left And.right) fun signal u h => hasks signal u (.inr h)
    exact hfirst.bind fun _ _ ha => hsecond.bind fun _ _ hb => .cons ha (.cons hb .nil)
  | .cons first rest, t, hnot, hasks => by
    have hfirst := Formula.valueAt_alike hR hE hlen hspacing hlength first t
      (hnot.imp_left And.left) fun signal u h => hasks signal u (.inl h)
    have hrest := Operands.valuesAt_alike hR hE hlen hspacing hlength rest t
      (hnot.imp_left And.right) fun signal u h => hasks signal u (.inr h)
    exact hfirst.bind fun _ _ ha => hrest.bind fun _ _ hb => .cons ha hb

end

/-- The anchor is checked alike, too. -/
theorem Formula.evaluate_alike (hR : S.Related T R) (hE : ∀ e, E e e)
    (hlen : x.length ≤ Index.last) (hspacing : y.spacing = x.spacing)
    (hlength : y.length = x.length) (f : Formula α) (anchor : Nat)
    (hnot : f.NegationFree ∨ ∀ a b, R a b → R (S.not a) (T.not b))
    (hasks : ∀ signal u, f.Asks policy x anchor signal u →
      EndAlike E (fun a b => R (S.atomic a) (T.atomic b)) (x.signalValue signal u)
        (y.signalValue signal u)) :
    EndAlike E R (f.evaluate S policy x anchor) (f.evaluate T policy y anchor) := by
  have hvalue := Formula.valueAt_alike hR hE hlen hspacing hlength f anchor hnot hasks
  unfold Formula.evaluate Trajectory.checkIndex
  rw [hlength]
  split
  · exact hE _
  · exact hvalue

end Formulas

end SignalTemporalLogic
