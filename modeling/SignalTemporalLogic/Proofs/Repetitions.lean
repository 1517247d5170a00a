import SignalTemporalLogic.Proofs.Horizons
import SignalTemporalLogic.Proofs.Trees

/-!
Evaluations that can be repeated elsewhere: on another trajectory, under another window policy, some
samples earlier or later. What is evaluated next depends only on windows and on whether samples have
a value. So if every window and every predicate value that is there for the one evaluation is there
for the other one, at the index that takes its place, then whatever the one returns the other one
returns as well. Nothing is said of evaluations that fail.
-/

namespace SignalTemporalLogic

/-- The second computation returns whatever the first one returns. -/
def Repeats {ε ε' β : Type} (act : Except ε β) (act' : Except ε' β) : Prop :=
  ∀ b, act = .ok b → act' = .ok b

/-! ## Computations -/

namespace Repeats

variable {ε ε' β γ : Type} {act : Except ε β} {act' : Except ε' β} {a b : Nat}

theorem refl (act : Except ε β) : Repeats act act := fun _ h => h

theorem pure (v : β) : Repeats (Pure.pure v : Except ε β) (Pure.pure v : Except ε' β) :=
  fun _ h => Except.pure_eq_ok.mpr (Except.pure_eq_ok.mp h)

/-- What follows has to be repeated only after a result that is there. -/
theorem bind {next : β → Except ε γ} {next' : β → Except ε' γ} (h : Repeats act act')
    (hnext : ∀ v, act = .ok v → Repeats (next v) (next' v)) :
    Repeats (act >>= next) (act' >>= next') := by
  intro c hc
  obtain ⟨v, hv, hc⟩ := Except.bind_eq_ok.mp hc
  exact Except.bind_eq_ok.mpr ⟨v, h v hv, hnext v hv c hc⟩

/-- A run over a range is repeated over one that starts at the index taking the place of its first
index. -/
theorem mapRangeM {visit : Nat → Except ε β} {visit' : Nat → Except ε' β}
    (h : ∀ u v, u + b = v + a → Repeats (visit u) (visit' v)) {start start' : Nat}
    (hstart : start + b = start' + a) (count : Nat) :
    Repeats (Index.mapRangeM visit start count) (Index.mapRangeM visit' start' count) := by
  induction count generalizing start start' with
  | zero => exact pure []
  | succ count ih =>
    refine (h start start' hstart).bind fun first _ => ?_
    have hrest : Repeats (Index.mapRangeM visit (start + 1) count)
        (Index.mapRangeM visit' (start' + 1) count) := ih (by omega)
    exact hrest.bind fun others _ => pure (first :: others)

theorem mapWindowM {visit : Nat → Except ε β} {visit' : Nat → Except ε' β}
    (h : ∀ u v, u + b = v + a → Repeats (visit u) (visit' v)) {w w' : Window}
    (hfirst : w.first + b = w'.first + a) (hlast : w.last + b = w'.last + a) :
    Repeats (w.mapM visit) (w'.mapM visit') := by
  have hsize : w.size = w'.size := by
    unfold Window.size
    omega
  unfold Window.mapM
  rw [hsize]
  exact mapRangeM h hfirst w'.size

end Repeats

theorem Semantics.untilFrom_repeats {α Y : Type} {a b : Nat} (S : Semantics α Y)
    {left right left' right' : Nat → Except (Fault α) Y}
    (hleft : ∀ u v, u + b = v + a → Repeats (left u) (left' v))
    (hright : ∀ u v, u + b = v + a → Repeats (right u) (right' v)) {candidate candidate' : Nat}
    (hcandidate : candidate + b = candidate' + a) (before result : Y) (more : Nat) :
    Repeats (S.untilFrom left right before result candidate more)
      (S.untilFrom left' right' before result candidate' more) := by
  have hhere := hright candidate candidate' hcandidate
  induction more generalizing before result candidate candidate' with
  | zero => exact hhere.bind fun _ _ => .pure _
  | succ more ih =>
    refine hhere.bind fun _ _ => (hleft candidate candidate' hcandidate).bind fun _ _ => ?_
    have hnext : candidate + 1 + b = candidate' + 1 + a := by omega
    exact ih hnext _ _ (hright _ _ hnext)

/-! ## Trajectories -/

section Trajectories

variable {α : Type}

/-- The windows of `x` under `policy` are there in `y` under `policy'`, at the indices that take the
places of theirs: index `j` takes the place of `i` if `i + b = j + a`. -/
structure Trajectory.Mirrors (policy policy' : WindowPolicy) (x y : Trajectory α) (a b : Nat) :
    Prop where
  spacing_eq : y.spacing = x.spacing
  resolve {i j lo hi : Nat} {w : Window} : i + b = j + a →
    policy.resolve i lo hi x.length = .ok w → ∃ w', policy'.resolve j lo hi y.length = .ok w' ∧
      w.first + b = w'.first + a ∧ w.last + b = w'.last + a

variable [Scalar α] {policy policy' : WindowPolicy} {x y : Trajectory α} {a b i j : Nat} {w : Window}

theorem Trajectory.Mirrors.window (h : x.Mirrors policy policy' y a b)
    {interval : TimeInterval α} (hij : i + b = j + a) (hw : x.window policy interval i = .ok w) :
    ∃ w', y.window policy' interval j = .ok w' ∧ w.first + b = w'.first + a ∧
      w.last + b = w'.last + a := by
  obtain ⟨lo, hi, hoffsets, hresolve⟩ := WindowPolicy.window_eq_ok.mp hw
  obtain ⟨w', hw', hends⟩ := h.resolve hij hresolve
  exact ⟨w', WindowPolicy.window_eq_ok.mpr ⟨lo, hi, h.spacing_eq ▸ hoffsets, hw'⟩, hends⟩

theorem Trajectory.Mirrors.nextWindow (h : x.Mirrors policy policy' y a b) (hij : i + b = j + a)
    (hw : x.nextWindow policy i = .ok w) :
    ∃ w', y.nextWindow policy' j = .ok w' ∧ w.first + b = w'.first + a ∧
      w.last + b = w'.last + a := by
  obtain ⟨w', hw', hends⟩ := h.resolve hij (WindowPolicy.offsets_eq_ok.mp hw)
  exact ⟨w', WindowPolicy.offsets_eq_ok.mpr hw', hends⟩

/-- Whenever the signal has a value in `x`, it has that value in `y` at the index taking the place
of the query time. -/
def Signal.RepeatedIn (x y : Trajectory α) (a b : Nat) (signal : Signal α) : Prop :=
  ∀ u v, u + b = v + a → Repeats (x.signalValue signal u) (y.signalValue signal v)

end Trajectories

/-! ## Formulas -/

section Formulas

variable {α Y : Type} [Scalar α] {policy policy' : WindowPolicy} {x y : Trajectory α} {a b : Nat}

mutual

/-- **Evaluation is repeated** where the windows and the predicate values are. -/
theorem Formula.valueAt_repeats (S : Semantics α Y) (h : x.Mirrors policy policy' y a b) :
    ∀ (f : Formula α), (∀ signal ∈ f.signals, signal.RepeatedIn x y a b) →
      ∀ i j, i + b = j + a → Repeats (f.valueAt S policy x i) (f.valueAt S policy' y j)
  | .predicate _ signal, hsignals, i, j, hij =>
    (hsignals signal (List.mem_singleton_self _) i j hij).bind fun _ _ => .pure _
  | .not _ arg, hsignals, i, j, hij =>
    (arg.valueAt_repeats S h hsignals i j hij).bind fun _ _ => .pure _
  | .and _ args, hsignals, i, j, hij | .or _ args, hsignals, i, j, hij =>
    (args.valuesAt_repeats S h hsignals i j hij).bind fun _ _ => .pure _
  | .always _ _ arg, hsignals, i, j, hij | .eventually _ _ arg, hsignals, i, j, hij => by
    intro v hv
    obtain ⟨w, hw, hv⟩ := Except.bind_eq_ok.mp hv
    obtain ⟨w', hw', hfirst, hlast⟩ := h.window hij hw
    have hvisits := Repeats.mapWindowM (arg.valueAt_repeats S h hsignals) hfirst hlast
    exact Except.bind_eq_ok.mpr ⟨w', hw', (hvisits.bind fun _ _ => .pure _) v hv⟩
  | .holdsUntil _ _ left right, hsignals, i, j, hij => by
    have hleft := left.valueAt_repeats S h fun signal hs =>
      hsignals signal (List.mem_append_left _ hs)
    have hright := right.valueAt_repeats S h fun signal hs =>
      hsignals signal (List.mem_append_right _ hs)
    intro v hv
    obtain ⟨w, hw, hv⟩ := Except.bind_eq_ok.mp hv
    obtain ⟨w', hw', hfirst, hlast⟩ := h.window hij hw
    -- the window starts equally far from its anchor, and is equally long
    have hskipped : w.first - i = w'.first - j := by omega
    have hmore : w.last - w.first = w'.last - w'.first := by omega
    rw [hskipped, hmore] at hv
    have hearlier := Repeats.mapRangeM hleft hij (w'.first - j)
    exact Except.bind_eq_ok.mpr ⟨w', hw', (hearlier.bind fun _ _ =>
      S.untilFrom_repeats hleft hright hfirst _ _ (w'.last - w'.first)) v hv⟩
  | .next _ arg, hsignals, i, j, hij => by
    intro v hv
    obtain ⟨w, hw, hv⟩ := Except.bind_eq_ok.mp hv
    obtain ⟨w', hw', hfirst, -⟩ := h.nextWindow hij hw
    exact Except.bind_eq_ok.mpr
      ⟨w', hw', arg.valueAt_repeats S h hsignals w.first w'.first hfirst v hv⟩

theorem Operands.valuesAt_repeats (S : Semantics α Y) (h : x.Mirrors policy policy' y a b) :
    ∀ (args : Operands α), (∀ signal ∈ args.signals, signal.RepeatedIn x y a b) →
      ∀ i j, i + b = j + a → Repeats (args.valuesAt S policy x i) (args.valuesAt S policy' y j)
  | .pair first second, hsignals, i, j, hij => by
    have hfirst := first.valueAt_repeats S h
      (fun signal hs => hsignals signal (List.mem_append_left _ hs)) i j hij
    have hsecond := second.valueAt_repeats S h
      (fun signal hs => hsignals signal (List.mem_append_right _ hs)) i j hij
    exact hfirst.bind fun _ _ => hsecond.bind fun _ _ => .pure _
  | .cons first rest, hsignals, i, j, hij => by
    have hfirst := first.valueAt_repeats S h
      (fun signal hs => hsignals signal (List.mem_append_left _ hs)) i j hij
    have hrest := rest.valuesAt_repeats S h
      (fun signal hs => hsignals signal (List.mem_append_right _ hs)) i j hij
    exact hfirst.bind fun _ _ => hrest.bind fun _ _ => .pure _

end

mutual

/-- **Score trees are repeated** where the windows and the predicate values are. -/
theorem Formula.treeAt_repeats (h : x.Mirrors policy policy' y a b) :
    ∀ (f : Formula α), (∀ signal ∈ f.signals, signal.RepeatedIn x y a b) →
      ∀ i j, i + b = j + a → Repeats (f.treeAt policy x i) (f.treeAt policy' y j)
  | .predicate _ signal, hsignals, i, j, hij =>
    (hsignals signal (List.mem_singleton_self _) i j hij).bind fun _ _ => .pure _
  | .not _ arg, hsignals, i, j, hij =>
    (arg.treeAt_repeats h hsignals i j hij).bind fun _ _ => .pure _
  | .and _ args, hsignals, i, j, hij | .or _ args, hsignals, i, j, hij =>
    (args.treesAt_repeats h hsignals i j hij).bind fun _ _ => .pure _
  | .always _ _ arg, hsignals, i, j, hij | .eventually _ _ arg, hsignals, i, j, hij => by
    intro v hv
    obtain ⟨w, hw, hv⟩ := Except.bind_eq_ok.mp hv
    obtain ⟨w', hw', hfirst, hlast⟩ := h.window hij hw
    have hvisits := Repeats.mapWindowM (arg.treeAt_repeats h hsignals) hfirst hlast
    exact Except.bind_eq_ok.mpr ⟨w', hw', (hvisits.bind fun _ _ => .pure _) v hv⟩
  | .holdsUntil _ _ left right, hsignals, i, j, hij => by
    have hleft := left.treeAt_repeats h fun signal hs =>
      hsignals signal (List.mem_append_left _ hs)
    have hright := right.treeAt_repeats h fun signal hs =>
      hsignals signal (List.mem_append_right _ hs)
    intro v hv
    obtain ⟨w, hw, hv⟩ := Except.bind_eq_ok.mp hv
    obtain ⟨w', hw', hfirst, hlast⟩ := h.window hij hw
    have hskipped : w.first - i = w'.first - j := by omega
    have hcount : w.last - i = w'.last - j := by omega
    rw [hskipped, hcount] at hv
    have hrights := Repeats.mapWindowM hright hfirst hlast
    have hlefts := Repeats.mapRangeM hleft hij (w'.last - j)
    exact Except.bind_eq_ok.mpr ⟨w', hw', (hrights.bind fun _ _ => hlefts.bind fun _ _ =>
      .pure _) v hv⟩
  | .next _ arg, hsignals, i, j, hij => by
    intro v hv
    obtain ⟨w, hw, hv⟩ := Except.bind_eq_ok.mp hv
    obtain ⟨w', hw', hfirst, -⟩ := h.nextWindow hij hw
    have harg := arg.treeAt_repeats h hsignals w.first w'.first hfirst
    exact Except.bind_eq_ok.mpr ⟨w', hw', (harg.bind fun _ _ => .pure _) v hv⟩

theorem Operands.treesAt_repeats (h : x.Mirrors policy policy' y a b) :
    ∀ (args : Operands α), (∀ signal ∈ args.signals, signal.RepeatedIn x y a b) →
      ∀ i j, i + b = j + a → Repeats (args.treesAt policy x i) (args.treesAt policy' y j)
  | .pair first second, hsignals, i, j, hij => by
    have hfirst := first.treeAt_repeats h
      (fun signal hs => hsignals signal (List.mem_append_left _ hs)) i j hij
    have hsecond := second.treeAt_repeats h
      (fun signal hs => hsignals signal (List.mem_append_right _ hs)) i j hij
    exact hfirst.bind fun _ _ => hsecond.bind fun _ _ => .pure _
  | .cons first rest, hsignals, i, j, hij => by
    have hfirst := first.treeAt_repeats h
      (fun signal hs => hsignals signal (List.mem_append_left _ hs)) i j hij
    have hrest := rest.treesAt_repeats h
      (fun signal hs => hsignals signal (List.mem_append_right _ hs)) i j hij
    exact hfirst.bind fun _ _ => hrest.bind fun _ _ => .pure _

end

/-- With the anchor inside both trajectories, the whole evaluation is repeated. -/
theorem Formula.evaluate_repeats (S : Semantics α Y) (h : x.Mirrors policy policy' y a b)
    {f : Formula α} (hsignals : ∀ signal ∈ f.signals, signal.RepeatedIn x y a b) {i j : Nat}
    (hij : i + b = j + a) (hanchor : i < x.length → j < y.length) :
    Repeats (f.evaluate S policy x i) (f.evaluate S policy' y j) := by
  intro v hv
  obtain ⟨hi, hv⟩ := Formula.evaluate_eq_ok.mp hv
  exact Formula.evaluate_eq_ok.mpr
    ⟨hanchor hi, f.valueAt_repeats S h hsignals i j hij v hv⟩

theorem Formula.robustnessTree_repeats (h : x.Mirrors policy policy' y a b) {f : Formula α}
    (hsignals : ∀ signal ∈ f.signals, signal.RepeatedIn x y a b) {i j : Nat}
    (hij : i + b = j + a) (hanchor : i < x.length → j < y.length) :
    Repeats (f.robustnessTree policy x i) (f.robustnessTree policy' y j) := by
  intro tree htree
  obtain ⟨hi, htree⟩ := Formula.robustnessTree_eq_ok.mp htree
  exact Formula.robustnessTree_eq_ok.mpr
    ⟨hanchor hi, f.treeAt_repeats h hsignals i j hij tree htree⟩

end Formulas

end SignalTemporalLogic
