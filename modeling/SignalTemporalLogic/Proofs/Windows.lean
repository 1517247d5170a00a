import SignalTemporalLogic.Proofs.Outcomes
import SignalTemporalLogic.Time.Window

/-!
What a window is and what running over one gives. Indices are 64-bit words, so a domain has at most
`Index.last` of them, and sums that stop at the last index lie outside of it.
-/

namespace SignalTemporalLogic

/-! ## Ranges of indices -/

namespace Index

variable {ε β : Type}

theorem mapRangeM_ok {visit : Nat → Except ε β} {value : Nat → β} (start count : Nat)
    (h : ∀ u, start ≤ u → u < start + count → visit u = .ok (value u)) :
    mapRangeM visit start count = .ok ((List.range' start count).map value) := by
  induction count generalizing start with
  | zero => rfl
  | succ count ih =>
    have hfirst := h start (Nat.le_refl _) (by omega)
    have hrest := ih (start + 1) fun u hu hv => h u (by omega) (by omega)
    simp [mapRangeM, hfirst, hrest, List.range'_succ, bind, Except.bind, pure, Except.pure]

/-- A run over a range is one over the list of its indices. -/
theorem mapRangeM_eq_mapM {m : Type → Type} [Monad m] [LawfulMonad m] (visit : Nat → m β)
    (start count : Nat) : mapRangeM visit start count = (List.range' start count).mapM visit := by
  induction count generalizing start with
  | zero => simp [mapRangeM]
  | succ count ih => simp [mapRangeM, List.range'_succ, ih]

theorem exists_ok_of_mapRangeM {visit : Nat → Except ε β} {start count : Nat} {values : List β}
    (h : mapRangeM visit start count = .ok values) :
    ∀ u, start ≤ u → u < start + count → ∃ y, visit u = .ok y := by
  induction count generalizing start values with
  | zero => intro u hu hv; omega
  | succ count ih =>
    cases hfirst : visit start with
    | error e => simp [mapRangeM, hfirst, bind, Except.bind] at h
    | ok first =>
      cases hrest : mapRangeM visit (start + 1) count with
      | error e => simp [mapRangeM, hfirst, hrest, bind, Except.bind] at h
      | ok rest =>
        intro u hu hv
        by_cases he : u = start
        · exact ⟨first, he ▸ hfirst⟩
        · exact ih hrest u (by omega) (by omega)

/-- A run over a range that returned has collected the results of a function. -/
theorem eq_map_of_mapRangeM [Inhabited β] {visit : Nat → Except ε β} {start count : Nat}
    {values : List β} (h : mapRangeM visit start count = .ok values) :
    ∃ value : Nat → β, values = (List.range' start count).map value ∧
      ∀ u, start ≤ u → u < start + count → visit u = .ok (value u) := by
  let value (u : Nat) : β := (visit u).toOption.getD default
  have hvalue : ∀ u, start ≤ u → u < start + count → visit u = .ok (value u) := by
    intro u hu hv
    obtain ⟨b, hb⟩ := exists_ok_of_mapRangeM h u hu hv
    simp [value, hb, Except.toOption]
  exact ⟨value, Except.ok.inj (h.symm.trans (mapRangeM_ok start count hvalue)), hvalue⟩

end Index

theorem Window.mem_def {w : Window} {u : Nat} : u ∈ w ↔ w.first ≤ u ∧ u ≤ w.last := Iff.rfl

theorem Window.mem_iff {w : Window} {u : Nat} : u ∈ w ↔ w.first ≤ u ∧ u < w.first + w.size := by
  have := w.first_le_last
  rw [Window.mem_def, Window.size]
  omega

theorem Window.mapM_ok {ε β : Type} {w : Window} {visit : Nat → Except ε β} {value : Nat → β}
    (h : ∀ u ∈ w, visit u = .ok (value u)) :
    w.mapM visit = .ok ((List.range' w.first w.size).map value) :=
  Index.mapRangeM_ok _ _ fun u hu hv => h u (Window.mem_iff.mpr ⟨hu, hv⟩)

/-! ## Resolution -/

section Resolution

variable {α : Type} [Scalar α]

/-- In a domain of 64-bit indices no offset is lost: a window is there if its first index is inside,
under the strict policy its last one too, and then it covers what is inside. -/
theorem WindowPolicy.resolve_eq_ok {policy : WindowPolicy} {anchor lo hi length : Nat} {w : Window}
    (hlen : length ≤ Index.last) :
    policy.resolve anchor lo hi length = .ok w ↔
      lo ≤ hi ∧ anchor + lo < length ∧ (policy = .strict → anchor + hi < length) ∧
        w.first = anchor + lo ∧ w.last = min (anchor + hi) (length - 1) := by
  obtain ⟨first, last, hle⟩ := w
  unfold WindowPolicy.resolve
  by_cases ordered : lo ≤ hi
  · rw [dif_pos ordered]
    cases policy
    · by_cases inside : length ≤ Index.saturatingAdd anchor hi <;>
        simp only [inside, if_true, if_false] <;> simp [Index.saturatingAdd] at inside ⊢ <;> omega
    · by_cases inside : length ≤ Index.saturatingAdd anchor lo <;>
        simp only [inside, dif_pos, dif_neg, not_false_iff] <;>
        simp [Index.saturatingAdd] at inside ⊢ <;> omega
  · simp [ordered]

theorem WindowPolicy.offsets_eq_ok {policy : WindowPolicy} {anchor lo hi length : Nat} {w : Window} :
    (policy.offsets anchor lo hi length : Except (Fault α) Window) = .ok w ↔
      policy.resolve anchor lo hi length = .ok w := by
  unfold WindowPolicy.offsets
  exact Except.mapError_eq_ok

theorem WindowPolicy.window_eq_ok {policy : WindowPolicy} {interval : TimeInterval α} {spacing : α}
    {anchor length : Nat} {w : Window} :
    policy.window interval spacing anchor length = .ok w ↔
      ∃ lo hi, interval.discretize spacing = .ok (lo, hi) ∧
        policy.resolve anchor lo hi length = .ok w := by
  unfold WindowPolicy.window
  cases interval.discretize spacing with
  | error e => simp [bind, Except.bind]
  | ok offsets =>
    obtain ⟨lo, hi⟩ := offsets
    simp only [bind, Except.bind, Except.ok.injEq, Prod.mk.injEq, exists_and_left,
      exists_eq_left', and_assoc]
    exact Except.mapError_eq_ok

/-- The window of the next sample is that sample, if there is one. -/
theorem WindowPolicy.offsets_one_eq_ok {policy : WindowPolicy} {t length : Nat} {w : Window}
    (hlen : length ≤ Index.last) :
    (policy.offsets t 1 1 length : Except (Fault α) Window) = .ok w ↔
      t + 1 < length ∧ w.first = t + 1 ∧ w.last = t + 1 := by
  rw [WindowPolicy.offsets_eq_ok, WindowPolicy.resolve_eq_ok hlen]
  omega

/-- A window starts at its anchor or later, and ends inside the domain. -/
theorem WindowPolicy.window_bounds {policy : WindowPolicy} {interval : TimeInterval α} {spacing : α}
    {anchor length : Nat} {w : Window} (hlen : length ≤ Index.last)
    (h : policy.window interval spacing anchor length = .ok w) :
    anchor ≤ w.first ∧ w.last < length := by
  obtain ⟨lo, hi, -, hr⟩ := WindowPolicy.window_eq_ok.mp h
  obtain ⟨-, hlo, -, hfirst, hlast⟩ := (WindowPolicy.resolve_eq_ok hlen).mp hr
  omega

end Resolution

end SignalTemporalLogic
