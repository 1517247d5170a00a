import Mathlib.Data.List.Forall2

/-!
Computations with a result or a fault, read backwards: what is known of the steps of one that
returned. Also here is what two lists have in common whose elements are related one by one.
-/

namespace SignalTemporalLogic

section Except

variable {ε β γ : Type}

@[simp] theorem Except.bind_eq_ok {act : Except ε β} {next : β → Except ε γ} {c : γ} :
    act >>= next = .ok c ↔ ∃ b, act = .ok b ∧ next b = .ok c := by
  cases act <;> simp [bind, Except.bind]

theorem Except.bind_eq_error {act : Except ε β} {next : β → Except ε γ} {e : ε} :
    act >>= next = .error e ↔ act = .error e ∨ ∃ b, act = .ok b ∧ next b = .error e := by
  cases act <;> simp [bind, Except.bind]

@[simp] theorem Except.pure_eq_ok {b c : β} : (pure b : Except ε β) = .ok c ↔ b = c := by
  simp [pure, Except.pure]

theorem Except.mapError_eq_ok {ε' : Type} {rename : ε → ε'} {act : Except ε β} {b : β} :
    act.mapError rename = .ok b ↔ act = .ok b := by
  cases act with
  | error e => exact ⟨nofun, nofun⟩
  | ok c => exact ⟨fun h => congrArg _ (Except.ok.inj h), fun h => congrArg _ (Except.ok.inj h)⟩

theorem Except.mapError_eq_error {ε' : Type} {rename : ε → ε'} {act : Except ε β} {e : ε'} :
    act.mapError rename = .error e ↔ ∃ e', act = .error e' ∧ rename e' = e := by
  cases act <;> simp [Except.mapError]

/-- A run over a list returns the results of its visits, in order. -/
theorem Except.mapM_eq_ok {visit : β → Except ε γ} {bs : List β} {cs : List γ} :
    bs.mapM visit = .ok cs ↔ List.Forall₂ (fun b c => visit b = .ok c) bs cs := by
  induction bs generalizing cs with
  | nil =>
    rw [List.mapM_nil, Except.pure_eq_ok, List.forall₂_nil_left_iff]
    exact eq_comm
  | cons b bs ih =>
    simp only [List.mapM_cons, Except.bind_eq_ok, Except.pure_eq_ok, List.forall₂_cons_left_iff, ih]
    constructor
    · intro ⟨c, hc, cs, hcs, he⟩
      exact ⟨c, cs, hc, hcs, he.symm⟩
    · intro ⟨c, cs, hc, hcs, he⟩
      exact ⟨c, hc, cs, hcs, he.symm⟩

theorem Except.mapM_singleton_eq_ok {visit : β → Except ε γ} {b : β} {cs : List γ} :
    [b].mapM visit = .ok cs ↔ ∃ c, visit b = .ok c ∧ cs = [c] := by
  simp only [List.mapM_cons, List.mapM_nil, Except.bind_eq_ok, Except.pure_eq_ok, exists_eq_left']
  exact exists_congr fun c => and_congr_right fun _ => eq_comm

theorem Except.mapM_append_eq_ok {visit : β → Except ε γ} {bs bs' : List β} {cs : List γ} :
    (bs ++ bs').mapM visit = .ok cs ↔
      ∃ ds ds', bs.mapM visit = .ok ds ∧ bs'.mapM visit = .ok ds' ∧ cs = ds ++ ds' := by
  simp only [List.mapM_append, Except.bind_eq_ok, Except.pure_eq_ok]
  constructor
  · intro ⟨ds, hds, ds', hds', he⟩
    exact ⟨ds, ds', hds, hds', he.symm⟩
  · intro ⟨ds, ds', hds, hds', he⟩
    exact ⟨ds, hds, ds', hds', he.symm⟩

end Except

/-- Of two lists that are related, every element is related to one of the other list. -/
theorem exists_of_forall₂ {β γ : Type} {R : β → γ → Prop} {bs : List β} {cs : List γ}
    (h : List.Forall₂ R bs cs) : (∀ b ∈ bs, ∃ c ∈ cs, R b c) ∧ ∀ c ∈ cs, ∃ b ∈ bs, R b c := by
  induction h with
  | nil => simp
  | cons hbc _ ih =>
    simp only [List.mem_cons, forall_eq_or_imp, exists_eq_or_imp]
    exact ⟨⟨Or.inl hbc, fun b hb => Or.inr (ih.1 b hb)⟩,
      ⟨Or.inl hbc, fun c hc => Or.inr (ih.2 c hc)⟩⟩

theorem Except.exists_mapM_eq_ok {ε β γ : Type} {visit : β → Except ε γ} {bs : List β}
    (h : ∀ b ∈ bs, ∃ c, visit b = .ok c) : ∃ cs, bs.mapM visit = .ok cs := by
  induction bs with
  | nil => exact ⟨[], rfl⟩
  | cons b bs ih =>
    obtain ⟨c, hc⟩ := h b (by simp)
    obtain ⟨cs, hcs⟩ := ih fun b' hb' => h b' (by simp [hb'])
    exact ⟨c :: cs, by simp [List.mapM_cons, hc, hcs, bind, Except.bind]⟩

theorem Except.exists_mapM_eq_ok_iff {ε β γ : Type} {visit : β → Except ε γ} {bs : List β} :
    (∃ cs, bs.mapM visit = .ok cs) ↔ ∀ b ∈ bs, ∃ c, visit b = .ok c := by
  refine ⟨fun ⟨cs, hcs⟩ b hb => ?_, Except.exists_mapM_eq_ok⟩
  obtain ⟨c, -, hc⟩ := (exists_of_forall₂ (Except.mapM_eq_ok.mp hcs)).1 b hb
  exact ⟨c, hc⟩

/-- A run over a list fails where a visit does. -/
theorem Except.exists_of_mapM_eq_error {ε β γ : Type} {visit : β → Except ε γ} {bs : List β} {e : ε}
    (h : bs.mapM visit = .error e) : ∃ b ∈ bs, visit b = .error e := by
  induction bs with
  | nil => cases h
  | cons b bs ih =>
    rw [List.mapM_cons, Except.bind_eq_error] at h
    rcases h with hb | ⟨c, -, h⟩
    · exact ⟨b, by simp, hb⟩
    · rcases Except.bind_eq_error.mp h with hbs | ⟨cs, -, h⟩
      · obtain ⟨b', hmem, hb'⟩ := ih hbs
        exact ⟨b', by simp [hmem], hb'⟩
      · cases h

theorem forall₂_imp_of_mem {β γ : Type} {R S : β → γ → Prop} {bs : List β} {cs : List γ}
    (h : List.Forall₂ R bs cs) (himp : ∀ b ∈ bs, ∀ c, R b c → S b c) : List.Forall₂ S bs cs := by
  induction h with
  | nil => exact .nil
  | cons hbc _ ih =>
    exact .cons (himp _ (by simp) _ hbc) (ih fun b hb => himp b (by simp [hb]))

end SignalTemporalLogic
