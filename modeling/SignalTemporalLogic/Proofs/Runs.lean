import Mathlib.Data.List.Forall2
import SignalTemporalLogic.Index

/-!
A program logic for computations that change a state and may fail. A run is followed through worlds,
which carry what is known of a state, and two relations between worlds say how a run may change them:
one for every run, cut short or not, and a finer one for runs that return. An assertion about a run
is composed of assertions about its steps.
-/

namespace SignalTemporalLogic

/-- Worlds for the states of a computation. -/
structure RunLogic (S W : Type) where
  state : W → S
  /-- A run in the first world may end in the second. -/
  later : W → W → Prop
  /-- A run in the first world may return in the second. -/
  tidy : W → W → Prop
  /-- Runs may fail. -/
  fails : Prop
  tidy_refl (w : W) : tidy w w
  tidy_trans {u v w : W} : tidy u v → tidy v w → tidy u w
  later_of_tidy {v w : W} : tidy v w → later v w
  later_trans {u v w : W} : later u v → later v w → later u w

variable {S W ε β γ : Type}

namespace RunLogic

variable (L : RunLogic S W)

/-- The run of the computation in a world ends in a later one. It fails only if runs may; otherwise
the ending world is tidy and the result is as asserted. -/
def Leads (w : W) (act : ExceptT ε (StateM S) β) (post : β → W → Prop) : Prop :=
  match act (L.state w) with
  | (.ok b, s) => ∃ w', L.state w' = s ∧ L.tidy w w' ∧ post b w'
  | (.error _, s) => L.fails ∧ ∃ w', L.state w' = s ∧ L.later w w'

variable {L} {w : W} {act : ExceptT ε (StateM S) β} {post : β → W → Prop}

theorem later_refl (w : W) : L.later w w := L.later_of_tidy (L.tidy_refl w)

theorem leads_of_ok {b : β} {s : S} (h : act (L.state w) = (.ok b, s)) :
    L.Leads w act post ↔ ∃ w', L.state w' = s ∧ L.tidy w w' ∧ post b w' := by
  unfold Leads
  rw [h]

theorem leads_of_error {e : ε} {s : S} (h : act (L.state w) = (.error e, s)) :
    L.Leads w act post ↔ L.fails ∧ ∃ w', L.state w' = s ∧ L.later w w' := by
  unfold Leads
  rw [h]

/-- Every run ends in a later world. -/
theorem Leads.exists_later (h : L.Leads w act post) :
    ∃ w', L.state w' = (act (L.state w)).2 ∧ L.later w w' := by
  rcases hrun : act (L.state w) with ⟨_ | b, s⟩
  · exact ((leads_of_error hrun).mp h).2
  · obtain ⟨w', hs, htidy, -⟩ := (leads_of_ok hrun).mp h
    exact ⟨w', hs, L.later_of_tidy htidy⟩

/-- What is asserted of a run holds if it returned. -/
theorem Leads.exists_post (h : L.Leads w act post) {b : β} (hb : (act (L.state w)).1 = .ok b) :
    ∃ w', L.state w' = (act (L.state w)).2 ∧ L.tidy w w' ∧ post b w' :=
  (leads_of_ok (Prod.ext hb rfl)).mp h

/-- A run returns if it may not fail. -/
theorem Leads.exists_ok (h : L.Leads w act post) (hfails : ¬ L.fails) :
    ∃ b, (act (L.state w)).1 = .ok b := by
  cases hresult : (act (L.state w)).1 with
  | error e => exact absurd ((leads_of_error (Prod.ext hresult rfl)).mp h).1 hfails
  | ok b => exact ⟨b, rfl⟩

theorem leads_pure {b : β} (h : post b w) :
    L.Leads w (pure b : ExceptT ε (StateM S) β) post :=
  (leads_of_ok rfl).mpr ⟨w, rfl, L.tidy_refl w, h⟩

theorem leads_throw {e : ε} (h : L.fails) :
    L.Leads w (throw e : ExceptT ε (StateM S) β) post :=
  (leads_of_error rfl).mpr ⟨h, w, rfl, L.later_refl w⟩

/-- A fault without a change of state. -/
theorem leads_lift {x : Except ε β} (hok : ∀ b, x = .ok b → post b w)
    (hfails : L.fails ∨ ∃ b, x = .ok b) :
    L.Leads w (liftM x : ExceptT ε (StateM S) β) post := by
  cases x with
  | error e => exact leads_throw (hfails.resolve_right (by simp))
  | ok b => exact leads_pure (hok b rfl)

/-- Reading the state. -/
theorem leads_get {post : S → W → Prop} (h : post (L.state w) w) :
    L.Leads w (get : ExceptT ε (StateM S) S) post :=
  (leads_of_ok (show (get : ExceptT ε (StateM S) S) (L.state w) = (.ok _, _) from rfl)).mpr
    ⟨w, rfl, L.tidy_refl w, h⟩

/-- Changing the state. -/
theorem leads_modify {f : S → S} {post : Unit → W → Prop} (w' : W)
    (hstate : L.state w' = f (L.state w)) (htidy : L.tidy w w') (h : post () w') :
    L.Leads w (modify f : ExceptT ε (StateM S) Unit) post :=
  (leads_of_ok (show (modify f : ExceptT ε (StateM S) Unit) (L.state w) = (.ok (), _) from rfl)).mpr
    ⟨w', hstate, htidy, h⟩

theorem leads_set {s : S} {post : PUnit → W → Prop} (w' : W) (hstate : L.state w' = s)
    (htidy : L.tidy w w') (h : post ⟨⟩ w') :
    L.Leads w (set s : ExceptT ε (StateM S) PUnit) post :=
  (leads_of_ok (show (set s : ExceptT ε (StateM S) PUnit) (L.state w) = (.ok ⟨⟩, s) from rfl)).mpr
    ⟨w', hstate, htidy, h⟩

theorem run_bind_error {next : β → ExceptT ε (StateM S) γ} {s s' : S} {e : ε}
    (h : act s = (.error e, s')) : (act >>= next) s = (.error e, s') := by
  show (let (r, t) := act s; ExceptT.bindCont next r t) = _
  rw [h]
  rfl

theorem run_bind_ok (next : β → ExceptT ε (StateM S) γ) {s s' : S} {b : β}
    (h : act s = (.ok b, s')) : (act >>= next) s = next b s' := by
  show (let (r, t) := act s; ExceptT.bindCont next r t) = _
  rw [h]
  rfl

theorem run_bind_eq_error {next : β → ExceptT ε (StateM S) γ} {s s' : S} {e : ε}
    (h : (act >>= next) s = (.error e, s')) :
    act s = (.error e, s') ∨ ∃ b u, act s = (.ok b, u) ∧ next b u = (.error e, s') := by
  rcases hrun : act s with ⟨e' | b, u⟩
  · rw [run_bind_error hrun] at h
    cases h
    exact .inl rfl
  · rw [run_bind_ok next hrun] at h
    exact .inr ⟨b, u, rfl, h⟩

/-- The rest of a run starts in the world that its first step leads to. -/
theorem leads_bind {next : β → ExceptT ε (StateM S) γ} {post : γ → W → Prop}
    (h : L.Leads w act fun b w' => L.Leads w' (next b) post) :
    L.Leads w (act >>= next) post := by
  rcases hrun : act (L.state w) with ⟨e | b, s⟩
  · exact (leads_of_error (run_bind_error hrun)).mpr ((leads_of_error hrun).mp h)
  · have hbind := run_bind_ok next hrun
    obtain ⟨v, rfl, hv, h⟩ := (leads_of_ok hrun).mp h
    rcases hnext : next b (L.state v) with ⟨e | c, s⟩
    · obtain ⟨hfails, u, hs, hu⟩ := (leads_of_error hnext).mp h
      exact (leads_of_error (hbind.trans hnext)).mpr
        ⟨hfails, u, hs, L.later_trans (L.later_of_tidy hv) hu⟩
    · obtain ⟨u, hs, hu, hpost⟩ := (leads_of_ok hnext).mp h
      exact (leads_of_ok (hbind.trans hnext)).mpr ⟨u, hs, L.tidy_trans hv hu, hpost⟩

theorem Leads.mono {post' : β → W → Prop} (h : L.Leads w act post)
    (himp : ∀ b w', L.tidy w w' → post b w' → post' b w') : L.Leads w act post' := by
  rcases hrun : act (L.state w) with ⟨e | b, s⟩
  · exact (leads_of_error hrun).mpr ((leads_of_error hrun).mp h)
  · obtain ⟨w', hs, htidy, hpost⟩ := (leads_of_ok hrun).mp h
    exact (leads_of_ok hrun).mpr ⟨w', hs, htidy, himp b w' htidy hpost⟩

/-- Two assertions of a run are made in the same world, if its state tells it apart. -/
theorem Leads.and {post' : β → W → Prop} (h : L.Leads w act post) (h' : L.Leads w act post')
    (hstate : Function.Injective L.state) : L.Leads w act fun b v => post b v ∧ post' b v := by
  rcases hrun : act (L.state w) with ⟨e | b, s⟩
  · exact (leads_of_error hrun).mpr ((leads_of_error hrun).mp h)
  · obtain ⟨v, rfl, htidy, hpost⟩ := (leads_of_ok hrun).mp h
    obtain ⟨v', hv', -, hpost'⟩ := (leads_of_ok hrun).mp h'
    exact (leads_of_ok hrun).mpr ⟨v, rfl, htidy, hpost, hstate hv' ▸ hpost'⟩

/-- What is followed in one logic is also followed in one with the same states that asks less. -/
theorem Leads.transfer {L' : RunLogic S W} (h : L.Leads w act post) (hstate : L'.state = L.state)
    (hfails : L.fails → L'.fails) (hlater : ∀ w', L.later w w' → L'.later w w')
    (htidy : ∀ w', L.tidy w w' → L'.tidy w w') :
    L'.Leads w act fun b w' => L.tidy w w' ∧ post b w' := by
  rcases hrun : act (L.state w) with ⟨e | b, s⟩
  · obtain ⟨hfail, w', hs, hw'⟩ := (leads_of_error hrun).mp h
    exact (leads_of_error (hstate ▸ hrun)).mpr ⟨hfails hfail, w', hstate ▸ hs, hlater w' hw'⟩
  · obtain ⟨w', hs, hw', hpost⟩ := (leads_of_ok hrun).mp h
    exact (leads_of_ok (hstate ▸ hrun)).mpr ⟨w', hstate ▸ hs, htidy w' hw', hw', hpost⟩

/-- Visits in a row, each of which leads to what later visits leave alone. -/
theorem leads_mapM {δ : Type} {visit : δ → ExceptT ε (StateM S) β} (post : δ → β → W → Prop)
    (hmono : ∀ {d b v w}, L.tidy v w → post d b v → post d b w) {items : List δ}
    (h : ∀ d ∈ items, ∀ v, L.tidy w v → L.Leads v (visit d) (post d)) :
    L.Leads w (items.mapM visit) fun bs w' =>
      List.Forall₂ (fun d b => post d b w') items bs := by
  induction items generalizing w with
  | nil => exact leads_pure .nil
  | cons d items ih =>
    rw [List.mapM_cons]
    refine leads_bind ((h d (by simp) w (L.tidy_refl w)).mono fun b v hv hb => ?_)
    refine leads_bind ((ih fun d' hd' u hu => ?_).mono fun bs u hu hbs => ?_)
    · exact h d' (by simp [hd']) u (L.tidy_trans hv hu)
    · exact leads_pure (.cons (hmono hu hb) hbs)

/-- Visits in a row, each of which relates the world before it to the one after it. -/
theorem leads_mapM_trans {δ : Type} {visit : δ → ExceptT ε (StateM S) β} (T : W → W → Prop)
    (hrefl : ∀ v, T v v) (htrans : ∀ {u v w}, T u v → T v w → T u w) {items : List δ}
    (h : ∀ d ∈ items, ∀ v, L.tidy w v → L.Leads v (visit d) fun _ => T v) :
    L.Leads w (items.mapM visit) fun bs v => bs.length = items.length ∧ T w v := by
  induction items generalizing w with
  | nil => exact leads_pure ⟨rfl, hrefl w⟩
  | cons d items ih =>
    rw [List.mapM_cons]
    refine leads_bind ((h d (by simp) w (L.tidy_refl w)).mono fun b v hv hb => ?_)
    refine leads_bind ((ih fun d' hd' u hu => ?_).mono fun bs u _ ⟨hbs, hu⟩ => ?_)
    · exact h d' (by simp [hd']) u (L.tidy_trans hv hu)
    · exact leads_pure ⟨congrArg Nat.succ hbs, htrans hb hu⟩

end RunLogic

end SignalTemporalLogic
