import SignalTemporalLogic.Proofs.Plans

/-!
A rule for properties of sessions that every step of the encoder keeps. Such a step makes one
variable with its constraints, notes that a node was found, or remembers one. A predicate may be
remembered in one step with its equality, so that the property may be about both.
-/

namespace SignalTemporalLogic.Encode

open RunLogic

variable {α V σ W : Type} [Scalar α]

/-- The steps of the encoder can be followed in every world of the logic. Any of them may fail. -/
structure Steps (L : RunLogic (Session α V σ) W) (model : SolverModel α V σ) : Prop
    extends Emits L model where
  fails : L.fails
  predicate (w : W) (id : NodeId) (source : Signal α) (t : Nat) (start : Option (ScoreTree α)) :
    L.Leads w (do
      let x ← predicate model source t start
      modifyContext (·.remember (.predicate id source) t x)
      return x) fun _ _ => True
  hit (w : W) : ∃ w', L.state w' = { L.state w with context := (L.state w).context.countHit } ∧
    L.tidy w w'
  remember (w : W) (f : Formula α) (t : Nat) (x : Encoded α V)
    (h : ∀ id source, f ≠ .predicate id source) :
    ∃ w', L.state w' = { L.state w with context := (L.state w).context.remember f t x } ∧
      L.tidy w w'

variable {L : RunLogic (Session α V σ) W} {model : SolverModel α V σ}

/-- **What is kept by every step is kept by the encoding of a formula.** -/
theorem Steps.formula (h : Steps L model) (f : Formula α) (t : Nat) (start : Option (ScoreTree α))
    (w : W) : L.Leads w (formula model f t start) fun _ _ => True := by
  induction f, t, start using Formula.induction_on_plan generalizing w with
  | step f t start ih =>
    refine leads_formula_of_memo (.inl h.fails) (fun _ _ => ?_) fun plan hplan _ => ?_
    · obtain ⟨w', hstate, htidy⟩ := h.hit w
      exact ⟨w', hstate, htidy, trivial⟩
    · by_cases hsignal : ∃ source, plan = .signal source
      · obtain ⟨source, rfl⟩ := hsignal
        obtain ⟨id, rfl⟩ := Formula.plan_eq_signal hplan
        exact h.predicate w id source t start
      · have hother : ∀ id source, f ≠ .predicate id source := by
          rintro id source rfl
          exact hsignal ⟨source, (Except.ok.inj hplan).symm⟩
        refine leads_bind ((leads_carryOut (fun _ _ => True) (fun _ => True) h.toEmits
          (.inl h.fails) (fun _ _ => trivial) (fun source hs => absurd ⟨source, hs⟩ hsignal)
          fun k hk v _ => ?_).mono fun x v _ _ => ?_)
        · exact ih _ plan hplan k hk v
        · obtain ⟨v', hstate, htidy⟩ := h.remember v f t x hother
          exact leads_bind (leads_modify v' hstate htidy (leads_pure trivial))

theorem Steps.encodeAt (h : Steps L model) (f : Formula α) (anchor : Nat)
    (start : Option (ScoreTree α)) (w : W) :
    L.Leads w (f.encodeAt model anchor start) fun _ _ => True := by
  refine leads_bind (leads_consults (checkIndex_consults anchor) (fun _ _ => ?_) (.inl h.fails))
  exact leads_bind ((h.formula f anchor start w).mono fun _ _ _ _ => leads_pure trivial)

end SignalTemporalLogic.Encode
