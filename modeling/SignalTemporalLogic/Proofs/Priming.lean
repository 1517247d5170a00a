import SignalTemporalLogic.Proofs.Additions
import SignalTemporalLogic.Proofs.Settling

/-!
Assignments that a model is primed with: they satisfy the model and give every variable its start
value. A gate keeps a model primed if its variables start from the values that settle it, so that
what starts an encoding is itself a solution.
-/

namespace SignalTemporalLogic

namespace StoredModel

/-- The assignment satisfies the model and gives every variable its start value, if it has one. -/
structure Primed (m : StoredModel Exact) (p : Assignment) : Prop where
  normal : ∀ c ∈ m.constraints, c.Normal m.vars.size
  satisfies : m.Satisfies p
  starts (v : VarId) (var : Variable Exact) (a : Exact) : m.lookup? v = some var →
    var.start = some a → a = .fin (p v)

variable {m m' : StoredModel Exact} {new : List (Variable Exact)}

theorem lookup?_of_added (h : m'.vars.toList = m.vars.toList ++ new) (v : VarId) :
    m'.lookup? v =
      if v.index < m.vars.size then m.lookup? v else new[v.index - m.vars.size]? := by
  simp only [lookup?, ← Array.getElem?_toList, h, List.getElem?_append, Array.length_toList]

theorem size_of_added (h : m'.vars.toList = m.vars.toList ++ new) :
    m'.vars.size = m.vars.size + new.length := by
  simpa using congrArg List.length h

theorem lt_of_lookup? {v : VarId} {var : Variable Exact} (h : m.lookup? v = some var) :
    v.index < m.vars.size :=
  (Array.getElem?_eq_some_iff.mp h).1

/-- **A gate keeps a model primed**, if its operands are in their ranges and its variables start
from the values that settle it. -/
theorem Primed.settle {p : Assignment} {g : Gate} {bigM : BigM Exact}
    {R : Bounds Exact → Rat → Prop} (h : m.Primed p) (hsuits : bigM.Suits R)
    (hextends : g.Extends m m') (hformed : g.Formed bigM)
    (hindex : g.output.var.index = m.vars.size)
    (hoperands : ∀ x ∈ g.operands, x.var.index < m.vars.size ∧ R x.bounds (p x.var))
    (hsources : ∀ v ∈ g.sources, v.index < m.vars.size)
    (hsignal : ∀ source t terms constant y, g = .signal source t terms constant y →
      R source.bounds (weigh p terms + constant.toRat))
    (hvars : m'.vars.toList = m.vars.toList ++ new)
    (hstarts : ∀ i (var : Variable Exact) a, new[i]? = some var → var.start = some a →
      a = .fin (g.settle p ⟨m.vars.size + i⟩)) :
    m'.Primed (g.settle p) ∧ R g.output.bounds (g.result p) := by
  obtain ⟨constraints, hstores, hgrows⟩ := hextends
  have hapart : ∀ v : VarId, v.index < m.vars.size → ¬ g.Adds v :=
    fun v hv hadds => by have := hadds.1; omega
  have hold : ∀ v : VarId, v.index < m.vars.size → g.settle p v = p v :=
    fun v hv => Gate.settle_of_not_adds (hapart v hv)
  obtain ⟨hresult, hspans⟩ :=
    Gate.result_ranges hsuits hformed (fun x hx => (hoperands x hx).2) hsignal
  have hrange : R g.output.bounds (g.settle p g.output.var) := Gate.settle_output.symm ▸ hresult
  have hholds : g.Holds (g.settle p) := Gate.settle_holds hformed
    (fun x hx => hapart _ (hoperands x hx).1) (fun v hv => hapart v (hsources v hv)) hspans
  refine ⟨⟨fun c hc => ?_, StoredModel.satisfies_iff.mpr ⟨fun i shape hi => ?_, fun c hc => ?_⟩,
    fun v var a hv ha => ?_⟩, hresult⟩
  · rw [← Array.mem_toList_iff, hgrows.constraints_eq] at hc
    rcases List.mem_append.mp hc with hc | hc
    · exact (h.normal c (Array.mem_toList_iff.mp hc)).mono (by rw [hgrows.size_eq]; omega)
    · exact hgrows.normal c hc
  · by_cases hlt : i < m.vars.size
    · rw [hgrows.shapes_eq, List.getElem?_append_left (by simpa using hlt)] at hi
      rw [hold ⟨i⟩ hlt]
      exact (StoredModel.satisfies_iff.mp h.satisfies).1 i shape hi
    · obtain ⟨j, rfl⟩ := Nat.exists_eq_add_of_le (Nat.not_lt.mp hlt)
      rw [hgrows.shape_of_added] at hi
      rw [← hindex]
      exact Gate.settle_allowed (hsuits.contains hrange) hi
  · rw [← Array.mem_toList_iff, hgrows.constraints_eq] at hc
    rcases List.mem_append.mp hc with hc | hc
    · replace hc := Array.mem_toList_iff.mp hc
      have hsame : weigh (g.settle p) c.terms = weigh p c.terms :=
        weigh_congr fun t ht => hold t.2 ((h.normal c hc).known t ht)
      rw [Constraint.Holds, hsame]
      exact h.satisfies.holds c hc
    · obtain ⟨st, hst, hc⟩ := (exists_of_forall₂ hstores).2 c hc
      exact (hc.holds_iff _).mpr (hholds st hst)
  · rw [lookup?_of_added hvars] at hv
    split at hv
    · next hlt => exact (hold v hlt).symm ▸ h.starts v var a hv ha
    · next hlt =>
      have hposition : m.vars.size + (v.index - m.vars.size) = v.index := by omega
      have hstart := hstarts _ var a hv ha
      rwa [hposition] at hstart

end StoredModel

end SignalTemporalLogic
