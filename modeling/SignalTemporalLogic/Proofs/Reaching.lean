import Mathlib.Logic.Relation
import SignalTemporalLogic.Proofs.Remembering

/-!
The nodes that an encoding asks for. A node rests on the evaluations that its formula uses, apart
from a double negation, which rests on what is inside of it. In an intact memo a remembered node
comes with everything that is reached from it.
-/

namespace SignalTemporalLogic

variable {α V : Type} [Scalar α]

/-- The nodes that an encoding of the formula at `t` asks for. -/
def Formula.sources (settings : EncodingSettings α) :
    Formula α → Nat → Except (Fault α) (List (Formula α × Nat))
  | .not _ (.not _ inner), t => return [(inner, t)]
  | f, t => f.uses settings.policy settings.spacing settings.horizon t

namespace EncodingSettings

/-- The second node is one that the first is made of. -/
def RestsOn (settings : EncodingSettings α) (e e' : Formula α × Nat) : Prop :=
  ∃ es, e.1.sources settings e.2 = .ok es ∧ e' ∈ es

/-- The second node is the first one, or one that it is made of at some depth. -/
def Reaches (settings : EncodingSettings α) : Formula α × Nat → Formula α × Nat → Prop :=
  Relation.ReflTransGen settings.RestsOn

variable {settings : EncodingSettings α} {e e' : Formula α × Nat}

theorem restsOn_of_plan {f : Formula α} {t : Nat} {start : Option (ScoreTree α)} {plan : Plan α}
    (h : f.plan settings t start = .ok plan) {k : Task α} (hk : k ∈ plan.tasks) :
    settings.RestsOn (f, t) (k.formula, k.index) := by
  unfold RestsOn Formula.sources
  split
  · next id id' inner hf =>
    obtain rfl : f = .not id (.not id' inner) := hf
    cases h
    cases List.mem_singleton.mp hk
    exact ⟨_, rfl, List.mem_singleton_self _⟩
  · next hsingle =>
    rcases Formula.plan_cases h with ⟨id, id', arg, rfl, rfl⟩ | ⟨es, hes, htasks⟩
    · exact (hsingle id id' arg rfl).elim
    · rw [htasks] at hk
      obtain ⟨⟨e, i⟩, he, rfl⟩ := List.mem_map.mp hk
      exact ⟨es, hes, List.fst_mem_of_mem_zipIdx he⟩

/-- A library contains everything that its formulas rest on. -/
theorem RestsOn.mem {lib : FormulaLibrary α} (h : settings.RestsOn e e')
    (he : e.1 ∈ lib.formulas) : e'.1 ∈ lib.formulas := by
  obtain ⟨es, hes, hmem⟩ := h
  unfold Formula.sources at hes
  split at hes
  · next id id' inner hf =>
    cases hes
    cases List.mem_singleton.mp hmem
    have harg : Formula.not id' inner ∈ lib.formulas :=
      lib.closed _ he _ (by rw [hf]; exact List.mem_singleton_self _)
    exact lib.closed _ harg _ (List.mem_singleton_self _)
  · exact lib.closed _ he _ (Formula.mem_children_of_uses hes hmem)

end EncodingSettings

namespace EncodingContext

variable {ctx : EncodingContext α V} {lib : FormulaLibrary α} {e e' : Formula α × Nat}

/-- The node has an entry. -/
def Remembers (ctx : EncodingContext α V) (e : Formula α × Nat) : Prop :=
  ∃ entry, ctx.memo[e.1.site e.2]? = some entry ∧ entry.formula = e.1

theorem Intact.remembers_of_getElem? (h : ctx.Intact) {site : Site} {entry : MemoEntry α V}
    (he : ctx.memo[site]? = some entry) : ctx.Remembers (entry.formula, site.index) := by
  have hsite : entry.formula.site site.index = site := by
    rw [Formula.site, h.node_eq he]
  exact ⟨entry, hsite ▸ he, rfl⟩

/-- Within a library an encoded formula is the one that is remembered. -/
theorem Intact.remembers (h : ctx.Intact) (hwithin : ctx.Within lib) {f : Formula α} {t : Nat}
    (hf : f ∈ lib.formulas) (hencoded : ctx.isEncoded f t = true) : ctx.Remembers (f, t) := by
  obtain ⟨entry, hentry⟩ := isEncoded_iff.mp hencoded
  exact ⟨entry, hentry, lib.unique _ (hwithin _ _ hentry) _ hf (h.node_eq hentry)⟩

/-- What supports a formula is what it rests on. -/
theorem Supports.isEncoded {f : Formula α} {t : Nat} (h : ctx.Supports f t)
    (hlen : ctx.settings.horizon ≤ Index.last) (he : ctx.settings.RestsOn (f, t) e) :
    ctx.isEncoded e.1 e.2 = true := by
  obtain ⟨es, hes, hmem⟩ := he
  cases f with
  | predicate => cases hes; cases hmem
  | not _ arg => cases arg <;> cases hes <;> cases List.mem_singleton.mp hmem <;> exact h
  | and | or =>
    cases hes
    obtain ⟨g, hg, rfl⟩ := List.mem_map.mp hmem
    exact h g hg
  | always | eventually =>
    obtain ⟨w, hw, hes⟩ := Except.bind_eq_ok.mp hes
    cases hes
    obtain ⟨u, hu, rfl⟩ := List.mem_map.mp hmem
    obtain ⟨w', hw', harg⟩ := h
    cases hw.symm.trans hw'
    exact harg u (Window.mem_iff.mpr (List.mem_range'_1.mp hu))
  | holdsUntil =>
    obtain ⟨w, hw, hes⟩ := Except.bind_eq_ok.mp hes
    cases hes
    obtain ⟨w', hw', hright, hleft⟩ := h
    cases hw.symm.trans hw'
    rcases List.mem_append.mp hmem with hmem | hmem <;>
      obtain ⟨u, hu, rfl⟩ := List.mem_map.mp hmem <;> rw [List.mem_range'_1] at hu
    · exact hright u (Window.mem_iff.mpr hu)
    · exact hleft u hu.1 (by omega)
  | next =>
    obtain ⟨w, hw, hes⟩ := Except.bind_eq_ok.mp hes
    cases hes
    cases List.mem_singleton.mp hmem
    obtain ⟨-, hfirst, -⟩ := (WindowPolicy.offsets_one_eq_ok hlen).mp hw
    exact hfirst ▸ h

/-- **Everything reached from a remembered node is remembered.** -/
theorem Intact.remembers_of_reaches (h : ctx.Intact) (hwithin : ctx.Within lib)
    (he : ctx.Remembers e) (hreach : ctx.settings.Reaches e e') : ctx.Remembers e' := by
  induction hreach with
  | refl => exact he
  | tail _ hrests ih =>
    obtain ⟨entry, hentry, hformula⟩ := ih
    have hmem : entry.formula ∈ lib.formulas := hwithin _ _ hentry
    have hsupports := h.supports hentry
    rw [hformula] at hmem hsupports
    exact h.remembers hwithin (hrests.mem hmem) (hsupports.isEncoded h.horizon_le hrests)

end EncodingContext

end SignalTemporalLogic
