import Mathlib.Data.Finset.Card
import SignalTemporalLogic.Proofs.Narrowing

/-!
Propagation over switches: variables whose ranges go from zero to one or are single whole numbers.
A round that takes anything away closes at least one open range, so that enough rounds reach the
point where nothing changes any more. What is left when all ranges are closed satisfies the
constraints, even if the last range was closed in the last round.
-/

namespace SignalTemporalLogic

namespace Bounds

variable {b b' : Bounds Exact}

/-- From zero to one, or a single whole number. -/
def Switch (b : Bounds Exact) : Prop := b = ⟨.fin 0, .fin 1⟩ ∨ ∃ n : Int, b = .point (.fin n)

@[simp] theorem contains_point {a x : Rat} : (point (.fin a)).Contains x ↔ x = a :=
  contains_fin.trans (by rw [and_comm]; exact le_antisymm_iff.symm)

theorem Switch.integralEnds (h : b.Switch) : b.IntegralEnds := by
  rcases h with rfl | ⟨n, rfl⟩
  · exact ⟨0, 1, rfl⟩
  · exact ⟨n, n, rfl⟩

theorem Switch.member (h : b.Switch) : ∃ x, b.Contains x := by
  rcases h with rfl | ⟨n, rfl⟩
  · exact ⟨0, contains_fin.mpr (by norm_num)⟩
  · exact ⟨n, contains_point.mpr rfl⟩

theorem Switch.open_or_closed (h : b.Switch) :
    b.lower < b.upper ∧ b = ⟨.fin 0, .fin 1⟩ ∨ ¬ b.lower < b.upper ∧ ∃ n : Int, b = .point (.fin n) := by
  rcases h with rfl | ⟨n, rfl⟩
  · exact .inl ⟨Exact.fin_lt_fin.mpr one_pos, rfl⟩
  · exact .inr ⟨lt_irrefl (n : Rat), n, rfl⟩

/-- What is left of a switch is one. -/
theorem Switch.of_part (h : b.Switch) (hends : b'.IntegralEnds) (hmember : ∃ x, b'.Contains x)
    (hpart : ∀ x, b'.Contains x → b.Contains x) : b'.Switch := by
  obtain ⟨i, j, rfl⟩ := hends
  obtain ⟨x, hx⟩ := hmember
  have hij : (i : Rat) ≤ j := (contains_fin.mp hx).1.trans (contains_fin.mp hx).2
  have hi := hpart i (contains_fin.mpr ⟨le_refl _, hij⟩)
  have hj := hpart j (contains_fin.mpr ⟨hij, le_refl _⟩)
  rcases h with rfl | ⟨n, rfl⟩
  · have h0 : 0 ≤ i := by exact_mod_cast (contains_fin.mp hi).1
    have h1 : j ≤ 1 := by exact_mod_cast (contains_fin.mp hj).2
    have hle : i ≤ j := by exact_mod_cast hij
    rcases hle.lt_or_eq with hlt | rfl
    · obtain rfl : i = 0 := by omega
      obtain rfl : j = 1 := by omega
      exact .inl (by norm_num)
    · exact .inr ⟨i, rfl⟩
  · have heq : i = j := by exact_mod_cast (contains_point.mp hi).trans (contains_point.mp hj).symm
    exact .inr ⟨i, by rw [heq]; rfl⟩

/-- Two switches of which one is part of the other are the same if both are open or both closed. -/
theorem Switch.eq_of_part (h : b.Switch) (h' : b'.Switch)
    (hpart : ∀ x, b'.Contains x → b.Contains x) (hopen : b.lower < b.upper → b'.lower < b'.upper) :
    b' = b := by
  rcases h.open_or_closed with ⟨hlt, rfl⟩ | ⟨-, n, rfl⟩
  · exact (h'.open_or_closed.resolve_right fun hclosed => hclosed.1 (hopen hlt)).2
  · rcases h' with rfl | ⟨k, rfl⟩
    · have h0 := contains_point.mp (hpart 0 (contains_fin.mpr (by norm_num)))
      have h1 := contains_point.mp (hpart 1 (contains_fin.mpr (by norm_num)))
      exact absurd (h0.trans h1.symm) (by norm_num)
    · rw [contains_point.mp (hpart k (contains_point.mpr rfl))]

end Bounds

namespace Box

variable {box box' : Box Exact}

theorem range_of_size_le {v : VarId} (h : box.size ≤ v.index) : box.range v = .unbounded := by
  simp [Box.range, Array.getD_eq_getD_getElem?, h]

def Switches (box : Box Exact) : Prop := ∀ v, v.index < box.size → (box.range v).Switch

/-- The positions of the ranges with more than one member. -/
def openings (box : Box Exact) : Finset Nat :=
  (Finset.range box.size).filter fun i => (box.range ⟨i⟩).lower < (box.range ⟨i⟩).upper

theorem mem_openings {i : Nat} : i ∈ box.openings ↔
    i < box.size ∧ (box.range ⟨i⟩).lower < (box.range ⟨i⟩).upper := by
  simp [openings]

theorem card_openings_le (box : Box Exact) : box.openings.card ≤ box.size :=
  (Finset.card_filter_le _ _).trans_eq (Finset.card_range _)

theorem openings_congr (hsize : box.size = box'.size) (h : ∀ v, box.range v = box'.range v) :
    box.openings = box'.openings := by
  simp only [openings, hsize, h]

theorem Switches.populated (h : box.Switches) : box.Populated := by
  intro v
  by_cases hv : v.index < box.size
  · exact (h v hv).member
  · rw [range_of_size_le (not_lt.mp hv)]
    exact ⟨0, Bounds.contains_unbounded 0⟩

theorem Switches.range_of_mem (h : box.Switches) {i : Nat} (hi : i ∈ box.openings) :
    box.range ⟨i⟩ = ⟨.fin 0, .fin 1⟩ := by
  obtain ⟨hlt, hopen⟩ := mem_openings.mp hi
  exact ((h ⟨i⟩ hlt).open_or_closed.resolve_right fun hclosed => hclosed.1 hopen).2

/-- A range that is not open has a single member, a whole number. -/
theorem Switches.range_of_not_mem (h : box.Switches) {v : VarId} (hv : v.index < box.size)
    (hclosed : v.index ∉ box.openings) {q : Assignment} (hq : box.Has q) :
    ∃ n : Int, q v = n ∧ box.range v = .point (.fin n) := by
  rcases (h v hv).open_or_closed with ⟨hopen, -⟩ | ⟨-, n, hn⟩
  · exact absurd (mem_openings.mpr ⟨hv, hopen⟩) hclosed
  · have hqn := hq v
    rw [hn, Bounds.contains_point] at hqn
    exact ⟨n, hqn, hn⟩

end Box

namespace StoredModel

variable {m : StoredModel Exact} {box box' : Box Exact} {n n' : Narrowing Exact}

/-- All variables are binary. -/
def AllBinary (m : StoredModel Exact) : Prop := ∀ var ∈ m.vars, var.kind = .binary

theorem AllBinary.isBinary (h : m.AllBinary) {v : VarId} (hv : v.index < m.vars.size) :
    m.isBinary v = true := by
  have hkind : m.vars[v.index].kind = .binary := h _ (Array.getElem_mem hv)
  simp [StoredModel.isBinary, StoredModel.lookup?, hv, hkind]

theorem Narrows.switches (h : m.Narrows box box') (hbinary : m.AllBinary)
    (hsize : box.size = m.vars.size) (hs : box.Switches) : box'.Switches := by
  intro v hv
  rw [h.size_eq] at hv
  have hends := h.integral v (hbinary.isBinary (hsize ▸ hv)) (hs v hv).integralEnds
  exact (hs v hv).of_part hends (h.populated v) (h.shrinks v)

theorem Narrows.openings_subset (h : m.Narrows box box') (hs : box.Switches) (hs' : box'.Switches) :
    box'.openings ⊆ box.openings := by
  intro i hi
  obtain ⟨hlt, hopen⟩ := Box.mem_openings.mp hi
  have hlt' : i < box.size := h.size_eq ▸ hlt
  refine Box.mem_openings.mpr ⟨hlt', ?_⟩
  rcases (hs ⟨i⟩ hlt').open_or_closed with ⟨hopen', -⟩ | ⟨hclosed, -⟩
  · exact hopen'
  · have heq := (hs ⟨i⟩ hlt').eq_of_part (hs' ⟨i⟩ hlt) (h.shrinks ⟨i⟩) fun h => absurd h hclosed
    exact heq ▸ hopen

/-- Taking anything away closes a range. -/
theorem Tightens.card_openings_lt (h : m.Tightens n n') (hs : n.box.Switches)
    (hs' : n'.box.Switches) (hfresh : n.changed = false) (hchanged : n'.changed = true) :
    n'.box.openings.card < n.box.openings.card := by
  obtain ⟨v, x, hx, hlost⟩ :=
    (h.loses hchanged).resolve_left fun hn => Bool.false_ne_true (hfresh.symm.trans hn)
  refine Finset.card_lt_card ⟨h.openings_subset hs hs', fun hsubset => hlost ?_⟩
  by_cases hv : v.index < n.box.size
  · have heq := (hs v hv).eq_of_part (hs' v (h.size_eq.symm ▸ hv)) (h.shrinks v) fun hopen =>
      (Box.mem_openings.mp (hsubset (Box.mem_openings.mpr ⟨hv, hopen⟩))).2
    exact heq.symm ▸ hx
  · rw [Box.range_of_size_le (h.size_eq.symm ▸ not_lt.mp hv)]
    exact Bounds.contains_unbounded x

/-! ## The last range -/

/-- With at most one open range, what is left by a constraint satisfies it. -/
theorem Applies.holds {c : Constraint Exact} (h : m.Applies c n n') (hc : c.Normal n.box.size)
    (hs : n.box.Switches) (hone : n.box.openings.card ≤ 1) {q : Assignment} (hq : n'.box.Has q) :
    c.Holds q := by
  obtain ⟨i, hi⟩ := Finset.card_le_one_iff_subset_singleton.mp hone
  have hq' : n.box.Has q := fun v => h.shrinks v _ (hq v)
  -- an assignment of the old box with the same value there is the same
  have hsame (p : Assignment) (hp : n.box.Has p) (hpi : p ⟨i⟩ = q ⟨i⟩) :
      weigh p c.terms = weigh q c.terms := by
    refine weigh_congr fun t ht => ?_
    by_cases hti : t.2.index = i
    · rw [show t.2 = ⟨i⟩ from congrArg VarId.mk hti]
      exact hpi
    · have hclosed : t.2.index ∉ n.box.openings := fun h => hti (Finset.mem_singleton.mp (hi h))
      obtain ⟨k, hk, hrange⟩ := hs.range_of_not_mem (hc.known t ht) hclosed hq'
      have hpk := hp t.2
      rw [hrange, Bounds.contains_point] at hpk
      exact hpk.trans hk.symm
  have hbelow (hne : c.relation ≠ .greaterEqual) : weigh q c.terms ≤ c.rhs.toRat := by
    obtain ⟨p, hp, hpi, hle⟩ := h.below ⟨i⟩ _ hne (hq ⟨i⟩)
    exact hsame p hp hpi ▸ hle
  have habove (hne : c.relation ≠ .lessEqual) : c.rhs.toRat ≤ weigh q c.terms := by
    obtain ⟨p, hp, hpi, hle⟩ := h.above ⟨i⟩ _ hne (hq ⟨i⟩)
    exact hsame p hp hpi ▸ hle
  unfold Constraint.Holds
  cases hrelation : c.relation with
  | lessEqual => exact hbelow (by rw [hrelation]; nofun)
  | greaterEqual => exact habove (by rw [hrelation]; nofun)
  | equal => exact le_antisymm (hbelow (by rw [hrelation]; nofun)) (habove (by rw [hrelation]; nofun))

theorem Passes.holds {cs : List (Constraint Exact)} (h : m.Passes cs n n') (hbinary : m.AllBinary)
    (hsize : n.box.size = m.vars.size) (hnormal : ∀ c ∈ cs, c.Normal n.box.size)
    (hs : n.box.Switches) (hone : n.box.openings.card ≤ 1) {q : Assignment} (hq : n'.box.Has q) :
    ∀ c ∈ cs, c.Holds q := by
  induction h with
  | nil => simp
  | @cons c rest n n₁ n' h hrest ih =>
    obtain ⟨hc, hnormal⟩ := List.forall_mem_cons.mp hnormal
    have hs₁ := h.switches hbinary hsize hs
    have hq₁ : n₁.box.Has q := fun v => (hrest.tightens h.populated).shrinks v _ (hq v)
    have hone₁ := (Finset.card_le_card (h.openings_subset hs hs₁)).trans hone
    exact List.forall_mem_cons.mpr ⟨h.holds hc hs hone hq₁,
      ih (h.size_eq.trans hsize) (h.size_eq.symm ▸ hnormal) hs₁ hone₁ hq⟩

section Rounds

variable (htolerance : m.tolerance = .fin 0) (hnormal : m.Normal) (hbinary : m.AllBinary)

include htolerance hnormal hbinary

theorem holds_of_propagateRound (hsize : box.size = m.vars.size) (hs : box.Switches)
    (hone : box.openings.card ≤ 1) (h : m.propagateRound box = some n) {q : Assignment}
    (hq : n.box.Has q) : ∀ c ∈ m.constraints, c.Holds q := by
  have hpasses := passes_of_propagateRound htolerance hnormal hsize hs.populated h
  have hholds := hpasses.holds hbinary hsize
    (fun c hc => hsize.symm ▸ hnormal c (Array.mem_toList_iff.mp hc)) hs hone hq
  exact fun c hc => hholds c (Array.mem_toList_iff.mpr hc)

/-- **Enough rounds decide.** If there are at least as many rounds as open ranges, and in the end
none is open, then what is left satisfies all constraints. -/
theorem holds_of_propagateFor (rounds : Nat) (hsize : box.size = m.vars.size) (hs : box.Switches)
    (hcount : box.openings.card ≤ rounds + 1) (h : m.propagateFor (rounds + 1) box = some box')
    (hclosed : box'.openings = ∅) {q : Assignment} (hq : box'.Has q) :
    ∀ c ∈ m.constraints, c.Holds q := by
  induction rounds generalizing box with
  | zero =>
    rw [propagateFor, Option.bind_eq_bind, Option.bind_eq_some_iff] at h
    obtain ⟨n, hround, h⟩ := h
    have hbox : n.box = box' := by
      split at h
      · exact Option.some.inj h
      · exact Option.some.inj h
    exact holds_of_propagateRound htolerance hnormal hbinary hsize hs hcount hround (hbox ▸ hq)
  | succ rounds ih =>
    rw [propagateFor, Option.bind_eq_bind, Option.bind_eq_some_iff] at h
    obtain ⟨n, hround, h⟩ := h
    have htightens : m.Tightens ⟨box, false⟩ n :=
      (passes_of_propagateRound htolerance hnormal hsize hs.populated hround).tightens hs.populated
    split at h
    · next hchanged =>
      have hs' := htightens.switches hbinary hsize hs
      have hlt : n.box.openings.card < box.openings.card :=
        htightens.card_openings_lt hs hs' rfl hchanged
      exact ih (htightens.size_eq.trans hsize) hs' (by omega) h
    · next hchanged =>
      obtain rfl : n.box = box' := Option.some.inj h
      obtain ⟨-, hranges⟩ := htightens.same (Bool.eq_false_iff.mpr hchanged)
      have hsame : box.openings = n.box.openings := Box.openings_congr htightens.size_eq.symm
        fun v => (hranges v).symm
      refine holds_of_propagateRound htolerance hnormal hbinary hsize hs ?_ hround hq
      rw [hsame, hclosed]
      exact Nat.zero_le 1

end Rounds

end StoredModel

end SignalTemporalLogic
