import SignalTemporalLogic.Proofs.Activities

/-!
How a limit on a sum goes through its terms. The activity is taken once, before any range is changed.
It stays right, because the terms have different variables: each range is trimmed to what its own term
may be beside the least values of the others, as they were at the start.
-/

namespace SignalTemporalLogic

namespace Box

variable {box box' : Box Exact} {v u : VarId} {range : Bounds Exact}

theorem range_of_lt (h : v.index < box.size) : box.range v = box[v.index] := by
  simp [Box.range, Array.getD_eq_getD_getElem?, h]

theorem range_set_self (h : v.index < box.size) :
    Box.range (box.setIfInBounds v.index range) v = range := by
  simp [Box.range, Array.getD_eq_getD_getElem?, h]

theorem range_set_of_ne (h : u ≠ v) :
    Box.range (box.setIfInBounds v.index range) u = box.range u := by
  have hne : v.index ≠ u.index := by
    intro he
    obtain ⟨i⟩ := u
    obtain ⟨j⟩ := v
    exact h (congrArg VarId.mk he.symm)
  simp [Box.range, Array.getD_eq_getD_getElem?, hne]

theorem set_range_self : box.setIfInBounds v.index (box.range v) = box := by
  refine Array.ext (by simp) fun i hi hi' => ?_
  rw [Array.getElem_setIfInBounds]
  split
  · next he =>
    subst he
    simp [Box.range, Array.getD_eq_getD_getElem?, hi']
  · rfl

end Box

/-! ## One term beside the others -/

section Terms

variable {p : Assignment} {terms before after : List (Exact × VarId)} {t : Exact × VarId}

theorem weigh_middle : weigh p (before ++ t :: after) =
    t.1.toRat * p t.2 + weigh p (before ++ after) := by
  obtain ⟨c, v⟩ := t
  simp only [weigh_append, weigh_cons]
  ring

theorem separate_middle (h : Box.Separate (before ++ t :: after)) :
    (Scalar.IsFinite t.1 ∧ t.1.toRat ≠ 0) ∧ Box.Separate (before ++ after) ∧
      ∀ s ∈ before ++ after, s.2 ≠ t.2 := by
  have hperm : (before ++ t :: after).Perm (t :: (before ++ after)) := List.perm_middle
  have hsymm : ∀ {s r : Exact × VarId}, s.2 ≠ r.2 → r.2 ≠ s.2 := fun h => h.symm
  have hcons : Box.Separate (t :: (before ++ after)) :=
    ⟨fun s hs => h.finite s (hperm.mem_iff.mpr hs), fun s hs => h.nonzero s (hperm.mem_iff.mpr hs),
      (hperm.pairwise_iff hsymm).mp h.distinct⟩
  obtain ⟨hfinite, hnonzero, hdistinct, hrest⟩ := Box.Separate.cons_iff.mp hcons
  exact ⟨⟨hfinite, hnonzero⟩, hrest, fun s hs => (hdistinct s hs).symm⟩

theorem exists_split_of_mem_zipIdx {t : (Exact × VarId) × Nat} (h : t ∈ terms.zipIdx) :
    ∃ before after, terms = before ++ t.1 :: after ∧ t = (t.1, before.length) := by
  obtain ⟨t, k⟩ := t
  obtain ⟨hk, he⟩ := List.getElem?_eq_some_iff.mp (List.mem_zipIdx_iff_getElem?.mp h)
  refine ⟨terms.take k, terms.drop (k + 1), ?_, ?_⟩
  · rw [← he, List.getElem_cons_drop, List.take_append_drop]
  · rw [List.length_take_of_le (Nat.le_of_lt hk)]

theorem Box.Separate.zipIdx_distinct (h : Box.Separate terms) :
    terms.zipIdx.Pairwise fun s t => s.1.2 ≠ t.1.2 := by
  have hmap := h.distinct
  rwa [← List.zipIdx_map_fst 0 terms, List.pairwise_map] at hmap

end Terms

namespace StoredModel

variable {m : StoredModel Exact} {activity : LeastActivity Exact} {bound : Exact}

/-- What a limit leaves to the variable of one term, and whether its range was cut. -/
def trim? (m : StoredModel Exact) (activity : LeastActivity Exact) (bound : Exact)
    (box : Box Exact) : (Exact × VarId) × Nat → Option (Bounds Exact × Bool)
  | ((a, v), k) =>
    match activity.without? k (leastTerm a (box.range v)) with
    | none => some (box.range v, false)
    | some rest =>
      let cut? := m.cut a ((bound - rest) / a) (m.isBinary v) (box.range v)
      (m.settle? (cut?.getD (box.range v))).map (·, cut?.isSome)

theorem trim?_congr {box box' : Box Exact} {t : (Exact × VarId) × Nat}
    (h : box.range t.1.2 = box'.range t.1.2) :
    m.trim? activity bound box t = m.trim? activity bound box' t := by
  obtain ⟨⟨a, v⟩, k⟩ := t
  simp only [trim?, show box.range v = box'.range v from h]

theorem tightenTerm_eq (n : Narrowing Exact) (t : (Exact × VarId) × Nat) :
    m.tightenTerm activity bound n t = (m.trim? activity bound n.box t).map fun r =>
      ⟨n.box.setIfInBounds t.1.2.index r.1, n.changed || r.2⟩ := by
  obtain ⟨⟨a, v⟩, k⟩ := t
  unfold tightenTerm trim?
  dsimp only
  cases activity.without? k (leastTerm a (n.box.range v)) with
  | none => simp [Box.set_range_self]
  | some rest =>
    dsimp only
    rw [Option.map_map]
    rfl

/-! ## All terms -/

/-- The result of going through terms of different variables. -/
structure TrimsAll (m : StoredModel Exact) (activity : LeastActivity Exact) (bound : Exact)
    (todo : List ((Exact × VarId) × Nat)) (n n' : Narrowing Exact) : Prop where
  size_eq : n'.box.size = n.box.size
  frame : ∀ v, (∀ t ∈ todo, t.1.2 ≠ v) → n'.box.range v = n.box.range v
  trims : ∀ t ∈ todo, ∃ cuts, m.trim? activity bound n.box t = some (n'.box.range t.1.2, cuts) ∧
    (cuts = true → n'.changed = true)
  changed_of_changed : n.changed = true → n'.changed = true
  changed : n'.changed = true → n.changed = true ∨
    ∃ t ∈ todo, m.trim? activity bound n.box t = some (n'.box.range t.1.2, true)

variable {todo : List ((Exact × VarId) × Nat)} {n n' : Narrowing Exact}

theorem trimsAll_of_foldlM (hdistinct : todo.Pairwise fun s t => s.1.2 ≠ t.1.2)
    (hknown : ∀ t ∈ todo, t.1.2.index < n.box.size)
    (h : todo.foldlM (m.tightenTerm activity bound) n = some n') :
    m.TrimsAll activity bound todo n n' := by
  induction todo generalizing n with
  | nil =>
    obtain rfl : n = n' := Option.some.inj h
    exact ⟨rfl, fun _ _ => rfl, by simp, id, .inl⟩
  | cons t rest ih =>
    obtain ⟨hhead, hdistinct⟩ := List.pairwise_cons.mp hdistinct
    obtain ⟨ht, hknown⟩ := List.forall_mem_cons.mp hknown
    rw [List.foldlM_cons, Option.bind_eq_bind, Option.bind_eq_some_iff] at h
    obtain ⟨n₁, hn₁, hrest⟩ := h
    rw [tightenTerm_eq, Option.map_eq_some_iff] at hn₁
    obtain ⟨⟨range, cuts⟩, htrim, rfl⟩ := hn₁
    have hother : ∀ v, v ≠ t.1.2 →
        Box.range (n.box.setIfInBounds t.1.2.index range) v = n.box.range v :=
      fun v hv => Box.range_set_of_ne hv
    obtain ⟨hsize, hframe, htrims, hkept, hchanged⟩ := ih hdistinct (by simpa using hknown) hrest
    have hrange : n'.box.range t.1.2 = range :=
      (hframe t.1.2 fun s hs => (hhead s hs).symm).trans (Box.range_set_self ht)
    have hsame : ∀ s ∈ rest, m.trim? activity bound n.box s =
        m.trim? activity bound (n.box.setIfInBounds t.1.2.index range) s :=
      fun s hs => trim?_congr (hother s.1.2 (hhead s hs).symm).symm
    refine ⟨hsize.trans Array.size_setIfInBounds, fun v hv => ?_,
      List.forall_mem_cons.mpr ⟨⟨cuts, hrange ▸ htrim, fun hcuts => ?_⟩, fun s hs => ?_⟩,
      fun h => hkept (Bool.or_eq_true_iff.mpr (.inl h)), fun h => ?_⟩
    · obtain ⟨htv, hv⟩ := List.forall_mem_cons.mp hv
      exact (hframe v hv).trans (hother v (Ne.symm htv))
    · exact hkept (Bool.or_eq_true_iff.mpr (.inr hcuts))
    · rw [hsame s hs]
      exact htrims s hs
    · rcases hchanged h with hfirst | ⟨s, hs, htrim'⟩
      · rcases Bool.or_eq_true_iff.mp hfirst with hfirst | hcuts
        · exact .inl hfirst
        · obtain rfl : cuts = true := hcuts
          exact .inr ⟨t, List.mem_cons_self, hrange ▸ htrim⟩
      · exact .inr ⟨s, List.mem_cons_of_mem _ hs, (hsame s hs).trans htrim'⟩

theorem exists_foldlM_tightenTerm (hdistinct : todo.Pairwise fun s t => s.1.2 ≠ t.1.2)
    (h : ∀ t ∈ todo, ∃ r, m.trim? activity bound n.box t = some r) :
    ∃ n', todo.foldlM (m.tightenTerm activity bound) n = some n' := by
  induction todo generalizing n with
  | nil => exact ⟨n, rfl⟩
  | cons t rest ih =>
    obtain ⟨hhead, hdistinct⟩ := List.pairwise_cons.mp hdistinct
    obtain ⟨⟨r, htrim⟩, hrest⟩ := List.forall_mem_cons.mp h
    rw [List.foldlM_cons, tightenTerm_eq, htrim]
    refine ih hdistinct fun s hs => ?_
    obtain ⟨r', hr'⟩ := hrest s hs
    exact ⟨r', (trim?_congr (Box.range_set_of_ne (hhead s hs).symm)).trans hr'⟩

end StoredModel

end SignalTemporalLogic
