import Mathlib.Data.List.Basic
import SignalTemporalLogic.Feasibility.Search

/-!
Check and search with an explicit lookup of every index. A lookup past the end of an array ends the
run with that index. If all constraints are about variables of the model, no lookup ever does, and
the results are those of the plain check and the plain search.
-/

namespace SignalTemporalLogic

namespace Checked

/-- A computation that ends at the first index that is past the end of its array. -/
abbrev Lookup := Except Nat

/-- A computation of that kind that may also have no result. -/
abbrev Attempt := OptionT Lookup

variable {M : Type → Type} [Monad M] [MonadExceptOf Nat M] {β : Type}

def fetch (xs : Array β) (i : Nat) : M β := if h : i < xs.size then return xs[i] else throwThe Nat i

def store (xs : Array β) (i : Nat) (x : β) : M (Array β) :=
  if h : i < xs.size then return xs.set i x else throwThe Nat i

variable {α : Type} [Scalar α]

/-! ## Check -/

def sumAt (c : Constraint α) (values : Array α) : Lookup α :=
  c.terms.foldlM (fun sum (a, v) => do return sum + a * (← fetch values v.index)) 0

def holdsAt (tolerance : α) (values : Array α) (c : Constraint α) : Lookup Bool := do
  let lhs ← sumAt c values
  let slack := tolerance * (1 + Scalar.abs c.rhs)
  match c.relation with
  | .lessEqual => return lhs ≤ c.rhs + slack
  | .greaterEqual => return c.rhs - slack ≤ lhs
  | .equal => return Scalar.abs (lhs - c.rhs) ≤ slack

/-- The constraints are not looked at before the number of values is known to be right. -/
def check (m : StoredModel α) (values : Array α) : Lookup Bool :=
  if values.size = m.vars.size ∧
      (m.vars.zip values).all (fun (var, x) => var.admits m.tolerance x) then
    m.constraints.toList.allM (holdsAt m.tolerance values)
  else return false

/-! ## Propagation -/

def ofTerms (box : Box α) (terms : List (α × VarId)) : M (LeastActivity α) :=
  terms.zipIdx.foldlM (fun activity ((a, v), k) => do
    return activity.add k (leastTerm a (← fetch box v.index))) ⟨0, 0, 0⟩

def tightenTerm (m : StoredModel α) (activity : LeastActivity α) (rhs : α) (n : Narrowing α) :
    (α × VarId) × Nat → Attempt (Narrowing α)
  | ((a, v), k) => do
    let range ← fetch n.box v.index
    match activity.without? k (leastTerm a range) with
    | none => return n
    | some rest =>
      let var ← fetch m.vars v.index
      let cut? := m.cut a ((rhs - rest) / a) (var.kind = .binary) range
      let range ← OptionT.mk (return m.settle? (cut?.getD range))
      return { box := ← store n.box v.index range, changed := n.changed || cut?.isSome }

def tighten (m : StoredModel α) (terms : List (α × VarId)) (rhs : α) (n : Narrowing α) :
    Attempt (Narrowing α) := do
  let activity ← ofTerms n.box terms
  if activity.unbounded = 0 ∧ rhs + m.tolerance * (1 + Scalar.abs rhs) < activity.finite then
    failure
  else terms.zipIdx.foldlM (tightenTerm m activity rhs) n

def tightenConstraint (m : StoredModel α) (n : Narrowing α) (c : Constraint α) :
    Attempt (Narrowing α) :=
  let negated := c.terms.map fun (a, v) => (-a, v)
  match c.relation with
  | .lessEqual => tighten m c.terms c.rhs n
  | .greaterEqual => tighten m negated (-c.rhs) n
  | .equal => do tighten m negated (-c.rhs) (← tighten m c.terms c.rhs n)

def propagateRound (m : StoredModel α) (box : Box α) : Attempt (Narrowing α) :=
  m.constraints.toList.foldlM (tightenConstraint m) ⟨box, false⟩

def propagateFor (m : StoredModel α) : Nat → Box α → Attempt (Box α)
  | 0, box => return box
  | rounds + 1, box => do
    let n ← propagateRound m box
    if n.changed then propagateFor m rounds n.box else return n.box

def propagate (m : StoredModel α) (box : Box α) : Attempt (Box α) :=
  propagateFor m StoredModel.maxRounds box

/-! ## Search -/

/-- Only binary variables have their range looked at. -/
def openBinary? (m : StoredModel α) (box : Box α) : Lookup (Option Nat) :=
  (List.range m.vars.size).findM? fun i => do
    if (← fetch m.vars i).kind = .binary then
      let range ← fetch box i
      return Scalar.half < range.upper - range.lower
    else return false

def branches (m : StoredModel α) (box : Box α) (i : Nat) : Lookup (List (Box α)) := do
  let var ← fetch m.vars i
  let zero ← store box i (.point 0)
  let one ← store box i (.point 1)
  return if var.start.any (Scalar.half ≤ ·) then [one, zero] else [zero, one]

def pin (m : StoredModel α) (box : Box α) (i : Nat) : Attempt (Box α) := do
  let range ← fetch box i
  if range.upper - range.lower ≤ m.tolerance then return box
  else
    let var ← fetch m.vars i
    propagate m (← store box i (.point (StoredModel.pick var.start range)))

def complete (m : StoredModel α) (box : Box α) : Attempt (Array α) := do
  let box ← (List.range m.vars.size).foldlM (pin m) box
  return box.map fun range => Scalar.midpoint range.lower range.upper

def explore (m : StoredModel α) : Nat → List (Box α) → Lookup (SearchOutcome α)
  | _, [] => return .exhausted
  | 0, _ :: _ => return .aborted
  | budget + 1, box :: pending => do
    match ← (propagate m box).run with
    | none => explore m budget pending
    | some box =>
      match ← openBinary? m box with
      | some i => explore m budget ((← branches m box i) ++ pending)
      | none =>
        match ← (complete m box).run with
        | none => explore m budget pending
        | some values => return .found values

def solve (m : StoredModel α) : Lookup (Solution α) := do
  match ← explore m m.nodeLimit [m.declaredBox] with
  | .found values =>
    if ← check m values then return ⟨.feasible, values⟩ else return ⟨.infeasible, #[]⟩
  | .exhausted => return ⟨.infeasible, #[]⟩
  | .aborted => return ⟨.nodeLimit, #[]⟩

/-! ## Lookups that succeed -/

theorem fetch_eq {xs : Array β} {i : Nat} (h : i < xs.size) : (fetch xs i : M β) = pure xs[i] :=
  dif_pos h

theorem store_eq {xs : Array β} {i : Nat} (h : i < xs.size) (x : β) :
    (store xs i x : M (Array β)) = pure (xs.setIfInBounds i x) := by
  rw [store, dif_pos h, Array.setIfInBounds_def, dif_pos h]

section Traversals

variable {N : Type → Type} [Monad N] [LawfulMonad N] {γ : Type} {l : List γ}

theorem foldlM_eq_pure {f : β → γ → N β} {g : β → γ → β} (h : ∀ c ∈ l, ∀ b, f b c = pure (g b c))
    (b : β) : l.foldlM f b = pure (l.foldl g b) := by
  induction l generalizing b with
  | nil => rfl
  | cons c rest ih =>
    rw [List.foldlM_cons, h c List.mem_cons_self, pure_bind]
    exact ih (fun c hc => h c (List.mem_cons_of_mem _ hc)) _

theorem allM_eq_pure {f : γ → N Bool} {p : γ → Bool} (h : ∀ c ∈ l, f c = pure (p c)) :
    l.allM f = pure (l.all p) := by
  induction l with
  | nil => rfl
  | cons c rest ih =>
    rw [List.allM, h c List.mem_cons_self, pure_bind, List.all_cons,
      ih fun c hc => h c (List.mem_cons_of_mem _ hc)]
    cases p c <;> rfl

theorem findM?_eq_pure {f : γ → N Bool} {p : γ → Bool} (h : ∀ c ∈ l, f c = pure (p c)) :
    l.findM? f = pure (l.find? p) := by
  induction l with
  | nil => rfl
  | cons c rest ih =>
    rw [List.findM?, h c List.mem_cons_self, pure_bind, List.find?_cons,
      ih fun c hc => h c (List.mem_cons_of_mem _ hc)]
    cases p c <;> rfl

end Traversals

/-- The attempt gives what the plain computation gives, and that is as asserted. -/
structure Gives (attempt : Attempt β) (result : Option β) (post : β → Prop) : Prop where
  run_eq : attempt.run = pure result
  holds : ∀ b, result = some b → post b

namespace Gives

variable {γ : Type} {attempt : Attempt β} {result : Option β} {post : β → Prop} {after : γ → Prop}

theorem of_pure {b : β} (h : post b) : Gives (pure b) (some b) post :=
  ⟨rfl, fun _ hb => Option.some.inj hb ▸ h⟩

theorem of_failure : Gives (failure : Attempt β) none post :=
  ⟨rfl, nofun⟩

theorem bind {f : β → Attempt γ} {g : β → Option γ} (h : Gives attempt result post)
    (hnext : ∀ b, post b → Gives (f b) (g b) after) :
    Gives (attempt >>= f) (result >>= g) after := by
  obtain ⟨hrun, hholds⟩ := h
  cases result with
  | none => exact ⟨by rw [OptionT.run_bind, hrun]; rfl, nofun⟩
  | some b =>
    have hb := hnext b (hholds b rfl)
    exact ⟨by rw [OptionT.run_bind, hrun]; exact hb.run_eq, hb.holds⟩

/-- A plain result that is worked on further. -/
theorem of_map {f : β → Attempt γ} {g : β → γ} (h : ∀ b, Gives (f b) (some (g b)) after) :
    Gives (OptionT.mk (pure result) >>= f) (result.map g) after := by
  cases result with
  | none => exact .of_failure
  | some b => exact h b

theorem foldlM {l : List γ} {f : β → γ → Attempt β} {g : β → γ → Option β}
    (step : ∀ b, post b → ∀ c ∈ l, Gives (f b c) (g b c) post) {b : β} (h : post b) :
    Gives (l.foldlM f b) (l.foldlM g b) post := by
  induction l generalizing b with
  | nil => exact of_pure h
  | cons c rest ih =>
    rw [List.foldlM_cons, List.foldlM_cons]
    exact (step b h c List.mem_cons_self).bind fun b hb =>
      ih (fun b hb c hc => step b hb c (List.mem_cons_of_mem _ hc)) hb

end Gives

/-! ## Models without unknown variables -/

/-- The terms are about the first `count` variables. -/
def Known (count : Nat) (terms : List (α × VarId)) : Prop := ∀ t ∈ terms, t.2.index < count

/-- All constraints are about variables of the model. -/
def Closed (m : StoredModel α) : Prop := ∀ c ∈ m.constraints, Known m.vars.size c.terms

/-- The box has a range for every variable of the model. -/
def Fits (m : StoredModel α) (box : Box α) : Prop := box.size = m.vars.size

variable {m : StoredModel α} {terms : List (α × VarId)} {n : Narrowing α} {box : Box α}

theorem known_negated {count : Nat} (h : Known count terms) :
    Known count (terms.map fun (a, v) => (-a, v)) := by
  intro t ht
  obtain ⟨s, hs, rfl⟩ := List.mem_map.mp ht
  exact h s hs

theorem range_eq {v : VarId} (h : v.index < box.size) : box.range v = box[v.index] := by
  simp [Box.range, Array.getD_eq_getD_getElem?, h]

theorem fetch_box {v : VarId} (h : v.index < box.size) :
    (fetch box v.index : M (Bounds α)) = pure (box.range v) := by
  rw [range_eq h, fetch_eq h]

theorem sumAt_eq {c : Constraint α} {values : Array α} (h : Known values.size c.terms) :
    sumAt c values = pure (c.sumAt values) := by
  refine foldlM_eq_pure (fun t ht sum => ?_) 0
  have hknown : t.2.index < values.size := h t ht
  have hvalue : values.getD t.2.index 0 = values[t.2.index] := by
    simp [Array.getD_eq_getD_getElem?, hknown]
  simp only [fetch_eq hknown, pure_bind, hvalue]

theorem holdsAt_eq {c : Constraint α} {tolerance : α} {values : Array α}
    (h : Known values.size c.terms) :
    holdsAt tolerance values c = pure (c.holdsAt tolerance values) := by
  unfold holdsAt Constraint.holdsAt
  rw [sumAt_eq h]
  cases c.relation <;> rfl

theorem ofTerms_eq [LawfulMonad M] (h : Known box.size terms) :
    (ofTerms box terms : M (LeastActivity α)) = pure (LeastActivity.ofTerms box terms) := by
  refine foldlM_eq_pure (fun t ht activity => ?_) _
  simp only [fetch_box (h t.1 (List.fst_mem_of_mem_zipIdx ht)), pure_bind]

theorem tightenTerm_gives {activity : LeastActivity α} {rhs : α} (hbox : Fits m n.box)
    {t : (α × VarId) × Nat} (ht : t.1.2.index < m.vars.size) :
    Gives (tightenTerm m activity rhs n t) (m.tightenTerm activity rhs n t)
      (fun n' => Fits m n'.box) := by
  obtain ⟨⟨a, v⟩, k⟩ := t
  have hv : v.index < n.box.size := hbox ▸ ht
  have hbinary : m.isBinary v = decide (m.vars[v.index].kind = .binary) := by
    simp [StoredModel.isBinary, StoredModel.lookup?, ht]
  simp only [tightenTerm, StoredModel.tightenTerm, fetch_box hv, fetch_eq ht, pure_bind, hbinary]
  cases activity.without? k (leastTerm a (n.box.range v)) with
  | none => exact .of_pure hbox
  | some rest =>
    refine .of_map fun range => ?_
    rw [store_eq hv, pure_bind]
    exact .of_pure (Array.size_setIfInBounds.trans hbox)

theorem tighten_gives {rhs : α} (hterms : Known m.vars.size terms) (hbox : Fits m n.box) :
    Gives (tighten m terms rhs n) (m.tighten terms rhs n) (fun n' => Fits m n'.box) := by
  have hknown : Known n.box.size terms := hbox ▸ hterms
  simp only [tighten, StoredModel.tighten, ofTerms_eq hknown, pure_bind]
  split
  · exact .of_failure
  · exact .foldlM (fun n hn t ht => tightenTerm_gives hn
      (hterms t.1 (List.fst_mem_of_mem_zipIdx ht))) hbox

theorem tightenConstraint_gives {c : Constraint α} (hc : Known m.vars.size c.terms)
    (hbox : Fits m n.box) :
    Gives (tightenConstraint m n c) (m.tightenConstraint n c) (fun n' => Fits m n'.box) := by
  unfold tightenConstraint StoredModel.tightenConstraint
  cases c.relation with
  | lessEqual => exact tighten_gives hc hbox
  | greaterEqual => exact tighten_gives (known_negated hc) hbox
  | equal => exact (tighten_gives hc hbox).bind fun n hn => tighten_gives (known_negated hc) hn

section Propagation

variable (hm : Closed m)

include hm

theorem propagateRound_gives (hbox : Fits m box) :
    Gives (propagateRound m box) (m.propagateRound box) (fun n => Fits m n.box) := by
  rw [propagateRound, StoredModel.propagateRound, ← Array.foldlM_toList]
  exact .foldlM (fun n hn c hc =>
    tightenConstraint_gives (hm c (Array.mem_toList_iff.mp hc)) hn) hbox

theorem propagateFor_gives (rounds : Nat) (hbox : Fits m box) :
    Gives (propagateFor m rounds box) (m.propagateFor rounds box) (Fits m) := by
  induction rounds generalizing box with
  | zero => exact .of_pure hbox
  | succ rounds ih =>
    refine (propagateRound_gives hm hbox).bind fun n hn => ?_
    split
    · exact ih hn
    · exact .of_pure hn

theorem propagate_gives (hbox : Fits m box) : Gives (propagate m box) (m.propagate box) (Fits m) :=
  propagateFor_gives hm _ hbox

end Propagation

section Search

variable {i : Nat}

omit [Scalar α] in
theorem fits_assign {value : α} (hbox : Fits m box) : Fits m (StoredModel.assign box i value) :=
  Array.size_setIfInBounds.trans hbox

omit [Scalar α] in
theorem store_point (hi : i < box.size) (value : α) :
    (store box i (.point value) : M (Box α)) = pure (StoredModel.assign box i value) :=
  store_eq hi _

/-- Looking for an index is looking for the element. -/
theorem find?_range {γ : Type} (xs : Array γ) (p : γ → Bool) :
    (List.range xs.size).find? (fun i => xs[i]?.any p) = xs.findIdx? p := by
  refine Option.ext fun i => ?_
  rw [List.find?_range_eq_some, Array.findIdx?_eq_some_iff_getElem]
  constructor
  · intro ⟨hi, hmem, hfirst⟩
    have hlt : i < xs.size := List.mem_range.mp hmem
    refine ⟨hlt, by simpa [hlt] using hi, fun j hj => ?_⟩
    simpa [Nat.lt_trans hj hlt] using hfirst j hj
  · intro ⟨hlt, hi, hfirst⟩
    refine ⟨by simpa [hlt] using hi, List.mem_range.mpr hlt, fun j hj => ?_⟩
    simpa [Nat.lt_trans hj hlt] using hfirst j hj

theorem openBinary?_eq (hbox : Fits m box) : openBinary? m box = pure (m.openBinary? box) := by
  have hsize : (m.vars.zip box).size = m.vars.size := by
    rw [Array.size_zip, hbox, Nat.min_self]
  rw [StoredModel.openBinary?, ← find?_range, hsize]
  refine findM?_eq_pure fun i hi => ?_
  have hlt : i < m.vars.size := List.mem_range.mp hi
  have hget : (m.vars.zip box)[i]? = some (m.vars[i], box.range ⟨i⟩) := by
    rw [Array.getElem?_eq_getElem (hsize ▸ hlt), Array.getElem_zip, range_eq (hbox ▸ hlt)]
  rw [hget, fetch_eq hlt, pure_bind, fetch_box (v := ⟨i⟩) (hbox ▸ hlt)]
  by_cases hkind : m.vars[i].kind = .binary <;> simp [hkind]

theorem branches_eq (hbox : Fits m box) (hi : i < m.vars.size) :
    branches m box i = pure (m.branches box i) := by
  have hstart : m.startsAtOne i = m.vars[i].start.any (Scalar.half ≤ ·) := by
    simp [StoredModel.startsAtOne, StoredModel.lookup?, hi]
  have hlt : i < box.size := hbox ▸ hi
  simp only [branches, StoredModel.branches, fetch_eq hi, store_point hlt, pure_bind, hstart]

theorem pin_gives (hm : Closed m) (hbox : Fits m box) (hi : i < m.vars.size) :
    Gives (pin m box i) (m.pin box i) (Fits m) := by
  have hstart : (m.lookup? ⟨i⟩).bind Variable.start = m.vars[i].start := by
    simp [StoredModel.lookup?, hi]
  have hlt : i < box.size := hbox ▸ hi
  simp only [pin, StoredModel.pin, fetch_box (v := ⟨i⟩) hlt, fetch_eq hi, store_point hlt,
    pure_bind, hstart]
  split
  · exact .of_pure hbox
  · exact propagate_gives hm (fits_assign hbox)

theorem complete_gives (hm : Closed m) (hbox : Fits m box) :
    Gives (complete m box) (m.complete box) (fun _ => True) :=
  (Gives.foldlM (fun _ hb _ hi => pin_gives hm hb (List.mem_range.mp hi)) hbox).bind
    fun _ _ => .of_pure trivial

theorem fits_branches {b : Box α} (hbox : Fits m box) (hb : b ∈ m.branches box i) : Fits m b := by
  unfold StoredModel.branches at hb
  split at hb <;> simp only [List.mem_cons, List.not_mem_nil, or_false] at hb <;>
    rcases hb with rfl | rfl <;> exact fits_assign hbox

theorem lt_of_openBinary? (hbox : Fits m box) (h : m.openBinary? box = some i) :
    i < m.vars.size := by
  obtain ⟨hi, -⟩ := Array.findIdx?_eq_some_iff_getElem.mp h
  rw [Array.size_zip, hbox, Nat.min_self] at hi
  exact hi

theorem explore_eq (hm : Closed m) (budget : Nat) {pending : List (Box α)}
    (hpending : ∀ box ∈ pending, Fits m box) :
    explore m budget pending = pure (m.explore budget pending) := by
  -- On the budget; what is carried along is that all pending boxes have the size of the model.
  induction budget generalizing pending with
  | zero => cases pending <;> rfl
  | succ budget ih =>
    cases pending with
    | nil => rfl
    | cons box pending =>
      obtain ⟨hbox, hpending⟩ := List.forall_mem_cons.mp hpending
      obtain ⟨hrun, hfits⟩ := propagate_gives hm hbox
      rw [explore, StoredModel.explore, hrun, pure_bind]
      cases hpropagate : m.propagate box with
      | none => exact ih hpending
      | some left =>
        have hleft := hfits left hpropagate
        obtain ⟨hcomplete, -⟩ := complete_gives hm hleft
        simp only [openBinary?_eq hleft, pure_bind]
        cases hopen : m.openBinary? left with
        | some i =>
          have hbranches : ∀ b ∈ m.branches left i ++ pending, Fits m b := fun b hb =>
            (List.mem_append.mp hb).elim (fits_branches hleft) (hpending b)
          simp only [branches_eq hleft (lt_of_openBinary? hleft hopen), pure_bind]
          exact ih hbranches
        | none =>
          simp only [hcomplete, pure_bind]
          cases m.complete left with
          | none => exact ih hpending
          | some values => rfl

/-- **A check never looks up an index past the end.** -/
theorem check_eq (hm : Closed m) (values : Array α) : check m values = .ok (m.check values) := by
  unfold check StoredModel.check
  by_cases hvalues : values.size = m.vars.size ∧
      (m.vars.zip values).all (fun (var, x) => var.admits m.tolerance x) = true
  · have hall : m.constraints.toList.allM (holdsAt m.tolerance values) =
        pure (m.constraints.toList.all (·.holdsAt m.tolerance values)) :=
      allM_eq_pure fun c hc => holdsAt_eq (hvalues.1 ▸ hm c (Array.mem_toList_iff.mp hc))
    rw [if_pos hvalues, hall, Array.all_toList, decide_eq_true hvalues.1, hvalues.2]
    rfl
  · have hfalse : (decide (values.size = m.vars.size) &&
        (m.vars.zip values).all fun (var, x) => var.admits m.tolerance x) = false := by
      rw [Bool.eq_false_iff, ne_eq, Bool.and_eq_true, decide_eq_true_iff]
      exact hvalues
    rw [if_neg hvalues, hfalse, Bool.false_and]
    rfl

/-- **A search never looks up an index past the end.** -/
theorem solve_eq (hm : Closed m) : solve m = .ok m.solve := by
  have hdeclared : ∀ box ∈ [m.declaredBox], Fits m box := by
    simp [Fits, StoredModel.declaredBox]
  rw [solve, StoredModel.solve, explore_eq hm _ hdeclared, pure_bind]
  cases m.explore m.nodeLimit [m.declaredBox] with
  | found values =>
    simp only [check_eq hm values]
    cases m.check values <;> rfl
  | exhausted => rfl
  | aborted => rfl

end Search

end Checked

end SignalTemporalLogic
