import Mathlib.Data.List.Nodup
import SignalTemporalLogic.Encoding.Group

/-!
What the names of variables say. A name carries the number that its variable had in the session, and
since no tag contains a digit the number can be read off, whatever the session's stem is. The
selectors of a group append their position to the name of its result, so all names of a group are
different.
-/

namespace SignalTemporalLogic

/-! ## Texts -/

theorem EncodingContext.toList_labelText (stem : String) (role : VariableRole) (n t : Nat) :
    (labelText stem role n t).toList = stem.toList ++ '_' :: (role.tag.toList ++
      (Nat.toDigits 10 n ++ '_' :: 't' :: Nat.toDigits 10 t)) := by
  simp only [labelText, toString, String.toList_append, Nat.toList_repr, List.append_assoc]
  rfl

theorem exists_toDigits_eq_cons (n : Nat) :
    ∃ c rest, Nat.toDigits 10 n = c :: rest ∧ c.isDigit = true := by
  obtain ⟨c, rest, h⟩ := List.exists_cons_of_length_pos (Nat.length_toDigits_pos (b := 10) (n := n))
  exact ⟨c, rest, h, Nat.isDigit_of_mem_toDigits (by decide) (Nat.le_refl 10) (h ▸ List.mem_cons_self)⟩

/-- The first digits of a text. -/
def firstDigits (text : List Char) : List Char :=
  (text.dropWhile (!·.isDigit)).takeWhile Char.isDigit

theorem toDigits_injective {m n : Nat} (h : Nat.toDigits 10 m = Nat.toDigits 10 n) : m = n := by
  rw [← Nat.ofDigitChars_ten_toDigits (n := m), h, Nat.ofDigitChars_ten_toDigits]

/-- The number behind a tag. -/
theorem firstDigits_tag (role : VariableRole) (n : Nat) (rest : List Char) :
    firstDigits (role.tag.toList ++ (Nat.toDigits 10 n ++ '_' :: rest)) = Nat.toDigits 10 n := by
  have htag : role.tag.toList.all (!·.isDigit) = true := by cases role <;> rfl
  have hdigits : ∀ c ∈ Nat.toDigits 10 n, c.isDigit = true := fun c hc =>
    Nat.isDigit_of_mem_toDigits (by decide) (Nat.le_refl _) hc
  obtain ⟨c, cs, hcons, hdigit⟩ := exists_toDigits_eq_cons n
  rw [firstDigits, List.dropWhile_append_of_pos (List.all_eq_true.mp htag), hcons, List.cons_append,
    List.dropWhile_cons_of_neg (by simp [hdigit]), ← List.cons_append, ← hcons,
    List.takeWhile_append_of_pos hdigits, List.takeWhile_cons_of_neg (by decide), List.append_nil]

/-! ## Numbers of names -/

/-- The name starts like that of variable number `n` of a session. -/
def Numbered (stem : String) (n : Nat) (name : String) : Prop :=
  ∃ role t rest, name.toList = (EncodingContext.labelText stem role n t).toList ++ rest

/-- A name has one number. -/
theorem Numbered.unique {stem name : String} {m n : Nat} (hm : Numbered stem m name)
    (hn : Numbered stem n name) : m = n := by
  obtain ⟨role, t, rest, h⟩ := hm
  obtain ⟨role', t', rest', h'⟩ := hn
  simp only [EncodingContext.toList_labelText, List.append_assoc, List.cons_append] at h h'
  have hbehind := (List.cons.inj (List.append_cancel_left (h.symm.trans h'))).2
  refine toDigits_injective ?_
  rw [← firstDigits_tag role m, hbehind, firstDigits_tag]

/-! ## Names of a group -/

/-- The name of selector number `i` of the group with the given name. -/
def selectorName (label : String) (i : Nat) : String := s!"{label}_d{i}"

theorem toList_selectorName (label : String) (i : Nat) :
    (selectorName label i).toList = label.toList ++ '_' :: 'd' :: Nat.toDigits 10 i := by
  simp only [selectorName, toString, String.toList_append, Nat.toList_repr, List.append_assoc]
  rfl

theorem selectorName_injective (label : String) : Function.Injective (selectorName label) := by
  intro i j h
  have htexts := congrArg String.toList h
  simp only [toList_selectorName] at htexts
  simpa using toDigits_injective (by simpa using htexts)

theorem selectorName_ne (label : String) (i : Nat) : selectorName label i ≠ label := by
  intro h
  have hlength := congrArg List.length ((toList_selectorName label i).symm.trans (congrArg _ h))
  simp at hlength

/-- The names of a group: that of its result and those of its selectors. -/
def groupNames (label : String) (count : Nat) : List String :=
  label :: (List.range' 0 count).map (selectorName label)

theorem groupNames_nodup (label : String) (count : Nat) : (groupNames label count).Nodup := by
  refine List.nodup_cons.mpr ⟨fun h => ?_, ?_⟩
  · obtain ⟨i, -, hi⟩ := List.mem_map.mp h
    exact selectorName_ne label i hi
  · exact List.Nodup.map (selectorName_injective label) List.nodup_range'

/-- All names of a group have the number of its result. -/
theorem numbered_of_mem_groupNames {stem name : String} {role : VariableRole} {n t count : Nat}
    (h : name ∈ groupNames (EncodingContext.labelText stem role n t) count) :
    Numbered stem n name := by
  refine ⟨role, t, ?_⟩
  rcases List.mem_cons.mp h with rfl | h
  · exact ⟨[], by simp⟩
  · obtain ⟨i, -, rfl⟩ := List.mem_map.mp h
    exact ⟨_, toList_selectorName _ i⟩

end SignalTemporalLogic
