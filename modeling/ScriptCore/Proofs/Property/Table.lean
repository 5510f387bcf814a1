import ScriptCore.Proofs.Text.Forms
import ScriptCore.Property.Table

/-!
# ScriptCore.Proofs.Property.Table

A property table **read through its slots and its names**.

Each operation has one equation for `get?` and one for `names`, the order of enumeration. Names are
compared as strings are, so the form that a name is stored in plays no part.
-/

namespace ScriptCore.PropertyTable

variable {t : PropertyTable} {name key : Text} {slot : Slot}

@[simp] theorem get?_empty (key : Text) : empty.get? key = none := by
  simp [get?, empty]

theorem contains_iff (t : PropertyTable) (name : Text) :
    t.slots.contains name = (t.get? name).isSome :=
  Std.HashMap.contains_eq_isSome_getElem?

theorem get?_insert (t : PropertyTable) (name key : Text) (slot : Slot) :
    (t.insert name slot).get? key = if name == key then some slot else t.get? key :=
  Std.HashMap.getElem?_insert

@[simp] theorem get?_insert_self (t : PropertyTable) (name : Text) (slot : Slot) :
    (t.insert name slot).get? name = some slot := by
  simp [get?_insert]

/-- A new name goes to the end. -/
theorem names_insert_of_none (slot : Slot) (h : t.get? name = none) :
    (t.insert name slot).names = t.names.push name := by
  simp [insert, contains_iff, h]

theorem names_update (t : PropertyTable) (name : Text) (f : Slot → Slot) :
    (t.update name f).names = t.names := by
  unfold update
  split <;> rfl

theorem get?_update_of_some (f : Slot → Slot) (h : t.get? name = some slot) (key : Text) :
    (t.update name f).get? key = if name == key then some (f slot) else t.get? key := by
  rw [update, h]
  exact Std.HashMap.getElem?_insert

theorem get?_congr (t : PropertyTable) (same : name.units = key.units) : t.get? name = t.get? key :=
  Std.HashMap.getElem?_congr (Text.beq_iff_units.mpr same)

theorem get?_erase (t : PropertyTable) (name key : Text) :
    (t.erase name).get? key = if name == key then none else t.get? key := by
  rw [erase]
  split
  · exact Std.HashMap.getElem?_erase
  · rename_i absent
    rw [contains_iff, Option.isSome_iff_ne_none, not_not] at absent
    split
    · rename_i same
      rw [← t.get?_congr (Text.beq_iff_units.mp same), absent]
    · rfl

/-- A property that is removed takes its name along and leaves the order of the others. -/
theorem names_erase (t : PropertyTable) {others : Text → Bool}
    (apart : ∀ k, others k = true → (name == k) = false) :
    (t.erase name).names.toList.filter others = t.names.toList.filter others := by
  rw [erase]
  split
  · rw [Array.toList_filter, List.filter_filter]
    refine List.filter_congr fun k _ => ?_
    cases hk : others k with
    | false => rfl
    | true =>
        rw [Bool.true_and, bne, BEq.comm, apart k hk]
        rfl
  · rfl

theorem names_erase_subset (t : PropertyTable) (name : Text) :
    (t.erase name).names.toList ⊆ t.names.toList := by
  rw [erase]
  split
  · rw [Array.toList_filter]
    exact List.filter_sublist.subset
  · exact List.Subset.refl _

/-! ### Names and slots together -/

/-- Every name that has a slot is listed, in some form and only once, and no other name is. -/
structure Sound (t : PropertyTable) : Prop where
  once : t.names.toList.Pairwise fun a b => a.units ≠ b.units
  listed : ∀ name, (t.get? name).isSome = true ↔ ∃ n ∈ t.names.toList, n.units = name.units

theorem sound_empty : empty.Sound where
  once := .nil
  listed name := by simp [empty, get?]

namespace Sound

theorem insert (h : t.Sound) (name : Text) (slot : Slot) : (t.insert name slot).Sound := by
  cases present : t.get? name with
  | none =>
      have absent : ∀ n ∈ t.names.toList, n.units ≠ name.units := by
        intro n hn same
        have := (h.listed name).mpr ⟨n, hn, same⟩
        simp [present] at this
      refine ⟨?_, ?_⟩
      · rw [names_insert_of_none slot present, Array.toList_push]
        refine List.pairwise_append.mpr ⟨h.once, List.pairwise_singleton _ _, ?_⟩
        intro a ha b hb
        cases List.mem_singleton.mp hb
        exact absent a ha
      · intro key
        rw [names_insert_of_none slot present, get?_insert, Array.toList_push]
        by_cases same : name.units = key.units
        · simp [same]
        · have listed := h.listed key
          simp_all
  | some old =>
      have names : (t.insert name slot).names = t.names := by
        simp [PropertyTable.insert, contains_iff, present]
      refine ⟨names ▸ h.once, ?_⟩
      intro key
      rw [names, get?_insert, ← h.listed key]
      by_cases same : name.units = key.units
      · simp [same, ← t.get?_congr same, present]
      · simp [same]

theorem update (h : t.Sound) (name : Text) (f : Slot → Slot) : (t.update name f).Sound := by
  cases present : t.get? name with
  | none =>
      rw [PropertyTable.update, present]
      exact h
  | some slot =>
      refine ⟨names_update t name f ▸ h.once, ?_⟩
      intro key
      rw [names_update, get?_update_of_some f present, ← h.listed key]
      by_cases same : name.units = key.units
      · simp [same, ← t.get?_congr same, present]
      · simp [same]

theorem erase (h : t.Sound) (name : Text) : (t.erase name).Sound := by
  rw [PropertyTable.erase]
  split
  · refine ⟨?_, ?_⟩
    · rw [Array.toList_filter]
      exact h.once.filter _
    · intro key
      have kept (n : Text) : (n != name) = true ↔ n.units ≠ name.units := by
        rw [bne, Bool.not_eq_true', Bool.eq_false_iff, ne_eq, Text.beq_iff_units]
      have listed := h.listed key
      show ((t.slots.erase name)[key]?).isSome = true ↔ _
      rw [Std.HashMap.getElem?_erase, Array.toList_filter]
      simp only [List.mem_filter, kept, Text.beq_iff_units]
      by_cases same : name.units = key.units
      · simp only [if_pos same, Option.isSome_none, Bool.false_eq_true, false_iff]
        intro other
        obtain ⟨n, ⟨_, hne⟩, heq⟩ := other
        exact hne (heq.trans same.symm)
      · rw [if_neg same]
        refine listed.trans ⟨?_, ?_⟩
        · intro found
          obtain ⟨n, hn, heq⟩ := found
          exact ⟨n, ⟨hn, fun hname => same (hname.symm.trans heq)⟩, heq⟩
        · intro found
          obtain ⟨n, ⟨hn, _⟩, heq⟩ := found
          exact ⟨n, hn, heq⟩
  · exact h

end Sound

end ScriptCore.PropertyTable
