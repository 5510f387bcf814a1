import Mathlib.Data.List.Basic
import Mathlib.Data.List.Induction
import ScriptCore.Proofs.Property.Table

/-!
# ScriptCore.Proofs.Property.InsertionOrder

A property table is an **association list in insertion order**, whose names are told apart by their
content.

Design points:

* The list keeps a name and its slot in one entry (`Entries`), where the table keeps two collections in
  step. Each operation of the table is that of the list on `toList` (`toList_apply`), as long as names
  and slots agree, which every operation preserves (`Sound`).
* Nothing but the changes themselves decides what a table holds. The slot of a name depends on the
  changes to that name alone (`latestSlot`), and its place on the insertion that its present stay in the
  table began with (`Entered`).
* Names are compared by their units throughout. The form of a name shows in the list only, which keeps
  the one that the name entered with.
-/

namespace ScriptCore

/-! ### Changes, and what they leave -/

/-- A change of a table. -/
inductive TableEdit where
  /-- Adds a property, or replaces the slot of one that is present. -/
  | insert (name : Text) (slot : Slot)
  /-- Removes a property. -/
  | erase (name : Text)
  /-- Changes the slot of a property that is present. -/
  | update (name : Text) (f : Slot → Slot)

/-- What a change makes of the slot of a name. -/
def TableEdit.onSlot (key : Text) (slot? : Option Slot) : TableEdit → Option Slot
  | .insert name slot => if name.units = key.units then some slot else slot?
  | .erase name => if name.units = key.units then none else slot?
  | .update name f => if name.units = key.units then slot?.map f else slot?

/-- The slot that changes to the empty table leave under a name: the one inserted last, with the updates
since then, unless the name was removed after it. -/
def latestSlot (edits : List TableEdit) (key : Text) : Option Slot :=
  edits.foldl (TableEdit.onSlot key) none

/-- The present stay of a name began with the change at a place: that inserts the name, just before it
there was no such property, and ever since there has been one. -/
structure Entered (edits : List TableEdit) (name : Text) (place : Nat) : Prop where
  inserts : ∃ slot, edits[place]? = some (.insert name slot)
  absent : latestSlot (edits.take place) name = none
  stays : ∀ n, place < n → n ≤ edits.length → (latestSlot (edits.take n) name).isSome = true

/-! ### The association list -/

namespace Entries

/-- The entry is that of a name. -/
def isOf (key : Text) (e : Text × Slot) : Bool := e.1.units == key.units

/-- The slot in the entry of a name. -/
def get? (l : List (Text × Slot)) (key : Text) : Option Slot := (l.find? (isOf key)).map Prod.snd

/-- Changes the slot in the entry of a name, and leaves the entry where it is. -/
def update (l : List (Text × Slot)) (key : Text) (f : Slot → Slot) : List (Text × Slot) :=
  l.map fun e => if isOf key e then (e.1, f e.2) else e

/-- Replaces the slot in the entry of a name, or adds an entry at the end. -/
def insert (l : List (Text × Slot)) (key : Text) (slot : Slot) : List (Text × Slot) :=
  if l.any (isOf key) then update l key fun _ => slot else l ++ [(key, slot)]

/-- Removes the entry of a name. -/
def erase (l : List (Text × Slot)) (key : Text) : List (Text × Slot) := l.filter fun e => !isOf key e

/-- The list after a change. -/
def apply (l : List (Text × Slot)) : TableEdit → List (Text × Slot)
  | .insert name slot => insert l name slot
  | .erase name => erase l name
  | .update name f => update l name f

/-- The list after changes to the empty one. -/
def ofEdits (edits : List TableEdit) : List (Text × Slot) := edits.foldl apply []

end Entries

namespace PropertyTable

variable {t : PropertyTable} {name key : Text}

/-- The table after a change. -/
def apply (t : PropertyTable) : TableEdit → PropertyTable
  | .insert name slot => t.insert name slot
  | .erase name => t.erase name
  | .update name f => t.update name f

/-- The table after changes to the empty one. -/
def ofEdits (edits : List TableEdit) : PropertyTable := edits.foldl apply empty

/-! ### One change -/

theorem get?_update (t : PropertyTable) (name : Text) (f : Slot → Slot) (key : Text) :
    (t.update name f).get? key = if name == key then (t.get? key).map f else t.get? key := by
  cases present : t.get? name with
  | some slot =>
      rw [get?_update_of_some f present]
      refine ite_congr rfl (fun same => ?_) fun _ => rfl
      rw [← t.get?_congr (Text.beq_iff_units.mp same), present, Option.map_some]
  | none =>
      have unchanged : t.update name f = t := by rw [update, present]
      rw [unchanged]
      split
      · rename_i same
        rw [← t.get?_congr (Text.beq_iff_units.mp same), present, Option.map_none]
      · rfl

/-- A change leaves under each name what it makes of the slot there. -/
theorem get?_apply (t : PropertyTable) (edit : TableEdit) (key : Text) :
    (t.apply edit).get? key = edit.onSlot key (t.get? key) := by
  cases edit with
  | insert name slot => simp only [apply, TableEdit.onSlot, get?_insert, Text.beq_iff_units]
  | erase name => simp only [apply, TableEdit.onSlot, get?_erase, Text.beq_iff_units]
  | update name f => simp only [apply, TableEdit.onSlot, get?_update, Text.beq_iff_units]

/-- To insert a name that is present is to change its slot. -/
theorem insert_eq_update (slot : Slot) {old : Slot} (present : t.get? name = some old) :
    t.insert name slot = t.update name fun _ => slot := by
  rw [insert, contains_iff, update, present]
  rfl

theorem toList_update (t : PropertyTable) (name : Text) (f : Slot → Slot) :
    (t.update name f).toList = Entries.update t.toList name f := by
  rw [toList, names_update, toList, Entries.update, List.map_filterMap]
  refine List.filterMap_congr fun n _ => ?_
  rw [get?_update, BEq.comm, Text.beq_def]
  cases t.get? n with
  | none => simp
  | some slot => by_cases same : n.units = name.units <;> simp [Entries.isOf, same]

/-- An entry holds the slot of its name. -/
theorem get?_of_mem_toList {e : Text × Slot} (listed : e ∈ t.toList) : t.get? e.1 = some e.2 := by
  obtain ⟨n, -, found⟩ := List.mem_filterMap.mp listed
  obtain ⟨slot, present, rfl⟩ := Option.map_eq_some_iff.mp found
  exact present

/-- A table reads as a list of entries does. What a removal hands out and what an update starts from is
the slot that is looked up. -/
structure Reads (t : PropertyTable) (l : List (Text × Slot)) : Prop where
  toList : t.toList = l
  names : t.names.toList = l.map Prod.fst
  get? : ∀ key, t.get? key = Entries.get? l key
  size : t.size = l.length
  isEmpty : t.isEmpty = l.isEmpty

namespace Sound

theorem apply (sound : t.Sound) (edit : TableEdit) : (t.apply edit).Sound := by
  cases edit with
  | insert name slot => exact sound.insert name slot
  | erase name => exact sound.erase name
  | update name f => exact sound.update name f

/-- A name that is listed has a slot. -/
theorem isSome_get? (sound : t.Sound) (listed : name ∈ t.names.toList) :
    (t.get? name).isSome = true :=
  (sound.listed name).mpr ⟨name, listed, rfl⟩

/-- A name without a slot is not listed, in any form. -/
theorem beq_eq_false (sound : t.Sound) (absent : t.get? key = none)
    (listed : name ∈ t.names.toList) : (name == key) = false := by
  refine Bool.eq_false_iff.mpr fun same => ?_
  have present := sound.isSome_get? listed
  rw [t.get?_congr (Text.beq_iff_units.mp same), absent] at present
  cases present

theorem names_erase (sound : t.Sound) (name : Text) :
    (t.erase name).names.toList = t.names.toList.filter (· != name) := by
  rw [PropertyTable.erase]
  split
  · exact Array.toList_filter
  · rename_i absent
    rw [contains_iff, Option.isSome_iff_ne_none, not_not] at absent
    refine (List.filter_eq_self.mpr fun n listed => ?_).symm
    rw [bne, sound.beq_eq_false absent listed, Bool.not_false]

/-! ### The entries of a table -/

/-- There is one entry for each name, in the order of the names. -/
theorem map_fst_toList (sound : t.Sound) : t.toList.map Prod.fst = t.names.toList := by
  rw [toList, List.map_filterMap]
  refine (List.filterMap_congr (g := some) fun n listed => ?_).trans List.filterMap_some
  obtain ⟨slot, present⟩ := Option.isSome_iff_exists.mp (sound.isSome_get? listed)
  rw [present]
  rfl

theorem any_toList (sound : t.Sound) (key : Text) :
    t.toList.any (Entries.isOf key) = (t.get? key).isSome := by
  rw [Bool.eq_iff_iff, sound.listed, ← sound.map_fst_toList]
  simp [Entries.isOf]

/-- Looking a name up among the entries finds its slot. -/
theorem get?_toList (sound : t.Sound) (key : Text) : Entries.get? t.toList key = t.get? key := by
  rw [Entries.get?]
  cases found : t.toList.find? (Entries.isOf key) with
  | some e =>
      have isOf : Entries.isOf key e = true := List.find?_some found
      have same : e.1.units = key.units := eq_of_beq isOf
      rw [← t.get?_congr same, get?_of_mem_toList (List.mem_of_find?_eq_some found), Option.map_some]
  | none =>
      have absent := sound.any_toList key
      rw [← List.isSome_find?, found, Option.isSome_none, eq_comm, Option.isSome_eq_false_iff] at absent
      rw [Option.isNone_iff_eq_none.mp absent, Option.map_none]

theorem toList_insert (sound : t.Sound) (name : Text) (slot : Slot) :
    (t.insert name slot).toList = Entries.insert t.toList name slot := by
  rw [Entries.insert, sound.any_toList]
  cases present : t.get? name with
  | some old => rw [insert_eq_update slot present, toList_update, Option.isSome_some, if_pos rfl]
  | none =>
      -- The listed names keep their slots, so only the new one adds an entry.
      have others : ∀ n ∈ t.names.toList, (t.insert name slot).get? n = t.get? n := by
        intro n listed
        rw [get?_insert, BEq.comm, sound.beq_eq_false present listed, if_neg Bool.false_ne_true]
      rw [toList, names_insert_of_none slot present, Array.toList_push, List.filterMap_append]
      congr 1
      · exact List.filterMap_congr fun n listed => by rw [others n listed]
      · simp

theorem toList_erase (sound : t.Sound) (name : Text) :
    (t.erase name).toList = Entries.erase t.toList name := by
  rw [toList, sound.names_erase, toList, Entries.erase, List.filterMap_filter, List.filter_filterMap]
  refine List.filterMap_congr fun n _ => ?_
  rw [get?_erase, BEq.comm, bne, Text.beq_def]
  cases t.get? n with
  | none => simp
  | some slot =>
      by_cases same : n.units = name.units <;> simp [Entries.isOf, same, Option.filter_some]

/-- A change of a table is the same change of its entries. -/
theorem toList_apply (sound : t.Sound) (edit : TableEdit) :
    (t.apply edit).toList = Entries.apply t.toList edit := by
  cases edit with
  | insert name slot => exact sound.toList_insert name slot
  | erase name => exact sound.toList_erase name
  | update name f => exact t.toList_update name f

theorem reads (sound : t.Sound) : t.Reads t.toList where
  toList := rfl
  names := sound.map_fst_toList.symm
  get? key := (sound.get?_toList key).symm
  size := by rw [size, ← Array.length_toList, ← sound.map_fst_toList, List.length_map]
  isEmpty := by rw [isEmpty, ← Array.isEmpty_toList, ← sound.map_fst_toList, List.isEmpty_map]

/-- The names are the keys that slots are stored under, each of them once. -/
theorem names_perm_keys (sound : t.Sound) :
    (t.names.toList.map Text.units).Perm (t.slots.keys.map Text.units) := by
  -- A slot may be stored under another form of its name than the listed one, so both go by units.
  have distinct : (t.slots.keys.map Text.units).Nodup := by
    refine List.pairwise_map.mpr (Std.HashMap.distinct_keys.imp fun {a b} differ => ?_)
    rwa [Bool.eq_false_iff, ne_eq, Text.beq_iff_units] at differ
  refine (List.perm_ext_iff_of_nodup (List.pairwise_map.mpr sound.once) distinct).mpr fun us => ?_
  have stored := sound.listed (.wide us)
  rw [← contains_iff, ← Std.HashMap.contains_keys, List.contains_iff_exists_mem_beq] at stored
  have units : (Text.wide us).units = us := rfl
  simp only [Text.beq_iff_units, units] at stored
  rw [List.mem_map, List.mem_map, ← stored]
  exact exists_congr fun k => and_congr_right fun _ => eq_comm

/-- A name that is removed and inserted again goes to the end, in the form that it is inserted in. -/
theorem toList_insert_erase (sound : t.Sound) {again : Text} (same : again.units = name.units)
    (slot : Slot) :
    ((t.erase name).insert again slot).toList = Entries.erase t.toList name ++ [(again, slot)] := by
  have absent : (t.erase name).get? again = none := by
    rw [get?_erase, if_pos (Text.beq_iff_units.mpr same.symm)]
  have new : (Entries.erase t.toList name).any (Entries.isOf again) = false := by
    rw [← sound.toList_erase, (sound.erase name).any_toList, absent, Option.isSome_none]
  rw [(sound.erase name).toList_insert, sound.toList_erase, Entries.insert, new,
    if_neg Bool.false_ne_true]

/-- What a change makes of the names: it takes some of them away, or it inserts one without a slot, which
goes to the end. -/
theorem names_apply (sound : t.Sound) (edit : TableEdit) :
    (t.apply edit).names.toList.Sublist t.names.toList ∨
      ∃ name slot, edit = .insert name slot ∧ t.get? name = none ∧
        (t.apply edit).names.toList = t.names.toList ++ [name] := by
  cases edit with
  | insert name slot =>
      rw [PropertyTable.apply]
      cases present : t.get? name with
      | some old =>
          rw [insert_eq_update slot present, names_update]
          exact .inl (List.Sublist.refl _)
      | none =>
          refine .inr ⟨name, slot, rfl, present, ?_⟩
          rw [names_insert_of_none slot present, Array.toList_push]
  | erase name =>
      rw [PropertyTable.apply, sound.names_erase]
      exact .inl List.filter_sublist
  | update name f =>
      rw [PropertyTable.apply, names_update]
      exact .inl (List.Sublist.refl _)

end Sound

end PropertyTable

/-! ### The order of entry -/

section Order

variable {edits : List TableEdit} {edit : TableEdit} {name : Text} {place : Nat}

theorem latestSlot_concat (edits : List TableEdit) (edit : TableEdit) (key : Text) :
    latestSlot (edits ++ [edit]) key = edit.onSlot key (latestSlot edits key) :=
  List.foldl_concat ..

namespace Entered

theorem lt_length (entered : Entered edits name place) : place < edits.length := by
  obtain ⟨slot, inserts⟩ := entered.inserts
  exact (List.getElem?_eq_some_iff.mp inserts).1

/-- A name that has entered and not left is present. -/
theorem isSome (entered : Entered edits name place) : (latestSlot edits name).isSome = true := by
  have present := entered.stays edits.length entered.lt_length (Nat.le_refl _)
  rwa [List.take_length] at present

/-- A name that a change leaves present has entered where it had before. -/
theorem concat (entered : Entered edits name place)
    (present : (latestSlot (edits ++ [edit]) name).isSome = true) :
    Entered (edits ++ [edit]) name place where
  inserts := by
    obtain ⟨slot, inserts⟩ := entered.inserts
    exact ⟨slot, by rw [List.getElem?_append_left entered.lt_length, inserts]⟩
  absent := by
    rw [List.take_append_of_le_length (Nat.le_of_lt entered.lt_length)]
    exact entered.absent
  stays n later within := by
    rcases Nat.lt_or_ge edits.length n with last | earlier
    · have all : (edits ++ [edit]).length ≤ n := by rwa [List.length_append]
      rwa [List.take_of_length_le all]
    · rw [List.take_append_of_le_length earlier]
      exact entered.stays n later earlier

theorem le_length (entered : Entered (edits ++ [edit]) name place) : place ≤ edits.length := by
  have within := entered.lt_length
  rw [List.length_append] at within
  exact Nat.le_of_lt_succ within

/-- A name that was absent before the last change entered with it. -/
theorem eq_length (entered : Entered (edits ++ [edit]) name place)
    (absent : latestSlot edits name = none) : place = edits.length := by
  refine Nat.le_antisymm entered.le_length (Nat.le_of_not_lt fun earlier => ?_)
  have present := entered.stays edits.length earlier (by simp)
  rw [List.take_left' rfl, absent] at present
  cases present

/-- A name that was present before the last change entered before it. -/
theorem of_concat (entered : Entered (edits ++ [edit]) name place)
    (present : (latestSlot edits name).isSome = true) : Entered edits name place := by
  have earlier : place < edits.length := by
    refine Nat.lt_of_le_of_ne entered.le_length fun last => ?_
    have absent := entered.absent
    rw [last, List.take_left' rfl] at absent
    rw [absent] at present
    cases present
  refine ⟨?_, ?_, fun n later before => ?_⟩
  · obtain ⟨slot, inserts⟩ := entered.inserts
    exact ⟨slot, by rwa [List.getElem?_append_left earlier] at inserts⟩
  · have absent := entered.absent
    rwa [List.take_append_of_le_length entered.le_length] at absent
  · have stays := entered.stays n later (Nat.le_trans before (by simp))
    rwa [List.take_append_of_le_length before] at stays

end Entered

/-- A name that is absent enters with an insertion. -/
theorem entered_insert (absent : latestSlot edits name = none) (slot : Slot) :
    Entered (edits ++ [.insert name slot]) name edits.length where
  inserts := ⟨slot, List.getElem?_concat_length⟩
  absent := by rwa [List.take_left' rfl]
  stays n later within := by
    have all : (edits ++ [TableEdit.insert name slot]).length ≤ n := by rwa [List.length_append]
    rw [List.take_of_length_le all, latestSlot_concat, TableEdit.onSlot, if_pos rfl,
      Option.isSome_some]

/-- Names stand in the order in which they entered. -/
structure ByEntry (edits : List TableEdit) (names : List Text) : Prop where
  entered : ∀ name ∈ names, ∃ place, Entered edits name place
  ordered : names.Pairwise fun a b => ∀ i j, Entered edits a i → Entered edits b j → i < j

namespace ByEntry

variable {names left : List Text}

/-- Names that a change leaves present keep their order. -/
theorem concat (order : ByEntry edits names) (fewer : left.Sublist names)
    (present : ∀ n ∈ left, (latestSlot (edits ++ [edit]) n).isSome = true) :
    ByEntry (edits ++ [edit]) left where
  entered n listed := by
    obtain ⟨place, entered⟩ := order.entered n (fewer.subset listed)
    exact ⟨place, entered.concat (present n listed)⟩
  ordered := by
    have before : ∀ n ∈ left, (latestSlot edits n).isSome = true := fun n listed =>
      (order.entered n (fewer.subset listed)).elim fun _ entered => entered.isSome
    refine (order.ordered.sublist fewer).imp_of_mem fun ha hb earlier i j => ?_
    intro enteredA enteredB
    exact earlier i j (enteredA.of_concat (before _ ha)) (enteredB.of_concat (before _ hb))

/-- A name that is absent goes behind those that are present. -/
theorem insert (order : ByEntry edits names) (absent : latestSlot edits name = none) (slot : Slot) :
    ByEntry (edits ++ [.insert name slot]) (names ++ [name]) := by
  have others : ByEntry (edits ++ [.insert name slot]) names := by
    refine order.concat (List.Sublist.refl _) fun n listed => ?_
    obtain ⟨place, entered⟩ := order.entered n listed
    rw [latestSlot_concat, TableEdit.onSlot]
    split
    · rfl
    · exact entered.isSome
  refine ⟨fun n listed => ?_, ?_⟩
  · rcases List.mem_append.mp listed with old | new
    · exact others.entered n old
    · cases List.mem_singleton.mp new
      exact ⟨edits.length, entered_insert absent slot⟩
  · refine List.pairwise_append.mpr ⟨others.ordered, List.pairwise_singleton _ _, ?_⟩
    intro a old b new i j enteredA enteredB
    cases List.mem_singleton.mp new
    obtain ⟨place, entered⟩ := order.entered a old
    rw [enteredB.eq_length absent]
    exact (enteredA.of_concat entered.isSome).lt_length

end ByEntry
end Order

namespace PropertyTable

/-! ### All changes -/

theorem ofEdits_concat (edits : List TableEdit) (edit : TableEdit) :
    ofEdits (edits ++ [edit]) = (ofEdits edits).apply edit :=
  List.foldl_concat ..

theorem sound_ofEdits (edits : List TableEdit) : (ofEdits edits).Sound := by
  induction edits using List.reverseRecOn with
  | nil => exact sound_empty
  | append_singleton edits edit ih =>
      rw [ofEdits_concat]
      exact ih.apply edit

theorem get?_ofEdits (edits : List TableEdit) (key : Text) :
    (ofEdits edits).get? key = latestSlot edits key := by
  rw [latestSlot, ← get?_empty key]
  exact (List.foldl_hom (PropertyTable.get? · key) fun t edit => (t.get?_apply edit key).symm).symm

theorem toList_ofEdits (edits : List TableEdit) : (ofEdits edits).toList = Entries.ofEdits edits := by
  induction edits using List.reverseRecOn with
  | nil => rfl
  | append_singleton edits edit ih =>
      rw [ofEdits_concat, (sound_ofEdits edits).toList_apply, ih, Entries.ofEdits, Entries.ofEdits,
        List.foldl_concat]

theorem byEntry_ofEdits (edits : List TableEdit) : ByEntry edits (ofEdits edits).names.toList := by
  -- Places are counted from the first change, so the induction takes off the last one.
  induction edits using List.reverseRecOn with
  | nil => exact ⟨fun n listed => absurd listed List.not_mem_nil, .nil⟩
  | append_singleton edits edit ih =>
      have present : ∀ n ∈ (ofEdits (edits ++ [edit])).names.toList,
          (latestSlot (edits ++ [edit]) n).isSome = true := by
        intro n listed
        rw [← get?_ofEdits]
        exact (sound_ofEdits _).isSome_get? listed
      rw [ofEdits_concat] at present ⊢
      rcases (sound_ofEdits edits).names_apply edit with fewer | ⟨name, slot, rfl, absent, names⟩
      · exact ih.concat fewer present
      · rw [get?_ofEdits] at absent
        rw [names]
        exact ih.insert absent slot

/-- A table is an association list in insertion order. Whatever the changes to it were, in whatever forms
its names were given:

* all reads agree with those of the list;
* no two names are equal, and they are the keys of the slots;
* names stand in the order in which their present stay began, each with its latest slot;
* a name that is inserted while it is present stays where it is, and one that is removed and inserted
  again goes to the end. -/
theorem keeps_insertion_order (edits : List TableEdit) :
    (ofEdits edits).Reads (Entries.ofEdits edits) ∧
      (ofEdits edits).names.toList.Pairwise (fun a b => (a == b) = false) ∧
      ((ofEdits edits).names.toList.map Text.units).Perm
        ((ofEdits edits).slots.keys.map Text.units) ∧
      ByEntry edits (ofEdits edits).names.toList ∧
      (∀ e ∈ (ofEdits edits).toList, latestSlot edits e.1 = some e.2) ∧
      (∀ key, (latestSlot edits key).isSome = true ↔
        ∃ name ∈ (ofEdits edits).names.toList, name.units = key.units) ∧
      (∀ name slot, ((ofEdits edits).get? name).isSome = true →
        ((ofEdits edits).insert name slot).names = (ofEdits edits).names ∧
          ((ofEdits edits).insert name slot).toList =
            Entries.update (ofEdits edits).toList name fun _ => slot) ∧
      ∀ name again slot, again.units = name.units →
        (((ofEdits edits).erase name).insert again slot).toList =
          Entries.erase (ofEdits edits).toList name ++ [(again, slot)] := by
  have sound := sound_ofEdits edits
  refine ⟨toList_ofEdits edits ▸ sound.reads, ?_, sound.names_perm_keys, byEntry_ofEdits edits, ?_,
    fun key => ?_, fun name slot present => ?_, fun name again slot same => ?_⟩
  · refine sound.once.imp fun differ => ?_
    rwa [Bool.eq_false_iff, ne_eq, Text.beq_iff_units]
  · intro e listed
    rw [← get?_ofEdits, get?_of_mem_toList listed]
  · rw [← get?_ofEdits]
    exact sound.listed key
  · obtain ⟨old, present⟩ := Option.isSome_iff_exists.mp present
    rw [insert_eq_update slot present]
    exact ⟨names_update _ _ _, toList_update _ _ _⟩
  · exact sound.toList_insert_erase same slot

/-- A name that is present in one form is inserted in a second one, or removed in a third one first. -/
theorem keeps_insertion_order_across_forms :
    let one : Slot := .data (.smi 1) .default
    let two : Slot := .data (.smi 2) .default
    let t := ofEdits [.insert (.ascii "b" rfl) one, .insert (.ascii "a" rfl) one]
    (t.get? (.imported "b")).isSome = true ∧ (t.insert (.imported "b") two).names = t.names ∧
      (Text.imported "b").units = (Text.wide [98]).units ∧
      ((t.erase (.wide [98])).insert (.imported "b") two).toList =
        [(.ascii "a" rfl, one), (.imported "b", two)] := by
  intro one two t
  obtain ⟨reads, -, -, -, -, -, present, again⟩ := keeps_insertion_order
    [.insert (.ascii "b" rfl) one, .insert (.ascii "a" rfl) one]
  have found : (t.get? (.imported "b")).isSome = true := by
    rw [reads.get?]
    rfl
  have same : (Text.imported "b").units = (Text.wide [98]).units := by decide
  refine ⟨found, (present _ two found).1, same, (again _ _ two same).trans ?_⟩
  rw [reads.toList]
  rfl

end PropertyTable
end ScriptCore
