import Mathlib.Data.List.Sort
import ScriptCore.Proofs.Object.OwnSlot
import ScriptCore.Proofs.Text.Index

/-!
# ScriptCore.Proofs.Object.Deletion

**Deleting** a property: what the answer says of the property, and what becomes of the others.

Design points:

* `Heap.Deletes` has one rule for each thing that a deletion can do. Everything else is read off it.
* Arrays have no holes. A deleted element stays, and is `undefined`.
* Deletion looks at the elements of an array, at the entries of a host map, and else at the stored
  properties. `Heap.Deletable` says that it thereby sees all that makes the key an own property. Of
  any other key nothing is said but that its deletion leaves the other properties alone.
* A host map knows its keys as texts. A string that is no text shows the entry of the text that it is
  displayed as, so two strings name different properties of a host map only if their texts differ.
-/

namespace ScriptCore

namespace Heap

/-- The key names an element of an array. -/
def isElement (h : Heap) (o : ObjectId) (key : Text) : Bool :=
  match h.payload o with
  | .array elements => key.arrayIndex?.any (· < elements.size)
  | _ => false

/-- The key names an entry of a host map. -/
def isEntry (h : Heap) (o : ObjectId) (key : Text) : Bool :=
  match h.payload o with
  | .hostMap m _ => (h.hostMap m).contains key.toString
  | _ => false

/-- Deletion sees all that makes the key an own property. -/
inductive Deletable (h : Heap) (o : ObjectId) (key : Text) : Prop where
  /-- Nothing but a stored property could. -/
  | stored (own : (h.computed? o key).1 = none)
  | element (inside : h.isElement o key = true)
  /-- The entry hides no stored property. -/
  | entry (inside : h.isEntry o key = true) (own : (h.object o).properties.get? key = none)

/-- Two keys name different properties of an object. -/
def apart (h : Heap) (o : ObjectId) (key other : Text) : Bool :=
  match h.payload o with
  | .hostMap .. => key.toString != other.toString
  | _ => key != other

/-- What deleting a key can do, with its answer. -/
inductive Deletes (h : Heap) (o : ObjectId) (key : Text) : Bool × Heap → Prop where
  /-- An element gives way to `undefined`. -/
  | element {elements i} (array : h.payload o = .array elements)
      (index : key.arrayIndex? = some i) (inside : i < elements.size) :
      Deletes h o key (true, h.updatePayload o (·.mapElements (·.setIfInBounds i .undefined)))
  /-- An entry is taken out of the host's map. -/
  | entry {m prototypes} (map : h.payload o = .hostMap m prototypes)
      (inside : (h.hostMap m).contains key.toString = true) :
      Deletes h o key (true, h.updateHostMap m (·.erase key.toString))
  /-- There is nothing to delete. -/
  | absent (bare : h.isElement o key = false ∧ h.isEntry o key = false)
      (own : (h.object o).properties.get? key = none) : Deletes h o key (true, h)
  /-- A stored property is removed. -/
  | erased {slot} (bare : h.isElement o key = false ∧ h.isEntry o key = false)
      (own : (h.object o).properties.get? key = some slot)
      (allowed : slot.attributes.configurable = true) :
      Deletes h o key (true, h.updateProperties o (·.erase key))
  /-- A stored property must not be removed. -/
  | refused {slot} (bare : h.isElement o key = false ∧ h.isEntry o key = false)
      (own : (h.object o).properties.get? key = some slot)
      (fixed : slot.attributes.configurable = false) : Deletes h o key (false, h)

variable {h h' : Heap} {o : ObjectId} {key k : Text} {r : Bool × Heap}

theorem deletes_stored (h : Heap) (o : ObjectId) (key : Text)
    (bare : h.isElement o key = false ∧ h.isEntry o key = false) :
    h.Deletes o key (match (h.object o).properties.get? key with
      | none => (true, h)
      | some slot =>
        if slot.attributes.configurable then (true, h.updateProperties o (·.erase key))
        else (false, h)) := by
  split
  · rename_i own
    exact .absent bare own
  · rename_i slot own
    split
    · rename_i allowed
      exact .erased bare own allowed
    · rename_i fixed
      exact .refused bare own (by simpa using fixed)

theorem deleteKey_deletes (h : Heap) (o : ObjectId) (key : Text) :
    h.Deletes o key (h.deleteKey o key) := by
  have stored := h.deletes_stored o key
  rw [isElement, isEntry] at stored
  rw [deleteKey]
  cases hp : h.payload o with
  | array elements =>
      rw [hp] at stored
      cases index : key.arrayIndex? with
      | none => exact stored (by simp [index])
      | some i =>
          dsimp only
          split
          · rename_i inside
            exact .element hp index inside
          · rename_i outside
            exact stored (by simpa [index] using outside)
  | hostMap m prototypes =>
      rw [hp] at stored
      dsimp only
      split
      · rename_i inside
        exact .entry hp inside
      · rename_i outside
        exact stored ⟨rfl, Bool.eq_false_iff.mpr outside⟩
  | _ =>
      rw [hp] at stored
      exact stored ⟨rfl, rfl⟩

/-! ### The deleted key -/

theorem Deletable.computed?_eq_none (deletable : h.Deletable o key)
    (bare : h.isElement o key = false ∧ h.isEntry o key = false) : (h.computed? o key).1 = none := by
  cases deletable with
  | stored own => exact own
  | element inside => simp [bare.1] at inside
  | entry inside => simp [bare.2] at inside

/-- A key of which deletion sees everything is gone, or is an element that is `undefined`. -/
theorem Deletes.slot_of_true (deletes : h.Deletes o key (true, h')) (deletable : h.Deletable o key) :
    (h'.ownSlot? o key).1 =
      if h.isElement o key then some (.data .undefined .default) else none := by
  rw [ownSlot?_fst]
  cases deletes with
  | element array index inside =>
      rename_i elements i
      have element : h.isElement o key = true := by simp [isElement, array, index, inside]
      have computed : ((h.updatePayload o
          (·.mapElements (·.setIfInBounds i .undefined))).computed? o key).1 = some .undefined := by
        rw [computed?, payload_mapElements array (·.setIfInBounds i .undefined)]
        simp [index, inside]
      rw [computed, if_pos element, Text.not_isText_length_of_arrayIndex? index]
      rfl
  | entry map inside =>
      rename_i m prototypes
      have computed : ((h.updateHostMap m (·.erase key.toString)).computed? o key).1 = none := by
        rw [computed?, payload, object_updateHostMap, ← payload, map]
        dsimp only
        rw [hostMap_updateHostMap_self (lt_size_of_contains inside)]
        simp
      have own : (h.object o).properties.get? key = none := by
        cases deletable with
        | stored own =>
            rw [Std.TreeMap.contains_eq_isSome_getElem?] at inside
            obtain ⟨v, found⟩ := Option.isSome_iff_exists.mp inside
            simp [computed?, map, found] at own
        | element inside => simp [isElement, map] at inside
        | entry inside own => exact own
      rw [computed, object_updateHostMap, own]
      simp [isElement, map]
  | absent bare own =>
      rw [deletable.computed?_eq_none bare, own]
      simp [bare.1]
  | erased bare own allowed =>
      rw [computed?_updateProperties, deletable.computed?_eq_none bare,
        properties_updateProperties (lt_size_of_own own)]
      simp [PropertyTable.get?_erase, bare.1]

theorem Deletes.slot_of_false (deletes : h.Deletes o key (false, h')) (deletable : h.Deletable o key) :
    h' = h ∧ ∃ slot, (h.ownSlot? o key).1 = some slot ∧ slot.attributes.configurable = false := by
  cases deletes with
  | refused bare own fixed =>
      rename_i slot
      refine ⟨rfl, slot, ?_, fixed⟩
      rw [ownSlot?_fst, deletable.computed?_eq_none bare, own]

/-! ### The other properties -/

theorem beq_of_apart (apart : h.apart o key k = true) : (key == k) = false := by
  rw [Heap.apart] at apart
  split at apart
  · rw [Bool.eq_false_iff, ne_eq, Text.beq_iff_units]
    intro same
    rw [Text.toString_eq, Text.toString_eq, same] at apart
    simp at apart
  · exact (Bool.not_eq_true' _).mp apart

/-- Every other property keeps its slot. -/
theorem Deletes.slot_of_apart (deletes : h.Deletes o key r) (apart : h.apart o key k = true) :
    (r.2.ownSlot? o k).1 = (h.ownSlot? o k).1 := by
  rw [ownSlot?_fst, ownSlot?_fst]
  cases deletes with
  | element array index inside =>
      rename_i elements i
      have other : k.arrayIndex? ≠ some i := fun same =>
        absurd (Text.beq_iff_units.mpr (Text.arrayIndex?_inj index same))
          (by simp [beq_of_apart apart])
      have computed : ((h.updatePayload o
          (·.mapElements (·.setIfInBounds i .undefined))).computed? o k).1 =
          (h.computed? o k).1 := by
        rw [computed?, computed?, payload_mapElements array (·.setIfInBounds i .undefined), array]
        cases hk : k.arrayIndex? with
        | none => simp
        | some j =>
            have hne : i ≠ j := fun same => other (same ▸ hk)
            simp [hne]
      rw [computed, properties_updatePayload]
  | entry map inside =>
      rename_i m prototypes
      have other : key.toString ≠ k.toString := by simpa [Heap.apart, map] using apart
      have found : ((h.hostMap m).erase key.toString)[k.toString]? = (h.hostMap m)[k.toString]? := by
        rw [Std.TreeMap.getElem?_erase, if_neg (by simpa using other)]
      have computed : ((h.updateHostMap m (·.erase key.toString)).computed? o k).1 =
          (h.computed? o k).1 := by
        rw [computed?, computed?, payload, object_updateHostMap, ← payload, map]
        dsimp only
        rw [hostMap_updateHostMap_self (lt_size_of_contains inside), found]
        cases (h.hostMap m)[k.toString]? with
        | none => rfl
        | some v =>
            have size : (h.updateHostMap m (·.erase key.toString)).objects.size = h.objects.size := rfl
            exact congrArg some (wrap_fst_congr size prototypes v)
      rw [computed, object_updateHostMap]
  | absent => rfl
  | erased bare own =>
      rw [computed?_updateProperties, properties_updateProperties (lt_size_of_own own),
        PropertyTable.get?_erase, beq_of_apart apart]
      simp
  | refused => rfl

theorem keys_erase (m : HostMap) (s : String) : (m.erase s).keys = m.keys.filter (· != s) := by
  refine List.Perm.eq_of_pairwise ?_ Std.TreeMap.ordered_keys (Std.TreeMap.ordered_keys.filter _) ?_
  · intro a b _ _ hab hba
    rw [← Std.OrientedCmp.gt_iff_lt, hab] at hba
    cases hba
  · refine (List.perm_ext_iff_of_nodup ?_ ?_).mpr fun a => ?_
    · exact Std.TreeMap.nodup_keys
    · exact Std.TreeMap.nodup_keys.filter _
    · rw [Std.TreeMap.mem_keys, Std.TreeMap.mem_erase, List.mem_filter, Std.TreeMap.mem_keys,
        ne_eq, Std.compare_eq_iff_eq, bne_iff_ne, and_comm, ne_comm]

/-- The other names stay, in their order. -/
theorem Deletes.names (deletes : h.Deletes o key r) :
    (r.2.ownNames o).filter (h.apart o key) = (h.ownNames o).filter (h.apart o key) := by
  rw [ownNames, ownNames, List.filter_append, List.filter_append]
  cases deletes with
  | element array index inside =>
      rename_i elements i
      rw [properties_updatePayload, computedNames, computedNames,
        payload_mapElements array (·.setIfInBounds i .undefined), array]
      simp
  | entry map inside =>
      rename_i m prototypes
      have others (s : String) : h.apart o key (.ofString s) = (key.toString != s) := by
        rw [apart, map]
        dsimp only
        rw [Text.toString_ofString]
      rw [object_updateHostMap, computedNames, computedNames, payload, object_updateHostMap, ← payload,
        map]
      dsimp only
      rw [hostMap_updateHostMap_self (lt_size_of_contains inside), keys_erase, List.filter_map,
        List.filter_map, List.filter_filter]
      congr 2
      refine List.filter_congr fun s _ => ?_
      rw [Function.comp_apply, others, bne_comm, Bool.and_self]
  | absent => rfl
  | erased bare own =>
      rw [properties_updateProperties (lt_size_of_own own),
        PropertyTable.names_erase _ fun k => beq_of_apart, computedNames, payload_updateProperties,
        computedNames]
      rfl
  | refused => rfl

/-- No object comes to wait for an initializer. -/
theorem Deletes.payload_ne_lazy (deletes : h.Deletes o key r) {number : Nat}
    (ready : h.payload o ≠ .lazy (some number)) : r.2.payload o ≠ .lazy (some number) := by
  cases deletes with
  | element array =>
      rename_i elements i _ _
      rw [payload_mapElements array (·.setIfInBounds i .undefined)]
      simp
  | erased => rwa [payload_updateProperties]
  | entry | absent | refused => exact ready

end Heap

variable {σ : Type}

section World

variable {env : Embedding σ} {w w₁ : World σ} {o : ObjectId}

theorem deleteProperty_of_made (made : materialize env o w = some ((), w₁)) (key : Text) :
    deleteProperty env o key w =
      some ((w₁.heap.deleteKey o key).1, { w₁ with heap := (w₁.heap.deleteKey o key).2 }) := by
  rw [deleteProperty, Exec.bind_of_eq made]
  rfl

end World

/-- Deleting a property tells the truth, where it sees all that makes the key an own property. If it
answers true, the key is no own property afterwards, or it is an element of an array and is
`undefined`; if it answers false, nothing has changed, and the key is an own property that must not
be deleted. Whatever the key and the answer, every other own property keeps its slot and its place. -/
theorem deletion_truthful (env : Embedding σ) {w w₁ : World σ} {o : ObjectId}
    (made : materialize env o w = some ((), w₁))
    (ready : ∀ number, w₁.heap.payload o ≠ .lazy (some number)) (key : Text) :
    ∃ b w', deleteProperty env o key w = some (b, w') ∧
      (w₁.heap.Deletable o key →
        (b = true → (ownProperty env o key w').map Prod.fst =
          some (if w₁.heap.isElement o key then some (.data .undefined .default) else none)) ∧
        (b = false → w' = w₁ ∧ ∃ slot,
          (ownProperty env o key w').map Prod.fst = some (some slot) ∧
            slot.attributes.configurable = false)) ∧
      (∀ k, w₁.heap.apart o key k = true →
        (ownProperty env o k w').map Prod.fst = (ownProperty env o k w₁).map Prod.fst) ∧
      ∃ names names', ownPropertyNames env o w₁ = some (names, w₁) ∧
        ownPropertyNames env o w' = some (names', w') ∧
        names'.filter (w₁.heap.apart o key) = names.filter (w₁.heap.apart o key) := by
  have deletes := w₁.heap.deleteKey_deletes o key
  have run := deleteProperty_of_made made key
  cases hr : w₁.heap.deleteKey o key with
  | mk b h' =>
      rw [hr] at deletes run
      have ready' : ∀ number, h'.payload o ≠ .lazy (some number) :=
        fun number => deletes.payload_ne_lazy (ready number)
      have slotAfter (k : Text) : (ownProperty env o k { w₁ with heap := h' }).map Prod.fst =
          some (h'.ownSlot? o k).1 := ownProperty_of_ready ready' k
      refine ⟨b, _, run, fun deletable => ⟨?_, ?_⟩, fun k apart => ?_, _, _,
        ownPropertyNames_of_ready ready, ownPropertyNames_of_ready ready', deletes.names⟩
      · rintro rfl
        rw [slotAfter, deletes.slot_of_true deletable]
      · rintro rfl
        obtain ⟨rfl, slot, own, fixed⟩ := deletes.slot_of_false deletable
        exact ⟨rfl, slot, by rw [slotAfter, own], fixed⟩
      · rw [slotAfter, ownProperty_of_ready ready, deletes.slot_of_apart apart]

/-- A world with an array of two elements and a stored property that must not be deleted. -/
def labelledWorld : World Unit :=
  worldOf #[{ Object.new (.array #[.smi 1, .smi 2]) none with
    properties := PropertyTable.empty.insert (.ofString "label") (.data .null .frozen) }]

/-- Deleting the first element leaves `undefined` there and the second element alone; deleting the
stored property is refused. -/
theorem deletion_truthful_on_pair :
    let w := labelledWorld
    materialize plainMaker ⟨0⟩ w = some ((), w) ∧
      (∀ number, w.heap.payload ⟨0⟩ ≠ .lazy (some number)) ∧
      w.heap.Deletable ⟨0⟩ (.ofString "0") ∧ w.heap.Deletable ⟨0⟩ (.ofString "label") ∧
      (∃ w', deleteProperty plainMaker ⟨0⟩ (.ofString "0") w = some (true, w') ∧
        (ownProperty plainMaker ⟨0⟩ (.ofString "0") w').map Prod.fst =
          some (some (.data .undefined .default)) ∧
        (ownProperty plainMaker ⟨0⟩ (.ofString "1") w').map Prod.fst =
          some (some (.data (.smi 2) .default))) ∧
      deleteProperty plainMaker ⟨0⟩ (.ofString "label") w = some (false, w) ∧
        ∃ slot, (ownProperty plainMaker ⟨0⟩ (.ofString "label") w).map Prod.fst = some (some slot) ∧
          slot.attributes.configurable = false := by
  intro w
  have made : materialize plainMaker ⟨0⟩ w = some ((), w) := rfl
  have ready : ∀ number, w.heap.payload ⟨0⟩ ≠ .lazy (some number) := by
    rintro number ⟨⟩
  have element : w.heap.Deletable ⟨0⟩ (.ofString "0") := .element rfl
  have label : w.heap.Deletable ⟨0⟩ (.ofString "label") := .stored rfl
  have apart : w.heap.apart ⟨0⟩ (.ofString "0") (.ofString "1") = true := by decide
  refine ⟨made, ready, element, label, ?_, ?_⟩
  · obtain ⟨b, w', run, truth, others, -⟩ := deletion_truthful plainMaker made ready (.ofString "0")
    obtain rfl : b = true := congrArg Prod.fst (Option.some.inj (run.symm.trans rfl))
    exact ⟨w', run, (truth element).1 rfl, (others (.ofString "1") apart).trans rfl⟩
  · have stored : (w.heap.object ⟨0⟩).properties.get? (.ofString "label") =
        some (.data .null .frozen) := PropertyTable.get?_insert_self _ _ _
    have refused : deleteProperty plainMaker ⟨0⟩ (.ofString "label") w = some (false, w) := by
      rw [deleteProperty_of_made made, Heap.deleteKey, stored]
      rfl
    obtain ⟨b, w', run, truth, -⟩ := deletion_truthful plainMaker made ready (.ofString "label")
    cases refused.symm.trans run
    exact ⟨refused, ((truth label).2 rfl).2⟩

/-- A world with an array of two elements. -/
def pairWorld : World Unit := worldOf #[.new (.array #[.smi 1, .smi 2]) none]

/-- An element of an array is an own property after its deletion, too. -/
theorem element_stays_when_deleted :
    (deleteProperty plainMaker ⟨0⟩ (.ofString "0") pairWorld).map Prod.fst = some true ∧
      ((deleteProperty plainMaker ⟨0⟩ (.ofString "0") pairWorld).bind fun p =>
        (ownProperty plainMaker ⟨0⟩ (.ofString "0") p.2).map Prod.fst) =
          some (some (.data .undefined .default)) := by
  refine ⟨rfl, rfl⟩

end ScriptCore
