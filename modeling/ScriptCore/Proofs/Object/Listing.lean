import ScriptCore.Proofs.Object.Course
import ScriptCore.Proofs.Object.Definition
import ScriptCore.Proofs.Object.MapView
import ScriptCore.Proofs.Text.Index

/-!
# ScriptCore.Proofs.Object.Listing

The **names that an object lists** are those under which it has an own property.

Design points:

* Which properties are computed is said twice, once for a key and once for all names. That the two
  agree is a matter of the payload alone (`isSome_computed?_iff`), and comes down to the indices: a key
  names one exactly if it is written as one.
* Stored properties agree in every table that is made by its operations (`PropertyTable.Sound`). That all
  tables of a heap are is an invariant of every course (`tabulates`).
* The order of the stored names is that of their insertion: a new name goes to the end, and a name that
  is removed leaves the others where they are (`Turnover`).
-/

namespace ScriptCore

/-! ### Computed properties -/

namespace Text

variable {key : Text} {n : Nat}

theorem isText_iff {s : String} : key.isText s = true ↔ (ofString s).units = key.units := by
  rw [isText_eq, beq_iff_eq, units_ofString, eq_comm]

/-- The names of a sequence are the keys of its elements and of its length. -/
theorem mem_indices_iff (small : n ≤ indexLimit) :
    (∃ name ∈ (List.range n).map ofIndex ++ [ofString "length"], name.units = key.units) ↔
      match key.arrayIndex? with
      | some i => i < n
      | none => key.isText "length" = true := by
  constructor
  · rintro ⟨name, listed, units⟩
    have alike := alike_of_units units
    rcases List.mem_append.mp listed with element | length
    · obtain ⟨i, inside, rfl⟩ := List.mem_map.mp element
      rw [List.mem_range] at inside
      rw [← alike.arrayIndex, arrayIndex?_ofIndex (Nat.lt_of_lt_of_le inside small)]
      exact inside
    · cases List.mem_singleton.mp length
      rw [← alike.arrayIndex, show (ofString "length").arrayIndex? = none by decide]
      exact isText_iff.mpr units
  · intro found
    cases index : key.arrayIndex? with
    | some i =>
        rw [index] at found
        refine ⟨ofIndex i, List.mem_append_left _ ?_, (units_of_arrayIndex? index).symm⟩
        exact List.mem_map_of_mem (List.mem_range.mpr found)
    | none =>
        rw [index] at found
        exact ⟨_, List.mem_append_right _ (List.mem_singleton_self _), isText_iff.mp found⟩

end Text

namespace Heap

variable {h : Heap} {o : ObjectId} {key : Text} {n : Nat}

/-- The length of an array, of a slice of the host, or of a string in a box. -/
def sequenceLength? (h : Heap) (o : ObjectId) : Option Nat :=
  match h.payload o with
  | .array es => some es.size
  | .hostSlice s _ => some (h.hostSlice s).size
  | .boxed (.string t) => some t.length
  | _ => none

/-- The names of the stored properties. -/
def storedNames (h : Heap) (o : ObjectId) : List Text := (h.object o).properties.names.toList

theorem ownNames_eq (h : Heap) (o : ObjectId) : h.ownNames o = h.computedNames o ++ h.storedNames o :=
  rfl

theorem computedNames_of_sequence (sequence : h.sequenceLength? o = some n) :
    h.computedNames o = (List.range n).map .ofIndex ++ [.ofString "length"] := by
  rw [sequenceLength?] at sequence
  rw [computedNames]
  cases payload : h.payload o with
  | array es | hostSlice s prototypes =>
      rw [payload] at sequence
      cases sequence
      rfl
  | boxed v =>
      rw [payload] at sequence
      cases v with
      | string t =>
          cases sequence
          rfl
      | _ => cases sequence
  | _ =>
      rw [payload] at sequence
      cases sequence

/-- What is computed under a key of a sequence: an element, or the length. -/
theorem isSome_computed?_of_sequence (sequence : h.sequenceLength? o = some n) (key : Text) :
    (h.computed? o key).1.isSome = true ↔
      match key.arrayIndex? with
      | some i => i < n
      | none => key.isText "length" = true := by
  rw [sequenceLength?] at sequence
  rw [computed?]
  cases payload : h.payload o with
  | array es =>
      rw [payload] at sequence
      cases sequence
      cases key.arrayIndex? <;> simp
  | hostSlice s prototypes =>
      rw [payload] at sequence
      cases sequence
      cases key.arrayIndex? with
      | none => simp
      | some i =>
          dsimp only
          cases element : (h.hostSlice s)[i]? with
          | none => simpa using element
          | some u => simpa using (Array.getElem?_eq_some_iff.mp element).1
  | boxed v =>
      rw [payload] at sequence
      cases v with
      | string t =>
          cases sequence
          cases key.arrayIndex? <;> simp
      | _ => cases sequence
  | _ =>
      rw [payload] at sequence
      cases sequence

/-- The entries of a map of the host are under the keys that its names are, as long as those can be
written as characters. -/
theorem isSome_entry_iff (h : Heap) (m : HostMapId) (spelled : Utf16.isWellFormed key.units = true) :
    ((h.hostMap m)[key.toString]?).isSome = true ↔
      ∃ name ∈ (h.hostMap m).keys.map Text.ofString, name.units = key.units := by
  have kept : Utf16.encode key.toString.toList = key.units := by
    rw [Text.toString_eq, String.toList_ofList]
    exact beq_iff_eq.mp spelled
  refine (mem_keys_iff h m key.toString).symm.trans ⟨?_, ?_⟩
  · intro listed
    exact ⟨_, List.mem_map_of_mem listed, (Text.units_ofString _).trans kept⟩
  · rintro ⟨name, listed, units⟩
    obtain ⟨s, listed, rfl⟩ := List.mem_map.mp listed
    rw [Text.units_ofString] at units
    rwa [Text.toString_of_units units.symm]

/-- A property is computed under the keys of the computed names, and under no others. -/
theorem isSome_computed?_iff (small : ∀ n, h.sequenceLength? o = some n → n ≤ Text.indexLimit)
    (spelled : ∀ m prototypes, h.payload o = .hostMap m prototypes →
      Utf16.isWellFormed key.units = true) :
    (h.computed? o key).1.isSome = true ↔ ∃ name ∈ h.computedNames o, name.units = key.units := by
  cases sequence : h.sequenceLength? o with
  | some n =>
      rw [isSome_computed?_of_sequence sequence, computedNames_of_sequence sequence]
      exact (Text.mem_indices_iff (small n sequence)).symm
  | none =>
      rw [sequenceLength?] at sequence
      rw [computed?, computedNames]
      cases payload : h.payload o with
      | array | hostSlice =>
          rw [payload] at sequence
          cases sequence
      | boxed v =>
          rw [payload] at sequence
          cases v with
          | string t => cases sequence
          | _ => simp
      | hostData v =>
          cases v with
          | error message =>
              have named : key.isText "message" = true ↔ (Text.ofString "message").units = key.units :=
                Text.isText_iff
              cases text : key.isText "message" <;> simp_all
          | _ => simp
      | hostMap m prototypes =>
          have entry := h.isSome_entry_iff m (spelled m prototypes payload)
          dsimp only
          rw [← entry]
          cases (h.hostMap m)[key.toString]? <;> rfl
      | _ => simp

/-- An own property is found under the keys of the own names, and under no others. -/
theorem isSome_ownSlot?_iff (sound : (h.object o).properties.Sound)
    (small : ∀ n, h.sequenceLength? o = some n → n ≤ Text.indexLimit)
    (spelled : ∀ m prototypes, h.payload o = .hostMap m prototypes →
      Utf16.isWellFormed key.units = true) :
    (h.ownSlot? o key).1.isSome = true ↔ ∃ name ∈ h.ownNames o, name.units = key.units := by
  have computed := isSome_computed?_iff small spelled
  have stored := sound.listed key
  have either : (∃ name ∈ h.ownNames o, name.units = key.units) ↔
      (h.computed? o key).1.isSome = true ∨ ((h.object o).properties.get? key).isSome = true := by
    rw [computed, stored, ownNames_eq, storedNames]
    simp only [List.mem_append, or_and_right, exists_or]
  rw [either, ownSlot?_fst]
  cases (h.computed? o key).1 <;> simp

end Heap

/-! ### The order of stored names -/

/-- What may become of a list of names: a name that is not in it goes to the end, and one that is removed
leaves the others in order. -/
inductive Turnover (old : List Text) : List Text → Prop where
  | same : Turnover old old
  | added {names : List Text} {key : Text} (before : Turnover old names)
      (absent : ∀ name ∈ names, name.units ≠ key.units) : Turnover old (names ++ [key])
  | removed {names : List Text} {key : Text} (before : Turnover old names) :
      Turnover old (names.filter (· != key))

theorem Turnover.trans {old names new : List Text} (first : Turnover old names)
    (second : Turnover names new) : Turnover old new := by
  induction second with
  | same => exact first
  | added _ absent ih => exact .added ih absent
  | removed _ ih => exact .removed ih

namespace PropertyTable

variable {t : PropertyTable}

theorem turnover_insert (sound : t.Sound) (key : Text) (slot : Slot) :
    Turnover t.names.toList (t.insert key slot).names.toList := by
  cases present : t.get? key with
  | some old =>
      rw [insert, contains_iff, present]
      exact .same
  | none =>
      rw [names_insert_of_none slot present, Array.toList_push]
      refine .added .same fun name listed units => ?_
      have found := (sound.listed key).mpr ⟨name, listed, units⟩
      rw [present] at found
      cases found

theorem turnover_erase (t : PropertyTable) (key : Text) :
    Turnover t.names.toList (t.erase key).names.toList := by
  rw [erase]
  split
  · rw [Array.toList_filter]
    exact .removed .same
  · exact .same

end PropertyTable

/-- Every table agrees on what is stored. -/
def Heap.Tabulated (h : Heap) : Prop := ∀ o, (h.object o).properties.Sound

variable {σ : Type}

/-- Tables stay in agreement, and objects that have been made only turn over their stored names. -/
def tabulates : Guarantee σ where
  holds w w' := w.heap.Tabulated → w'.heap.Tabulated ∧
    w.heap.objects.size ≤ w'.heap.objects.size ∧
    ∀ o, o.index < w.heap.objects.size → (w.heap.object o).isInitialized = true →
      (w'.heap.object o).isInitialized = true ∧ Turnover (w.heap.storedNames o) (w'.heap.storedNames o)
  refl _ tabulated := ⟨tabulated, Nat.le_refl _, fun _ _ initialized => ⟨initialized, .same⟩⟩
  trans first second tabulated := by
    obtain ⟨tabulated₁, size₁, names₁⟩ := first tabulated
    obtain ⟨tabulated₂, size₂, names₂⟩ := second tabulated₁
    refine ⟨tabulated₂, Nat.le_trans size₁ size₂, fun o live initialized => ?_⟩
    obtain ⟨initialized₁, turnover₁⟩ := names₁ o live initialized
    obtain ⟨initialized₂, turnover₂⟩ := names₂ o (Nat.lt_of_lt_of_le live size₁) initialized₁
    exact ⟨initialized₂, turnover₁.trans turnover₂⟩

/-- The code of the embedding keeps tables in agreement, and its initializers make objects whose tables
are. -/
structure Embedding.Tabulates (env : Embedding σ) : Prop where
  natives : ∀ number this args, Exec.Along tabulates (env.callNative number this args).run
  hosts : ∀ number args, Exec.Along tabulates (env.callHost number args).run
  makes : ∀ number, Exec.Along tabulates (env.makeLazy number)
  made : ∀ number w made w', env.makeLazy number w = some (made, w') → made.properties.Sound

variable {env : Embedding σ} {w w' w₀ : World σ} {o : ObjectId} {key : Text}

/-! ### Changes that keep tables in agreement -/

namespace Heap.Tabulated

variable {h : Heap} (tabulated : h.Tabulated)

include tabulated

theorem updateObject {f : Object → Object} (sound : (f (h.object o)).properties.Sound) :
    (h.updateObject o f).Tabulated :=
  forall_updateObject (P := fun _ obj => obj.properties.Sound) tabulated sound

theorem addObject {obj : Object} (sound : obj.properties.Sound) : (h.addObject obj).2.Tabulated :=
  forall_addObject (P := fun _ obj => obj.properties.Sound) tabulated sound

end Heap.Tabulated

theorem tabulates_of_object (size : w.heap.objects.size ≤ w'.heap.objects.size)
    (same : w'.heap.object = w.heap.object) : tabulates.holds w w' := by
  intro tabulated
  rw [Heap.Tabulated, same]
  refine ⟨tabulated, size, fun o _ initialized => ?_⟩
  rw [Heap.storedNames, Heap.storedNames, same]
  exact ⟨initialized, .same⟩

theorem tabulates_updateObject {f : Object → Object}
    (sound : (w.heap.object o).properties.Sound → (f (w.heap.object o)).properties.Sound)
    (initialized : (w.heap.object o).isInitialized = true →
      (f (w.heap.object o)).isInitialized = true)
    (turnover : (w.heap.object o).properties.Sound → (w.heap.object o).isInitialized = true →
      Turnover (w.heap.storedNames o) (f (w.heap.object o)).properties.names.toList) :
    tabulates.holds w { w with heap := w.heap.updateObject o f } := by
  intro tabulated
  refine ⟨tabulated.updateObject (sound (tabulated o)),
    Nat.le_of_eq (Heap.size_updateObject _ _ _).symm, fun p _ => ?_⟩
  refine Heap.forall_updateObject (P := fun p obj => (w.heap.object p).isInitialized = true →
    obj.isInitialized = true ∧ Turnover (w.heap.storedNames p) obj.properties.names.toList) ?_ ?_ p
  · exact fun p before => ⟨before, .same⟩
  · exact fun before => ⟨initialized before, turnover (tabulated o) before⟩

/-- A change of stored properties. -/
theorem tabulates_updateProperties {f : PropertyTable → PropertyTable}
    (sound : ∀ t, t.Sound → (f t).Sound)
    (turnover : ∀ t, t.Sound → Turnover t.names.toList (f t).names.toList) (w : World σ) (o : ObjectId) :
    tabulates.holds w { w with heap := w.heap.updateProperties o f } :=
  tabulates_updateObject (sound _) id fun before _ => turnover _ before

/-- A change that leaves stored properties alone. -/
theorem tabulates_updateObject_of_same {f : Object → Object}
    (same : (f (w.heap.object o)).properties = (w.heap.object o).properties)
    (initialized : (w.heap.object o).isInitialized = true →
      (f (w.heap.object o)).isInitialized = true) :
    tabulates.holds w { w with heap := w.heap.updateObject o f } := by
  refine tabulates_updateObject (fun sound => same ▸ sound) initialized fun _ _ => ?_
  rw [same]
  exact .same

theorem tabulates_addObject {obj : Object} (sound : obj.properties.Sound) (w : World σ) :
    tabulates.holds w { w with heap := (w.heap.addObject obj).2 } := by
  intro tabulated
  have size : w.heap.objects.size + 1 = (w.heap.addObject obj).2.objects.size :=
    (Heap.size_addObject w.heap obj).symm
  refine ⟨tabulated.addObject sound,
    Nat.le_trans (Nat.le_succ _) (Nat.le_of_eq size), fun p live before => ?_⟩
  rw [Heap.storedNames, Heap.storedNames, Heap.object_addObject_of_lt obj live]
  exact ⟨before, .same⟩

theorem isInitialized_of_shape {obj : Object} {p : Payload} (shape : p.shape = obj.payload.shape)
    (initialized : obj.isInitialized = true) : { obj with payload := p }.isInitialized = true := by
  cases p with
  | lazy initializer =>
      rw [Object.isInitialized, Payload.eq_of_shape_lazy shape.symm] at initialized
      cases initialized
  | _ => rfl

namespace Embedding.Tabulates

variable (tabulating : env.Tabulates)

include tabulating

/-- What an initializer makes takes the place of an object that had not been made. -/
theorem along_materialize (o : ObjectId) : Exec.Along tabulates (materialize env o) := by
  intro w r w' run
  rcases materialize_inv run with ⟨rfl, -⟩ | ⟨number, made, w₁, waiting, hmade, rfl⟩
  · exact tabulates.refl _
  · intro tabulated
    have unmade : (w.heap.object o).isInitialized = false := by
      rw [Object.isInitialized, show (w.heap.object o).payload = _ from waiting]
    -- nothing is asked of the names of an object that has not been made, and others are left alone
    have begun : tabulates.holds w (w.making o) :=
      tabulates_updateObject_of_same rfl fun before => absurd before (by rw [unmade]; decide)
    obtain ⟨tabulated₁, size, names⟩ := tabulates.trans begun (tabulating.makes number hmade) tabulated
    have sound : made.properties.Sound := tabulating.made number _ made w₁ hmade
    refine ⟨tabulated₁.updateObject sound,
      Nat.le_trans size (Nat.le_of_eq (Heap.size_updateObject _ _ _).symm), fun p live before => ?_⟩
    have hne : p ≠ o := by
      rintro rfl
      rw [unmade] at before
      cases before
    rw [Heap.storedNames, Heap.storedNames, Heap.object_updateObject_of_ne hne]
    exact names p live before

theorem guarantees : env.Guarantees tabulates where
  makes := tabulating.along_materialize
  natives := tabulating.natives
  hosts := tabulating.hosts
  wraps {_ w prototypes} _ hw v := by
    refine tabulates.trans hw ?_
    rcases w.heap.wrap_new prototypes v with same | ⟨payload, prototype, added, -⟩
    · rw [same]
      exact tabulates.refl w
    · rw [added]
      have bare : (Object.new payload prototype).properties.Sound := PropertyTable.sound_empty
      exact tabulates_addObject bare w

theorem operationGuarantees : env.OperationGuarantees (·.properties.Sound) tabulates where
  toGuarantees := tabulating.guarantees
  creates w obj sound _ := tabulates_addObject sound w
  wrappers _ _ _ := PropertyTable.sound_empty
  puts w o key slot :=
    tabulates_updateProperties (fun _ sound => sound.insert key slot)
      (fun _ sound => PropertyTable.turnover_insert sound key slot) w o
  values w o key v :=
    tabulates_updateProperties (fun _ sound => sound.update key _)
      (fun t _ => PropertyTable.names_update t key _ ▸ .same) w o
  erases w o key :=
    tabulates_updateProperties (fun _ sound => sound.erase key)
      (fun t _ => PropertyTable.turnover_erase t key) w o
  contents _ _ _ shape := tabulates_updateObject_of_same rfl (isInitialized_of_shape (shape _))
  closes _ _ := tabulates_updateObject_of_same rfl id
  links _ run :=
    along_setPrototype tabulating.guarantees
      (fun _ _ _ => tabulates_updateObject_of_same rfl id) _ _ run
  revokes w o := tabulates_updateObject_of_same rfl fun before => by
    rw [Object.isInitialized] at before ⊢
    cases payload : (w.heap.object o).payload <;> simp_all
  elsewhere objects :=
    tabulates_of_object (Nat.le_of_eq (congrArg _ objects).symm) (Heap.object_of_objects objects)

end Embedding.Tabulates

theorem tabulated_empty : Heap.empty.Tabulated := by
  intro o
  rw [Heap.object_of_le (Nat.zero_le _)]
  exact PropertyTable.sound_empty

/-! ### Names and properties -/

theorem ready_of_isInitialized (initialized : (w.heap.object o).isInitialized = true) (number : Nat) :
    w.heap.payload o ≠ .lazy (some number) := by
  intro lazy
  rw [Object.isInitialized, show (w.heap.object o).payload = _ from lazy] at initialized
  cases initialized

/-- A definition under a key without a stored property adds its name at the end. Any other leaves the
names alone. -/
theorem storedNames_putSlot {h : Heap} (live : o.index < h.objects.size) (key : Text) (slot : Slot) :
    (h.putSlot o key slot).storedNames o =
      if ((h.object o).properties.get? key).isSome then h.storedNames o else h.storedNames o ++ [key] := by
  rw [Heap.storedNames, Heap.putSlot, Heap.properties_updateProperties live, PropertyTable.insert,
    PropertyTable.contains_iff]
  split
  · rfl
  · rw [Array.toList_push]
    rfl

/-- After any course from an empty heap, the own properties of an object that has been made are found
under the names that it lists, compared as strings, and under no other key. Of a sequence, these are its
indices in order, the length, and then the stored names. Stored names are in the order of their
insertion: a definition adds its name at the end, unless there is a property with it, and every later
course only adds names at the end and takes some out. -/
theorem names_and_properties_agree (tabulating : env.Tabulates) (start : w₀.heap = .empty)
    (course : Relation.ReflTransGen (Performs env (·.properties.Sound)) w₀ w)
    (live : o.index < w.heap.objects.size)
    (initialized : (w.heap.object o).isInitialized = true)
    (small : ∀ n, w.heap.sequenceLength? o = some n → n < Text.indexLimit) :
    ∃ names, ownPropertyNames env o w = some (names, w) ∧
      (∀ key : Text, (∀ m prototypes, w.heap.payload o = .hostMap m prototypes →
          Utf16.isWellFormed key.units = true) →
        ∃ slot w', ownProperty env o key w = some (slot, w') ∧
          (slot.isSome = true ↔ ∃ name ∈ names, name.units = key.units)) ∧
      (∀ n, w.heap.sequenceLength? o = some n →
        names = (List.range n).map .ofIndex ++ .ofString "length" :: w.heap.storedNames o) ∧
      (∀ key slot, ∃ w', defineProperty env o key slot w = some ((), w') ∧
        w'.heap.storedNames o =
          if ∃ name ∈ w.heap.storedNames o, name.units = key.units then w.heap.storedNames o
          else w.heap.storedNames o ++ [key]) ∧
      ∀ w', Relation.ReflTransGen (Performs env (·.properties.Sound)) w w' →
        Turnover (w.heap.storedNames o) (w'.heap.storedNames o) := by
  have operations := tabulating.operationGuarantees
  have tabulated : w.heap.Tabulated :=
    (guarantee_of_performed operations course (start ▸ tabulated_empty)).1
  have ready := ready_of_isInitialized initialized
  refine ⟨_, ownPropertyNames_of_ready ready, fun key spelled => ?_, fun n sequence => ?_,
    fun key slot => ?_, fun w' later => ?_⟩
  · -- the world may get a wrapper of an entry, which is no property of the object
    have agree := Heap.isSome_ownSlot?_iff (tabulated o)
      (fun n sequence => Nat.le_of_lt (small n sequence)) spelled
    have found : ownProperty env o key w = some ((w.heap.ownSlot? o key).1,
        { w with heap := (w.heap.ownSlot? o key).2 }) := by
      rw [ownProperty, Exec.bind_of_eq (materialize_of_ready ready), Exec.onHeap_apply]
    exact ⟨_, _, found, agree⟩
  · rw [Heap.ownNames_eq, Heap.computedNames_of_sequence sequence, List.append_assoc,
      List.singleton_append]
  · refine ⟨_, defineProperty_of_made (materialize_of_ready ready) slot, ?_⟩
    rw [storedNames_putSlot live]
    exact if_congr ((tabulated o).listed key) rfl rfl
  · exact ((guarantee_of_performed operations later tabulated).2.2 o live initialized).2

theorem fourLinks_tabulates : fourLinks.Tabulates where
  natives number this args w r w' run := by cases run
  hosts number args w r w' run := by cases run
  makes number := .pure _
  made number w made w' run := by
    cases run
    exact PropertyTable.sound_empty

/-- An array lists its element and its length, and then a property that it gets. -/
theorem names_and_properties_agree_on_array :
    let start : World Unit := worldOf #[]
    let w := { start with heap := (start.heap.addObject (.new (.array #[.smi 1]) none)).2 }
    fourLinks.Tabulates ∧
      ownPropertyNames fourLinks ⟨0⟩ w = some ([.ofIndex 0, .ofString "length"], w) ∧
      (∃ slot w', ownProperty fourLinks ⟨0⟩ (.ofString "length") w = some (some slot, w')) ∧
      ∃ w', defineProperty fourLinks ⟨0⟩ (.ofString "x") (.data (.smi 2) .default) w =
          some ((), w') ∧
        w'.heap.storedNames ⟨0⟩ = [.ofString "x"] := by
  intro start w
  have course : Relation.ReflTransGen (Performs fourLinks (·.properties.Sound)) start w :=
    .single (.create _ PropertyTable.sound_empty fun p mentions => by
      rcases mentions with (link | link) | held
      · cases link
      · cases link
      · exact absurd held (HostPrototypes.not_has_none p))
  obtain ⟨names, listed, agree, sequence, defines, -⟩ :=
    names_and_properties_agree fourLinks_tabulates rfl course (o := ⟨0⟩) (by decide) rfl (by
      rintro n ⟨⟩
      decide)
  obtain rfl := sequence 1 rfl
  obtain ⟨slot, w₁, found, same⟩ := agree (.ofString "length") (by rintro _ _ ⟨⟩)
  obtain ⟨slot, rfl⟩ := Option.isSome_iff_exists.mp (same.mpr ⟨.ofString "length", by simp, rfl⟩)
  obtain ⟨w', defined, order⟩ := defines (.ofString "x") (.data (.smi 2) .default)
  refine ⟨fourLinks_tabulates, listed, ⟨slot, w₁, found⟩, w', defined, order.trans ?_⟩
  exact if_neg (by rintro ⟨name, none, -⟩; cases none)

end ScriptCore
