import Mathlib.Logic.Function.Basic
import ScriptCore.Proofs.Object.Deletion
import ScriptCore.Proofs.Object.Visibility
import ScriptCore.Proofs.Text.Utf8

/-!
# ScriptCore.Proofs.Object.MapView

An object around a map of the host is a **view** of the map.

Design points:

* What a map holds is a function from names to values (`Heap.contents`). Reading and listing leave it,
  assigning and removing change it at one name, and no access touches another map or an object that
  was there before (`World.Leaves`).
* So a view stays one whatever is done through any of them, and what a run of accesses makes of the map
  is computed without the objects (`MapAccess.edit`, `runAll_leaves`).
* The name `length` gets the attributes of the length of a sequence, though it is an entry like any
  other. An object then shows a property that must not be deleted, and deletes it
  (`length_entry_is_fixed`).
-/

namespace ScriptCore

/-! ### Texts of strings -/

namespace Text

variable {key : Text} {name : String}

theorem toString_of_units (spelled : key.units = Utf16.encode name.toList) : key.toString = name := by
  rw [toString_eq, spelled, Utf16.decode_encode, String.ofList_toList]

theorem isText_of_units (spelled : key.units = Utf16.encode name.toList) (s : String) :
    key.isText s = decide (name = s) := by
  rw [isText_eq, spelled, Bool.eq_iff_iff, beq_iff_eq, decide_eq_true_eq,
    Utf16.encode_injective.eq_iff, String.toList_inj]

end Text

/-! ### Maps of the host, and objects that show them -/

namespace Heap

/-- What a map of the host holds under each name. -/
def contents (h : Heap) (m : HostMapId) (name : String) : Option HostValue := (h.hostMap m)[name]?

/-- The object shows a map of the host, and no properties besides. -/
structure Views (h : Heap) (o : ObjectId) (m : HostMapId) (prototypes : HostPrototypes) : Prop where
  /-- The object is around the map. -/
  payload : h.payload o = .hostMap m prototypes
  /-- The map is one of the heap. -/
  live : m.index < h.hostMaps.size
  /-- No property is stored. -/
  bare : ∀ key, (h.object o).properties.get? key = none
  /-- No name is stored. -/
  unnamed : (h.object o).properties.names = #[]

variable {h : Heap} {o : ObjectId} {m n : HostMapId} {prototypes : HostPrototypes}

theorem Views.ready (views : h.Views o m prototypes) (number : Nat) :
    h.payload o ≠ .lazy (some number) := by
  rw [views.payload]
  rintro ⟨⟩

theorem Views.lt_size (views : h.Views o m prototypes) : o.index < h.objects.size :=
  lt_size_of_payload (by rw [views.payload]; rintro ⟨⟩)

theorem contents_updateHostMap_of_ne (f : HostMap → HostMap) (hne : n ≠ m) :
    (h.updateHostMap m f).contents n = h.contents n := by
  have index : m.index ≠ n.index := fun same => hne (by cases m; cases n; cases same; rfl)
  funext name
  simp [contents, hostMap, updateHostMap, Array.getElem?_modify, index]

/-- An entry that is put into a map is the only one that changes. -/
theorem contents_insert (live : m.index < h.hostMaps.size) (name : String) (u : HostValue) :
    (h.updateHostMap m (·.insert name u)).contents m =
      Function.update (h.contents m) name (some u) := by
  funext s
  rw [contents, hostMap_updateHostMap_self live, Std.TreeMap.getElem?_insert]
  by_cases same : name = s
  · subst same
    simp
  · simp [same, Function.update_of_ne (Ne.symm same), contents]

/-- So is an entry that is taken out of it. -/
theorem contents_erase (live : m.index < h.hostMaps.size) (name : String) :
    (h.updateHostMap m (·.erase name)).contents m = Function.update (h.contents m) name none := by
  funext s
  rw [contents, hostMap_updateHostMap_self live, Std.TreeMap.getElem?_erase]
  by_cases same : name = s
  · subst same
    simp
  · simp [same, Function.update_of_ne (Ne.symm same), contents]

/-- The names of a map, in the order of their bytes. -/
theorem keys_ordered (h : Heap) (m : HostMapId) :
    (h.hostMap m).keys.Pairwise fun s t => Text.bytes s < Text.bytes t := by
  have ordered : (h.hostMap m).keys.Pairwise fun s t => compare s t = .lt := Std.TreeMap.ordered_keys
  exact ordered.imp fun lt => Text.bytes_lt (compareOfLessAndEq_eq_lt.mp lt)

theorem mem_keys_iff (h : Heap) (m : HostMapId) (name : String) :
    name ∈ (h.hostMap m).keys ↔ (h.contents m name).isSome = true :=
  Std.TreeMap.mem_keys.trans Std.TreeMap.mem_iff_isSome_getElem?

/-! ### The four operations, on the heap -/

/-- The slot that an entry of a map is shown as, and the heap with its value wrapped. -/
def shownEntry (h : Heap) (prototypes : HostPrototypes) (attributes : Attributes) :
    Option HostValue → Option Slot × Heap
  | some u => (some (.data (h.wrap prototypes u).1 attributes), (h.wrap prototypes u).2)
  | none => (none, h)

theorem Views.ownSlot? (views : h.Views o m prototypes) (key : Text) :
    h.ownSlot? o key = h.shownEntry prototypes (if key.isText "length" then .length else .default)
      (h.contents m key.toString) := by
  rw [Heap.ownSlot?, computed?, views.payload, contents]
  dsimp only
  cases (h.hostMap m)[key.toString]? with
  | none => exact congrArg (·, h) (views.bare key)
  | some u => rfl

theorem Views.ownNames (views : h.Views o m prototypes) :
    h.ownNames o = (h.hostMap m).keys.map .ofString := by
  simp [Heap.ownNames, computedNames, views.payload, views.unnamed]

theorem Views.deleteKey (views : h.Views o m prototypes) (key : Text) :
    ∃ h', h.deleteKey o key = (true, h') ∧ (h' = h ∨ h' = h.updateHostMap m (·.erase key.toString)) ∧
      h'.contents m = Function.update (h.contents m) key.toString none := by
  rw [Heap.deleteKey, views.payload, views.bare]
  dsimp only
  split
  · exact ⟨_, rfl, .inr rfl, contents_erase views.live _⟩
  · rename_i absent
    refine ⟨h, rfl, .inl rfl, (Function.update_eq_self_iff.mpr ?_).symm⟩
    rw [Std.TreeMap.contains_eq_isSome_getElem?, Option.isSome_iff_ne_none, not_not] at absent
    exact absent.symm

end Heap

/-! ### What an access leaves behind -/

variable {σ : Type}

/-- A map of the host is left with the given contents, and everything else that was there as it was. -/
structure World.Leaves (w : World σ) (m : HostMapId) (contents : String → Option HostValue)
    (w' : World σ) : Prop where
  /-- What the map holds afterwards. -/
  contents : w'.heap.contents m = contents
  /-- Other maps are left alone. -/
  others : ∀ n ≠ m, w'.heap.contents n = w.heap.contents n
  /-- No map is added. -/
  maps : w'.heap.hostMaps.size = w.heap.hostMaps.size
  /-- Objects may be added. -/
  objects : w.heap.objects.size ≤ w'.heap.objects.size
  /-- The objects that were there are left alone. -/
  object : ∀ o : ObjectId, o.index < w.heap.objects.size → w'.heap.object o = w.heap.object o

namespace World

variable {w w₁ w₂ : World σ} {o : ObjectId} {m n : HostMapId} {prototypes : HostPrototypes}
  {f g : String → Option HostValue}

theorem leaves_refl (w : World σ) (m : HostMapId) : w.Leaves m (w.heap.contents m) w :=
  ⟨rfl, fun _ _ => rfl, rfl, Nat.le_refl _, fun _ _ => rfl⟩

theorem Leaves.trans (first : w.Leaves m f w₁) (next : w₁.Leaves m g w₂) : w.Leaves m g w₂ where
  contents := next.contents
  others n hne := (next.others n hne).trans (first.others n hne)
  maps := next.maps.trans first.maps
  objects := Nat.le_trans first.objects next.objects
  object o live :=
    (next.object o (Nat.lt_of_lt_of_le live first.objects)).trans (first.object o live)

theorem leaves_wrap (w : World σ) (m : HostMapId) (prototypes : HostPrototypes) (u : HostValue) :
    w.Leaves m (w.heap.contents m) { w with heap := (w.heap.wrap prototypes u).2 } := by
  rcases w.heap.wrap_cases prototypes u with same | ⟨obj, same, -⟩
  · rw [same]
    exact w.leaves_refl m
  · rw [same]
    refine ⟨rfl, fun _ _ => rfl, rfl, ?_, fun o live => Heap.object_addObject_of_lt obj live⟩
    exact (Heap.size_addObject _ _).symm ▸ Nat.le_succ _

theorem leaves_shownEntry (w : World σ) (m : HostMapId) (prototypes : HostPrototypes)
    (attributes : Attributes) (entry : Option HostValue) : w.Leaves m (w.heap.contents m)
      { w with heap := (w.heap.shownEntry prototypes attributes entry).2 } := by
  cases entry with
  | none => exact w.leaves_refl m
  | some u => exact w.leaves_wrap m prototypes u

theorem leaves_updateHostMap {change : HostMap → HostMap}
    (changed : (w.heap.updateHostMap m change).contents m = f) :
    w.Leaves m f { w with heap := w.heap.updateHostMap m change } where
  contents := changed
  others _ hne := Heap.contents_updateHostMap_of_ne change hne
  maps := Array.size_modify
  objects := Nat.le_refl _
  object _ _ := rfl

/-- A view of a map stays a view of it. -/
theorem Leaves.views (leaves : w.Leaves m f w₁) (views : w.heap.Views o n prototypes) :
    w₁.heap.Views o n prototypes := by
  have same := leaves.object o views.lt_size
  refine ⟨?_, leaves.maps ▸ views.live, ?_, ?_⟩
  · rw [Heap.payload, same]
    exact views.payload
  · rw [same]
    exact views.bare
  · rw [same]
    exact views.unnamed

end World

/-! ### Accesses -/

/-- What is done with a map of the host through an object. -/
inductive MapAccess where
  /-- Reads the own property under a key. -/
  | read (key : Text)
  /-- Lists the names of the own properties. -/
  | list
  /-- Assigns a property. -/
  | assign (key : Text) (v : Value)
  /-- Deletes a property. -/
  | remove (key : Text)

namespace MapAccess

/-- Does it, and leaves the answer aside. -/
def run (env : Embedding σ) (o : ObjectId) : MapAccess → Exec σ Unit
  | read key => do
    let _ ← ownProperty env o key
  | list => do
    let _ ← ownPropertyNames env o
  | assign key v => do
    let _ ← (setProperty env o key v).run
  | remove key => do
    let _ ← deleteProperty env o key

/-- Does several things one after the other, each through an object of its own. -/
def runAll (env : Embedding σ) : List (ObjectId × MapAccess) → Exec σ Unit
  | [] => pure ()
  | (o, a) :: rest => do
    a.run env o
    runAll env rest

/-- What it makes of the contents of the map, where values are as they are in a heap. -/
def edit (h : Heap) (contents : String → Option HostValue) : MapAccess → String → Option HostValue
  | read _ | list => contents
  | assign key v => Function.update contents key.toString (some (h.unwrap v))
  | remove key => Function.update contents key.toString none

/-- An object that is assigned is one of the heap. -/
def Given (h : Heap) : MapAccess → Prop
  | assign _ (.object o) => o.index < h.objects.size
  | _ => True

end MapAccess

section Accesses

variable {env : Embedding σ} {w w₁ : World σ} {o : ObjectId} {m : HostMapId}
  {prototypes : HostPrototypes} {f : String → Option HostValue}

theorem ownProperty_of_views (env : Embedding σ) (views : w.heap.Views o m prototypes) (key : Text) :
    ∃ slot h, w.heap.shownEntry prototypes (if key.isText "length" then .length else .default)
        (w.heap.contents m key.toString) = (slot, h) ∧
      ownProperty env o key w = some (slot, { w with heap := h }) ∧
      w.Leaves m (w.heap.contents m) { w with heap := h } := by
  refine ⟨_, _, rfl, ?_, w.leaves_shownEntry m prototypes _ _⟩
  rw [ownProperty, Exec.bind_of_eq (materialize_of_ready views.ready), Exec.onHeap_apply,
    views.ownSlot?]
  rfl

theorem ownPropertyNames_of_views (env : Embedding σ) (views : w.heap.Views o m prototypes) :
    ownPropertyNames env o w = some ((w.heap.hostMap m).keys.map .ofString, w) := by
  rw [ownPropertyNames_of_ready views.ready, views.ownNames]

/-- An assignment through any object around a map puts the value into the map. -/
theorem setProperty_of_around (patient : 0 < env.patience)
    (around : w.heap.payload o = .hostMap m prototypes) (key : Text) (v : Value) :
    setProperty env o key v w = some (.ok true, { w with
      heap := w.heap.updateHostMap m (·.insert key.toString (w.heap.unwrap v)) }) := by
  obtain ⟨n, patience⟩ := Nat.exists_eq_add_of_lt patient
  have ready (number : Nat) : w.heap.payload o ≠ .lazy (some number) := by
    rw [around]
    rintro ⟨⟩
  rw [setProperty, patience, Nat.zero_add, setWithin_step (materialize_of_ready ready), around]
  dsimp only
  rw [assignedAt, around]
  rfl

theorem setProperty_of_views (patient : 0 < env.patience) (views : w.heap.Views o m prototypes)
    (key : Text) (v : Value) : ∃ w', setProperty env o key v w = some (.ok true, w') ∧
      w.Leaves m (Function.update (w.heap.contents m) key.toString (some (w.heap.unwrap v))) w' :=
  ⟨_, setProperty_of_around patient views.payload key v,
    World.leaves_updateHostMap (Heap.contents_insert views.live _ _)⟩

theorem deleteProperty_of_views (env : Embedding σ) (views : w.heap.Views o m prototypes) (key : Text) :
    ∃ w', deleteProperty env o key w = some (true, w') ∧
      w.Leaves m (Function.update (w.heap.contents m) key.toString none) w' := by
  obtain ⟨h', deleted, same | same, left⟩ := views.deleteKey key
  all_goals
    rw [deleteProperty_of_made (materialize_of_ready views.ready), deleted]
    subst same
    refine ⟨_, rfl, ?_⟩
  · rw [← left]
    exact w.leaves_refl m
  · exact World.leaves_updateHostMap left

/-- An access through a view ends, and makes of the map what the map alone determines. -/
theorem MapAccess.run_leaves (patient : 0 < env.patience) (views : w.heap.Views o m prototypes)
    (a : MapAccess) :
    ∃ w', a.run env o w = some ((), w') ∧ w.Leaves m (a.edit w.heap (w.heap.contents m)) w' := by
  cases a with
  | read key =>
      obtain ⟨slot, h, -, read, leaves⟩ := ownProperty_of_views env views key
      refine ⟨_, ?_, leaves⟩
      rw [run, Exec.bind_of_eq read, Exec.pure_apply]
  | list =>
      refine ⟨w, ?_, w.leaves_refl m⟩
      rw [run, Exec.bind_of_eq (ownPropertyNames_of_views env views), Exec.pure_apply]
  | assign key v =>
      obtain ⟨w', accepted, leaves⟩ := setProperty_of_views patient views key v
      refine ⟨w', ?_, leaves⟩
      rw [run, Exec.bind_of_eq (x := (setProperty env o key v).run) accepted, Exec.pure_apply]
  | remove key =>
      obtain ⟨w', deleted, leaves⟩ := deleteProperty_of_views env views key
      refine ⟨w', ?_, leaves⟩
      rw [run, Exec.bind_of_eq deleted, Exec.pure_apply]

/-- Values that were there give the host the same as before. -/
theorem World.Leaves.edit_eq (leaves : w.Leaves m f w₁) {a : MapAccess} (given : a.Given w.heap)
    (contents : String → Option HostValue) : a.edit w₁.heap contents = a.edit w.heap contents := by
  cases a with
  | assign key v =>
      have same : w₁.heap.unwrap v = w.heap.unwrap v := by
        cases v with
        | object o => rw [Heap.unwrap, Heap.unwrap, Heap.payload, leaves.object o given, Heap.payload]
        | _ => rfl
      rw [MapAccess.edit, MapAccess.edit, same]
  | _ => rfl

/-- A run of accesses through views of one map ends, and makes of the map what its contents and the
accesses determine. Which views the accesses go through plays no part. -/
theorem runAll_leaves (patient : 0 < env.patience) (steps : List (ObjectId × MapAccess))
    (views : ∀ s ∈ steps, ∃ p, w.heap.Views s.1 m p) (given : ∀ s ∈ steps, s.2.Given w.heap) :
    ∃ w', MapAccess.runAll env steps w = some ((), w') ∧ w.Leaves m
      (steps.foldl (fun contents s => s.2.edit w.heap contents) (w.heap.contents m)) w' := by
  -- The values are read in the heap at the start, so the claim for the rest is about a later heap
  -- and the edits of this one.
  suffices run : ∀ (f : String → Option HostValue) (w₁ : World σ), w.Leaves m f w₁ →
      ∃ w', MapAccess.runAll env steps w₁ = some ((), w') ∧
        w.Leaves m (steps.foldl (fun contents s => s.2.edit w.heap contents) f) w' from
    run _ w (w.leaves_refl m)
  induction steps with
  | nil => exact fun f w₁ leaves => ⟨w₁, rfl, leaves⟩
  | cons s rest ih =>
      intro f w₁ leaves
      obtain ⟨p, view⟩ := views s List.mem_cons_self
      obtain ⟨w₂, step, left⟩ := s.2.run_leaves patient (leaves.views view)
      rw [leaves.edit_eq (given s List.mem_cons_self), leaves.contents] at left
      obtain ⟨w', run, done⟩ := ih (fun t ht => views t (List.mem_cons_of_mem _ ht))
        (fun t ht => given t (List.mem_cons_of_mem _ ht)) _ w₂ (leaves.trans left)
      refine ⟨w', ?_, done⟩
      rw [MapAccess.runAll, Exec.bind_of_eq step]
      exact run

/-- The same names are listed and the same slots read through two objects. -/
def ShowAlike (env : Embedding σ) (w : World σ) (o₁ o₂ : ObjectId) : Prop :=
  ownPropertyNames env o₁ w = ownPropertyNames env o₂ w ∧ ∀ key,
    (ownProperty env o₁ key w).map Prod.fst = (ownProperty env o₂ key w).map Prod.fst

theorem showAlike_of_views {o₁ o₂ : ObjectId} {p₁ p₂ : HostPrototypes}
    (first : w.heap.Views o₁ m p₁) (second : w.heap.Views o₂ m p₂) : ShowAlike env w o₁ o₂ := by
  refine ⟨?_, fun key => ?_⟩
  · rw [ownPropertyNames_of_views env first, ownPropertyNames_of_views env second]
  · rw [ownProperty_of_ready first.ready, ownProperty_of_ready second.ready, first.ownSlot?,
      second.ownSlot?]
    cases w.heap.contents m key.toString with
    | none => rfl
    | some u => cases u <;> rfl

end Accesses

variable {env : Embedding σ} {w : World σ} {o : ObjectId} {m : HostMapId} {prototypes : HostPrototypes}

/-- An object around a map of the host, with no properties of its own stored, is the map. Under the
key of a name it shows the wrapped value that the map holds under the name, or nothing; it lists the
names of the map in the order of their bytes; an assignment puts the value into the map, and a deletion
takes the name out of it, and both answer true. Nothing else in the map or in another map changes.
Entries have the default attributes, `length` excepted. All views of a map show the same, at the start
and after every run of accesses through any of them, which leaves the map as its contents and the
accesses determine. -/
theorem map_views_faithful (patient : 0 < env.patience) (views : w.heap.Views o m prototypes) :
    (∀ key name, key.units = Utf16.encode name.toList →
      (∃ slot h, w.heap.shownEntry prototypes (if name = "length" then .length else .default)
          (w.heap.contents m name) = (slot, h) ∧
        ownProperty env o key w = some (slot, { w with heap := h }) ∧
        w.Leaves m (w.heap.contents m) { w with heap := h }) ∧
      (∀ v, ∃ w', setProperty env o key v w = some (.ok true, w') ∧
        w.Leaves m (Function.update (w.heap.contents m) name (some (w.heap.unwrap v))) w') ∧
      ∃ w', deleteProperty env o key w = some (true, w') ∧
        w.Leaves m (Function.update (w.heap.contents m) name none) w') ∧
    (∃ names : List String, ownPropertyNames env o w = some (names.map .ofString, w) ∧
      names.Pairwise (fun s t => Text.bytes s < Text.bytes t) ∧
      ∀ name, name ∈ names ↔ (w.heap.contents m name).isSome = true) ∧
    ∀ steps : List (ObjectId × MapAccess), (∀ s ∈ steps, ∃ p, w.heap.Views s.1 m p) →
      (∀ s ∈ steps, s.2.Given w.heap) →
      ∃ w', MapAccess.runAll env steps w = some ((), w') ∧
        w.Leaves m (steps.foldl (fun contents s => s.2.edit w.heap contents) (w.heap.contents m)) w' ∧
        ∀ other p, w.heap.Views other m p → w'.heap.Views o m prototypes ∧
          w'.heap.Views other m p ∧ ShowAlike env w o other ∧ ShowAlike env w' o other := by
  refine ⟨fun key name spelled => ?_, ⟨_, ownPropertyNames_of_views env views, w.heap.keys_ordered m,
    w.heap.mem_keys_iff m⟩, fun steps through given => ?_⟩
  · have read := ownProperty_of_views env views key
    have assign := setProperty_of_views patient views key
    have remove := deleteProperty_of_views env views key
    rw [Text.toString_of_units spelled] at read assign remove
    simp only [Text.isText_of_units spelled, decide_eq_true_eq] at read
    exact ⟨read, assign, remove⟩
  · obtain ⟨w', run, leaves⟩ := runAll_leaves patient steps through given
    refine ⟨w', run, leaves, fun other p view => ⟨leaves.views views, leaves.views view, ?_, ?_⟩⟩
    · exact showAlike_of_views views view
    · exact showAlike_of_views (leaves.views views) (leaves.views view)

/-! ### Two views of a map -/

/-- The host has a map with one entry, and two objects are around it. -/
def twoViews (name : String) : World Unit :=
  { worldOf #[.new (.hostMap ⟨0⟩ .none) none, .new (.hostMap ⟨0⟩ .none) none] with
    heap.hostMaps := #[(∅ : HostMap).insert name (.int 1)] }

theorem twoViews_views (name : String) {o : ObjectId} (inside : o.index < 2) :
    (twoViews name).heap.Views o ⟨0⟩ .none := by
  obtain ⟨i⟩ := o
  match i, inside with
  | 0, _ => exact ⟨rfl, Nat.zero_lt_one, PropertyTable.get?_empty, rfl⟩
  | 1, _ => exact ⟨rfl, Nat.zero_lt_one, PropertyTable.get?_empty, rfl⟩

/-- Two views of a map with the entry `b`: what is assigned through one of them under `a` is read through
the other, and both list the names in order. -/
theorem map_views_faithful_on_two_views :
    0 < fourLinks.patience ∧ (twoViews "b").heap.Views ⟨0⟩ ⟨0⟩ .none ∧
      ∃ w', MapAccess.runAll fourLinks [(⟨1⟩, .assign (.ofString "a") (.smi 2)), (⟨0⟩, .list)]
          (twoViews "b") = some ((), w') ∧
        w'.heap.contents ⟨0⟩ "a" = some (.int 2) ∧ w'.heap.contents ⟨0⟩ "b" = some (.int 1) ∧
        ShowAlike fourLinks w' ⟨0⟩ ⟨1⟩ := by
  have patient : 0 < fourLinks.patience := by decide
  have first := twoViews_views "b" (o := ⟨0⟩) (by decide)
  have second := twoViews_views "b" (o := ⟨1⟩) (by decide)
  obtain ⟨w', run, leaves, alike⟩ := (map_views_faithful patient first).2.2
    [(⟨1⟩, .assign (.ofString "a") (.smi 2)), (⟨0⟩, .list)]
    (by simpa using ⟨⟨_, second⟩, _, first⟩) (by simp [MapAccess.Given])
  refine ⟨patient, first, w', run, ?_, ?_, (alike _ _ second).2.2.2⟩
  · rw [leaves.contents]
    rfl
  · rw [leaves.contents]
    rfl

/-- The entry `length` is shown as a property that must not be deleted, and is deleted. -/
theorem length_entry_is_fixed :
    (ownProperty fourLinks ⟨0⟩ (.ofString "length") (twoViews "length")).map Prod.fst =
        some (some (.data (.smi 1) .length)) ∧
      Attributes.length.configurable = false ∧ Attributes.length ≠ .default ∧
      (deleteProperty fourLinks ⟨0⟩ (.ofString "length") (twoViews "length")).map Prod.fst =
        some true := by
  have view := twoViews_views "length" (o := ⟨0⟩) (by decide)
  refine ⟨?_, rfl, by decide, ?_⟩
  · obtain ⟨slot, h, shown, read, -⟩ := ownProperty_of_views fourLinks view (.ofString "length")
    cases shown
    rw [read]
    rfl
  · obtain ⟨w', deleted, -⟩ := deleteProperty_of_views fourLinks view (.ofString "length")
    rw [deleted]
    rfl

end ScriptCore
