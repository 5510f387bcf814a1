import ScriptCore.Heap.Basic
import ScriptCore.Proofs.Property.Table

/-!
# ScriptCore.Proofs.Heap.Objects

What a change to **one object** makes of it and leaves of the others.
-/

namespace ScriptCore

/-- The payload with other elements, if it is an array. -/
def Payload.mapElements (p : Payload) (f : Array Value → Array Value) : Payload :=
  match p with
  | .array es => .array (f es)
  | p => p

namespace Heap

variable {h : Heap} {o p : ObjectId} {f : Object → Object}

/-- Places that were never given out read as the empty object. -/
theorem object_of_le (hle : h.objects.size ≤ o.index) : h.object o = default := by
  simp [object, hle]

theorem object_of_objects {h' : Heap} (same : h'.objects = h.objects) : h'.object = h.object := by
  funext p
  rw [object, object, same]

@[simp] theorem size_updateObject (h : Heap) (o : ObjectId) (f : Object → Object) :
    (h.updateObject o f).objects.size = h.objects.size := by
  simp [updateObject]

theorem object_updateObject_self (live : o.index < h.objects.size) (f : Object → Object) :
    (h.updateObject o f).object o = f (h.object o) := by
  simp [object, updateObject, Array.getElem_modify, live]

theorem object_updateObject_of_ne (hne : p ≠ o) (f : Object → Object) :
    (h.updateObject o f).object p = h.object p := by
  have hindex : o.index ≠ p.index := by
    intro heq
    cases o
    cases p
    exact hne (by rw [ObjectId.mk.injEq]; exact heq.symm)
  simp [object, updateObject, Array.getElem?_modify, hindex]

/-- Writing to a place that was never given out does nothing. -/
theorem object_updateObject_of_le (hle : h.objects.size ≤ o.index) (f : Object → Object)
    (p : ObjectId) : (h.updateObject o f).object p = h.object p := by
  by_cases heq : p = o
  · rw [heq, object_of_le hle, object_of_le (by simpa using hle)]
  · exact object_updateObject_of_ne heq f

theorem object_addObject_self (h : Heap) (obj : Object) :
    (h.addObject obj).2.object (h.addObject obj).1 = obj := by
  simp [object, addObject]

theorem object_addObject_of_ne (obj : Object) (hne : p ≠ (h.addObject obj).1) :
    (h.addObject obj).2.object p = h.object p := by
  have hindex : p.index ≠ h.objects.size := by
    intro heq
    cases p
    cases heq
    exact hne rfl
  simp [object, addObject, Array.getElem?_push, hindex]

@[simp] theorem size_addObject (h : Heap) (obj : Object) :
    (h.addObject obj).2.objects.size = h.objects.size + 1 := by
  simp [addObject]

/-- New objects leave those alone that have been given out. -/
theorem object_addObject_of_lt (obj : Object) (live : p.index < h.objects.size) :
    (h.addObject obj).2.object p = h.object p := by
  refine object_addObject_of_ne obj ?_
  rintro rfl
  exact Nat.lt_irrefl _ live

/-- What holds of every object, and of what one of them is changed to, holds after the change. -/
theorem forall_updateObject {P : ObjectId → Object → Prop} (all : ∀ p, P p (h.object p))
    (changed : P o (f (h.object o))) (p : ObjectId) : P p ((h.updateObject o f).object p) := by
  rcases Nat.lt_or_ge o.index h.objects.size with live | gone
  · by_cases heq : p = o
    · rw [heq, object_updateObject_self live]
      exact changed
    · rw [object_updateObject_of_ne heq]
      exact all p
  · rw [object_updateObject_of_le gone]
    exact all p

theorem forall_addObject {P : ObjectId → Object → Prop} {obj : Object}
    (all : ∀ p, P p (h.object p)) (new : P (h.addObject obj).1 obj) (p : ObjectId) :
    P p ((h.addObject obj).2.object p) := by
  by_cases heq : p = (h.addObject obj).1
  · rw [heq, object_addObject_self]
    exact new
  · rw [object_addObject_of_ne obj heq]
    exact all p

/-! ### Payloads and stored properties -/

/-- An object of which something is true that is not true of the empty one has been given out. -/
theorem lt_size_of_object {P : Object → Prop} (holds : P (h.object o)) (empty : ¬P default) :
    o.index < h.objects.size := by
  by_contra hle
  rw [object_of_le (Nat.le_of_not_lt hle)] at holds
  exact empty holds

theorem lt_size_of_payload (hp : h.payload o ≠ .plain) : o.index < h.objects.size :=
  lt_size_of_object (P := (·.payload ≠ .plain)) hp fun ne => ne rfl

theorem lt_size_of_array {es : Array Value} (array : h.payload o = .array es) :
    o.index < h.objects.size :=
  lt_size_of_payload (by simp [array])

/-- Only objects of the heap have prototypes. -/
theorem lt_size_of_prototype (link : (h.object o).prototype = some p) : o.index < h.objects.size :=
  lt_size_of_object (P := (·.prototype = some p)) link (by rintro ⟨⟩)

theorem lt_size_of_own {key : Text} {slot : Slot}
    (own : (h.object o).properties.get? key = some slot) : o.index < h.objects.size := by
  refine lt_size_of_object (P := (·.properties.get? key = some slot)) own ?_
  simp [show (default : Object).properties = .empty from rfl]

/-- The payload of an array, with its elements changed. -/
theorem payload_mapElements {es : Array Value} (array : h.payload o = .array es)
    (f : Array Value → Array Value) :
    (h.updatePayload o (·.mapElements f)).payload o = .array (f es) := by
  rw [payload, updatePayload, object_updateObject_self (lt_size_of_array array)]
  dsimp only
  rw [show (h.object o).payload = _ from array]
  rfl

theorem properties_updatePayload (h : Heap) (o : ObjectId) (f : Payload → Payload) :
    ((h.updatePayload o f).object o).properties = (h.object o).properties := by
  rcases Nat.lt_or_ge o.index h.objects.size with live | gone
  · rw [updatePayload, object_updateObject_self live]
  · rw [updatePayload, object_updateObject_of_le gone]

theorem payload_updateProperties (h : Heap) (o : ObjectId) (f : PropertyTable → PropertyTable) :
    (h.updateProperties o f).payload o = h.payload o := by
  rcases Nat.lt_or_ge o.index h.objects.size with live | gone
  · rw [payload, updateProperties, object_updateObject_self live, payload]
  · rw [payload, updateProperties, object_updateObject_of_le gone, payload]

theorem properties_updateProperties (live : o.index < h.objects.size)
    (f : PropertyTable → PropertyTable) :
    ((h.updateProperties o f).object o).properties = f (h.object o).properties := by
  rw [updateProperties, object_updateObject_self live]

/-! ### Data of the host -/

theorem object_updateHostMap (h : Heap) (m : HostMapId) (f : HostMap → HostMap) (o : ObjectId) :
    (h.updateHostMap m f).object o = h.object o := rfl

theorem hostMap_updateHostMap_self {m : HostMapId} (live : m.index < h.hostMaps.size)
    (f : HostMap → HostMap) : (h.updateHostMap m f).hostMap m = f (h.hostMap m) := by
  simp [hostMap, updateHostMap, Array.getElem_modify, live]

theorem hostSlice_updateHostSlice_self {s : HostSliceId} (live : s.index < h.hostSlices.size)
    (f : Array HostValue → Array HostValue) :
    (h.updateHostSlice s f).hostSlice s = f (h.hostSlice s) := by
  simp [hostSlice, updateHostSlice, Array.getElem_modify, live]

theorem lt_size_of_contains {m : HostMapId} {s : String} (inside : (h.hostMap m).contains s = true) :
    m.index < h.hostMaps.size := by
  by_contra hle
  rw [hostMap, Array.getElem?_eq_none (Nat.le_of_not_lt hle)] at inside
  simp at inside

end Heap

end ScriptCore
