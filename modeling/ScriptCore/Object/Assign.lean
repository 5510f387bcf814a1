import ScriptCore.Object.Primitive

/-!
# ScriptCore.Object.Assign

**Changing** objects: assignment, definition, deletion, and the operations of arrays, collections and
proxies.

Design points:

* Assignment goes to the target of a proxy, to the data of the host behind a wrapper, to the elements
  of an array; only what is left follows the rules of stored properties.
* Those ask the first property found along the prototypes: a setter is called, a read-only value
  refuses, anything else lets the object get a property of its own.
* A value is converted before the object is looked at again, because the conversion may run code
  that changes the object.
-/

namespace ScriptCore

/-- How far beyond its end an array may grow with one assignment. -/
def maxArrayGap : Nat := Nat.pow 2 16

/-- The elements of an array, cut or filled up with `undefined` to a length. -/
def resized (elements : Array Value) (n : Nat) : Array Value :=
  elements.shrink n ++ Array.replicate (n - elements.size) .undefined

namespace Heap

/-- Assigns an element of an array of a given size; false if the array must not grow, or not that
far. -/
def setElement (h : Heap) (o : ObjectId) (size i : Nat) (v : Value) : Bool × Heap :=
  if i < size then
    (true, h.updatePayload o fun
      | .array es => .array (es.setIfInBounds i v)
      | p => p)
  else if !(h.object o).extensible || maxArrayGap < i - size then (false, h)
  else
    (true, h.updatePayload o fun
      | .array es => .array ((resized es i).push v)
      | p => p)

/-- Assigns an element of a slice of the host; false beyond its end. -/
def setHostElement (h : Heap) (s : HostSliceId) (i : Nat) (v : HostValue) : Bool × Heap :=
  let size := (h.hostSlice s).size
  if i < size then (true, h.updateHostSlice s (·.setIfInBounds i v))
  else if i = size then (true, h.updateHostSlice s (·.push v))
  else (false, h)

/-- Adds a stored property to an object, or replaces it. -/
def putSlot (h : Heap) (o : ObjectId) (key : Text) (slot : Slot) : Heap :=
  h.updateProperties o (·.insert key slot)

/-- Replaces the value of a stored property, leaving its attributes. -/
def putValue (h : Heap) (o : ObjectId) (key : Text) (v : Value) : Heap :=
  h.updateProperties o (·.update key fun
    | .data _ a => .data v a
    | slot => slot)

/-- Deletes an own property; false if it must not be deleted. An element of an array gives way to
`undefined`. -/
def deleteKey (h : Heap) (o : ObjectId) (key : Text) : Bool × Heap :=
  let stored : Bool × Heap :=
    match (h.object o).properties.get? key with
    | none => (true, h)
    | some slot =>
      if slot.attributes.configurable then (true, h.updateProperties o (·.erase key))
      else (false, h)
  match h.payload o with
  | .array elements => match key.arrayIndex? with
    | some i =>
      if i < elements.size then
        (true, h.updatePayload o fun
          | .array es => .array (es.setIfInBounds i .undefined)
          | p => p)
      else stored
    | none => stored
  | .hostMap m _ =>
    if (h.hostMap m).contains key.toString then (true, h.updateHostMap m (·.erase key.toString))
    else stored
  | _ => stored

/-- An object is found along the stored prototypes from a given one on, within a number of links;
nothing if that many do not reach the end. -/
def chainHas? (h : Heap) (o : ObjectId) : Nat → Option ObjectId → Option Bool
  | _, none => some false
  | 0, some _ => none
  | n + 1, some p => if p = o then some true else h.chainHas? o n (h.object p).prototype

end Heap

variable {σ : Type}

/-! ### Assignment -/

/-- Calls a setter; without one the assignment is refused. -/
def callSetter (env : Embedding σ) (o : ObjectId) (setter : Option ObjectId) (v : Value) :
    Throws σ Bool := do
  match setter with
  | some setter =>
    let _ ← callObject env setter (.object o) [v]
    return true
  | none => return false

/-- The first property found from a given object on, within a number of links. -/
def inheritedWithin (env : Embedding σ) (key : Text) :
    Nat → Option ObjectId → Exec σ (Option Slot)
  | _, none => return none
  | 0, some _ => Exec.endless
  | n + 1, some p => do
    match ← ownProperty env p key with
    | some slot => return some slot
    | none => inheritedWithin env key n (← prototypeOf env p)

/-- Gives an object a new property, unless it must not get any. -/
def addProperty (o : ObjectId) (key : Text) (v : Value) : Throws σ Bool := do
  let extensible ← Exec.asks (·.object o |>.extensible)
  if extensible then Exec.modifyHeap (·.putSlot o key (.data v .default))
  return extensible

/-- Assigns to an object without an own property under the key, by what it inherits. -/
def assignInherited (env : Embedding σ) (o : ObjectId) (key : Text) (v : Value) :
    Option Slot → Throws σ Bool
  | some (.accessor _ setter _) => callSetter env o setter v
  | some (.data _ attributes) => if attributes.writable then addProperty o key v else return false
  | none => addProperty o key v

/-- Assigns by the rules of stored properties. -/
def setStored (env : Embedding σ) (o : ObjectId) (key : Text) (v : Value) : Throws σ Bool := do
  match ← Exec.asks (·.object o |>.properties.get? key) with
  | some (.data _ attributes) =>
    if attributes.writable then Exec.modifyHeap (·.putValue o key v)
    return attributes.writable
  | some (.accessor _ setter _) => callSetter env o setter v
  | none =>
    let inherited ← inheritedWithin env key env.patience (← prototypeOf env o)
    assignInherited env o key v inherited

/-- Assigns the length of an array. -/
def setLength (env : Embedding σ) (o : ObjectId) (key : Text) (v : Value) : Throws σ Bool := do
  let n := (← numericOf env v).toUInt32.toNat
  match ← Exec.asks (·.payload o) with
  | .array elements =>
    if elements.size + maxArrayGap < n then throw .invalidArrayLength
    Exec.modifyHeap (·.updatePayload o fun
      | .array es => .array (resized es n)
      | p => p)
    return true
  | _ => setStored env o key v

/-- Assigns a property of an object that is no proxy, by its payload. -/
def assignAt (env : Embedding σ) (o : ObjectId) (key : Text) (v : Value) :
    Payload → Throws σ Bool
  | .hostMap m _ => do
    Exec.modifyHeap fun h =>
      let inner := h.unwrap v
      h.updateHostMap m (·.insert key.toString inner)
    return true
  | .hostSlice s _ => match key.arrayIndex? with
    | some i => Exec.onHeap fun h => h.setHostElement s i (h.unwrap v)
    | none => setStored env o key v
  | .array elements => match key.arrayIndex? with
    | some i => Exec.onHeap (·.setElement o elements.size i v)
    | none => if key.isText "length" then setLength env o key v else setStored env o key v
  | _ => setStored env o key v

/-- Assigns a property, following at most a number of proxies. -/
def setWithin (env : Embedding σ) (key : Text) (v : Value) : Nat → ObjectId → Throws σ Bool
  | 0, _ => Exec.endless
  | n + 1, o => do
    materialize env o
    match ← Exec.asks (·.payload o) with
    | .proxy (some target) _ => setWithin env key v n target
    | .proxy none _ => throw .revokedProxy
    | payload => assignAt env o key v payload

/-- Assigns a property; false if the assignment was refused. -/
def setProperty (env : Embedding σ) (o : ObjectId) (key : Text) (v : Value) : Throws σ Bool :=
  setWithin env key v env.patience o

/-- Assigns a property, where a setter that throws counts as a refusal. -/
def trySet (env : Embedding σ) (o : ObjectId) (key : Text) (v : Value) : Exec σ Bool := do
  return match ← (setProperty env o key v).run with
    | .ok accepted => accepted
    | .error _ => false

/-! ### Definition and deletion -/

/-- Defines an own property, or defines it anew. -/
def defineProperty (env : Embedding σ) (o : ObjectId) (key : Text) (slot : Slot) :
    Exec σ Unit := do
  materialize env o
  Exec.modifyHeap (·.putSlot o key slot)

/-- Deletes an own property; false if it must not be deleted. -/
def deleteProperty (env : Embedding σ) (o : ObjectId) (key : Text) : Exec σ Bool := do
  materialize env o
  Exec.onHeap (·.deleteKey o key)

/-- Forbids new properties. -/
def preventExtensions (env : Embedding σ) (o : ObjectId) : Exec σ Unit := do
  materialize env o
  Exec.modifyHeap (·.updateObject o fun obj => { obj with extensible := false })

/-- Replaces the prototype; false if the object must not change or would come to be its own
prototype. -/
def setPrototype (env : Embedding σ) (o : ObjectId) (prototype : Option ObjectId) :
    Exec σ Bool := do
  materialize env o
  if !(← Exec.asks (·.object o |>.extensible)) then return false
  match ← Exec.asks fun h => h.chainHas? o (h.objects.size + 1) prototype with
  | none => Exec.endless
  | some true => return false
  | some false =>
    Exec.modifyHeap (·.updateObject o fun obj => { obj with prototype })
    return true

/-! ### Arrays, collections, proxies -/

/-- Appends to an array and gives its new length; nothing for other objects. -/
def pushElement (env : Embedding σ) (o : ObjectId) (v : Value) : Exec σ (Option Nat) := do
  materialize env o
  Exec.onHeap fun h => match h.payload o with
    | .array elements => (some (elements.size + 1), h.updatePayload o fun
        | .array es => .array (es.push v)
        | p => p)
    | _ => (none, h)

namespace Heap

/-- The number of elements of an array or a slice of the host. -/
def elementCount? (h : Heap) (o : ObjectId) : Option Nat :=
  match h.payload o with
  | .array elements => some elements.size
  | .hostSlice s _ => some (h.hostSlice s).size
  | _ => none

/-- Stores an entry of a map; false for other objects. -/
def mapSet (h : Heap) (o : ObjectId) (key v : Value) : Bool × Heap :=
  match h.payload o with
  | .map _ => (true, h.updatePayload o fun
      | .map entries => .map (entries.insert key (some v))
      | p => p)
  | _ => (false, h)

/-- The value of an entry of a map. -/
def mapGet? (h : Heap) (o : ObjectId) (key : Value) : Option Value :=
  match h.payload o with
  | .map entries => entries.get? key
  | _ => none

/-- Adds a member to a set; false for other objects. -/
def setAdd (h : Heap) (o : ObjectId) (v : Value) : Bool × Heap :=
  match h.payload o with
  | .set _ => (true, h.updatePayload o fun
      | .set entries => .set (entries.insert v none)
      | p => p)
  | _ => (false, h)

/-- The entries of a map or a set. -/
def collection? (h : Heap) (o : ObjectId) : Option Collection := (h.payload o).collection?

/-- A key is present in a map or a set. -/
def collectionHas (h : Heap) (o : ObjectId) (key : Value) : Bool :=
  (h.collection? o).any (·.contains key)

/-- Changes the entries of a map or a set with a result, or gives the result for other objects. -/
def onCollection {α : Type} (h : Heap) (o : ObjectId) (otherwise : α)
    (f : Collection → α × Collection) : α × Heap :=
  match h.collection? o with
  | some entries =>
    let (a, entries) := f entries
    (a, h.updatePayload o (·.setCollection entries))
  | none => (otherwise, h)

/-- Takes target and handler from a proxy. -/
def revoke (h : Heap) (o : ObjectId) : Heap :=
  h.updatePayload o fun
    | .proxy _ _ => .proxy none none
    | p => p

end Heap

end ScriptCore
