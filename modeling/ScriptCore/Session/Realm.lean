import ScriptCore.Heap.Basic

/-!
# ScriptCore.Session.Realm

The **prototypes** that the objects of a session share.

Only the methods that the object model itself relies on are installed.
-/

namespace ScriptCore

/-- The shared prototypes. -/
structure Realm where
  /-- The prototype of ordinary objects. -/
  objectPrototype : ObjectId
  /-- The prototype of functions. -/
  functionPrototype : ObjectId
  /-- The prototype of arrays. -/
  arrayPrototype : ObjectId
  /-- The prototype of maps. -/
  mapPrototype : ObjectId
  /-- The prototype of sets. -/
  setPrototype : ObjectId

namespace Realm

/-- The prototypes of objects that wrap values of the host. -/
def hostPrototypes (r : Realm) : HostPrototypes :=
  ⟨some r.objectPrototype, some r.arrayPrototype, some r.functionPrototype⟩

/-- The shared prototypes with the names of their constructors. -/
def named (r : Realm) : List (String × ObjectId) :=
  [("Object", r.objectPrototype), ("Function", r.functionPrototype), ("Array", r.arrayPrototype),
    ("Map", r.mapPrototype), ("Set", r.setPrototype)]

/-- A built-in function. -/
def builtin (name : String) (b : Builtin) (prototype : ObjectId) : Object :=
  .new (.function ⟨.ofString name, some (.builtin b), none⟩) (some prototype)

/-- Installs a built-in method. -/
def install (h : Heap) (holder functionPrototype : ObjectId) (name : String) (b : Builtin) : Heap :=
  let (method, h) := h.addObject (builtin name b functionPrototype)
  h.updateProperties holder (·.insert (.ofString name) (.data (.object method) .hidden))

/-- Makes the prototypes. -/
def create (h : Heap) : Realm × Heap :=
  let (object, h) := h.addObject (.new .plain none)
  let (function, h) := h.addObject (builtin "" .nothing object)
  let h := install h object function "valueOf" .valueOf
  let h := install h object function "hasOwnProperty" .hasOwnProperty
  let (array, h) := h.addObject (.new (.array #[]) (some object))
  let (map, h) := h.addObject (.new .plain (some object))
  let (set, h) := h.addObject (.new .plain (some object))
  (⟨object, function, array, map, set⟩, h)

end Realm

end ScriptCore
