import ScriptCore.Collection.Basic
import ScriptCore.Host.Value
import ScriptCore.Property.Table

/-!
# ScriptCore.Heap.Object

What an **object** consists of: a prototype, a table of own properties, whether it may grow, and the
payload that makes it an array, a function, a proxy and so on.
-/

namespace ScriptCore

/-- The prototypes that objects get when they wrap values of the host. -/
structure HostPrototypes where
  /-- For maps, errors and foreign data. -/
  object : Option ObjectId
  /-- For slices. -/
  array : Option ObjectId
  /-- For functions. -/
  function : Option ObjectId

/-- No prototypes. -/
def HostPrototypes.none : HostPrototypes := ⟨.none, .none, .none⟩

/-- The functions that come with the object model. -/
inductive Builtin where
  /-- Does nothing. -/
  | nothing
  /-- Gives back its receiver. -/
  | valueOf
  /-- Tells whether its receiver has an own property. -/
  | hasOwnProperty
deriving DecidableEq

/-- What a function runs when it is called. -/
inductive Code where
  /-- A body that the embedding knows by number. -/
  | embedded (number : Nat)
  /-- A function of the host, with the prototypes for wrapping its result. -/
  | host (f : HostFunctionId) (prototypes : HostPrototypes)
  /-- A built-in function. -/
  | builtin (b : Builtin)

/-- The payload of a function. -/
structure Function where
  /-- The name. -/
  name : Text
  /-- What runs on a call; a function without it gives `undefined`. -/
  code : Option Code
  /-- The scope that the function was made in. -/
  scope : Option FrameId

/-- The payload of an object. -/
inductive Payload where
  /-- An ordinary object. -/
  | plain
  /-- An array with its elements. -/
  | array (elements : Array Value)
  /-- A function. -/
  | function (f : Function)
  /-- A map with its entries. -/
  | map (entries : Collection)
  /-- A set; its entries have no values. -/
  | set (entries : Collection)
  /-- A proxy. Both references are gone once it has been revoked. -/
  | proxy (target handler : Option ObjectId)
  /-- A value in a box. -/
  | boxed (v : Value)
  /-- A date: milliseconds since the epoch. -/
  | date (t : Binary64)
  /-- A map of the host. -/
  | hostMap (m : HostMapId) (prototypes : HostPrototypes)
  /-- A slice of the host. -/
  | hostSlice (s : HostSliceId) (prototypes : HostPrototypes)
  /-- Any other value of the host. -/
  | hostData (v : HostValue)
  /-- Not made yet; the number of its initializer, or none while that runs. -/
  | lazy (initializer : Option Nat)

/-- The class of an object. -/
inductive ObjectClass where
  | plain | array | function | map | set | proxy | hostBacked | lazy | boxed | date
deriving DecidableEq

namespace Payload

instance : Inhabited Payload := ⟨plain⟩

/-- The class that a payload belongs to. -/
def toClass : Payload → ObjectClass
  | .plain => .plain
  | .array _ => .array
  | .function _ => .function
  | .map _ => .map
  | .set _ => .set
  | .proxy .. => .proxy
  | .boxed _ => .boxed
  | .date _ => .date
  | .hostMap .. | .hostSlice .. | .hostData _ => .hostBacked
  | .lazy _ => .lazy

/-- What the payload shares with other objects that wrap the same data of the host. -/
def shared? : Payload → Option Allocation
  | .hostMap m _ => some (.hostMap m)
  | .hostSlice s _ => some (.hostSlice s)
  | .hostData v => v.shared?
  | _ => none

/-- The entries of a map or a set. -/
def collection? : Payload → Option Collection
  | .map entries | .set entries => some entries
  | _ => none

/-- The payload with other entries, if it has entries. -/
def setCollection (p : Payload) (entries : Collection) : Payload :=
  match p with
  | .map _ => .map entries
  | .set _ => .set entries
  | _ => p

end Payload

/-- An object. -/
structure Object where
  /-- Where properties are looked up next. -/
  prototype : Option ObjectId
  /-- The own properties that are stored. -/
  properties : PropertyTable
  /-- New properties may be added. -/
  extensible : Bool
  /-- What kind of object it is. -/
  payload : Payload

namespace Object

/-- An object without own properties. -/
def new (payload : Payload) (prototype : Option ObjectId) : Object :=
  ⟨prototype, .empty, true, payload⟩

instance : Inhabited Object := ⟨new .plain none⟩

/-- The class of the object. -/
def toClass (o : Object) : ObjectClass := o.payload.toClass

/-- The object has been made: it is not lazy, or no longer. -/
def isInitialized (o : Object) : Bool :=
  match o.payload with
  | .lazy _ => false
  | _ => true

/-- Adds a stored property with the default attributes. -/
def withProperty (o : Object) (name : String) (value : Value) : Object :=
  { o with properties := o.properties.insert (.ofString name) (.data value .default) }

end Object

end ScriptCore
