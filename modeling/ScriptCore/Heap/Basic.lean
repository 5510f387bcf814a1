import Std.Data.TreeMap
import ScriptCore.Heap.Object

/-!
# ScriptCore.Heap.Basic

The **heap**: everything that values refer to by identity.

Design points:

* Each kind of thing has its own row, and an identity is a place in that row. New things go to the
  end, so an identity is never given out twice and nothing moves.
* Reading a place that was never given out finds an empty thing; writing there does nothing. No
  operation produces such an identity.
* Host maps are sorted by key. Texts compare by code points, which is also the order of their UTF-8
  bytes.
-/

namespace ScriptCore

/-- The entries of a map owned by the host. -/
abbrev HostMap := Std.TreeMap String HostValue

/-- What a function of the host does when it is called. -/
inductive HostFunction where
  /-- A body that the embedding knows by number. -/
  | embedded (number : Nat)
  /-- Calls an object. -/
  | exported (o : ObjectId)
deriving Inhabited

/-- Data that scripts cannot look into. -/
structure Foreign where
  /-- The name of the data's type. -/
  typeName : String
  /-- Its content, as far as anyone may ask: a number. -/
  content : Nat
deriving Inhabited, DecidableEq

/-- A scope frame. -/
structure Frame where
  /-- The declared names with their values, in the order of declaration. -/
  bindings : Array (Text × Value)
  /-- An object whose properties act as further bindings. -/
  object : Option ObjectId
  /-- The enclosing frame. -/
  outer : Option FrameId
deriving Inhabited

/-- Everything that values refer to. -/
structure Heap where
  /-- The objects. -/
  objects : Array Object
  /-- The scope frames. -/
  frames : Array Frame
  /-- The maps of the host. -/
  hostMaps : Array HostMap
  /-- The slices of the host. -/
  hostSlices : Array (Array HostValue)
  /-- The functions of the host. -/
  hostFunctions : Array HostFunction
  /-- The foreign data. -/
  foreign : Array Foreign
  /-- The number of symbols made. -/
  symbols : Nat
  /-- The numbers of the symbols registered under a text. -/
  registry : Std.TreeMap String Nat

namespace Heap

/-- The heap at the start. -/
def empty : Heap := ⟨#[], #[], #[], #[], #[], #[], 0, ∅⟩

instance : Inhabited Heap := ⟨empty⟩

/-! ### Reading -/

/-- The object with an identity. -/
def object (h : Heap) (o : ObjectId) : Object := h.objects[o.index]?.getD default

/-- The frame with an identity. -/
def frame (h : Heap) (f : FrameId) : Frame := h.frames[f.index]?.getD default

/-- The host map with an identity. -/
def hostMap (h : Heap) (m : HostMapId) : HostMap := h.hostMaps[m.index]?.getD ∅

/-- The host slice with an identity. -/
def hostSlice (h : Heap) (s : HostSliceId) : Array HostValue := h.hostSlices[s.index]?.getD #[]

/-- The host function with an identity. -/
def hostFunction (h : Heap) (f : HostFunctionId) : HostFunction :=
  h.hostFunctions[f.index]?.getD default

/-- The foreign data with an identity. -/
def foreignData (h : Heap) (d : ForeignId) : Foreign := h.foreign[d.index]?.getD default

/-- The payload of an object. -/
def payload (h : Heap) (o : ObjectId) : Payload := (h.object o).payload

/-- The same object, or two that wrap the same data of the host. -/
def sameIdentity (h : Heap) (a b : ObjectId) : Bool :=
  a == b || match (h.payload a).shared?, (h.payload b).shared? with
    | some x, some y => x == y
    | _, _ => false

/-- The enclosing frame. It is an older one, so a walk outward ends. -/
def outer? (h : Heap) (f : FrameId) : Option { g : FrameId // g.index < f.index } :=
  match (h.frame f).outer with
  | some g => if older : g.index < f.index then some ⟨g, older⟩ else none
  | none => none

/-! ### Making things -/

/-- Adds an object. -/
def addObject (h : Heap) (o : Object) : ObjectId × Heap :=
  (⟨h.objects.size⟩, { h with objects := h.objects.push o })

/-- Adds a scope frame. -/
def addFrame (h : Heap) (f : Frame) : FrameId × Heap :=
  (⟨h.frames.size⟩, { h with frames := h.frames.push f })

/-- Adds a host map. -/
def addHostMap (h : Heap) (m : HostMap) : HostMapId × Heap :=
  (⟨h.hostMaps.size⟩, { h with hostMaps := h.hostMaps.push m })

/-- Adds a host slice. -/
def addHostSlice (h : Heap) (s : Array HostValue) : HostSliceId × Heap :=
  (⟨h.hostSlices.size⟩, { h with hostSlices := h.hostSlices.push s })

/-- Adds a host function. -/
def addHostFunction (h : Heap) (f : HostFunction) : HostFunctionId × Heap :=
  (⟨h.hostFunctions.size⟩, { h with hostFunctions := h.hostFunctions.push f })

/-- Adds foreign data. -/
def addForeign (h : Heap) (d : Foreign) : ForeignId × Heap :=
  (⟨h.foreign.size⟩, { h with foreign := h.foreign.push d })

/-- Makes a new symbol. -/
def addSymbol (h : Heap) (description : Option String) : Symbol × Heap :=
  (⟨h.symbols, description.map .ofString⟩, { h with symbols := h.symbols + 1 })

/-- The symbol registered under a text, made on the first request. -/
def registeredSymbol (h : Heap) (key : String) : Symbol × Heap :=
  match h.registry[key]? with
  | some n => (⟨n, some (.ofString key)⟩, h)
  | none =>
    (⟨h.symbols, some (.ofString key)⟩,
      { h with symbols := h.symbols + 1, registry := h.registry.insert key h.symbols })

/-! ### Changing things -/

/-- Changes an object. -/
def updateObject (h : Heap) (o : ObjectId) (f : Object → Object) : Heap :=
  { h with objects := h.objects.modify o.index f }

/-- Changes the payload of an object. -/
def updatePayload (h : Heap) (o : ObjectId) (f : Payload → Payload) : Heap :=
  h.updateObject o fun obj => { obj with payload := f obj.payload }

/-- Changes the stored properties of an object. -/
def updateProperties (h : Heap) (o : ObjectId) (f : PropertyTable → PropertyTable) : Heap :=
  h.updateObject o fun obj => { obj with properties := f obj.properties }

/-- Changes a scope frame. -/
def updateFrame (h : Heap) (f : FrameId) (g : Frame → Frame) : Heap :=
  { h with frames := h.frames.modify f.index g }

/-- Changes a host map. -/
def updateHostMap (h : Heap) (m : HostMapId) (f : HostMap → HostMap) : Heap :=
  { h with hostMaps := h.hostMaps.modify m.index f }

/-- Changes a host slice. -/
def updateHostSlice (h : Heap) (s : HostSliceId) (f : Array HostValue → Array HostValue) : Heap :=
  { h with hostSlices := h.hostSlices.modify s.index f }

end Heap

end ScriptCore
