import ScriptCore.Footprint.Context

/-!
# ScriptCore.Footprint.Walk

The **estimate** of what a value holds.

Design points:

* An estimate only looks. It runs nothing, so a lazy object that has not been made costs nothing.
* Each object, each piece of host data and each scope frame is counted once in a context.
* What an object holds is measured one level deeper. The step that measures a node is parametric in
  how nodes one level down are measured, and the room left under the depth ceiling bounds the
  recursion; a step without room fails before it asks for anything deeper.
-/

namespace ScriptCore

open Estimate

/-- Something that an estimate can measure. -/
inductive Node where
  /-- A value. -/
  | value (v : Value)
  /-- A value of the host. -/
  | host (v : HostValue)
  /-- A scope frame with the frames around it. -/
  | scope (f : FrameId)
  /-- The entries of a map of the host. -/
  | hostEntries (m : HostMapId)
  /-- The elements of a slice of the host. -/
  | hostElements (s : HostSliceId)

/-! ### Containers -/

/-- Every element whose place, counted from one, is a multiple of `step`. -/
def everyNth {α : Type} (step : Nat) (items : List α) : List α :=
  (items.zipIdx 1).filterMap fun (item, place) => if place % step = 0 then some item else none

/-- Measures elements until the budget is used up: the sum and how many were measured. -/
def measureWhile {α : Type} (cost : α → Estimate Usage) (sum : Usage) (count : Nat) :
    List α → Estimate (Usage × Nat)
  | [] => return (sum, count)
  | item :: items => do
    let sum := sum + (← cost item)
    if ← isOver then return (sum, count + 1)
    measureWhile cost sum (count + 1) items

/-- Measures the elements of a container. A sample is scaled up to the whole container. -/
def walk {α : Type} (items : List α) (sampled : Bool) (cost : α → Estimate Usage) :
    Estimate Usage := do
  if sampled then
    let step := sampleStep items.length (← get).limits.sampleRate
    let (sum, count) ← measureWhile cost .zero 0 (everyNth step items)
    return ⟨scaledUp sum.legacy count items.length, scaledUp sum.refined count items.length⟩
  else
    return (← measureWhile cost .zero 0 items).1

/-- A sequence of some length is sampled. -/
def samplesArray (length : Nat) : Estimate Bool := do
  return (← get).limits.samplesArray length

/-- A container with some number of entries is sampled. -/
def samplesEntries (count : Nat) : Estimate Bool := do
  return (← get).limits.samplesEntries count

/-! ### Nodes -/

variable (h : Heap) (inner : Node → Estimate Usage)

/-- An object one level down. -/
def innerObject (o : ObjectId) : Estimate Usage := inner (.value (.object o))

/-- Several objects one level down, where each may be missing. -/
def innerObjects : List (Option ObjectId) → Estimate Usage
  | [] => return .zero
  | none :: os => innerObjects os
  | some o :: os => do
    let first ← innerObject inner o
    return first + (← innerObjects os)

/-- The name and the content of a property. -/
def slotUsage : Slot → Estimate Usage
  | .data v _ => inner (.value v)
  | .accessor getter setter _ => do
    let header ← bytes sizeHeader
    return header + (← innerObjects inner [getter, setter])

/-- The stored properties of an object. -/
def propertiesUsage (t : PropertyTable) : Estimate Usage := do
  let entries := t.toList
  walk entries (← samplesEntries entries.length) fun (name, slot) => do
    let first ← stringLeaf name.payloadBytes
    return first + (← slotUsage inner slot)

/-- What makes an object the kind of object that it is. -/
def payloadUsage : Payload → Estimate Usage
  | .plain | .lazy _ => return .zero
  | .array elements => do
    walk elements.toList (← samplesArray elements.size) fun v => inner (.value v)
  | .function f => do
    let name ← stringLeaf f.name.payloadBytes
    match f.scope with
    | some scope => return name + (← inner (.scope scope))
    | none => return name
  | .map c | .set c => do
    let entries := c.toList
    walk entries (← samplesEntries entries.length) fun (key, value) => do
      let first ← inner (.value key)
      match value with
      | some v => return first + (← inner (.value v))
      | none => return first
  | .proxy target handler => innerObjects inner [target, handler]
  | .boxed v => inner (.value v)
  | .date _ => bytes sizeNumber
  | .hostMap m _ => inner (.hostEntries m)
  | .hostSlice s _ => inner (.hostElements s)
  | .hostData v => inner (.host v)

/-- An object: nothing if it was counted before or has not been made. -/
def objectUsage (o : ObjectId) : Estimate Usage := do
  let new ← visit (.object o)
  let obj := h.object o
  if !new || !obj.isInitialized then return .zero
  nested do
    let header ← bytes sizeHeader
    let prototype ← innerObjects inner [obj.prototype]
    let properties ← propertiesUsage inner obj.properties
    let total := header + prototype + properties
    if ← isOver then return total
    return total + (← payloadUsage inner obj.payload)

/-- A value. -/
def valueUsage : Value → Estimate Usage
  | .undefined | .null => bytes sizeHeader
  | .boolean _ => bytes sizeBool
  | .smi _ | .int64 _ => bytes sizeInt
  | .int32 _ | .uint32 _ => bytes sizeInt32
  | .double _ => bytes sizeNumber
  | .string t => stringLeaf t.payloadBytes
  | .symbol s => stringLeaf (s.description.elim 0 Text.payloadBytes)
  | .object o => objectUsage h inner o

/-- The bindings of a frame and of the frames around it, those counted before left out. The chain
ends early when the budget is used up. -/
def framesUsage (total : Usage) (f : FrameId) : Estimate Usage := do
  let frame := h.frame f
  let new ← visitFrame f
  let mut total := total
  if new then
    total := total + (← walk frame.bindings.toList false fun (name, v) => do
      let first ← stringLeaf name.payloadBytes
      return first + (← inner (.value v)))
    total := total + (← innerObjects inner [frame.object])
    if ← isOver then return total
  match h.outer? f with
  | some ⟨g, _⟩ => framesUsage total g
  | none => return total
termination_by f.index

/-- The entries of a map of the host: nothing if it was counted before. -/
def hostEntriesUsage (m : HostMapId) : Estimate Usage := do
  if !(← visit (.hostMap m)) then return .zero
  nested do
    let entries := (h.hostMap m).toList
    walk entries (← samplesEntries entries.length) fun (key, v) => do
      let first ← stringLeaf key.utf8ByteSize
      return first + (← inner (.host v))

/-- The elements of a slice of the host: nothing if it was counted before. -/
def hostElementsUsage (s : HostSliceId) : Estimate Usage := do
  if !(← visit (.hostSlice s)) then return .zero
  nested do
    let elements := (h.hostSlice s).toList
    walk elements (← samplesArray elements.length) fun v => inner (.host v)

/-- A container of the host with its header: nothing if it was counted before. -/
def hostContainerUsage (a : Allocation) (content : Estimate Usage) : Estimate Usage := do
  if (← get).visits.allocations.contains a then return .zero
  let header ← bytes sizeHeader
  return header + (← content)

/-- A value of the host. -/
def hostUsage : HostValue → Estimate Usage
  | .nil | .function _ => bytes sizeHeader
  | .bool _ => bytes sizeBool
  | .int _ | .uint _ => bytes sizeInt
  | .float _ => bytes sizeNumber
  | .str s | .error s => stringLeaf s.utf8ByteSize
  | .map m => hostContainerUsage (.hostMap m) (hostEntriesUsage h inner m)
  | .slice s => hostContainerUsage (.hostSlice s) (hostElementsUsage h inner s)
  | .foreign d => do
    if !(← visit (.foreign d)) then return .zero
    bytes (((← get).oracle (h.foreignData d)).getD 0)
  | .script v => valueUsage h inner v

/-- A node, given how nodes one level down are measured. -/
def nodeUsage : Node → Estimate Usage
  | .value v => valueUsage h inner v
  | .host v => hostUsage h inner v
  | .scope f => nested (framesUsage h inner .zero f)
  | .hostEntries m => hostEntriesUsage h inner m
  | .hostElements s => hostElementsUsage h inner s

/-- A node with room for a number of levels. Without room nothing deeper is asked for, because
entering a level has failed by then. -/
def usageWithin : Nat → Node → Estimate Usage
  | 0 => nodeUsage h fun _ => do throw ⟨(← get).limits.maxDepth⟩
  | n + 1 => nodeUsage h (usageWithin n)

/-- A node, measured from where the context stands. -/
def nodeUsageHere (n : Node) : Estimate Usage := do
  let c ← get
  usageWithin h (c.limits.maxDepth - c.depth) n

/-! ### Estimates -/

/-- What an estimate starts from. -/
inductive Root where
  /-- A node. -/
  | node (n : Node)
  /-- A string. -/
  | text (t : Text)
  /-- Several values. -/
  | values (vs : List Value)
  /-- A property. -/
  | slot (s : Slot)

/-- What a root holds. -/
def rootUsage : Root → Estimate Usage
  | .node n => nodeUsageHere h n
  | .text t => stringLeaf t.payloadBytes
  | .values vs => walk vs false fun v => nodeUsageHere h (.value v)
  | .slot s => slotUsage (nodeUsageHere h) s

/-- An estimate with a context of its own. -/
def estimate (limits : Limits) (oracle : SizeOracle) (root : Root) : Except TooDeep Usage :=
  ((rootUsage h root).run (.new limits oracle)).1

end ScriptCore
