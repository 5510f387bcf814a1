import ScriptCore.Heap.Basic

/-!
# ScriptCore.Host.Wrap

Values **across the border** between scripts and the host, one level deep.

Going in, numbers, texts and truth values become primitives; maps, slices, functions, errors and
foreign data become a new object that shares the host's data. Coming back, an object that wraps data
of the host gives that data, and every other object passes through.
-/

namespace ScriptCore

namespace Heap

/-- A new object around data of the host. -/
def wrapPayload (h : Heap) (payload : Payload) (prototype : Option ObjectId) : Value × Heap :=
  let (o, h) := h.addObject (.new payload prototype)
  (.object o, h)

/-- The value of a script for a value of the host. -/
def wrap (h : Heap) (prototypes : HostPrototypes) : HostValue → Value × Heap
  | .nil => (.null, h)
  | .bool b => (.boolean b, h)
  | .int n => (.smi n, h)
  | .uint n => (if n.toNat < Nat.pow 2 63 then .smi (.ofNat n.toNat) else .double (.ofNat n.toNat), h)
  | .float x => (.ofBinary64 x, h)
  | .str s => (.string (.imported s), h)
  | .map m => h.wrapPayload (.hostMap m prototypes) prototypes.object
  | .slice s => h.wrapPayload (.hostSlice s prototypes) prototypes.array
  | .function f =>
    h.wrapPayload (.function ⟨.empty, some (.host f prototypes), none⟩) prototypes.function
  | .error message => h.wrapPayload (.hostData (.error message)) prototypes.object
  | .foreign d => h.wrapPayload (.hostData (.foreign d)) prototypes.object
  | .script v => (v, h)

/-- The values of a script for several values of the host, made from left to right. -/
def wrapAll (h : Heap) (prototypes : HostPrototypes) : List HostValue → List Value × Heap
  | [] => ([], h)
  | v :: vs =>
    let (w, h) := h.wrap prototypes v
    let (ws, h) := h.wrapAll prototypes vs
    (w :: ws, h)

/-- The value of the host for a value of a script. -/
def unwrap (h : Heap) (v : Value) : HostValue :=
  match v with
  | .undefined | .null => .nil
  | .boolean b => .bool b
  | .smi n | .int64 n => .int n
  | .int32 n => .int n.toInt64
  | .uint32 n => .int (.ofNat n.toNat)
  | .double x => .float x
  | .string t => .str t.toString
  | .symbol _ => .script v
  | .object o => match h.payload o with
    | .hostMap m _ => .map m
    | .hostSlice s _ => .slice s
    | .hostData inner => inner
    | _ => .script v

end Heap

end ScriptCore
