import ScriptCore.Value.Basic

/-!
# ScriptCore.Host.Value

The values of the **host**, the application that scripts are embedded in.

Maps, slices, functions and foreign data are shared, not copied: a host value refers to them by
identity, and so does every object that wraps it.
-/

namespace ScriptCore

/-- A value of the host. -/
inductive HostValue where
  /-- No value. -/
  | nil
  /-- A truth value. -/
  | bool (b : Bool)
  /-- A signed integer. -/
  | int (n : Int64)
  /-- An unsigned integer. -/
  | uint (n : UInt64)
  /-- A double-precision number. -/
  | float (x : Binary64)
  /-- A text. -/
  | str (s : String)
  /-- A map from texts. -/
  | map (m : HostMapId)
  /-- A sequence. -/
  | slice (s : HostSliceId)
  /-- A function. -/
  | function (f : HostFunctionId)
  /-- An error with its message. -/
  | error (message : String)
  /-- Data that scripts cannot look into. -/
  | foreign (d : ForeignId)
  /-- A value of a script, passed through untouched. -/
  | script (v : Value)

/-- Something with an identity of its own that a footprint counts once. -/
inductive Allocation where
  /-- An object. -/
  | object (o : ObjectId)
  /-- A map of the host. -/
  | hostMap (m : HostMapId)
  /-- A slice of the host. -/
  | hostSlice (s : HostSliceId)
  /-- A function of the host. -/
  | hostFunction (f : HostFunctionId)
  /-- Foreign data. -/
  | foreign (d : ForeignId)
  /-- A scope frame. -/
  | frame (f : FrameId)
  /-- Anything else that is counted under a number of its own. -/
  | numbered (n : Nat)
deriving DecidableEq, Hashable

namespace HostValue

instance : Inhabited HostValue := ⟨nil⟩

/-- The name of the value's type. -/
def typeName : HostValue → String
  | .nil => "nil"
  | .bool _ => "bool"
  | .int _ => "int"
  | .uint _ => "uint"
  | .float _ => "float"
  | .str _ => "string"
  | .map _ => "map"
  | .slice _ => "slice"
  | .function _ => "function"
  | .error _ => "error"
  | .foreign _ => "opaque"
  | .script _ => "value"

/-- What the value shares with every other reference to it. -/
def shared? : HostValue → Option Allocation
  | .map m => some (.hostMap m)
  | .slice s => some (.hostSlice s)
  | .function f => some (.hostFunction f)
  | .foreign d => some (.foreign d)
  | _ => none

end HostValue

end ScriptCore
