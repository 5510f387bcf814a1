import ScriptCore.Heap.Basic
import ScriptCore.Numeral.Layout
import ScriptCore.Text.Quoted

/-!
# ScriptCore.Host.Describe

Values **as text for people**: the variant's name and its content.

A container of the host may hold itself. Its description would have no end, so there is none; the
number of containers bounds how deep a description can go otherwise.
-/

namespace ScriptCore

/-- A name with its content in parentheses. -/
def describeVariant (name content : String) : String := name ++ "(" ++ content ++ ")"

/-- Parts with commas between them. -/
def commaSeparated (parts : List String) : String := ", ".intercalate parts

/-- The name of an object's class. -/
def ObjectClass.name : ObjectClass → String
  | .plain => "Plain"
  | .array => "Array"
  | .function => "Function"
  | .map => "Map"
  | .set => "Set"
  | .proxy => "Proxy"
  | .hostBacked => "HostBacked"
  | .lazy => "Lazy"
  | .boxed => "PrimitiveWrapper"
  | .date => "Date"

namespace Heap

/-- The description of a value. -/
def describe (h : Heap) : Value → String
  | .undefined => "Undefined"
  | .null => "Null"
  | .boolean b => describeVariant "Boolean" (toString b)
  | .smi n => describeVariant "Smi" (toString n.toInt)
  | .int32 n => describeVariant "Int32" (toString n.toInt)
  | .uint32 n => describeVariant "UInt32" (toString n.toNat)
  | .int64 n => describeVariant "Int64" (toString n.toInt)
  | .double x => describeVariant "Double" (Layout.diagnostic.write x)
  | .string t => describeVariant "String" (quoted t.toString)
  | .symbol s => describeVariant "Symbol" (s.display ++ "#" ++ toString s.number)
  | .object o => describeVariant "Object" <|
      describeVariant "Object" ((h.object o).toClass.name ++ "@" ++ toString o.index)

/-- The description of a value of the host, going into containers to a depth. -/
def describeHostWithin (h : Heap) : Nat → HostValue → Option String
  | _, .nil => some "Nil"
  | _, .bool b => some (describeVariant "Bool" (toString b))
  | _, .int n => some (describeVariant "Int" (toString n.toInt))
  | _, .uint n => some (describeVariant "UInt" (toString n.toNat))
  | _, .float x => some (describeVariant "Float" (Layout.diagnostic.write x))
  | _, .str s => some (describeVariant "Str" (quoted s))
  | _, .error s => some (describeVariant "Error" (quoted s))
  | _, .function _ => some "Function(..)"
  | _, .foreign _ => some "Opaque(..)"
  | _, .script v => some (describeVariant "Js" (h.describe v))
  | 0, .map _ | 0, .slice _ => none
  | n + 1, .map m => do
    let parts ← (h.hostMap m).toList.mapM fun (key, value) =>
      (h.describeHostWithin n value).map fun text => quoted key ++ ": " ++ text
    return describeVariant "Map" ("\x7b" ++ commaSeparated parts ++ "\x7d")
  | n + 1, .slice s => do
    let parts ← (h.hostSlice s).toList.mapM (h.describeHostWithin n)
    return describeVariant "Slice" ("[" ++ commaSeparated parts ++ "]")

/-- The description of a value of the host, if it has an end. A way down that passes through more
containers than there are has passed through one twice. -/
def describeHost? (h : Heap) (v : HostValue) : Option String :=
  h.describeHostWithin (h.hostMaps.size + h.hostSlices.size + 1) v

/-- The text under which a value of the host serves as a key of a map. -/
def keyText? (h : Heap) : HostValue → Option String
  | .str s => some s
  | .int n => some (toString n.toInt)
  | .uint n => some (toString n.toNat)
  | .float x => some (Layout.script.write x)
  | .bool b => some (toString b)
  | .nil => some "null"
  | v => h.describeHost? v

/-- The description of the entries of a collection. -/
def describeCollection (h : Heap) (c : Collection) : String :=
  let parts := c.toList.map fun (key, value) =>
    h.describe key ++ ": " ++ (value.elim "None" fun v => describeVariant "Some" (h.describe v))
  "\x7b" ++ commaSeparated parts ++ "\x7d"

/-- The description of a scope frame. -/
def describeFrame (h : Heap) (f : FrameId) : String :=
  let frame := h.frame f
  let names := frame.bindings.toList.map fun b => quoted b.1.toString
  "Scope \x7b names: [" ++ commaSeparated names ++ "], has_object: " ++
    toString frame.object.isSome ++ ", has_outer: " ++ toString frame.outer.isSome ++ " \x7d"

end Heap

end ScriptCore
