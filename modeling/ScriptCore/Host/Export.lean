import ScriptCore.Host.Describe
import ScriptCore.Object.Primitive

/-!
# ScriptCore.Host.Export

**Deep conversion** of values for the host: objects become maps, slices, texts and numbers all the
way down.

Design points:

* Data of the host is handed back as it is, however deep it goes. Everything else is copied.
* The path of objects that are being exported is carried along. An object on its own path is an
  error, and so is a path of more than `maxExportDepth` objects; the length of the path also bounds
  the recursion.
-/

namespace ScriptCore

/-- The longest path of objects that an export follows. -/
def maxExportDepth : Nat := 128

/-- Why a value could not be exported. -/
inductive ExportError where
  /-- A value of the type `source` does not take the shape `shape`. -/
  | incompatible (source shape : String)
  /-- An object leads back to itself. -/
  | circular
  /-- The objects are nested deeper than `limit`. -/
  | tooDeep (limit : Nat)
deriving DecidableEq

/-- The name of the cause. -/
def ExportError.name : ExportError → String
  | .incompatible .. => "Incompatible"
  | .circular => "Circular"
  | .tooDeep _ => "TooDeep"

/-- The wording of an error. -/
def ExportError.message : ExportError → String
  | .incompatible source shape => "cannot export " ++ source ++ " as " ++ shape
  | .circular => "cannot export a circular structure"
  | .tooDeep limit => "cannot export a structure nested deeper than " ++ toString limit

/-- The shape that the host wants. -/
inductive ExportShape where
  | any | bool | int | float | string | map | slice
deriving DecidableEq

/-- The name of a shape. -/
def ExportShape.name : ExportShape → String
  | .any => "any"
  | .bool => "bool"
  | .int => "int"
  | .float => "float"
  | .string => "string"
  | .map => "map"
  | .slice => "slice"

/-- The shape with a name; any shape for a name that is not one. -/
def ExportShape.ofName (name : String) : ExportShape :=
  ([bool, int, float, string, map, slice].find? (·.name == name)).getD any

/-- A run that may fail to export something. -/
abbrev Exports (σ : Type) := ExceptT ExportError (Exec σ)

variable {σ : Type}

/-- A new slice of the host. -/
def newHostSlice (items : List HostValue) : Exports σ HostValue := do
  return .slice (← Exec.onHeap (·.addHostSlice items.toArray))

/-- A new map of the host. Of entries with the same key the last counts. -/
def newHostMap (entries : List (String × HostValue)) : Exports σ HostValue := do
  return .map (← Exec.onHeap (·.addHostMap (.ofList entries)))

/-- The enumerable own properties of an object, exported. -/
def exportProperties (env : Embedding σ) (child : Value → Exports σ HostValue) (o : ObjectId) :
    List Text → Exports σ (List (String × HostValue))
  | [] => return []
  | name :: names => do
    match ← ownProperty env o name with
    | some slot =>
      if slot.attributes.enumerable then
        let v ← child (← getOrUndefined env o name)
        return (name.toString, v) :: (← exportProperties env child o names)
      else exportProperties env child o names
    | none => exportProperties env child o names

/-- An object that is not data of the host, given how what it holds is exported. -/
def exportObject (env : Embedding σ) (child : Value → Exports σ HostValue) (o : ObjectId) :
    Exports σ HostValue := do
  materialize env o
  match ← Exec.asks (·.payload o) with
  | .array elements => newHostSlice (← elements.toList.mapM child)
  | .map entries =>
    newHostSlice (← entries.toList.mapM fun (key, value) => do
      let key ← child key
      let value ← match value with
        | some v => child v
        | none => pure .nil
      newHostSlice [key, value])
  | .set entries => newHostSlice (← entries.toList.mapM fun (key, _) => child key)
  | .boxed v => child v
  | .date t => return .float t
  | .proxy (some target) _ => child (.object target)
  | .proxy none _ => return .nil
  | .function _ => return .function (← Exec.onHeap (·.addHostFunction (.exported o)))
  | _ => newHostMap (← exportProperties env child o (← ownPropertyNames env o))

/-- A value, given how values one level down are exported and the path that leads to it. -/
def exportAt (env : Embedding σ) (child : List ObjectId → Value → Exports σ HostValue)
    (path : List ObjectId) (v : Value) : Exports σ HostValue := do
  match v with
  | .object o => match ← Exec.asks (·.payload o) with
    | .hostMap m _ => return .map m
    | .hostSlice s _ => return .slice s
    | .hostData inner => return inner
    | _ =>
      if path.contains o then throw .circular
      else if maxExportDepth ≤ path.length then throw (.tooDeep maxExportDepth)
      else exportObject env (child (o :: path)) o
  | v => Exec.asks (·.unwrap v)

/-- A value at the end of a path that may grow by a number of objects. -/
def exportWithin (env : Embedding σ) : Nat → List ObjectId → Value → Exports σ HostValue
  | 0 => exportAt env fun _ _ => throw (.tooDeep maxExportDepth)
  | n + 1 => exportAt env (exportWithin env n)

/-- Exports a value in the shape that fits best. -/
def exportAny (env : Embedding σ) (v : Value) : Exports σ HostValue :=
  exportWithin env maxExportDepth [] v

/-- The entries of a map that was exported as a slice of pairs. -/
def pairEntries (h : Heap) (pairs : List HostValue) : Option (List (String × HostValue)) :=
  pairs.filterMapM fun
    | .slice s => match (h.hostSlice s).toList with
      | key :: value :: _ => (h.keyText? key).map fun k => some (k, value)
      | _ => some none
    | _ => some none

/-- Exports an object as a map of the host. -/
def exportAsMap (env : Embedding σ) (o : ObjectId) (refuse : Exports σ HostValue) :
    Exports σ HostValue := do
  materialize env o
  match ← Exec.asks (·.payload o) with
  | .array _ | .set _ | .hostSlice .. | .hostData _ => refuse
  | _ => match ← exportAny env (.object o) with
    | .map m => return .map m
    | .slice pairs =>
      if (← Exec.asks (·.object o |>.toClass)) = .map then
        match ← Exec.asks fun h => pairEntries h (h.hostSlice pairs).toList with
        | some entries => newHostMap entries
        | none => Exec.endless
      else refuse
    | _ => refuse

/-- Exports an object as a slice of the host. -/
def exportAsSlice (env : Embedding σ) (o : ObjectId) (refuse : Exports σ HostValue) :
    Exports σ HostValue := do
  materialize env o
  match ← Exec.asks (·.payload o) with
  | .array _ | .map _ | .set _ | .hostSlice .. | .proxy .. =>
    match ← exportAny env (.object o) with
    | .slice s => return .slice s
    | _ => refuse
  | _ => refuse

/-- Exports a value in a given shape. -/
def exportAs (env : Embedding σ) (v : Value) (shape : ExportShape) : Exports σ HostValue := do
  let refuse : Exports σ HostValue := do
    let source ← (Exec.walks (·.typeOf v) : Exec σ String)
    throw (.incompatible source shape.name)
  match shape with
  | .any => exportAny env v
  | .bool => return .bool v.toBool
  | .int => match (← numberOf env v).numeric with
    | .float x => if x.isNaN then refuse else return .int (Value.Numeric.float x).toInt64
    | n => return .int n.toInt64
  | .float => match v with
    | .symbol _ => refuse
    | v => return .float (← numericOf env v).toBinary64
  | .string => return .str (← textOf env v).toString
  | .map => match v with
    | .object o => exportAsMap env o refuse
    | _ => refuse
  | .slice => match v with
    | .object o => exportAsSlice env o refuse
    | _ => refuse

end ScriptCore
