import ScriptCore.Object.Lookup

/-!
# ScriptCore.Object.Primitive

**Primitives for objects**: the value that stands for an object where a number or a string is wanted.

Design points:

* A box gives what it holds. Any other object is asked through its methods `valueOf` and `toString`,
  in the order that the hint says; if neither yields a primitive, its kind has a form of its own.
* The form of a sequence joins the forms of its elements. It follows elements and proxies at most
  `formDepth` deep, and does not follow an object into itself.
* A form may come out as an object again, held in a box. Its text is then formed from the start, and
  nothing bounds how often: a sequence that holds a box around itself has no text.
-/

namespace ScriptCore

/-- The kind of primitive that is wanted. -/
inductive Hint where
  /-- A number, except for dates. -/
  | any
  /-- A number. -/
  | number
  /-- A string. -/
  | string
deriving DecidableEq

/-- How deep the form of a sequence follows its elements. -/
def formDepth : Nat := 32

variable {σ : Type}

/-- The first primitive that a method of an object yields. Whatever goes wrong in one counts as no
answer. -/
def askMethods (env : Embedding σ) (o : ObjectId) : List String → Exec σ (Option Value)
  | [] => return none
  | name :: names => do
    match ← (getProperty env o (.ofString name)).run with
    | .ok (.object method) =>
      if ← Exec.walks (·.isCallable method) then
        match ← (callBare env method (.object o)).run with
        | .ok (.object _) => askMethods env o names
        | .ok v => return some v
        | .error _ => askMethods env o names
      else askMethods env o names
    | _ => askMethods env o names

/-- The text of an element in the form of the sequence `self`. Without `deeper`, which forms
primitives one level down, objects have no text. -/
def elementText (textOf : ObjectId → Exec σ Text)
    (deeper : Option (ObjectId → Hint → Exec σ Value)) (self : ObjectId) :
    Value → Exec σ String
  | .undefined | .null => return ""
  | .object e => match deeper with
    | none => return ""
    | some form => do
      if e = self then return ""
      match ← form e .string with
        | .object inner => return (← textOf inner).toString
        | v => return v.primitiveText.toString
  | v => return v.primitiveText.toString

/-- The form of a sequence: the texts of its elements with commas between them. -/
def sequenceForm (textOf : ObjectId → Exec σ Text)
    (deeper : Option (ObjectId → Hint → Exec σ Value)) (self : ObjectId)
    (elements : List Value) : Exec σ Value := do
  return .ofString (",".intercalate (← elements.mapM (elementText textOf deeper self)))

/-- The form of an object that no method of its own gave a primitive for. -/
def ownForm (textOf : ObjectId → Exec σ Text)
    (deeper : Option (ObjectId → Hint → Exec σ Value)) (o : ObjectId) (wantsString : Bool) :
    Exec σ Value := do
  match ← Exec.asks (·.payload o) with
  | .array elements => sequenceForm textOf deeper o elements.toList
  | .hostSlice s prototypes =>
    sequenceForm textOf deeper o
      (← Exec.onHeap fun h => h.wrapAll prototypes (h.hostSlice s).toList)
  | .date t => return if wantsString then .ofString (Layout.script.write t) else .double t
  | .function f =>
    return .ofString ("function " ++ f.name.toString ++ "() \x7b [native code] \x7d")
  | .proxy (some target) _ => match deeper with
    | none => return .ofString "[object Object]"
    | some form => form target (if wantsString then .string else .number)
  | .hostData (.error message) => return .ofString ("Error: " ++ message)
  | _ => return .ofString "[object Object]"

/-- The primitive that stands for an object, given how one is formed one level down. -/
def primitiveForm (env : Embedding σ) (textOf : ObjectId → Exec σ Text)
    (deeper : Option (ObjectId → Hint → Exec σ Value)) (o : ObjectId) (hint : Hint) :
    Exec σ Value := do
  materialize env o
  match ← Exec.asks (·.payload o) with
  | .boxed v => return v
  | payload =>
    let wantsString := hint == .string || (hint == .any && payload.toClass == .date)
    let methods := if wantsString then ["toString", "valueOf"] else ["valueOf", "toString"]
    match ← askMethods env o methods with
    | some v => return v
    | none => ownForm textOf deeper o wantsString

/-- The primitive that stands for an object, following elements and proxies to a depth. -/
def toPrimitiveWithin (env : Embedding σ) (textOf : ObjectId → Exec σ Text) :
    Nat → ObjectId → Hint → Exec σ Value
  | 0 => primitiveForm env textOf none
  | depth + 1 => primitiveForm env textOf (some (toPrimitiveWithin env textOf depth))

/-- The text of an object, formed anew at most a number of times. -/
def textWithin (env : Embedding σ) : Nat → ObjectId → Exec σ Text
  | 0, _ => Exec.endless
  | n + 1, o => do
    return (← toPrimitiveWithin env (textWithin env n) formDepth o .string).primitiveText

/-- The primitive that stands for an object. It is an object only if a box holds one. -/
def toPrimitive (env : Embedding σ) (o : ObjectId) (hint : Hint) : Exec σ Value :=
  toPrimitiveWithin env (textWithin env env.patience) formDepth o hint

/-! ### Conversions of all values -/

/-- The primitive that stands for a value. -/
def primitiveOf (env : Embedding σ) (hint : Hint) : Value → Exec σ Value
  | .object o => toPrimitive env o hint
  | v => return v

/-- The number that a value stands for, in the width it has. -/
def numberOf (env : Embedding σ) (v : Value) : Exec σ Value := do
  return (← primitiveOf env .number v).primitiveNumber

/-- The string that a value stands for. -/
def textOf (env : Embedding σ) (v : Value) : Exec σ Text := do
  return (← primitiveOf env .string v).primitiveText

/-- The number that a value stands for, without its width. -/
def numericOf (env : Embedding σ) (v : Value) : Exec σ Value.Numeric := do
  return (← numberOf env v).numeric

/-- Calls an object. -/
def callObject (env : Embedding σ) (o : ObjectId) (this : Value) (args : List Value) :
    Throws σ Value :=
  invoke env (textOf env) env.patience o this args

/-- Calls a function of the host. -/
def callHostFunction (env : Embedding σ) (f : HostFunctionId) (args : List HostValue) :
    ExceptT String (Exec σ) HostValue :=
  callHostWith env (callObject env) f args

end ScriptCore
