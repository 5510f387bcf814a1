import ScriptCore.Object.Primitive

/-!
# ScriptCore.Value.Equality

The **equalities** of values.

Design points:

* Strict equality and sameness compare numbers of any width by exact value, and objects by identity,
  where two wrappers of the same data of the host count as one.
* Loose equality converts. All of its rules but one hold between primitives; an object is converted
  into a primitive once, and only against a value that is neither an object nor `undefined` or
  `null`.
-/

namespace ScriptCore

namespace Value

/-- The same variant with the same content; objects are the same by identity. -/
def structEq : Value → Value → Bool
  | .undefined, .undefined | .null, .null => true
  | .boolean a, .boolean b => a == b
  | .smi a, .smi b => a == b
  | .int32 a, .int32 b => a == b
  | .uint32 a, .uint32 b => a == b
  | .int64 a, .int64 b => a == b
  | .double a, .double b => a.numEq b
  | .string a, .string b => a == b
  | .symbol a, .symbol b => a == b
  | .object a, .object b => a == b
  | _, _ => false

/-- A truth value as a number, any other value as it is. -/
def ofTruth : Value → Value
  | .boolean b => .smi (if b then 1 else 0)
  | v => v

/-- Loose equality of primitives: truth values count as numbers, and a string against a number is
read as one. An object equals no primitive. -/
def primitiveLooseEq (a b : Value) : Bool :=
  let a := a.ofTruth
  let b := b.ofTruth
  match a.numeric?, b.numeric? with
  | some m, some n => m.eq n
  | none, none => match a, b with
    | .string s, .string t => s == t
    | .symbol s, .symbol t => s == t
    | _, _ => a.isNullish && b.isNullish
  | some m, none => match b with
    | .string t => (Numeric.float t.toNumber).eq m
    | _ => false
  | none, some n => match a with
    | .string s => (Numeric.float s.toNumber).eq n
    | _ => false

end Value

namespace Heap

/-- Identity of values that are not numbers. -/
def identical (h : Heap) : Value → Value → Bool
  | .undefined, .undefined | .null, .null => true
  | .boolean a, .boolean b => a == b
  | .string a, .string b => a == b
  | .symbol a, .symbol b => a == b
  | .object a, .object b => h.sameIdentity a b
  | _, _ => false

/-- Strict equality: what is not a number is not equal to itself, and the zeros are equal. -/
def strictEq (h : Heap) (a b : Value) : Bool :=
  match a.numeric?, b.numeric? with
  | some m, some n => m.eq n
  | none, none => h.identical a b
  | _, _ => false

/-- Sameness: what is not a number is the same as itself, and the zeros differ. -/
def same (h : Heap) (a b : Value) : Bool :=
  match a.numeric?, b.numeric? with
  | some m, some n => m.same n
  | none, none => h.identical a b
  | _, _ => false

end Heap

variable {σ : Type}

/-- Loose equality of an object and a primitive. -/
def objectLooseEq (env : Embedding σ) (o : ObjectId) (v : Value) : Exec σ Bool := do
  if v.isNullish then return false
  return (← toPrimitive env o .any).primitiveLooseEq v

/-- Loose equality. -/
def looseEq (env : Embedding σ) (a b : Value) : Exec σ Bool := do
  match a, b with
  | .object x, .object y => Exec.asks (·.sameIdentity x y)
  | .object x, b => objectLooseEq env x b
  | a, .object y => objectLooseEq env y a
  | a, b => return a.primitiveLooseEq b

end ScriptCore
