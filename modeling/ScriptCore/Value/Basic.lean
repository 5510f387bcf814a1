import ScriptCore.Numeral.Layout
import ScriptCore.Text.Basic

/-!
# ScriptCore.Value.Basic

The **values** of scripts.

Design points:

* Everything mutable lives in the heap. A value refers to it by a typed identity, so a value is plain
  data, and "the same object" means "the same identity".
* Numbers come in several widths. `numeric?` reduces them to the two shapes that matter to a
  comparison, an exact integer or a double-precision number.
-/

namespace ScriptCore

/-! ### Identities -/

/-- The identity of an object. -/
structure ObjectId where
  /-- The place in the heap. -/
  index : Nat
deriving DecidableEq, Hashable, Repr

/-- The identity of a scope frame. -/
structure FrameId where
  /-- The place in the heap. -/
  index : Nat
deriving DecidableEq, Hashable, Repr

/-- The identity of a map owned by the host. -/
structure HostMapId where
  /-- The place in the heap. -/
  index : Nat
deriving DecidableEq, Hashable, Repr

/-- The identity of a slice owned by the host. -/
structure HostSliceId where
  /-- The place in the heap. -/
  index : Nat
deriving DecidableEq, Hashable, Repr

/-- The identity of a function owned by the host. -/
structure HostFunctionId where
  /-- The place in the heap. -/
  index : Nat
deriving DecidableEq, Hashable, Repr

/-- The identity of host data that scripts cannot look into. -/
structure ForeignId where
  /-- The place in the heap. -/
  index : Nat
deriving DecidableEq, Hashable, Repr

/-- A symbol: two are the same exactly if their numbers are. -/
structure Symbol where
  /-- What tells it apart. -/
  number : Nat
  /-- The description given at creation. -/
  description : Option Text

namespace Symbol

instance : BEq Symbol := ⟨fun a b => a.number == b.number⟩

/-- The text shown for a symbol. -/
def display (s : Symbol) : String := "Symbol(" ++ (s.description.elim "" Text.toString) ++ ")"

end Symbol

/-! ### Values -/

/-- A value of a script. -/
inductive Value where
  /-- No value. -/
  | undefined
  /-- The null reference. -/
  | null
  /-- A truth value. -/
  | boolean (b : Bool)
  /-- An integer in the usual representation. -/
  | smi (n : Int64)
  /-- A 32-bit signed integer. -/
  | int32 (n : Int32)
  /-- A 32-bit unsigned integer. -/
  | uint32 (n : UInt32)
  /-- A 64-bit signed integer. -/
  | int64 (n : Int64)
  /-- A double-precision number. -/
  | double (x : Binary64)
  /-- A string. -/
  | string (t : Text)
  /-- A symbol. -/
  | symbol (s : Symbol)
  /-- A reference to an object. -/
  | object (o : ObjectId)

namespace Value

instance : Inhabited Value := ⟨undefined⟩

/-- The string value of a text. -/
def ofString (s : String) : Value := .string (.ofString s)

/-- The integer value of a natural number that fits. -/
def ofNat (n : Nat) : Value := .smi (.ofNat n)

/-- The canonical form of a number: an integer if it is whole, no larger than `2⁵³` in size and not
`-0`. -/
def ofBinary64 (x : Binary64) : Value :=
  if x.isWhole && !(x.isZero && x.isNegative) && x.truncate.natAbs ≤ Nat.pow 2 53 then
    .smi (.ofInt x.truncate)
  else .double x

/-- The value is `undefined` or `null`. -/
def isNullish : Value → Bool
  | .undefined | .null => true
  | _ => false

/-- The object that is referred to. -/
def object? : Value → Option ObjectId
  | .object o => some o
  | _ => none

/-- The value is an object. -/
def isObject (v : Value) : Bool := v.object?.isSome

/-! ### Numbers of any width -/

/-- A number without its width. -/
inductive Numeric where
  /-- An exact integer. -/
  | int (n : Int)
  /-- A double-precision number. -/
  | float (x : Binary64)

/-- The number that a value is, if it is one. -/
def numeric? : Value → Option Numeric
  | .smi n | .int64 n => some (.int n.toInt)
  | .int32 n => some (.int n.toInt)
  | .uint32 n => some (.int n.toNat)
  | .double x => some (.float x)
  | _ => none

/-- The value is a number. -/
def isNumber (v : Value) : Bool := v.numeric?.isSome

namespace Numeric

/-- An integer and a double-precision number denote the same real number. -/
def intEqFloat (n : Int) (x : Binary64) : Bool := x.isWhole && x.truncate == n

/-- Equality by exact value; what is not a number equals nothing. -/
def eq : Numeric → Numeric → Bool
  | .int m, .int n => m == n
  | .float x, .float y => x.numEq y
  | .int n, .float x | .float x, .int n => intEqFloat n x

/-- Equality that tells the zeros apart, takes integer zero for `+0`, and takes what is not a number
for itself. -/
def same : Numeric → Numeric → Bool
  | .int m, .int n => m == n
  | .float x, .float y =>
    (x.isNaN && y.isNaN) || (x.numEq y && x.isNegative == y.isNegative)
  | .int n, .float x | .float x, .int n => intEqFloat n x && !(n == 0 && x.isNegative)

/-- The nearest double-precision number. -/
def toBinary64 : Numeric → Binary64
  | .int n => .ofInt n
  | .float x => x

/-- The 64-bit integer: the whole part, moved into range. -/
def toInt64 : Numeric → Int64
  | .int n => .ofInt n
  | .float x => .ofInt (x.clamp (-Nat.pow 2 63) (Nat.pow 2 63 - 1))

/-- The 32-bit integer: integers wrap around, other numbers are moved into range. -/
def toInt32 : Numeric → Int32
  | .int n => .ofInt n
  | .float x => .ofInt (x.clamp (-Nat.pow 2 31) (Nat.pow 2 31 - 1))

/-- The unsigned 32-bit integer: integers wrap around, other numbers are moved into range. -/
def toUInt32 : Numeric → UInt32
  | .int n => .ofInt n
  | .float x => .ofInt (x.clamp 0 (Nat.pow 2 32 - 1))

end Numeric

/-! ### Conversions of values that are not objects -/

/-- Whether the value counts as true. -/
def toBool : Value → Bool
  | .undefined | .null => false
  | .boolean b => b
  | .smi n | .int64 n => n != 0
  | .int32 n => n != 0
  | .uint32 n => n != 0
  | .double x => !x.isNaN && !x.isZero
  | .string t => !t.isEmpty
  | .symbol _ | .object _ => true

/-- The number that a primitive stands for, in the width it has. An object, which is no primitive,
is not a number. -/
def primitiveNumber : Value → Value
  | .boolean b => .smi (if b then 1 else 0)
  | .null => .smi 0
  | .undefined | .symbol _ | .object _ => .double .nan
  | .string t => ofBinary64 t.toNumber
  | v => v

/-- The string that a primitive stands for, and a fixed one for an object, which is no primitive. -/
def primitiveText : Value → Text
  | .undefined => .ofString "undefined"
  | .null => .ofString "null"
  | .boolean b => .ofString (if b then "true" else "false")
  | .smi n | .int64 n => .ofString (toString n.toInt)
  | .int32 n => .ofString (toString n.toInt)
  | .uint32 n => .ofString (toString n.toNat)
  | .double x => .ofString (Layout.script.write x)
  | .string t => t
  | .symbol s => .ofString s.display
  | .object _ => .ofString "[object Object]"

/-- The number in a value of numeric shape; what is not a number otherwise. -/
def numeric (v : Value) : Numeric := v.numeric?.getD (.float .nan)

end Value

end ScriptCore
