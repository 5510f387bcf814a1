import ScriptCore.Value.Basic

/-!
# ScriptCore.Value.Key

What a collection **tells apart**: the key of a value.

Numbers of every width with one exact value share a key, the two zeros share one, and everything
that is not a number shares one. Strings are told apart by their code units, and objects by their
own identity.
-/

namespace ScriptCore

/-- The key of a value. -/
inductive Key where
  /-- The key of `undefined`. -/
  | undefined
  /-- The key of `null`. -/
  | null
  /-- A truth value. -/
  | boolean (b : Bool)
  /-- A whole number in the range of 64-bit integers. -/
  | int (n : Int64)
  /-- Any other number. -/
  | float (x : Binary64)
  /-- Everything that is not a number. -/
  | nan
  /-- The code units of a string. -/
  | string (units : List UInt16)
  /-- A symbol. -/
  | symbol (number : Nat)
  /-- An object. -/
  | object (o : ObjectId)
deriving DecidableEq, Hashable

namespace Key

/-- The key of a double-precision number. -/
def ofBinary64 (x : Binary64) : Key :=
  if x.isNaN then .nan
  else if x.isWhole && -Nat.pow 2 63 ≤ x.truncate && x.truncate < Nat.pow 2 63 then .int (.ofInt x.truncate)
  else .float x

/-- The key of a value. -/
def ofValue : Value → Key
  | .undefined => .undefined
  | .null => .null
  | .boolean b => .boolean b
  | .smi n | .int64 n => .int n
  | .int32 n => .int n.toInt64
  | .uint32 n => .int (.ofNat n.toNat)
  | .double x => ofBinary64 x
  | .string t => .string t.units
  | .symbol s => .symbol s.number
  | .object o => .object o

end Key

end ScriptCore
