import ScriptCore.Value.Basic

/-!
# ScriptCore.Property.Slot

A single own property: a stored value, or a pair of functions called on reads and writes.
-/

namespace ScriptCore

/-- What may be done with a property. -/
structure Attributes where
  /-- Assignment may change the value. -/
  writable : Bool
  /-- The property shows up in enumerations. -/
  enumerable : Bool
  /-- The property may be deleted. -/
  configurable : Bool
deriving DecidableEq, Repr

namespace Attributes

/-- What plain assignment gives a new property: everything is allowed. -/
def default : Attributes := ⟨true, true, true⟩

/-- What built-in methods have: they are skipped by enumerations. -/
def hidden : Attributes := ⟨true, false, true⟩

/-- Nothing is allowed. -/
def frozen : Attributes := ⟨false, false, false⟩

/-- What the computed `length` of a sequence has. -/
def length : Attributes := ⟨true, false, false⟩

/-- What the letters `w`, `e` and `c` in a text allow. -/
def ofLetters (s : String) : Attributes := ⟨s.contains 'w', s.contains 'e', s.contains 'c'⟩

/-- The letters `w`, `e` and `c` for what is allowed, each with a dash in its place otherwise. -/
def letters (a : Attributes) : String :=
  String.ofList [if a.writable then 'w' else '-', if a.enumerable then 'e' else '-',
    if a.configurable then 'c' else '-']

end Attributes

/-- An own property. -/
inductive Slot where
  /-- A stored value. -/
  | data (value : Value) (attributes : Attributes)
  /-- A getter and a setter, each of which may be missing. -/
  | accessor (getter setter : Option ObjectId) (attributes : Attributes)

namespace Slot

/-- What may be done with the property. -/
def attributes : Slot → Attributes
  | .data _ a | .accessor _ _ a => a

/-- The stored value. -/
def value? : Slot → Option Value
  | .data v _ => some v
  | .accessor .. => none

/-- The property calls functions. -/
def isAccessor : Slot → Bool
  | .accessor .. => true
  | .data .. => false

end Slot

end ScriptCore
