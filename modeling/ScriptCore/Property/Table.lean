import Std.Data.HashMap
import ScriptCore.Property.Slot

/-!
# ScriptCore.Property.Table

The own properties of an object, **in the order in which they were added**.

A name is present at most once, whatever form its string is stored in. Replacing a slot keeps the
place of its name; a name that is removed and added again goes to the end.
-/

namespace ScriptCore

/-- Properties in insertion order. -/
structure PropertyTable where
  /-- The names in order. -/
  names : Array Text
  /-- The slot of each name. -/
  slots : Std.HashMap Text Slot

namespace PropertyTable

/-- The table without properties. -/
def empty : PropertyTable := ⟨#[], ∅⟩

instance : Inhabited PropertyTable := ⟨empty⟩

/-- The number of properties. -/
def size (t : PropertyTable) : Nat := t.names.size

/-- There are no properties. -/
def isEmpty (t : PropertyTable) : Bool := t.names.isEmpty

/-- The slot of a name. -/
def get? (t : PropertyTable) (name : Text) : Option Slot := t.slots[name]?

/-- Adds a property, or replaces the slot of one that is present. -/
def insert (t : PropertyTable) (name : Text) (slot : Slot) : PropertyTable :=
  ⟨if t.slots.contains name then t.names else t.names.push name, t.slots.insert name slot⟩

/-- Changes the slot of a name that is present. -/
def update (t : PropertyTable) (name : Text) (f : Slot → Slot) : PropertyTable :=
  match t.get? name with
  | some slot => { t with slots := t.slots.insert name (f slot) }
  | none => t

/-- Removes a property. -/
def erase (t : PropertyTable) (name : Text) : PropertyTable :=
  if t.slots.contains name then ⟨t.names.filter (· != name), t.slots.erase name⟩ else t

/-- Names and slots in order. -/
def toList (t : PropertyTable) : List (Text × Slot) :=
  t.names.toList.filterMap fun name => (t.get? name).map (name, ·)

end PropertyTable

end ScriptCore
