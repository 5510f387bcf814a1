import Std.Data.HashMap
import ScriptCore.Value.Key

/-!
# ScriptCore.Collection.Basic

The entries behind maps and sets: a table in **insertion order** that can be iterated while it
changes.

Design points:

* Entries live in an arena, one slot each, threaded in insertion order by `prev` and `next`. An index
  leads from a key to its slot.
* A removed entry leaves its slot behind, which still remembers the predecessor it had. A cursor
  that stands on such a slot walks back to a live predecessor and goes on from there. So no entry is
  skipped or seen twice, and entries added during the iteration are reached.
* When removed slots come to outnumber the live ones the arena is rebuilt, and every cursor is moved
  along.
-/

namespace ScriptCore

/-- One slot of the arena. -/
structure Entry where
  /-- The key as a value; of no meaning once removed. -/
  key : Value
  /-- The value stored with the key. The entries of sets have none. -/
  value : Option Value
  /-- The slot before, as it was when the entry was last live. -/
  prev : Option Nat
  /-- The live slot after. -/
  next : Option Nat
  /-- The entry is gone. -/
  removed : Bool
deriving Inhabited

/-- Where a cursor stands. -/
inductive Position where
  /-- Before the first entry. -/
  | start
  /-- Just past a slot. -/
  | past (slot : Nat)
  /-- At the end, for good. -/
  | done
deriving Inhabited

/-- The number of a cursor within its collection. -/
structure CursorId where
  /-- The place among the cursors. -/
  index : Nat
deriving DecidableEq

/-- Entries in insertion order. -/
structure Collection where
  /-- The slots, live and removed. -/
  arena : Array Entry
  /-- The slot of each live key. -/
  index : Std.HashMap Key Nat
  /-- The first live slot. -/
  head : Option Nat
  /-- The last live slot. -/
  tail : Option Nat
  /-- The number of live slots. -/
  size : Nat
  /-- The number of removed slots. -/
  tombstones : Nat
  /-- The positions of the cursors that were made; none for one that was dropped. -/
  cursors : Array (Option Position)

namespace Collection

/-- The arena is not rebuilt for fewer removed slots than this. -/
def compactionMinimum : Nat := 16

/-- A collection without entries. -/
def empty : Collection := ⟨#[], ∅, none, none, 0, 0, #[]⟩

instance : Inhabited Collection := ⟨empty⟩

/-- The slot of a key. -/
def slot? (c : Collection) (key : Value) : Option Nat := c.index[Key.ofValue key]?

/-- The entry in a slot. -/
def entry (c : Collection) (slot : Nat) : Entry := c.arena[slot]?.getD default

/-- The key is present. -/
def contains (c : Collection) (key : Value) : Bool := (c.slot? key).isSome

/-- The value stored with a key. -/
def get? (c : Collection) (key : Value) : Option Value :=
  (c.slot? key).bind fun slot => (c.entry slot).value

/-- The key that is stored for a new entry: a zero becomes the integer. -/
def storedKey : Value → Value
  | .double x => if x.isZero then .smi 0 else .double x
  | v => v

/-- Changes one entry of an arena. -/
def setEntry (arena : Array Entry) (slot : Nat) (f : Entry → Entry) : Array Entry :=
  arena.modify slot f

/-- Stores a value with a key. A key that is present keeps its place; a new one goes to the end. -/
def insert (c : Collection) (key : Value) (value : Option Value) : Collection :=
  match c.slot? key with
  | some slot => { c with arena := setEntry c.arena slot fun e => { e with value } }
  | none =>
    let slot := c.arena.size
    let arena := match c.tail with
      | some tail => setEntry c.arena tail fun e => { e with next := some slot }
      | none => c.arena
    { c with
      arena := arena.push ⟨storedKey key, value, c.tail, none, false⟩
      index := c.index.insert (Key.ofValue key) slot
      head := if c.tail.isSome then c.head else some slot
      tail := some slot
      size := c.size + 1 }

/-- The collection of some entries, inserted in order. -/
def ofList (entries : List (Value × Option Value)) : Collection :=
  entries.foldl (fun c e => c.insert e.1 e.2) empty

/-! ### Iteration -/

/-- The live slots from a given one on. -/
def slotsFrom (c : Collection) : Nat → Option Nat → List Nat
  | 0, _ | _, none => []
  | fuel + 1, some slot => slot :: c.slotsFrom fuel (c.entry slot).next

/-- The live slots in order. -/
def liveSlots (c : Collection) : List Nat := c.slotsFrom c.arena.size c.head

/-- The live entries in order. -/
def toList (c : Collection) : List (Value × Option Value) :=
  c.liveSlots.map fun slot => ((c.entry slot).key, (c.entry slot).value)

/-- The live slot that follows a slot. A removed slot is left toward its predecessor; one without a
predecessor was the first. -/
def successor (c : Collection) (slot : Nat) : Option Nat :=
  match c.arena[slot]? with
  | none => none
  | some e =>
    if e.removed then
      match e.prev with
      | none => c.head
      | some p => if p < slot then c.successor p else none
    else e.next
termination_by slot

/-- The slot that a cursor at a position visits next. -/
def following (c : Collection) : Position → Option Nat
  | .start => c.head
  | .past slot => c.successor slot
  | .done => none

/-- A new cursor before the first entry. -/
def openCursor (c : Collection) : CursorId × Collection :=
  (⟨c.cursors.size⟩, { c with cursors := c.cursors.push (some .start) })

/-- Forgets a cursor. -/
def dropCursor (c : Collection) (cursor : CursorId) : Collection :=
  { c with cursors := c.cursors.setIfInBounds cursor.index none }

/-- The next entry, if there is one, and the collection with the cursor moved past it. -/
def next (c : Collection) (cursor : CursorId) : Option (Value × Option Value) × Collection :=
  let move (p : Position) : Collection :=
    { c with cursors := c.cursors.setIfInBounds cursor.index (some p) }
  match c.following ((c.cursors[cursor.index]?.join).getD .done) with
  | some slot => match c.arena[slot]? with
    | some e => (some (e.key, e.value), move (.past slot))
    | none => (none, move .done)
  | none => (none, move .done)

/-! ### Removal -/

/-- The arena with the neighbours of a slot joined, and a removed entry in the slot. -/
def bridge (arena : Array Entry) (slot : Nat) (prev next : Option Nat) : Array Entry :=
  let arena := match prev with
    | some p => setEntry arena p fun f => { f with next }
    | none => arena
  let arena := match next with
    | some n => setEntry arena n fun f => { f with prev }
    | none => arena
  setEntry arena slot fun f => ⟨.undefined, none, f.prev, none, true⟩

/-- Takes a slot out of the order and leaves a removed entry in it. -/
def unlink (c : Collection) (slot : Nat) : Collection :=
  let ⟨_, _, prev, next, _⟩ := c.entry slot
  { c with
    arena := bridge c.arena slot prev next
    head := if prev.isSome then c.head else next
    tail := if next.isSome then c.tail else prev }

/-- Where a cursor stands after the live slots have been renumbered from zero: past the live
predecessor of the entry that it would visit next. -/
def relocate (c : Collection) (live : List Nat) : Position → Position
  | .past slot =>
    let before := match c.successor slot with
      | some next => live.idxOf next
      | none => live.length
    if before = 0 then .start else .past (before - 1)
  | p => p

/-- The arena with the live entries alone. -/
def compact (c : Collection) : Collection :=
  let live := c.liveSlots
  let count := live.length
  let entries := live.mapIdx fun i slot =>
    let e := c.entry slot
    (⟨e.key, e.value, if i = 0 then none else some (i - 1),
      if i + 1 < count then some (i + 1) else none, false⟩ : Entry)
  { c with
    arena := entries.toArray
    index := .ofList (entries.mapIdx fun i e => (Key.ofValue e.key, i))
    head := if count = 0 then none else some 0
    tail := if count = 0 then none else some (count - 1)
    tombstones := 0
    cursors := c.cursors.map (·.map (c.relocate live)) }

/-- Removes a key, and tells whether it was present. -/
def erase (c : Collection) (key : Value) : Bool × Collection :=
  match c.slot? key with
  | none => (false, c)
  | some slot =>
    let c := c.unlink slot
    let c := { c with
      index := c.index.erase (Key.ofValue key)
      size := c.size - 1
      tombstones := c.tombstones + 1 }
    (true, if compactionMinimum ≤ c.tombstones && c.size < c.tombstones then c.compact else c)

/-- Removes every entry. A cursor on its way starts again with what is added later. -/
def clear (c : Collection) : Collection :=
  { empty with cursors := c.cursors.map (·.map fun
      | .past _ => .start
      | p => p) }

end Collection

end ScriptCore
