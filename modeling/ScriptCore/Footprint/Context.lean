import Std.Data.HashSet
import ScriptCore.Footprint.Usage
import ScriptCore.Heap.Basic

/-!
# ScriptCore.Footprint.Context

The **state of an estimate**: what has been counted, how deep it stands, and how much has been
charged.

Design points:

* A context is passed from one pass to the next, so that what one pass has counted costs the next
  nothing.
* Going over the budget is no error: containers stop being walked. Going past the depth ceiling is
  one, and it leaves the depth as it was.
-/

namespace ScriptCore

/-- The limits of an estimate. -/
structure Limits where
  /-- The deepest nesting that is followed. -/
  maxDepth : Nat
  /-- The budget, in refined bytes. -/
  memLimit : Nat
  /-- Longer sequences are sampled. -/
  arrayThreshold : Nat
  /-- Objects, maps and sets with more entries are sampled. -/
  entriesThreshold : Nat
  /-- The fraction of elements that a sample measures. -/
  sampleRate : Binary64
deriving DecidableEq

namespace Limits

/-- The usual limits. -/
def default : Limits := ⟨100, maxBytes, 1000, 1000, .ofRatio false 1 10⟩

/-- Limits for estimates that are made often. -/
def strict : Limits := ⟨32, 64 * 1024 * 1024, 100, 100, .ofRatio false 1 20⟩

instance : Inhabited Limits := ⟨default⟩

/-- Some bytes are more than the budget allows. -/
def isExceededBy (l : Limits) (bytes : Nat) : Bool := l.memLimit < bytes

/-- A sequence of some length is sampled. -/
def samplesArray (l : Limits) (length : Nat) : Bool := l.arrayThreshold < length

/-- A container with some number of entries is sampled. -/
def samplesEntries (l : Limits) (count : Nat) : Bool := l.entriesThreshold < count

end Limits

/-- What an embedding knows about the size of foreign data. -/
abbrev SizeOracle := Foreign → Option Nat

/-- The nesting is deeper than the ceiling. -/
structure TooDeep where
  /-- The ceiling. -/
  maxDepth : Nat
deriving DecidableEq

/-- The wording of the error. -/
def TooDeep.message (e : TooDeep) : String := "reached max depth " ++ toString e.maxDepth

/-- What has been counted already. -/
structure Visits where
  /-- Objects and data of the host. -/
  allocations : Std.HashSet Allocation
  /-- Scope frames. -/
  frames : Std.HashSet Allocation

namespace Visits

/-- Nothing counted. -/
def none : Visits := ⟨∅, ∅⟩

/-- Records an object or data of the host; false if it was recorded before. -/
def visit (v : Visits) (a : Allocation) : Bool × Visits :=
  (!v.allocations.contains a, { v with allocations := v.allocations.insert a })

/-- Records a scope frame; false if it was recorded before. -/
def visitFrame (v : Visits) (a : Allocation) : Bool × Visits :=
  (!v.frames.contains a, { v with frames := v.frames.insert a })

end Visits

/-- How deep an estimate stands, under a ceiling. -/
structure Depth where
  /-- The levels entered and not left. -/
  current : Nat
  /-- The ceiling. -/
  max : Nat

namespace Depth

/-- Enters a level, unless the ceiling is reached. -/
def descend (d : Depth) : Except TooDeep Depth :=
  if d.current = d.max then .error ⟨d.max⟩ else .ok { d with current := d.current + 1 }

/-- Leaves a level. -/
def ascend (d : Depth) : Depth := { d with current := d.current - 1 }

end Depth

/-- The state of an estimate. -/
structure Context where
  /-- The limits. -/
  limits : Limits
  /-- What is known about foreign data. -/
  oracle : SizeOracle
  /-- What has been counted. -/
  visits : Visits
  /-- How deep it stands. -/
  depth : Nat
  /-- The refined bytes charged so far. -/
  spent : Nat

namespace Context

/-- The state at the start. -/
def new (limits : Limits) (oracle : SizeOracle) : Context := ⟨limits, oracle, .none, 0, 0⟩

/-- More has been charged than the budget allows. -/
def isOver (c : Context) : Bool := c.limits.isExceededBy c.spent

/-- Adds to what has been charged. -/
def charge (c : Context) (u : Usage) : Context :=
  { c with spent := saturatingAdd c.spent u.refined }

/-- Enters a level, unless the ceiling is reached. -/
def descend (c : Context) : Except TooDeep Context :=
  (Depth.descend ⟨c.depth, c.limits.maxDepth⟩).map fun d => { c with depth := d.current }

/-- Leaves a level. -/
def ascend (c : Context) : Context :=
  { c with depth := (Depth.ascend ⟨c.depth, c.limits.maxDepth⟩).current }

end Context

/-- A pass that may meet the depth ceiling. The context survives the error. -/
abbrev Estimate := ExceptT TooDeep (StateM Context)

namespace Estimate

/-- Charges a cost that has no parts. -/
def leaf (u : Usage) : Estimate Usage := do
  modify (·.charge u)
  return u

/-- Charges a string with a payload of some bytes. -/
def stringLeaf (payload : Nat) : Estimate Usage := leaf (.string payload)

/-- Charges some bytes. -/
def bytes (n : Nat) : Estimate Usage := leaf (.uniform n)

/-- Records an object or data of the host; false if it was recorded before. -/
def visit (a : Allocation) : Estimate Bool :=
  modifyGet fun c => let (new, visits) := c.visits.visit a; (new, { c with visits })

/-- Records a scope frame; false if it was recorded before. -/
def visitFrame (f : FrameId) : Estimate Bool :=
  modifyGet fun c => let (new, visits) := c.visits.visitFrame (.frame f); (new, { c with visits })

/-- The budget is used up. -/
def isOver : Estimate Bool := do return (← get).isOver

/-- Runs a pass one level deeper, and leaves the level whatever comes of it. -/
def nested {α : Type} (body : Estimate α) : Estimate α := ExceptT.mk fun c =>
  match c.descend with
  | .error e => (.error e, c)
  | .ok c => let (result, c) := body.run c; (result, c.ascend)

end Estimate

end ScriptCore
