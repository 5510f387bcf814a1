import ScriptCore.Execution.Thrown
import ScriptCore.Host.Wrap
import ScriptCore.Pacing.Bucket

/-!
# ScriptCore.Execution.Basic

**Running** code: the state that an operation may change, what the embedding supplies, and the
operations' type.

Design points:

* An operation on objects may call code that this library does not know: native functions,
  initializers of lazy objects, functions of the host. All of it comes in through an `Embedding`, and
  may itself change the heap.
* An operation that has no end, such as a look-up along a chain that leads back into itself, has no
  result: `Exec` yields `none`. Walks that might have no end take at most `patience` steps, so every
  operation is a total function, and a result that is there does not depend on the bound.
* An operation that throws keeps the changes made before.
-/

namespace ScriptCore

/-- The state that code runs in, with a part `σ` that belongs to the embedding. -/
structure World (σ : Type) where
  /-- What values refer to. -/
  heap : Heap
  /-- The clock, and the tokens that can be cancelled. -/
  timers : Timers
  /-- The token buckets, which several sessions may share. -/
  buckets : Array Bucket
  /-- What belongs to the embedding. -/
  own : σ

/-- A run that changes the world, and has a result if it ends. -/
abbrev Exec (σ : Type) := StateT (World σ) Option

/-- A run that may throw. -/
abbrev Throws (σ : Type) := ExceptT Thrown (Exec σ)

/-- The identity of a token bucket. -/
structure BucketId where
  /-- The place among the buckets. -/
  index : Nat
deriving DecidableEq

/-- What the embedding supplies: the code that objects and sessions refer to by number. -/
structure Embedding (σ : Type) where
  /-- How many steps a walk or a run takes before it counts as having no end. -/
  patience : Nat
  /-- Runs a native body on a receiver and arguments. -/
  callNative : Nat → Value → List Value → Throws σ Value
  /-- Runs the initializer of a lazy object. -/
  makeLazy : Nat → Exec σ Object
  /-- Runs a function of the host; a failure is a text. -/
  callHost : Nat → List HostValue → ExceptT String (Exec σ) HostValue
  /-- Asks a limiter of the embedding for a number of ticks. -/
  requestTicks : Nat → Nat → TokenId → ExceptT Refusal (Exec σ) Unit

instance {σ : Type} : Inhabited (Embedding σ) :=
  ⟨0, fun _ _ _ _ => none, fun _ _ => none, fun _ _ _ => none, fun _ _ _ _ => none⟩

namespace Exec

variable {σ α : Type}

/-- A run that has no end. -/
def endless : Exec σ α := fun _ => none

/-- What a walk over the heap finds, if the walk has an end. -/
def walks (f : Heap → Option α) : Exec σ α := fun w => (f w.heap).map (·, w)

variable {m : Type → Type} [Monad m] [MonadState (World σ) m]

/-- The heap. -/
def heap : m Heap := do return (← get).heap

/-- Something read off the heap. -/
def asks (f : Heap → α) : m α := do return f (← get).heap

/-- Changes the heap. -/
def modifyHeap (f : Heap → Heap) : m Unit := modify fun w => { w with heap := f w.heap }

/-- Changes the heap with a result. -/
def onHeap (f : Heap → α × Heap) : m α :=
  modifyGet fun w => let (a, heap) := f w.heap; (a, { w with heap })

/-- Changes the timers with a result. -/
def onTimers (f : Timers → α × Timers) : m α :=
  modifyGet fun w => let (a, timers) := f w.timers; (a, { w with timers })

end Exec

end ScriptCore
