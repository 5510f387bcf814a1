import ScriptCore.Object.Call

/-!
# ScriptCore.Object.Lookup

**Finding** a property: along prototypes, and through proxies.

Design points:

* A proxy on the way is replaced by its target. A lazy object is made when it is reached; what it
  turns out to be is not looked at again, so a lazy object that becomes a proxy is searched as an
  ordinary one this once.
* The receiver of a getter is the object that the search started from.
-/

namespace ScriptCore

variable {σ : Type}

/-- The prototype of an object. -/
def prototypeOf (env : Embedding σ) (o : ObjectId) : Exec σ (Option ObjectId) := do
  materialize env o
  Exec.asks (·.object o |>.prototype)

/-- The own property of an object under a key. -/
def ownProperty (env : Embedding σ) (o : ObjectId) (key : Text) : Exec σ (Option Slot) := do
  materialize env o
  Exec.onHeap (·.ownSlot? o key)

/-- The names of the own properties of an object. -/
def ownPropertyNames (env : Embedding σ) (o : ObjectId) : Exec σ (List Text) := do
  materialize env o
  Exec.asks (·.ownNames o)

/-- A property is found within a number of links. -/
def hasWithin (env : Embedding σ) (key : Text) : Nat → ObjectId → Exec σ Bool
  | 0, _ => Exec.endless
  | n + 1, o => do
    match ← Exec.asks (·.payload o) with
    | .proxy (some target) _ => hasWithin env key n target
    | .proxy none _ => return false
    | _ =>
      if (← ownProperty env o key).isSome then return true
      match ← prototypeOf env o with
      | some p => hasWithin env key n p
      | none => return false

/-- The object has a property, own or inherited. -/
def hasProperty (env : Embedding σ) (o : ObjectId) (key : Text) : Exec σ Bool :=
  hasWithin env key env.patience o

/-- The value of a property that is found within a number of links. -/
def getWithin (env : Embedding σ) (receiver : ObjectId) (key : Text) :
    Nat → ObjectId → Throws σ Value
  | 0, _ => Exec.endless
  | n + 1, o => do
    match ← Exec.asks (·.payload o) with
    | .proxy (some target) _ => getWithin env receiver key n target
    | .proxy none _ => throw .revokedProxy
    | _ => match ← ownProperty env o key with
      | some (.data v _) => return v
      | some (.accessor (some getter) _ _) => callBare env getter (.object receiver)
      | some (.accessor none _ _) => return .undefined
      | none => match ← prototypeOf env o with
        | some p => getWithin env receiver key n p
        | none => return .undefined

/-- The value of a property, own or inherited; `undefined` if there is none. -/
def getProperty (env : Embedding σ) (o : ObjectId) (key : Text) : Throws σ Value :=
  getWithin env o key env.patience o

/-- The value of a property, where a getter that throws gives `undefined`. -/
def getOrUndefined (env : Embedding σ) (o : ObjectId) (key : Text) : Exec σ Value := do
  return match ← (getProperty env o key).run with
    | .ok v => v
    | .error _ => .undefined

end ScriptCore
