import ScriptCore.Object.Assign

/-!
# ScriptCore.Scope.Basic

**Bindings**: names looked up and assigned from a scope frame outward.

A frame binds the names declared in it and, if it has an object, the properties of that. The
innermost frame that binds a name decides. A frame's outer frame is an older one, so a walk outward
ends.
-/

namespace ScriptCore

namespace Frame

/-- A frame without bindings. -/
def new (object : Option ObjectId) (outer : Option FrameId) : Frame := ⟨#[], object, outer⟩

/-- The place of a declared name. -/
def place? (f : Frame) (name : Text) : Option Nat := f.bindings.findIdx? (·.1 == name)

/-- The value of a declared name. -/
def value? (f : Frame) (name : Text) : Option Value :=
  (f.place? name).bind fun i => f.bindings[i]?.map (·.2)

/-- The frame with another value for the name in a place. -/
def assign (f : Frame) (place : Nat) (v : Value) : Frame :=
  { f with bindings := f.bindings.modify place fun b => (b.1, v) }

/-- The frame with a name declared, or given a new value, and the name's place. -/
def declare (f : Frame) (name : Text) (v : Value) : Nat × Frame :=
  match f.place? name with
  | some place => (place, f.assign place v)
  | none => (f.bindings.size, { f with bindings := f.bindings.push (name, v) })

end Frame

/-- Declares a name in a frame, or gives it a new value. The result is the name's place. -/
def Heap.declare (h : Heap) (f : FrameId) (name : Text) (v : Value) : Nat × Heap :=
  let (place, frame) := (h.frame f).declare name v
  (place, h.updateFrame f fun _ => frame)

variable {σ : Type}

/-- The value of a name, seen from a frame. -/
def lookupName (env : Embedding σ) (f : FrameId) (name : Text) : Exec σ (Option Value) := do
  let h ← Exec.heap
  match (h.frame f).value? name with
  | some v => return some v
  | none =>
    let found ← match (h.frame f).object with
      | some o => hasProperty env o name
      | none => pure false
    match (h.frame f).object, found with
    | some o, true => return some (← getOrUndefined env o name)
    | _, _ => match h.outer? f with
      | some ⟨g, _⟩ => lookupName env g name
      | none => return none
termination_by f.index

/-- Assigns to a name, seen from a frame; false if nothing binds it or the binding refuses. -/
def assignName (env : Embedding σ) (f : FrameId) (name : Text) (v : Value) : Exec σ Bool := do
  let h ← Exec.heap
  match (h.frame f).place? name with
  | some place =>
    Exec.modifyHeap (·.updateFrame f (·.assign place v))
    return true
  | none =>
    let found ← match (h.frame f).object with
      | some o => hasProperty env o name
      | none => pure false
    match (h.frame f).object, found with
    | some o, true => trySet env o name v
    | _, _ => match h.outer? f with
      | some ⟨g, _⟩ => assignName env g name v
      | none => return false
termination_by f.index

end ScriptCore
