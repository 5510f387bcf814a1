import ScriptCore.Execution.Basic

/-!
# ScriptCore.Proofs.Execution.Run

What a run does **in a world**, step by step.

A `do` block is taken apart from its front: `bind_eq` runs the first step, and the primitives have
one equation each. A run that may throw goes on only after a result, and a run that cannot throw
always gives one.
-/

namespace ScriptCore

variable {σ α β : Type} {w : World σ}

namespace Exec

theorem bind_eq (x : Exec σ α) (f : α → Exec σ β) (w : World σ) :
    (x >>= f) w = (x w).bind fun p => f p.1 p.2 := rfl

@[simp] theorem pure_apply (a : α) (w : World σ) : (pure a : Exec σ α) w = some (a, w) := rfl

@[simp] theorem asks_apply (f : Heap → α) (w : World σ) :
    (asks f : Exec σ α) w = some (f w.heap, w) := rfl

theorem walks_of_some {f : Heap → Option α} {a : α} (found : f w.heap = some a) :
    (walks f : Exec σ α) w = some (a, w) := by
  rw [walks, found, Option.map_some]

@[simp] theorem modifyHeap_apply (f : Heap → Heap) (w : World σ) :
    (modifyHeap f : Exec σ Unit) w = some ((), { w with heap := f w.heap }) := rfl

@[simp] theorem onHeap_apply (f : Heap → α × Heap) (w : World σ) :
    (onHeap f : Exec σ α) w = some ((f w.heap).1, { w with heap := (f w.heap).2 }) := rfl

theorem bind_of_eq {x : Exec σ α} {a : α} {w' : World σ} (h : x w = some (a, w'))
    (f : α → Exec σ β) : (x >>= f) w = f a w' := by
  rw [bind_eq, h]
  rfl

end Exec

namespace Throws

@[simp] theorem pure_apply (a : α) (w : World σ) :
    (pure a : Throws σ α) w = some (.ok a, w) := rfl

@[simp] theorem asks_apply (f : Heap → α) (w : World σ) :
    (Exec.asks f : Throws σ α) w = some (.ok (f w.heap), w) := rfl

@[simp] theorem modifyHeap_apply (f : Heap → Heap) (w : World σ) :
    (Exec.modifyHeap f : Throws σ Unit) w = some (.ok (), { w with heap := f w.heap }) := rfl

@[simp] theorem onHeap_apply (f : Heap → α × Heap) (w : World σ) :
    (Exec.onHeap f : Throws σ α) w =
      some (.ok (f w.heap).1, { w with heap := (f w.heap).2 }) := rfl

theorem bind_of_ok {x : Throws σ α} {a : α} {w' : World σ} (h : x w = some (.ok a, w'))
    (f : α → Throws σ β) : (x >>= f) w = f a w' := by
  show (x w).bind _ = _
  rw [h]
  rfl

/-- A step that cannot throw is run first. -/
theorem lift_bind_eq (x : Exec σ α) (f : α → Throws σ β) (w : World σ) :
    ((liftM x : Throws σ α) >>= f) w = (x w).bind fun p => f p.1 p.2 := by
  show ((x w).bind _).bind _ = _
  cases x w <;> rfl

end Throws

end ScriptCore
