import ScriptCore.Footprint.Walk

/-!
# ScriptCore.Proofs.Footprint.Running

What an estimate does **in a context**, step by step.

A `do` block is taken apart from its front: `run_bind` runs the first step, and the primitives have one
equation each. The context survives an error, so a run always leaves one.
-/

namespace ScriptCore

open Estimate

/-! ### Levels -/

namespace Context

variable {c c₁ : Context}

theorem descend_eq (c : Context) : c.descend =
    if c.depth = c.limits.maxDepth then .error ⟨c.limits.maxDepth⟩
    else .ok { c with depth := c.depth + 1 } := by
  unfold descend Depth.descend
  split <;> rfl

theorem descend_error {e : TooDeep} (refused : c.descend = .error e) :
    c.depth = c.limits.maxDepth ∧ e = ⟨c.limits.maxDepth⟩ := by
  rw [descend_eq] at refused
  split at refused
  · rename_i hdepth
    cases refused
    exact ⟨hdepth, rfl⟩
  · cases refused

theorem descend_ok (descends : c.descend = .ok c₁) :
    c.depth ≠ c.limits.maxDepth ∧ c₁ = { c with depth := c.depth + 1 } := by
  rw [descend_eq] at descends
  split at descends
  · cases descends
  · rename_i hdepth
    cases descends
    exact ⟨hdepth, rfl⟩

end Context

/-! ### Steps -/

namespace Estimate

variable {α β : Type} {c c'' : Context}

theorem run_bind (m : Estimate α) (f : α → Estimate β) (c : Context) :
    (m >>= f).run c = match m.run c with
      | (.ok a, c') => (f a).run c'
      | (.error e, c') => (.error e, c') := by
  simp only [ExceptT.run, bind, ExceptT.bind, ExceptT.mk, StateT.bind, ExceptT.bindCont]
  cases m c with
  | mk r c' => cases r <;> rfl

theorem run_map (f : α → β) (m : Estimate α) (c : Context) :
    (f <$> m).run c = match m.run c with
      | (.ok a, c') => (.ok (f a), c')
      | (.error e, c') => (.error e, c') := by
  rw [map_eq_pure_bind, run_bind]
  rfl

theorem run_bind_ok {m : Estimate α} {f : α → Estimate β} {b : β}
    (h : (m >>= f).run c = (.ok b, c'')) :
    ∃ a c', m.run c = (.ok a, c') ∧ (f a).run c' = (.ok b, c'') := by
  rw [run_bind] at h
  revert h
  rcases m.run c with ⟨_ | a, c'⟩
  · intro h
    cases h
  · intro h
    exact ⟨a, c', rfl, h⟩

theorem run_pure_ok {a b : α} (h : (pure a : Estimate α).run c = (.ok b, c'')) :
    b = a ∧ c'' = c := by
  cases h
  exact ⟨rfl, rfl⟩

@[simp] theorem run_pure (a : α) (c : Context) : (pure a : Estimate α).run c = (.ok a, c) := rfl

@[simp] theorem run_get (c : Context) : (get : Estimate Context).run c = (.ok c, c) := rfl

@[simp] theorem run_leaf (u : Usage) (c : Context) :
    (leaf u).run c = (.ok u, c.charge u) := rfl

@[simp] theorem run_isOver (c : Context) : isOver.run c = (.ok c.isOver, c) := rfl

@[simp] theorem run_samplesArray (n : Nat) (c : Context) :
    (samplesArray n).run c = (.ok (c.limits.samplesArray n), c) := rfl

@[simp] theorem run_samplesEntries (n : Nat) (c : Context) :
    (samplesEntries n).run c = (.ok (c.limits.samplesEntries n), c) := rfl

@[simp] theorem run_visit (a : Allocation) (c : Context) :
    (visit a).run c = (.ok (c.visits.visit a).1, { c with visits := (c.visits.visit a).2 }) := rfl

@[simp] theorem run_visitFrame (f : FrameId) (c : Context) :
    (visitFrame f).run c = (.ok (c.visits.visitFrame (.frame f)).1,
      { c with visits := (c.visits.visitFrame (.frame f)).2 }) := rfl

@[simp] theorem run_nested (m : Estimate α) (c : Context) : (nested m).run c =
    match c.descend with
    | .error e => (.error e, c)
    | .ok c => ((m.run c).1, (m.run c).2.ascend) := rfl

end Estimate

/-! ### Scope frames -/

/-- The frames around a frame, on top of a running total. -/
def outerUsage (h : Heap) (inner : Node → Estimate Usage) (total : Usage) (f : FrameId) :
    Estimate Usage :=
  match h.outer? f with
  | some g => framesUsage h inner total g.1
  | none => return total

theorem framesUsage_eq (h : Heap) (inner : Node → Estimate Usage) (total : Usage) (f : FrameId) :
    framesUsage h inner total f = (do
      let new ← visitFrame f
      if new then
        let bindings ← walk (h.frame f).bindings.toList false fun (name, v) => do
          let first ← stringLeaf name.payloadBytes
          return first + (← inner (.value v))
        let object ← innerObjects inner [(h.frame f).object]
        if ← isOver then return total + bindings + object
        outerUsage h inner (total + bindings + object) f
      else outerUsage h inner total f) := by
  rw [framesUsage]
  unfold outerUsage
  cases h.outer? f with
  | none => rfl
  | some g => rfl

end ScriptCore
