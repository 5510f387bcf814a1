import ScriptCore.Proofs.Execution.Run

/-!
# ScriptCore.Proofs.Execution.Along

Runs that only move **along a relation** of worlds.

A `Guarantee` says what a run leaves as it is, or changes in one direction only. It is reflexive and
transitive, so a run keeps it if each of its steps does. A run without end reaches no world and keeps
every guarantee.
-/

namespace ScriptCore

variable {σ α β ε : Type}

/-- What holds between the worlds before and after a run of any number of steps. -/
structure Guarantee (σ : Type) where
  holds : World σ → World σ → Prop
  refl : ∀ w, holds w w
  trans : ∀ {w₀ w₁ w₂}, holds w₀ w₁ → holds w₁ w₂ → holds w₀ w₂

namespace Exec

/-- Every run that ends keeps the guarantee. -/
def Along (R : Guarantee σ) (x : Exec σ α) : Prop :=
  ∀ ⦃w a w'⦄, x w = some (a, w') → R.holds w w'

/-- The workhorse: a run of two steps, taken apart. -/
theorem bind_inv {x : Exec σ α} {f : α → Exec σ β} {w : World σ} {r : β × World σ}
    (h : (x >>= f) w = some r) : ∃ a w₁, x w = some (a, w₁) ∧ f a w₁ = some r := by
  rw [bind_eq] at h
  cases hx : x w with
  | none =>
      rw [hx] at h
      cases h
  | some p =>
      rw [hx] at h
      exact ⟨p.1, p.2, rfl, h⟩

namespace Along

variable {R : Guarantee σ}

theorem endless : Along R (endless : Exec σ α) := by
  intro w a w' h
  cases h

theorem pure (a : α) : Along R (Pure.pure a : Exec σ α) := by
  intro w b w' h
  cases h
  exact R.refl w

theorem asks (f : Heap → α) : Along R (asks f : Exec σ α) := by
  intro w b w' h
  cases h
  exact R.refl w

theorem walks (f : Heap → Option α) : Along R (walks f : Exec σ α) := by
  intro w b w' h
  obtain ⟨_, -, same⟩ := Option.map_eq_some_iff.mp h
  cases same
  exact R.refl w

theorem modifyHeap {f : Heap → Heap} (hf : ∀ w, R.holds w { w with heap := f w.heap }) :
    Along R (modifyHeap f : Exec σ Unit) := by
  intro w b w' h
  cases h
  exact hf w

theorem onHeap {f : Heap → α × Heap} (hf : ∀ w, R.holds w { w with heap := (f w.heap).2 }) :
    Along R (onHeap f : Exec σ α) := by
  intro w b w' h
  cases h
  exact hf w

theorem bind {x : Exec σ α} {f : α → Exec σ β} (hx : Along R x) (hf : ∀ a, Along R (f a)) :
    Along R (x >>= f) := by
  intro w b w' h
  obtain ⟨a, w₁, h₁, h₂⟩ := bind_inv h
  exact R.trans (hx h₁) (hf a h₂)

/-! ### Runs that may throw -/

theorem run_pure (a : α) : Along R (Pure.pure a : ExceptT ε (Exec σ) α).run :=
  pure (Except.ok a)

theorem run_throw (e : ε) : Along R (throw e : ExceptT ε (Exec σ) α).run :=
  pure (Except.error e)

theorem run_asks (f : Heap → α) : Along R (Exec.asks f : ExceptT ε (Exec σ) α).run :=
  fun _ _ _ h => asks f (by cases h; rfl)

theorem run_modifyHeap {f : Heap → Heap} (hf : ∀ w, R.holds w { w with heap := f w.heap }) :
    Along R (Exec.modifyHeap f : ExceptT ε (Exec σ) Unit).run := by
  intro w b w' h
  cases h
  exact hf w

theorem run_onHeap {f : Heap → α × Heap} (hf : ∀ w, R.holds w { w with heap := (f w.heap).2 }) :
    Along R (Exec.onHeap f : ExceptT ε (Exec σ) α).run := by
  intro w b w' h
  cases h
  exact hf w

theorem run_lift {x : Exec σ α} (hx : Along R x) :
    Along R (liftM x : ExceptT ε (Exec σ) α).run := by
  show Along R (x >>= fun a => Pure.pure (Except.ok a))
  exact hx.bind fun a => pure _

theorem run_bind {x : ExceptT ε (Exec σ) α} {f : α → ExceptT ε (Exec σ) β}
    (hx : Along R x.run) (hf : ∀ a, Along R (f a).run) : Along R (x >>= f).run := by
  refine Along.bind hx fun r => ?_
  cases r with
  | ok a => exact hf a
  | error e => exact pure (Except.error e)

end Along

end Exec

end ScriptCore
