import ScriptCore.Proofs.Session.Ticks

/-!
# ScriptCore.Proofs.Session.Runs

**Runs, step by step**: what a run does next, where it can be between two steps, and how it ends.

Design points:

* A run is bounded by the patience of the embedding. Its equations speak of a run with some patience
  left, and the cut of the stack comes after all of it (`run_eq`).
* A run that is between two steps (`Midway`) goes on as one that starts there. What a run ends with is
  read off its last tick or its last step (`Ends`), before the stack is cut.
-/

namespace ScriptCore

variable {σ : Type}

namespace Session

/-- A run is between two of its steps: how many it has taken, where it began and where it is. -/
inductive Midway (env : Embedding σ) (step : ExceptT Thrown (Sessions σ) Step) :
    Nat → Session → World σ → Session → World σ → Prop where
  | start (s : Session) (w : World σ) : Midway env step 0 s w s w
  | more {k : Nat} {s s₁ s₂ s' : Session} {w w₁ w₂ w' : World σ}
      (tick : (tick env).run s w = some ((.ok (), s₁), w₁))
      (run : step.run s₁ w₁ = some ((.ok .more, s₂), w₂)) (rest : Midway env step k s₂ w₂ s' w') :
      Midway env step (k + 1) s w s' w'

/-- How a run ends: if it fails, the stack is cut to its height at the start. -/
def ending (height : Nat) (r : (Except RunError Value × Session) × World σ) :
    (Except RunError Value × Session) × World σ :=
  match r with
  | ((.ok v, s), w) => ((.ok v, s), w)
  | ((.error e, s), w) => ((.error e, { s with stack := s.stack.take height }), w)

section Run

variable {env : Embedding σ} {step : ExceptT Thrown (Sessions σ) Step} {s s' : Session}
  {w w' : World σ}

/-- Without a limiter, a tick looks at the token. -/
theorem tick_of_unlimited (limiter : s.limiter = none) :
    (tick env).run s w =
      some ((if (w.timers.token s.token).cancelled then .error .cancelled else .ok (),
        { s with ticks := s.ticks + 1 }), w) := by
  cases s
  cases limiter
  show (if _ then _ else _ : ExceptT Interrupt (Sessions σ) Unit) _ _ = _
  split <;> rfl

/-- A tick leaves the stack alone. -/
theorem stack_tick {outcome : Except Interrupt Unit}
    (tick : (tick env).run s w = some ((outcome, s'), w')) : s'.stack = s.stack := by
  cases limiter : s.limiter with
  | none =>
      rw [tick_of_unlimited limiter] at tick
      cases tick
      rfl
  | some l =>
      rcases Nat.eq_zero_or_pos s.allowance with empty | spare
      · rw [tick_of_empty limiter empty] at tick
        obtain ⟨⟨answer, _⟩, -, same⟩ := Option.map_eq_some_iff.mp tick
        cases same
        cases answer <;> rfl
      · rw [tick_of_spare limiter spare] at tick
        cases tick
        rfl

theorem run_eq (env : Embedding σ) (step : ExceptT Thrown (Sessions σ) Step) (s : Session)
    (w : World σ) :
    (run env step).run s w =
      ((runWithin env step env.patience).run s w).map (ending s.stack.size) := by
  show Option.bind ((runWithin env step env.patience).run s w) _ = _
  cases (runWithin env step env.patience).run s w with
  | none => rfl
  | some p =>
      obtain ⟨⟨r, s'⟩, w'⟩ := p
      cases r <;> rfl

/-- What follows the tick before a step: a run goes on by what the step comes to. -/
theorem runWithin_of_tick {n : Nat} {s₁ : Session} {w₁ : World σ}
    (tick : (tick env).run s w = some ((.ok (), s₁), w₁)) :
    (runWithin env step (n + 1)).run s w = (step.run s₁ w₁).bind fun
      | ((.ok .more, s₂), w₂) => (runWithin env step n).run s₂ w₂
      | ((.ok (.done v), s₂), w₂) => some ((.ok v, s₂), w₂)
      | ((.error t, s₂), w₂) => some ((.error (.thrown t), s₂), w₂) := by
  rw [runWithin]
  show Option.bind (Option.bind ((Session.tick env).run s w) _) _ = _
  rw [tick]
  show Option.bind (Option.bind (step.run s₁ w₁) _) _ = _
  rcases step.run s₁ w₁ with _ | ⟨⟨_ | (_ | v), s₂⟩, w₂⟩ <;> rfl

theorem runWithin_of_interrupt {n : Nat} {s₁ : Session} {w₁ : World σ} {i : Interrupt}
    (tick : (tick env).run s w = some ((.error i, s₁), w₁)) :
    (runWithin env step (n + 1)).run s w = some ((.error (.interrupted i), s₁), w₁) := by
  rw [runWithin]
  show Option.bind (Option.bind ((Session.tick env).run s w) _) _ = _
  rw [tick]
  rfl

/-- A run goes on from where it is. -/
theorem Midway.runWithin_eq {k : Nat} (midway : Midway env step k s w s' w') (n : Nat) :
    (runWithin env step (n + k)).run s w = (runWithin env step n).run s' w' := by
  induction midway with
  | start => rfl
  | more tick run _ ih =>
      rw [← ih, ← Nat.add_assoc, runWithin_of_tick tick, run]
      rfl

end Run

end Session

end ScriptCore
