import ScriptCore.Proofs.Session.Runs

/-!
# ScriptCore.Proofs.Session.Unwinding

**Unwinding**: what a failed run leaves on the stack of values.

Design points:

* The stack is cut to its height at the start, which removes what was pushed and puts nothing back. So
  a failed run leaves the stack as it found it exactly if the values from the start were still at the
  bottom when it failed.
* That no step takes these values away is a condition on the run at hand and not on the code of its
  steps (`Spares`): a step may take whatever an earlier one has pushed.
* The condition is about any values at the bottom. A step that starts a run of its own meets it if that
  run does, whether it fails or not.
-/

namespace ScriptCore

variable {σ : Type}

namespace Session

/-- Some values are at the bottom of the stack. -/
def RestsOn (s : Session) (base : List Value) : Prop := base <+: s.stack.toList

/-- How a run ends, before its stack is cut: with a tick that is interrupted, or with a step. -/
inductive Ends (env : Embedding σ) (step : ExceptT Thrown (Sessions σ) Step) (s : Session)
    (w : World σ) : Except RunError Value → Session → World σ → Prop where
  | interrupted {k : Nat} {s₁ s₂ : Session} {w₁ w₂ : World σ} {i : Interrupt}
      (midway : Midway env step k s w s₁ w₁)
      (tick : (tick env).run s₁ w₁ = some ((.error i, s₂), w₂)) :
      Ends env step s w (.error (.interrupted i)) s₂ w₂
  | thrown {k : Nat} {s₁ s₂ s₃ : Session} {w₁ w₂ w₃ : World σ} {t : Thrown}
      (midway : Midway env step k s w s₁ w₁)
      (tick : (tick env).run s₁ w₁ = some ((.ok (), s₂), w₂))
      (run : step.run s₂ w₂ = some ((.error t, s₃), w₃)) :
      Ends env step s w (.error (.thrown t)) s₃ w₃
  | done {k : Nat} {s₁ s₂ s₃ : Session} {w₁ w₂ w₃ : World σ} {v : Value}
      (midway : Midway env step k s w s₁ w₁)
      (tick : (tick env).run s₁ w₁ = some ((.ok (), s₂), w₂))
      (run : step.run s₂ w₂ = some ((.ok (.done v), s₃), w₃)) :
      Ends env step s w (.ok v) s₃ w₃

/-- No step of a run takes away any of some values at the bottom of the stack. -/
def Spares (env : Embedding σ) (step : ExceptT Thrown (Sessions σ) Step) (base : List Value)
    (s : Session) (w : World σ) : Prop :=
  ∀ ⦃k s₁ w₁ s₂ w₂ r s₃ w₃⦄, Midway env step k s w s₁ w₁ →
    (tick env).run s₁ w₁ = some ((.ok (), s₂), w₂) → step.run s₂ w₂ = some ((r, s₃), w₃) →
      s₂.RestsOn base → s₃.RestsOn base

section Unwinding

variable {env : Embedding σ} {step : ExceptT Thrown (Sessions σ) Step} {s s' : Session}
  {w w' : World σ} {base : List Value}

/-! ### The stack at the bottom -/

theorem RestsOn.push (rests : s.RestsOn base) (v : Value) : (s.push v).RestsOn base := by
  rw [RestsOn, Session.push, Array.toList_push]
  exact rests.trans (List.prefix_append ..)

theorem toList_cut (stack : Array Value) (height : Nat) :
    (stack.take height).toList = stack.toList.take height := by
  simp

/-- Values stay at the bottom if the stack is cut no lower than they reach. -/
theorem RestsOn.cut (rests : s.RestsOn base) {height : Nat} (high : base.length ≤ height) :
    ({ s with stack := s.stack.take height } : Session).RestsOn base := by
  rw [RestsOn, toList_cut]
  exact List.prefix_take_iff.mpr ⟨rests, high⟩

/-- The stack is what it was exactly if what it was is still at its bottom when it is cut. -/
theorem take_eq_iff_restsOn (before after : Session) :
    after.stack.take before.stack.size = before.stack ↔ after.RestsOn before.stack.toList := by
  rw [← Array.toList_inj, toList_cut, RestsOn, List.prefix_iff_eq_take,
    Array.length_toList, eq_comm]

/-! ### Runs -/

theorem Ends.more {s₁ s₂ : Session} {w₁ w₂ : World σ} {r : Except RunError Value}
    (tick : (tick env).run s w = some ((.ok (), s₁), w₁))
    (run : step.run s₁ w₁ = some ((.ok .more, s₂), w₂)) (ends : Ends env step s₂ w₂ r s' w') :
    Ends env step s w r s' w' := by
  cases ends with
  | interrupted midway tick' => exact .interrupted (.more tick run midway) tick'
  | thrown midway tick' run' => exact .thrown (.more tick run midway) tick' run'
  | done midway tick' run' => exact .done (.more tick run midway) tick' run'

theorem ends_of_runWithin {n : Nat} {r : Except RunError Value}
    (result : (runWithin env step n).run s w = some ((r, s'), w')) : Ends env step s w r s' w' := by
  induction n generalizing s w with
  | zero => cases result
  | succ n ih =>
      cases tick : (tick env).run s w with
      | none =>
          have endless : (runWithin env step (n + 1)).run s w = none := by
            rw [runWithin]
            show Option.bind (Option.bind ((Session.tick env).run s w) _) _ = _
            rw [tick]
            rfl
          rw [endless] at result
          cases result
      | some p =>
          obtain ⟨⟨_ | _, s₁⟩, w₁⟩ := p
          · rw [runWithin_of_interrupt tick] at result
            cases result
            exact .interrupted (.start s w) tick
          · rw [runWithin_of_tick tick] at result
            obtain ⟨⟨⟨_ | (_ | _), s₂⟩, w₂⟩, run, rest⟩ := Option.bind_eq_some_iff.mp result
            · cases rest
              exact .thrown (.start s w) tick run
            · exact .more tick run (ih rest)
            · cases rest
              exact .done (.start s w) tick run

/-- A run is a run that ends, and then a cut. -/
theorem ends_of_run {r : Except RunError Value}
    (result : (run env step).run s w = some ((r, s'), w')) :
    ∃ s₁, Ends env step s w r s₁ w' ∧ ((r, s'), w') = ending s.stack.size ((r, s₁), w') := by
  rw [run_eq] at result
  obtain ⟨⟨⟨r₁, s₁⟩, w₁⟩, within, cut⟩ := Option.map_eq_some_iff.mp result
  have ends := ends_of_runWithin within
  cases r₁ with
  | ok v =>
      cases cut
      exact ⟨_, ends, rfl⟩
  | error e =>
      cases cut
      exact ⟨_, ends, rfl⟩

/-! ### What a run spares -/

theorem Spares.more {s₁ s₂ : Session} {w₁ w₂ : World σ}
    (spares : Spares env step base s w) (tick : (tick env).run s w = some ((.ok (), s₁), w₁))
    (run : step.run s₁ w₁ = some ((.ok .more, s₂), w₂)) : Spares env step base s₂ w₂ :=
  fun _ _ _ _ _ _ _ _ midway => spares (.more tick run midway)

theorem RestsOn.tick {outcome : Except Interrupt Unit} (rests : s.RestsOn base)
    (tick : (tick env).run s w = some ((outcome, s'), w')) : s'.RestsOn base := by
  rw [RestsOn, stack_tick tick]
  exact rests

theorem Midway.restsOn {k : Nat} (midway : Midway env step k s w s' w')
    (spares : Spares env step base s w) (rests : s.RestsOn base) : s'.RestsOn base := by
  induction midway with
  | start => exact rests
  | more tick run _ ih =>
      exact ih (spares.more tick run) (spares (.start _ _) tick run (rests.tick tick))

theorem Ends.restsOn {r : Except RunError Value} (ends : Ends env step s w r s' w')
    (spares : Spares env step base s w) (rests : s.RestsOn base) : s'.RestsOn base := by
  cases ends with
  | interrupted midway tick => exact (midway.restsOn spares rests).tick tick
  | thrown midway tick run | done midway tick run =>
      exact spares midway tick run ((midway.restsOn spares rests).tick tick)

/-- A run that spares some values leaves them at the bottom, however it ends. -/
theorem restsOn_of_run {r : Except RunError Value}
    (result : (run env step).run s w = some ((r, s'), w')) (spares : Spares env step base s w)
    (rests : s.RestsOn base) : s'.RestsOn base := by
  obtain ⟨s₁, ends, cut⟩ := ends_of_run result
  have kept := ends.restsOn spares rests
  cases r with
  | ok v =>
      cases cut
      exact kept
  | error e =>
      cases cut
      exact kept.cut rests.length_le

end Unwinding

end Session

/-- A failed run leaves the stack as it found it, if none of its steps takes away values that were there
at the start. In general it leaves what the stack had become by then, cut to its height at the start;
so it leaves the stack as it found it exactly if the values from the start were still at the bottom.
Values that a run spares stay at the bottom however it ends, so a step may start runs of its own. -/
theorem failed_run_unwinds {env : Embedding σ} {step : ExceptT Thrown (Sessions σ) Step}
    {s s' : Session} {w w' : World σ} {r : Except RunError Value}
    (result : (Session.run env step).run s w = some ((r, s'), w')) :
    (∀ e, r = .error e →
      (Session.Spares env step s.stack.toList s w → s'.stack = s.stack) ∧
      ∃ s₁, Session.Ends env step s w r s₁ w' ∧
        s' = { s₁ with stack := s₁.stack.take s.stack.size } ∧
        (s'.stack = s.stack ↔ s₁.RestsOn s.stack.toList)) ∧
    ∀ base, s.RestsOn base → Session.Spares env step base s w → s'.RestsOn base := by
  refine ⟨?_, fun base rests spares => Session.restsOn_of_run result spares rests⟩
  rintro e rfl
  obtain ⟨s₁, ends, cut⟩ := Session.ends_of_run result
  cases cut
  have exact_iff := Session.take_eq_iff_restsOn s s₁
  exact ⟨fun spares => exact_iff.mpr (ends.restsOn spares (List.prefix_refl _)), s₁, ends, rfl,
    exact_iff⟩

/-- A step that leaves a value on the stack and throws. -/
def littering : ExceptT Thrown (Sessions σ) Step := fun s w =>
  some ((.error .notAFunction, s.push .null), w)

/-- A step that leaves a value on the stack, starts a run that fails, and throws. -/
def nesting (env : Embedding σ) : ExceptT Thrown (Sessions σ) Step := fun s w =>
  ((Session.run env littering).run (s.push .undefined) w).map fun p =>
    ((.error .notAFunction, p.1.2), p.2)

/-- A step that takes the value on top of the stack and throws. -/
def popping : ExceptT Thrown (Sessions σ) Step := fun s w =>
  some ((.error .notAFunction, s.pop.2), w)

/-- A world in which nothing has happened. -/
def freshWorld : World Unit := ⟨.empty, .start, #[], ()⟩

theorem failed_run_unwinds_with_nested :
    let env : Embedding Unit := { (default : Embedding Unit) with patience := 1 }
    let s := idleSession.push (.smi 1)
    ∃ s', (Session.run env (nesting env)).run s freshWorld =
        some ((.error (.thrown .notAFunction), s'), freshWorld) ∧ s'.stack = s.stack := by
  intro env s
  have inner (base : List Value) (s : Session) (w : World Unit) :
      Session.Spares env littering base s w := by
    rintro k s₁ w₁ s₂ w₂ r s₃ w₃ - - run rests
    cases run
    exact rests.push .null
  have outer : Session.Spares env (nesting env) s.stack.toList s freshWorld := by
    rintro k s₁ w₁ s₂ w₂ r s₃ w₃ - - run rests
    obtain ⟨⟨⟨r', s₄⟩, w₄⟩, nested, same⟩ := Option.map_eq_some_iff.mp run
    cases same
    exact (failed_run_unwinds nested).2 _ (rests.push .undefined) (inner ..)
  obtain ⟨s', result⟩ : ∃ s', (Session.run env (nesting env)).run s freshWorld =
      some ((.error (.thrown .notAFunction), s'), freshWorld) := ⟨_, rfl⟩
  exact ⟨s', result, ((failed_run_unwinds result).1 _ rfl).1 outer⟩

/-- A value that was there at the start and that a step took is not put back when the run fails. -/
theorem popped_value_stays_away :
    ∃ s', (Session.run { (default : Embedding Unit) with patience := 1 } popping).run
        (idleSession.push (.smi 1)) freshWorld =
          some ((.error (.thrown .notAFunction), s'), freshWorld) ∧
      s'.stack.size = 0 ∧ (idleSession.push (.smi 1)).stack.size = 1 :=
  ⟨_, rfl, rfl, rfl⟩

end ScriptCore
