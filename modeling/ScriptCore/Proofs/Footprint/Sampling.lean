import ScriptCore.Proofs.Footprint.Headers
import ScriptCore.Proofs.Footprint.UniformArrays

/-!
# ScriptCore.Proofs.Footprint.Sampling

Which elements of a container are **measured**, whatever measuring one of them does.

Design points:

* What measuring an element does to the context is left open, also whether it fails. So the elements
  that are asked for are said through the contexts between them: each is measured in the context
  that the one before left (`Measured`), and that context decides whether there is a next one.
* The three ways in which the loop ends are the constructors of `MeasuresPrefix`. Which of them it
  is, and after which element, is determined (`MeasuresPrefix.unique`).
* Positions come in by `everyNth` alone (`getElem?_everyNth`). The loop sees a list without gaps.
-/

namespace ScriptCore

open Estimate

variable {α : Type}

/-! ### Positions -/

/-- The elements at the multiples of a step, counted from one. -/
theorem getElem?_everyNth {step : Nat} (pos : 1 ≤ step) (items : List α) (k : Nat) :
    (everyNth step items)[k]? = items[(k + 1) * step - 1]? := by
  induction items using List.reverseRecOn with
  | nil => simp [everyNth]
  | append_singleton items x ih =>
      have taken : (everyNth step items).length = items.length / step := length_everyNth step items
      have whole := Nat.div_add_mod items.length step
      have part := Nat.mod_lt items.length pos
      rw [everyNth_concat]
      rcases Nat.lt_or_ge k (items.length / step) with old | new
      · have inside : (k + 1) * step ≤ items.length :=
          (Nat.le_div_iff_mul_le pos).mp old
        have some : 0 < (k + 1) * step := Nat.mul_pos (Nat.succ_pos k) pos
        rw [List.getElem?_append_left (by omega), ih, List.getElem?_append_left (by omega)]
      · -- Behind the elements taken before stands the new one at most, at the next multiple.
        have reach : (items.length / step + 1) * step ≤ (k + 1) * step :=
          Nat.mul_le_mul_right step (Nat.succ_le_succ new)
        have next : (items.length / step + 1) * step = step * (items.length / step) + step := by
          rw [Nat.add_mul, Nat.one_mul, Nat.mul_comm]
        rw [List.getElem?_append_right (by omega), taken]
        by_cases multiple : (items.length + 1) % step = 0
        · have last : items.length + 1 = (items.length / step + 1) * step := by
            rw [← Nat.succ_div_of_dvd (Nat.dvd_of_mod_eq_zero multiple),
              Nat.div_mul_cancel (Nat.dvd_of_mod_eq_zero multiple)]
          rw [if_pos multiple]
          rcases Nat.eq_or_lt_of_le new with rfl | later
          · rw [← last]
            simp
          · have beyond : (items.length / step + 2) * step ≤ (k + 1) * step :=
              Nat.mul_le_mul_right step (Nat.succ_le_succ later)
            have twice : (items.length / step + 2) * step = items.length + 1 + step := by
              rw [last, Nat.add_mul, Nat.add_mul, Nat.two_mul, Nat.one_mul, Nat.add_assoc]
            rw [List.getElem?_eq_none (by simp; omega), List.getElem?_eq_none (by simp; omega)]
        · have apart : (k + 1) * step ≠ items.length + 1 := by
            intro same
            exact multiple (same ▸ Nat.mul_mod_left (k + 1) step)
          rw [if_neg multiple, List.getElem?_nil, List.getElem?_eq_none (by simp; omega)]

theorem everyNth_one (items : List α) : everyNth 1 items = items := by
  refine List.ext_getElem? fun k => ?_
  rw [getElem?_everyNth (Nat.le_refl 1), Nat.mul_one, Nat.add_sub_cancel]

theorem one_le_sampleStep (total : Nat) (rate : Binary64) : 1 ≤ sampleStep total rate := by
  rcases Nat.eq_zero_or_pos total with rfl | pos
  · simp [sampleStep]
  · exact (sampleStep_bounds pos rate).1

/-! ### Elements one after another -/

/-- Elements are measured one after another, each with a usage, and the budget lasts beyond each. -/
inductive Measured (cost : α → Estimate Usage) :
    Context → List α → List Usage → Context → Prop where
  | nil (c : Context) : Measured cost c [] [] c
  | cons {c c₁ c' : Context} {x : α} {xs : List α} {u : Usage} {us : List Usage}
      (run : (cost x).run c = (.ok u, c₁)) (within : c₁.isOver = false)
      (rest : Measured cost c₁ xs us c') : Measured cost c (x :: xs) (u :: us) c'

/-- Of some candidates those in front are asked for, in order: all of them if the budget lasts
beyond each and none fails, or those up to the first one beyond which the budget is used up, or those
up to the first one that fails. What comes out are their usages, or the error. -/
inductive MeasuresPrefix (cost : α → Estimate Usage) (c : Context) (candidates : List α) :
    List α → Except TooDeep (List Usage) → Context → Prop where
  | all {us : List Usage} {c' : Context} (measured : Measured cost c candidates us c') :
      MeasuresPrefix cost c candidates candidates (.ok us) c'
  | exhausted {front rest : List α} {x : α} {us : List Usage} {u : Usage} {c₁ c' : Context}
      (split : candidates = front ++ x :: rest) (measured : Measured cost c front us c₁)
      (run : (cost x).run c₁ = (.ok u, c')) (exceeded : c'.isOver = true) :
      MeasuresPrefix cost c candidates (front ++ [x]) (.ok (us ++ [u])) c'
  | failed {front rest : List α} {x : α} {us : List Usage} {e : TooDeep} {c₁ c' : Context}
      (split : candidates = front ++ x :: rest) (measured : Measured cost c front us c₁)
      (run : (cost x).run c₁ = (.error e, c')) :
      MeasuresPrefix cost c candidates (front ++ [x]) (.error e) c'

namespace MeasuresPrefix

variable {cost : α → Estimate Usage} {c c₁ c' : Context} {x : α} {xs asked : List α} {u : Usage}
  {outcome : Except TooDeep (List Usage)}

/-- One more element in front, beyond which the budget lasts. -/
theorem cons (run : (cost x).run c = (.ok u, c₁)) (within : c₁.isOver = false)
    (rest : MeasuresPrefix cost c₁ xs asked outcome c') :
    MeasuresPrefix cost c (x :: xs) (x :: asked) (outcome.map (u :: ·)) c' := by
  cases rest with
  | all measured => exact .all (.cons run within measured)
  | exhausted split measured last exceeded =>
      exact .exhausted (by rw [split, List.cons_append]) (.cons run within measured) last exceeded
  | failed split measured last =>
      exact .failed (by rw [split, List.cons_append]) (.cons run within measured) last

/-- What the first candidate says about how it goes on. -/
theorem cons_inv (h : MeasuresPrefix cost c (x :: xs) asked outcome c') :
    (∃ e, (cost x).run c = (.error e, c') ∧ asked = [x] ∧ outcome = .error e) ∨
      (∃ u, (cost x).run c = (.ok u, c') ∧ c'.isOver = true ∧ asked = [x] ∧ outcome = .ok [u]) ∨
      ∃ u c₁ asked' outcome', (cost x).run c = (.ok u, c₁) ∧ c₁.isOver = false ∧
        MeasuresPrefix cost c₁ xs asked' outcome' c' ∧ asked = x :: asked' ∧
        outcome = outcome'.map (u :: ·) := by
  cases h with
  | all measured =>
      cases measured with
      | cons run within rest => exact .inr (.inr ⟨_, _, _, _, run, within, .all rest, rfl, rfl⟩)
  | exhausted split measured last exceeded =>
      cases measured with
      | nil =>
          obtain ⟨rfl, rfl⟩ := List.cons.inj split
          exact .inr (.inl ⟨_, last, exceeded, rfl, rfl⟩)
      | cons run within rest =>
          obtain ⟨rfl, tail⟩ := List.cons.inj split
          exact .inr (.inr ⟨_, _, _, _, run, within, .exhausted tail rest last exceeded, rfl, rfl⟩)
  | failed split measured last =>
      cases measured with
      | nil =>
          obtain ⟨rfl, rfl⟩ := List.cons.inj split
          exact .inl ⟨_, last, rfl, rfl⟩
      | cons run within rest =>
          obtain ⟨rfl, tail⟩ := List.cons.inj split
          exact .inr (.inr ⟨_, _, _, _, run, within, .failed tail rest last, rfl, rfl⟩)

theorem nil_inv (h : MeasuresPrefix cost c [] asked outcome c') :
    asked = [] ∧ outcome = .ok [] ∧ c' = c := by
  cases h with
  | all measured =>
      cases measured
      exact ⟨rfl, rfl, rfl⟩
  | exhausted split | failed split => exact absurd split (by simp)

/-- There is one way to go on. -/
theorem unique {asked' : List α} {outcome' : Except TooDeep (List Usage)} {d : Context}
    (h : MeasuresPrefix cost c xs asked outcome c')
    (h' : MeasuresPrefix cost c xs asked' outcome' d) :
    asked' = asked ∧ outcome' = outcome ∧ d = c' := by
  induction xs generalizing c asked outcome asked' outcome' with
  | nil =>
      obtain ⟨rfl, rfl, rfl⟩ := h.nil_inv
      exact h'.nil_inv
  | cons x xs ih =>
      rcases h.cons_inv with ⟨e, run, rfl, rfl⟩ | ⟨u, run, exceeded, rfl, rfl⟩ |
        ⟨u, c₁, front, result, run, within, rest, rfl, rfl⟩ <;>
      rcases h'.cons_inv with ⟨e', run', rfl, rfl⟩ | ⟨u', run', exceeded', rfl, rfl⟩ |
        ⟨u', d₁, front', result', run', within', rest', rfl, rfl⟩ <;>
      obtain ⟨same, rfl⟩ := Prod.mk.inj (run'.symm.trans run) <;>
      cases same
      · exact ⟨rfl, rfl, rfl⟩
      · exact ⟨rfl, rfl, rfl⟩
      · rw [exceeded] at within'
        cases within'
      · rw [exceeded'] at within
        cases within
      · obtain ⟨rfl, rfl, rfl⟩ := ih rest rest'
        exact ⟨rfl, rfl, rfl⟩

end MeasuresPrefix

/-! ### The loop -/

/-- The loop measures one element and then asks for the budget. -/
theorem measureWhile_cons (cost : α → Estimate Usage) (sum : Usage) (count : Nat) (x : α)
    (items : List α) (c : Context) :
    (measureWhile cost sum count (x :: items)).run c =
      match (cost x).run c with
      | (.error e, c') => (.error e, c')
      | (.ok u, c') => if c'.isOver then (.ok (sum + u, count + 1), c')
          else (measureWhile cost (sum + u) (count + 1) items).run c' := by
  rw [measureWhile, run_bind]
  rcases (cost x).run c with ⟨_ | u, c'⟩
  · rfl
  · dsimp only
    rw [run_bind, run_isOver]
    dsimp only
    split <;> rfl

/-- The loop adds up the usages of the elements that it asks for, and counts them. -/
theorem measureWhile_measures (cost : α → Estimate Usage) (items : List α) (sum : Usage)
    (count : Nat) (c : Context) :
    ∃ asked outcome c', MeasuresPrefix cost c items asked outcome c' ∧
      (measureWhile cost sum count items).run c =
        (outcome.map fun us => (us.foldl Usage.add sum, count + us.length), c') := by
  induction items generalizing sum count c with
  | nil => exact ⟨[], .ok [], c, .all (.nil c), rfl⟩
  | cons x items ih =>
      have first : x :: items = [] ++ x :: items := rfl
      rw [measureWhile_cons]
      cases run : (cost x).run c with
      | mk r c₁ =>
      cases r with
      | error e => exact ⟨[x], .error e, c₁, .failed first (.nil c) run, rfl⟩
      | ok u =>
          dsimp only
          cases exceeded : c₁.isOver with
          | true =>
              exact ⟨[x], .ok [u], c₁, .exhausted first (.nil c) run exceeded, rfl⟩
          | false =>
              obtain ⟨asked, outcome, c', rest, runs⟩ := ih (sum + u) (count + 1) c₁
              refine ⟨x :: asked, outcome.map (u :: ·), c', rest.cons run exceeded, ?_⟩
              rw [if_neg Bool.false_ne_true, runs]
              cases outcome with
              | error e => rfl
              | ok us =>
                  simp only [Except.map, List.foldl_cons, List.length_cons]
                  rw [Nat.add_assoc, Nat.add_comm 1]
                  rfl

/-- A sum of usages stays at the largest total. -/
theorem Usage.count_sum (us : List Usage) (s : Scheme) :
    (Usage.sum us).count s = min (us.map (·.count s)).sum maxBytes := by
  have range : (Usage.sum us).count s ≤ maxBytes := by
    rcases List.eq_nil_or_concat us with rfl | ⟨us, u, rfl⟩
    · rw [Usage.sum, List.foldl_nil, count_zero]
      exact Nat.zero_le _
    · have last : Usage.sum (us ++ [u]) = Usage.sum us + u := by
        rw [Usage.sum, List.foldl_append]
        rfl
      rw [List.concat_eq_append, last, count_add]
      exact Nat.min_le_right _ _
  have total := count_foldl us .zero s
  rw [count_zero, Nat.zero_add] at total
  rw [← total]
  exact (Nat.min_eq_left range).symm

/-! ### Main result -/

/-- Measuring an element takes nothing back of what has been charged, unless it fails, and it leaves
the limits alone. What has been charged is in range before. -/
def Raises (cost : α → Estimate Usage) : Prop :=
  ∀ x c u c', c.spent ≤ maxBytes → (cost x).run c = (.ok u, c') →
    c'.limits = c.limits ∧ c.spent ≤ c'.spent

/-- With the budget used up at the start, nothing is measured within it. -/
theorem Raises.measured_eq_nil {cost : α → Estimate Usage} (raises : Raises cost) {c c' : Context}
    (range : c.spent ≤ maxBytes) (exceeded : c.isOver = true) {xs : List α} {us : List Usage}
    (h : Measured cost c xs us c') : xs = [] := by
  cases h with
  | nil => rfl
  | cons run within rest =>
      obtain ⟨limits, spent⟩ := raises _ _ _ _ range run
      rw [Context.isOver, Limits.isExceededBy, decide_eq_true_eq] at exceeded
      rw [Context.isOver, Limits.isExceededBy, decide_eq_false_iff_not, limits] at within
      omega

theorem Raises.length_le_one {cost : α → Estimate Usage} (raises : Raises cost) {c c' : Context}
    (range : c.spent ≤ maxBytes) (exceeded : c.isOver = true) {xs asked : List α}
    {outcome : Except TooDeep (List Usage)} (h : MeasuresPrefix cost c xs asked outcome c') :
    asked.length ≤ 1 := by
  cases h with
  | all measured => simp [raises.measured_eq_nil range exceeded measured]
  | exhausted _ measured | failed _ measured =>
      simp [raises.measured_eq_nil range exceeded measured]

/-- The walk over a container with any step. -/
def walkEvery (step : Nat) (sampled : Bool) (items : List α) (cost : α → Estimate Usage) :
    Estimate Usage := do
  let (sum, count) ← measureWhile cost .zero 0 (everyNth step items)
  return if sampled then ⟨scaledUp sum.legacy count items.length,
    scaledUp sum.refined count items.length⟩ else sum

/-- A walk measures every element or takes the step from the limits. -/
theorem walk_eq_walkEvery (items : List α) (sampled : Bool) (cost : α → Estimate Usage)
    (c : Context) :
    (walk items sampled cost).run c = (walkEvery
      (if sampled then sampleStep items.length c.limits.sampleRate else 1) sampled items cost).run
        c := by
  cases sampled with
  | true =>
      rw [walk, if_pos rfl, if_pos rfl, run_bind, run_get]
      rfl
  | false =>
      rw [walk, if_neg Bool.false_ne_true, if_neg Bool.false_ne_true, walkEvery, everyNth_one]
      rfl

/-- What a walk reports of a container, given the usages of the elements that it measured: their sum
up to the largest total, which a sample scales up to the length of the container. -/
def reported (sampled : Bool) (length : Nat) (us : List Usage) : Usage :=
  let legacy := min (us.map (·.legacy)).sum maxBytes
  let refined := min (us.map (·.refined)).sum maxBytes
  if sampled then ⟨scaledUp legacy us.length length, scaledUp refined us.length length⟩
  else ⟨legacy, refined⟩

theorem run_walkEvery (step : Nat) (sampled : Bool) (items : List α) (cost : α → Estimate Usage)
    (c : Context) :
    ∃ asked outcome c', MeasuresPrefix cost c (everyNth step items) asked outcome c' ∧
      (walkEvery step sampled items cost).run c =
        (outcome.map (reported sampled items.length), c') := by
  obtain ⟨asked, outcome, c', measures, run⟩ :=
    measureWhile_measures cost (everyNth step items) .zero 0 c
  refine ⟨asked, outcome, c', measures, ?_⟩
  rw [walkEvery, run_bind, run]
  cases outcome with
  | error e => rfl
  | ok us =>
      have legacy := Usage.count_sum us .legacy
      have refined := Usage.count_sum us .refined
      simp only [Usage.sum, Usage.count] at legacy refined
      simp only [Except.map, run_pure, reported, Nat.zero_add, ← legacy, ← refined]

/-- **What a walk measures.** A walk takes a step of one, or the step of a sample, which is at least
one. With any such step the candidates are the elements at its multiples, counted from one. Of these
exactly the ones in front are asked for, once each, up to the first beyond which the budget is used
up or that fails; what is reported is their sum, scaled up by their number in a sample, or the
error. With the budget used up at the start that is one element at most. -/
theorem walk_measures_front (items : List α) (cost : α → Estimate Usage) (c : Context) :
    (∀ sampled, (walk items sampled cost).run c = (walkEvery
        (if sampled then sampleStep items.length c.limits.sampleRate else 1) sampled items
          cost).run c) ∧
      1 ≤ sampleStep items.length c.limits.sampleRate ∧
      ∀ step sampled, 1 ≤ step →
        (∀ k, (everyNth step items)[k]? = items[(k + 1) * step - 1]?) ∧
        ∃ asked outcome c', MeasuresPrefix cost c (everyNth step items) asked outcome c' ∧
          (∀ asked' outcome' d, MeasuresPrefix cost c (everyNth step items) asked' outcome' d →
            asked' = asked ∧ outcome' = outcome ∧ d = c') ∧
          (walkEvery step sampled items cost).run c =
            (outcome.map (reported sampled items.length), c') ∧
          (Raises cost → c.spent ≤ maxBytes → c.isOver = true → asked.length ≤ 1) := by
  refine ⟨fun sampled => walk_eq_walkEvery items sampled cost c, one_le_sampleStep _ _,
    fun step sampled pos => ⟨getElem?_everyNth pos items, ?_⟩⟩
  obtain ⟨asked, outcome, c', measures, run⟩ := run_walkEvery step sampled items cost c
  exact ⟨asked, outcome, c', measures, fun _ _ _ other => measures.unique other, run,
    fun raises range exceeded => raises.length_le_one range exceeded measures⟩

/-- Beyond the budget every other one of five elements would be two, of which one is measured. -/
theorem walk_measures_front_beyond_budget :
    let c : Context := ⟨⟨100, 0, 1000, 1000, .nan⟩, fun _ => none, .none, 0, 1⟩
    Raises leaf ∧ c.spent ≤ maxBytes ∧ c.isOver = true ∧
      ∃ asked outcome c', MeasuresPrefix leaf c [.uniform 2, .uniform 4] asked outcome c' ∧
        asked.length ≤ 1 := by
  intro c
  have raises : Raises leaf := by
    intro u c v c' range run
    cases run
    exact ⟨rfl, Nat.le_min.mpr ⟨Nat.le_add_right _ _, range⟩⟩
  obtain ⟨-, asked, outcome, c', measures, -, -, few⟩ := (walk_measures_front
    [.uniform 1, .uniform 2, .uniform 3, .uniform 4, .uniform 5] leaf c).2.2 2 true (by decide)
  exact ⟨raises, by decide, rfl, asked, outcome, c', measures, few raises (by decide) rfl⟩

end ScriptCore
