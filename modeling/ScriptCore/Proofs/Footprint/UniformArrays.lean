import Mathlib.Logic.Function.Iterate
import ScriptCore.Proofs.Binary64.Monotone
import ScriptCore.Proofs.Footprint.Follows

/-!
# ScriptCore.Proofs.Footprint.UniformArrays

Sampling is **exact where all elements cost the same**.

Design points:

* The step is at most the length, whatever the rate is, so a sample is never empty
  (`length_everyNth`).
* However many elements the budget lets be measured (`Context.Measures`), their sum is a multiple of
  one cost. The quotient and the product are whole numbers then, and below `2⁵³` they are not rounded.
-/

namespace ScriptCore

open Estimate

/-! ### Exact samples -/

/-- Some elements of the same cost, scaled up. -/
theorem scaledUp_uniform {cost count total : Nat} (some : 0 < count) (le : count ≤ total)
    (small : cost * total < 2 ^ 53) : scaledUp (cost * count) count total = cost * total := by
  rw [scaledUp, if_neg some.ne']
  rcases Nat.eq_zero_or_pos cost with rfl | pos
  -- Nothing is scaled up to nothing, also beyond the numbers that are exact.
  · have nonzero : (Binary64.ofNat count).isZero = false :=
      (Binary64.atMost_ofNat (Nat.one_le_iff_ne_zero.mpr some.ne')).notZero
        (Binary64.whole_ofNat (by decide)).isZero
    have hcount := Binary64.atMost_ofNat (Nat.le_refl count)
    have quotient : Binary64.ofNat 0 / Binary64.ofNat count = .zero false := by
      rw [Binary64.ofNat_zero]
      exact hcount.zero_div nonzero
    have hzero : (Binary64.zero false).AtMost (.zero false) :=
      Binary64.atMost_ofMagnitude (Nat.le_refl 0) (Nat.zero_le _)
    rw [Nat.zero_mul, Nat.zero_mul, quotient,
      hzero.clamp_mul_of_zero (Binary64.atMost_ofNat (Nat.le_refl total)) rfl, Int.toNat_zero]
  · have htotal : total < 2 ^ 53 := Nat.lt_of_le_of_lt (Nat.le_mul_of_pos_left total pos) small
    have hcost : cost < 2 ^ 53 :=
      Nat.lt_of_le_of_lt (Nat.le_mul_of_pos_right cost (Nat.lt_of_lt_of_le some le)) small
    have hsum : cost * count ≤ 2 ^ 53 :=
      Nat.le_trans (Nat.mul_le_mul_left cost le) (Nat.le_of_lt small)
    have average := Binary64.Whole.div (k := 53) (Binary64.whole_ofNat hsum)
      (Binary64.whole_ofNat (Nat.le_trans le (Nat.le_of_lt htotal))) some (by decide) (by omega)
    rw [Binary64.roundBits_of_le (Nat.le_of_lt hcost)] at average
    have product := average.mul (k := 53) (Binary64.whole_ofNat (Nat.le_of_lt htotal)) (by decide)
      (by omega)
    rw [Binary64.roundBits_of_le (Nat.le_of_lt small)] at product
    have hbytes : (2 : Nat) ^ 53 ≤ maxBytes := by decide
    rw [product.clamp (by omega), Int.toNat_natCast]

/-! ### The step -/

theorem sampleStep_bounds {total : Nat} (some : 0 < total) (rate : Binary64) :
    1 ≤ sampleStep total rate ∧ sampleStep total rate ≤ total := by
  unfold sampleStep
  split
  · exact ⟨Nat.le_refl 1, some⟩
  · exact ⟨Nat.le_max_left 1 _, Nat.max_le.mpr ⟨some, Nat.min_le_left total _⟩⟩

theorem everyNth_concat {α : Type} (step : Nat) (items : List α) (x : α) :
    everyNth step (items ++ [x]) =
      everyNth step items ++ if (items.length + 1) % step = 0 then [x] else [] := by
  rw [everyNth, everyNth, List.zipIdx_append, List.filterMap_append, Nat.add_comm]
  congr 1
  split <;> simp_all

/-- One element in each step is part of the sample. -/
theorem length_everyNth {α : Type} (step : Nat) (items : List α) :
    (everyNth step items).length = items.length / step := by
  induction items using List.reverseRecOn with
  | nil => simp [everyNth]
  | append_singleton items x ih =>
      rw [everyNth_concat, List.length_append, ih, List.length_append, List.length_singleton,
        Nat.succ_div]
      by_cases sampled : (items.length + 1) % step = 0
      · rw [if_pos sampled, if_pos (Nat.dvd_of_mod_eq_zero sampled), List.length_singleton]
      · rw [if_neg sampled, if_neg (fun h => sampled (Nat.mod_eq_zero_of_dvd h)), List.length_nil]

/-! ### Uniform elements -/

/-- Measuring the value charges a usage and does nothing else. -/
def Value.IsLeaf (v : Value) (u : Usage) : Prop := ∀ h inner, valueUsage h inner v = leaf u

theorem Value.IsLeaf.usageWithin_eq {v : Value} {u : Usage} (hv : v.IsLeaf u) (h : Heap)
    (room : Nat) : usageWithin h room (.value v) = leaf u := by
  cases room with
  | zero => exact hv h _
  | succ room => exact hv h _

/-- The context after a usage has been charged a number of times. -/
def Context.charged (c : Context) (u : Usage) (count : Nat) : Context :=
  (fun c => c.charge u)^[count] c

/-- Of some number of elements, each with the same usage, so many are measured: all of them, or as many
as it takes to use up the budget, and one in any case. -/
structure Context.Measures (c : Context) (u : Usage) (length count : Nat) : Prop where
  some : 1 ≤ count
  le : count ≤ length
  within : ∀ n, 1 ≤ n → n < count → (c.charged u n).isOver = false
  stops : count < length → (c.charged u count).isOver = true

namespace Context.Measures

variable {c : Context} {u : Usage} {length count : Nat}

/-- The first element is the only one, or the budget is used up after it. -/
theorem first (nonempty : 1 ≤ length) (ends : 1 < length → (c.charge u).isOver = true) :
    c.Measures u length 1 where
  some := Nat.le_refl 1
  le := nonempty
  within _ hn hlt := absurd hlt (Nat.not_lt_of_le hn)
  stops := ends

/-- The first element leaves budget, and others are measured after it. -/
theorem succ (spare : (c.charge u).isOver = false) (rest : (c.charge u).Measures u length count) :
    c.Measures u (length + 1) (count + 1) where
  some := Nat.le_add_left 1 count
  le := Nat.succ_le_succ rest.le
  within n hn hlt := by
    obtain ⟨n, rfl⟩ := Nat.exists_eq_add_of_le' hn
    rcases Nat.eq_zero_or_pos n with rfl | hpos
    · exact spare
    · exact rest.within n hpos (Nat.lt_of_succ_lt_succ hlt)
  stops hlt := rest.stops (Nat.lt_of_succ_lt_succ hlt)

end Context.Measures

/-- A number of times a usage. -/
def Usage.times (u : Usage) (count : Nat) : Usage := ⟨u.legacy * count, u.refined * count⟩

theorem Usage.count_times (u : Usage) (count : Nat) (s : Scheme) :
    (u.times count).count s = u.count s * count := by
  cases s <;> rfl

theorem Usage.times_add {u : Usage} {count : Nat}
    (range : ∀ s, u.count s * (count + 1) ≤ maxBytes) : u.times count + u = u.times (count + 1) := by
  refine Usage.ext_count fun s => ?_
  rw [Usage.count_add, Usage.count_times, Usage.count_times, saturatingAdd, ← Nat.mul_succ]
  exact Nat.min_eq_left (range s)

/-- The loop charges a leaf and goes on while there is budget. -/
theorem measureWhile_leaf {α : Type} {cost : α → Estimate Usage} {u : Usage} {x : α}
    (hx : cost x = leaf u) (sum : Usage) (count : Nat) (items : List α) (c : Context) :
    (measureWhile cost sum count (x :: items)).run c =
      if (c.charge u).isOver then (.ok (sum + u, count + 1), c.charge u)
      else (measureWhile cost (sum + u) (count + 1) items).run (c.charge u) := by
  rw [measureWhile, hx, run_bind, run_leaf]
  dsimp only
  rw [run_bind, run_isOver]
  dsimp only
  split <;> rfl

/-- The loop over uniform elements goes on from a multiple of their usage. -/
theorem measureWhile_uniform {α : Type} {cost : α → Estimate Usage} {u : Usage} {items : List α}
    (each : ∀ x ∈ items, cost x = leaf u) (nonempty : items ≠ []) {before : Nat}
    (range : ∀ s, u.count s * (before + items.length) ≤ maxBytes) (c : Context) :
    ∃ count, c.Measures u items.length count ∧
      (measureWhile cost (u.times before) before items).run c =
        (.ok (u.times (before + count), before + count), c.charged u count) := by
  induction items generalizing before c with
  | nil => exact absurd rfl nonempty
  | cons x items ih =>
      have hadd : u.times before + u = u.times (before + 1) :=
        Usage.times_add fun s =>
          Nat.le_trans (Nat.mul_le_mul_left _ (by rw [List.length_cons]; omega)) (range s)
      rw [measureWhile_leaf (each x List.mem_cons_self), hadd]
      cases exceeded : (c.charge u).isOver with
      | true =>
          rw [if_pos rfl]
          exact ⟨1, .first (Nat.le_add_left 1 _) fun _ => exceeded, rfl⟩
      | false =>
          rw [if_neg Bool.false_ne_true]
          cases items with
          | nil => exact ⟨1, .first (Nat.le_refl 1) fun hlt => absurd hlt (Nat.lt_irrefl 1), rfl⟩
          | cons y items =>
              have rest : ∀ s, u.count s * (before + 1 + (y :: items).length) ≤ maxBytes := by
                intro s
                rw [Nat.add_assoc, Nat.add_comm 1]
                exact range s
              obtain ⟨count, measures, run⟩ :=
                ih (fun z hz => each z (List.mem_cons_of_mem _ hz)) (List.cons_ne_nil y items) rest
                  (c.charge u)
              refine ⟨count + 1, measures.succ exceeded, ?_⟩
              rw [run, Nat.add_assoc, Nat.add_comm 1]
              rfl

/-- A sample of uniform elements is scaled up to what all of them cost. -/
theorem walk_uniform {α : Type} {cost : α → Estimate Usage} {u : Usage} {items : List α}
    (each : ∀ x ∈ items, cost x = leaf u) (nonempty : items ≠ [])
    (small : ∀ s, u.count s * items.length < 2 ^ 53) (c : Context) :
    ∃ count, c.Measures u (items.length / sampleStep items.length c.limits.sampleRate) count ∧
      (walk items true cost).run c = (.ok (u.times items.length), c.charged u count) := by
  obtain ⟨hstep, hle⟩ := sampleStep_bounds (List.length_pos_iff.mpr nonempty) c.limits.sampleRate
  have hlength := length_everyNth (sampleStep items.length c.limits.sampleRate) items
  have hsampled : everyNth (sampleStep items.length c.limits.sampleRate) items ≠ [] := by
    rw [← List.length_pos_iff, hlength]
    exact Nat.div_pos hle hstep
  have hfewer : items.length / sampleStep items.length c.limits.sampleRate ≤ items.length :=
    Nat.div_le_self _ _
  have hbytes : (2 : Nat) ^ 53 ≤ maxBytes := by decide
  have range : ∀ s, u.count s *
      (0 + (everyNth (sampleStep items.length c.limits.sampleRate) items).length) ≤ maxBytes := by
    intro s
    rw [Nat.zero_add, hlength]
    exact Nat.le_trans (Nat.mul_le_mul_left _ hfewer)
      (Nat.le_trans (Nat.le_of_lt (small s)) hbytes)
  obtain ⟨count, measures, run⟩ :=
    measureWhile_uniform (fun x hx => each x (everyNth_subset hx)) hsampled range c
  rw [hlength] at measures
  have hcount := Nat.le_trans measures.le hfewer
  refine ⟨count, measures, ?_⟩
  rw [walk, if_pos rfl, run_bind, run_get]
  dsimp only
  rw [run_bind, show Usage.zero = u.times 0 from rfl, run]
  dsimp only
  rw [Nat.zero_add, run_pure]
  refine congrArg (fun total => (Except.ok total, c.charged u count)) (Usage.ext_count fun s => ?_)
  rw [Usage.count_times, ← scaledUp_uniform measures.some hcount (small s), ← Usage.count_times]
  cases s <;> rfl

/-! ### Main result -/

/-- The sample of an array of uniform leaves is not empty, and what it is scaled up to is what all
elements cost, whatever the rate is and wherever the budget ends it. -/
theorem uniform_sample_exact (h : Heap) (room : Nat) {elements : Array Value} {u : Usage}
    {c : Context} (leaves : ∀ v ∈ elements, v.IsLeaf u)
    (long : c.limits.arrayThreshold < elements.size)
    (small : ∀ s, u.count s * elements.size < 2 ^ 53) :
    let step := sampleStep elements.size c.limits.sampleRate
    1 ≤ step ∧ step ≤ elements.size ∧
      ∃ count, c.Measures u (elements.size / step) count ∧
        (payloadUsage (usageWithin h room) (.array elements)).run c =
          (.ok ⟨u.legacy * elements.size, u.refined * elements.size⟩, c.charged u count) := by
  intro step
  obtain ⟨hstep, hle⟩ := sampleStep_bounds (Nat.zero_lt_of_lt long) c.limits.sampleRate
  refine ⟨hstep, hle, ?_⟩
  have nonempty : elements.toList ≠ [] := by
    rw [← List.length_pos_iff, Array.length_toList]
    exact Nat.zero_lt_of_lt long
  have each : ∀ v ∈ elements.toList, usageWithin h room (.value v) = leaf u :=
    fun v hv => (leaves v (Array.mem_toList_iff.mp hv)).usageWithin_eq h room
  obtain ⟨count, measures, run⟩ := walk_uniform each nonempty (by simpa using small) c
  rw [Array.length_toList] at measures run
  refine ⟨count, measures, ?_⟩
  rw [payloadUsage, run_bind, run_samplesArray, Limits.samplesArray, decide_eq_true long]
  exact run

/-- With a rate that is not a number and a budget of nothing, the first of three strings stands for all
of them. -/
theorem uniform_sample_exact_without_budget :
    let c : Context := .new ⟨0, 0, 1, 1, .nan⟩ fun _ => none
    (payloadUsage (usageWithin .empty 0) (.array #[.string (.imported "ab"), .string (.imported "cd"),
      .string (.imported "ef")])).run c = (.ok ⟨6, 54⟩, c.charge ⟨2, 18⟩) := by
  intro c
  have leaves : ∀ v ∈ (#[.string (.imported "ab"), .string (.imported "cd"),
      .string (.imported "ef")] : Array Value), v.IsLeaf ⟨2, 18⟩ := by
    intro v hv
    simp only [List.mem_toArray, List.mem_cons, List.not_mem_nil, or_false] at hv
    rcases hv with rfl | rfl | rfl <;> exact fun _ _ => rfl
  obtain ⟨-, -, count, measures, run⟩ :=
    uniform_sample_exact .empty 0 (c := c) leaves (by decide) (fun s => by cases s <;> decide)
  -- A second string would have been measured within the budget.
  obtain rfl : count = 1 := Nat.le_antisymm
    (Nat.le_of_not_lt fun more => Bool.noConfusion (measures.within 1 (Nat.le_refl 1) more))
    measures.some
  exact run

end ScriptCore
