import ScriptCore.Proofs.Footprint.Course

/-!
# ScriptCore.Proofs.Footprint.Charges

What a pass **charges** against what it returns.

Design points:

* The two are computed apart: costs are charged one by one where they arise, and added up along the
  recursion. The journal has every charge, so each of the two is compared with the journal
  (`Course.spent_eq`, `Performs.refined_eq`).
* A pass that the budget stops returns what it has added up by then. The rules for stopping are
  cases like the others.
* What a sample returns is scaled up, and so has nothing to do with what it charges.
-/

namespace ScriptCore

/-! ### Charges -/

/-- The refined bytes that an event charges. -/
def Event.bytes : Event → Nat
  | .charged u => u.refined
  | _ => 0

/-- The refined bytes that are charged along a journal. -/
def charges (j : List Moment) : Nat := (j.map fun m => m.event.bytes).sum

@[simp] theorem charges_nil : charges [] = 0 := rfl

@[simp] theorem charges_cons (m : Moment) (j : List Moment) :
    charges (m :: j) = m.event.bytes + charges j := by
  simp [charges]

@[simp] theorem charges_append (j₁ j₂ : List Moment) :
    charges (j₁ ++ j₂) = charges j₁ + charges j₂ := by
  simp [charges]

theorem Context.Step.spent_eq {c c' : Context} {e : Event} (step : c.Step e c')
    (hc : c.spent ≤ maxBytes) : c'.spent = saturatingAdd c.spent e.bytes := by
  have hsame : c.spent = saturatingAdd c.spent 0 := (Nat.min_eq_left hc).symm
  cases step with
  | charged u => rfl
  | entered descends =>
      obtain ⟨-, rfl⟩ := descend_ok descends
      exact hsame
  | _ => exact hsame

/-- What is spent grows by what is charged. -/
theorem Course.spent_eq {c c' : Context} {j : List Moment} (course : Course c j c')
    (hc : c.spent ≤ maxBytes) : c'.spent = saturatingAdd c.spent (charges j) := by
  induction course with
  | nil c => exact (Nat.min_eq_left hc).symm
  | cons step _ ih =>
      have hstep := step.spent_eq hc
      have hle := hstep.trans_le (Nat.min_le_right _ _)
      rw [ih hle, hstep, charges_cons]
      simp only [saturatingAdd]
      omega

/-! ### Totals -/

/-- What several usages come to. -/
def refinedBytes (us : List Usage) : Nat := (us.map Usage.refined).sum

theorem Usage.refined_add {u v : Usage} (h : u.refined + v.refined ≤ maxBytes) :
    (u + v).refined = u.refined + v.refined :=
  Nat.min_eq_left h

theorem Usage.refined_foldl (us : List Usage) (u : Usage)
    (h : u.refined + refinedBytes us ≤ maxBytes) :
    (us.foldl Usage.add u).refined = u.refined + refinedBytes us := by
  induction us generalizing u with
  | nil => rfl
  | cons v us ih =>
      simp only [refinedBytes, List.map_cons, List.sum_cons] at h ih ⊢
      have hadd : (u.add v).refined = u.refined + v.refined := refined_add (by omega)
      rw [List.foldl_cons, ih (u.add v) (by omega), hadd]
      omega

/-- A sum is exact as long as it is in range. -/
theorem Usage.refined_sum {us : List Usage} (h : refinedBytes us ≤ maxBytes) :
    (Usage.sum us).refined = refinedBytes us :=
  (refined_foldl us .zero ((Nat.zero_add _).trans_le h)).trans (Nat.zero_add _)

/-! ### What is returned -/

/-- No container is sampled along a journal. -/
def Unsampled (j : List Moment) : Prop := ∀ m ∈ j, m.event ≠ .sampled

/-- Some bytes are what a journal charges, if nothing is sampled and the charges are in range. -/
def Tallies (j : List Moment) (n : Nat) : Prop :=
  Unsampled j → charges j ≤ maxBytes → n = charges j

namespace Tallies

variable {j j₁ j₂ : List Moment} {m n : Nat}

theorem append (h₁ : Tallies j₁ m) (h₂ : Tallies j₂ n) : Tallies (j₁ ++ j₂) (m + n) := by
  intro hj hrange
  obtain ⟨hj₁, hj₂⟩ := List.forall_mem_append.mp hj
  rw [charges_append] at hrange ⊢
  rw [h₁ hj₁ (by omega), h₂ hj₂ (by omega)]

/-- Two usages are added up without loss. -/
theorem add {u v : Usage} (h₁ : Tallies j₁ u.refined) (h₂ : Tallies j₂ v.refined) :
    Tallies (j₁ ++ j₂) (u + v).refined := by
  intro hj hrange
  have hsum := h₁.append h₂ hj hrange
  rw [Usage.refined_add (hsum.trans_le hrange), hsum]

theorem sum {us : List Usage} (h : Tallies j (refinedBytes us)) :
    Tallies j (Usage.sum us).refined := by
  intro hj hrange
  have hsum := h hj hrange
  rw [Usage.refined_sum (hsum.trans_le hrange), hsum]

/-- An event that charges nothing. -/
theorem quiet {e : Moment} (he : e.event.bytes = 0) (h : Tallies j n) : Tallies (e :: j) n := by
  intro hj hrange
  rw [charges_cons, he, Nat.zero_add] at hrange ⊢
  exact h (List.forall_mem_cons.mp hj).2 hrange

theorem deeper {c c' : Context} (h : Tallies j n) :
    Tallies (⟨.entered, c⟩ :: (j ++ [⟨.left, c'⟩])) n :=
  .quiet rfl (h.append fun _ _ => rfl)

end Tallies

namespace Heap

variable {h : Heap}

mutual

/-- What a performance returns is what it has charged. -/
theorem Performs.tallies {p : Plan} {c : Context} {j : List Moment} {r : Except TooDeep Usage}
    {c' : Context} {u : Usage} (hr : r = .ok u) : h.Performs p c j r c' → Tallies j u.refined
  | .nothing _ | .met _ => by
      cases hr
      exact fun _ _ => rfl
  | .cost _ _ => by
      cases hr
      exact fun _ _ => rfl
  | .node performs => performs.tallies hr
  | .bothFails _ | .withinFails _ | .tooDeep _ => nomatch hr
  | .both first second => by
      obtain ⟨v, hv, hu⟩ := eq_ok_of_map hr
      exact hu ▸ (first.tallies rfl).add (second.tallies hv)
  | .withinStops first _ => first.tallies hr
  | .within first _ second => by
      obtain ⟨v, hv, hu⟩ := eq_ok_of_map hr
      exact hu ▸ (first.tallies rfl).add (second.tallies hv)
  | .deeper _ content => (content.tallies hr).deeper
  | .first _ content => .quiet rfl (content.tallies hr)
  | .again _ content => .quiet rfl (content.tallies hr)
  | .unmet _ content => content.tallies hr
  | .contents content => .quiet rfl (content.tallies hr)
  | .container _ elements => by
      obtain ⟨us, hus, hu⟩ := eq_ok_of_map hr
      exact hu ▸ (elements.tallies hus).sum
  | .sample _ _ => fun hj _ => absurd rfl (hj _ List.mem_cons_self)

theorem PerformsEach.tallies {ps : List Plan} {c : Context} {j : List Moment}
    {r : Except TooDeep (List Usage)} {c' : Context} {us : List Usage} (hr : r = .ok us) :
    h.PerformsEach ps c j r c' → Tallies j (refinedBytes us)
  | .nil _ => by
      cases hr
      exact fun _ _ => rfl
  | .fails _ => nomatch hr
  | .stops head _ => by
      cases hr
      exact head.tallies rfl
  | .cons head _ tail => by
      obtain ⟨vs, hvs, hus⟩ := eq_ok_of_map hr
      exact hus ▸ (head.tallies rfl).append (tail.tallies hvs)

end

end Heap

/-! ### Main result -/

/-- Nothing that is charged is lost, and nothing is charged twice. A pass without samples returns the
sum of its charges, and what has been spent grows by that, also where the budget has stopped it. -/
theorem returned_eq_spent (h : Heap) (root : Root) {c c' : Context} {u : Usage} (hc : c.Sound)
    (hrun : (rootUsage h root).run c = (.ok u, c')) :
    (∃! j, h.Performs root.plan c j (.ok u) c') ∧
    ∀ j, h.Performs root.plan c j (.ok u) c' → Unsampled j →
      c'.spent = saturatingAdd c.spent (charges j) ∧
      (c.spent + charges j ≤ maxBytes → u.refined = charges j ∧ u.refined = c'.spent - c.spent) := by
  obtain ⟨j, r, c₁, hrun', performs⟩ := performs_rootUsage h root hc
  obtain ⟨rfl, rfl⟩ := Prod.mk.inj (hrun.symm.trans hrun')
  refine ⟨⟨j, performs, fun _ other => (other.unique performs).1⟩, fun j performs hj => ?_⟩
  have hspent := performs.course.spent_eq hc.spent
  refine ⟨hspent, fun hrange => ?_⟩
  have htally := performs.tallies rfl hj (by omega)
  rw [hspent, saturatingAdd, Nat.min_eq_left hrange, htally]
  exact ⟨rfl, (Nat.add_sub_cancel_left ..).symm⟩

/-- A context with a budget of four bytes. -/
def fourBytes : Context := .new ⟨2, 4, 10, 10, .zero false⟩ fun _ => none

/-- Two integers. -/
def twoIntegers : Root := .values [.smi 1, .smi 2]

/-- The budget stops the pass after the first integer. -/
theorem performs_twoIntegers : selfHolding.Performs twoIntegers.plan fourBytes
    [⟨.charged (.uniform 8), fourBytes.charge (.uniform 8)⟩] (.ok (.uniform 8))
    (fourBytes.charge (.uniform 8)) := by
  have first : selfHolding.Performs (.node (.value (.smi 1))) fourBytes
      [⟨.charged (.uniform 8), fourBytes.charge (.uniform 8)⟩] (.ok (.uniform 8))
      (fourBytes.charge (.uniform 8)) := .node (.cost (.bytes 8) fourBytes)
  exact .container (s := .never) rfl (.stops first rfl)

theorem returned_eq_spent_when_stopped :
    ∃ u c' j, (rootUsage selfHolding twoIntegers).run fourBytes = (.ok u, c') ∧ c'.isOver = true ∧
      selfHolding.Performs twoIntegers.plan fourBytes j (.ok u) c' ∧ Unsampled j ∧
      u.refined = charges j ∧ u.refined = c'.spent - fourBytes.spent := by
  have hrun : (rootUsage selfHolding twoIntegers).run fourBytes =
      (.ok (.uniform 8), fourBytes.charge (.uniform 8)) := rfl
  have hall := (returned_eq_spent selfHolding twoIntegers (Context.sound_new _ _) hrun).2
  have unsampled : Unsampled [⟨.charged (.uniform 8), fourBytes.charge (.uniform 8)⟩] := by
    simp [Unsampled]
  exact ⟨_, _, _, hrun, rfl, performs_twoIntegers, unsampled,
    (hall _ performs_twoIntegers unsampled).2 (by decide)⟩

end ScriptCore
