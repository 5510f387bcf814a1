import ScriptCore.Proofs.Footprint.Walk

/-!
# ScriptCore.Proofs.Footprint.Total

The **total** of an estimate: the cost of everything that is reached, each node once.

Design points:

* The nodes that an estimate counted make up a finite set of nodes that are reached. It is all of
  them if the total is within the budget, and the total is its cost then (`estimate_counted`).
* Both main results compare such sets. Two estimates within their budgets have counted the same set,
  however they came to it; one over its budget has counted less.
-/

namespace ScriptCore

open Piece

/-- A root that is measured in full: nothing belongs to the host and nothing is sampled. -/
structure Measurable (h : Heap) (limits : Limits) (root : Root) : Prop where
  heap : h.IsLanguage
  root : root.IsLanguage
  covers : limits.Covers h

namespace Heap

/-- The exact cost of a root with some of the nodes that it holds. -/
def exactTotal (h : Heap) (root : Root) (S : Finset Allocation) (s : Scheme) : Nat :=
  total s root.pieces + ∑ a ∈ S, h.cost s a

/-- No sum of what a root holds goes out of range. -/
def InRange (h : Heap) (root : Root) : Prop :=
  ∀ S : Finset Allocation, (∀ a ∈ S, h.Reaches root.pieces a) →
    ∀ s, h.exactTotal root S s ≤ maxBytes

/-- The same pieces in the same nodes, in any order. -/
def SameUpToOrder (h h' : Heap) : Prop := ∀ a, (h.pieces a).Perm (h'.pieces a)

variable {h h' : Heap} {root root' : Root}

theorem exactTotal_mono {S S' : Finset Allocation} (hS : S ⊆ S') (s : Scheme) :
    h.exactTotal root S s ≤ h.exactTotal root S' s :=
  Nat.add_le_add_left (Finset.sum_le_sum_of_subset hS) _

theorem exactTotal_perm (hh : h.SameUpToOrder h') (hroot : root.pieces.Perm root'.pieces)
    (S : Finset Allocation) (s : Scheme) : h.exactTotal root S s = h'.exactTotal root' S s := by
  rw [exactTotal, exactTotal, total_perm hroot]
  exact congrArg _ (Finset.sum_congr rfl fun a _ => total_perm (hh a))

theorem reaches_perm (hh : h.SameUpToOrder h') (hroot : root.pieces.Perm root'.pieces)
    (a : Allocation) : h.Reaches root.pieces a ↔ h'.Reaches root'.pieces a := by
  constructor
  · intro ha
    exact (ha.mono fun p hp => hroot.mem_iff.mp hp).perm fun b => (hh b).symm
  · intro ha
    exact (ha.mono fun p hp => hroot.mem_iff.mpr hp).perm hh

theorem InRange.perm (hrange : h.InRange root) (hh : h.SameUpToOrder h')
    (hroot : root.pieces.Perm root'.pieces) : h'.InRange root' := by
  intro S hS s
  rw [← exactTotal_perm hh hroot]
  exact hrange S (fun a ha => (reaches_perm hh hroot a).mpr (hS a ha)) s

end Heap

variable {h : Heap} {limits : Limits} {oracle : SizeOracle} {root : Root} {u : Usage}

/-- An estimate never exceeds the cost of what it counted. Within the budget that cost is its
result, and it counted everything. -/
theorem estimate_counted (hm : Measurable h limits root) (hrange : h.InRange root)
    (hok : estimate h limits oracle root = .ok u) :
    ∃ S : Finset Allocation, (∀ a ∈ S, h.Reaches root.pieces a) ∧
      (∀ s, u.count s ≤ h.exactTotal root S s) ∧
      (u.refined ≤ limits.memLimit →
        (∀ a, h.Reaches root.pieces a → a ∈ S) ∧ ∀ s, u.count s = h.exactTotal root S s) := by
  have hready : (Context.new limits oracle).Ready h := ⟨hm.covers, Nat.zero_le _⟩
  obtain ⟨counted, ha⟩ := accounts_rootUsage hm.heap hm.root hready (Prod.ext hok rfl)
  have hsum : ∀ s, h.costs s counted = ∑ a ∈ counted.toFinset, h.cost s a := fun s =>
    (List.sum_toFinset _ ha.nodup).symm
  have hvisits : ∀ a, _ ↔ a ∈ counted := fun a =>
    (ha.visits a).trans (or_iff_right (Visits.not_counted_none a))
  have hreached : ∀ a ∈ counted.toFinset, h.Reaches root.pieces a := fun a hmem =>
    ha.reached a (List.mem_toFinset.mp hmem)
  have hbound : ∀ s, u.count s ≤ h.exactTotal root counted.toFinset s := fun s => by
    rw [Heap.exactTotal, ← hsum]
    exact ha.bound s
  refine ⟨counted.toFinset, hreached, hbound, fun hwithin => ?_⟩
  have hle : ∀ s, u.count s ≤ maxBytes := fun s => (hbound s).trans (hrange _ hreached s)
  have hover : ((rootUsage h root).run (.new limits oracle)).2.isOver = false := by
    rw [Context.isOver, ha.limits, ha.spent]
    have hspent : saturatingAdd 0 u.refined ≤ limits.memLimit :=
      (Nat.min_le_left _ _).trans ((Nat.zero_add _).trans_le hwithin)
    exact decide_eq_false (Nat.not_lt.mpr hspent)
  refine ⟨fun a hreach => ?_, fun s => ?_⟩
  · rw [List.mem_toFinset, ← hvisits]
    refine hreach.mem_of_closed (ha.followed hover) fun b hb d hd => ?_
    exact ha.closed hover b ((hvisits b).mp hb) d hd
  -- Below the bound on all sums, saturation changes nothing.
  · have hcharged := ha.charged hover s
    have htotal := hrange _ hreached s
    rw [hsum] at hcharged
    rw [Heap.exactTotal] at htotal ⊢
    have := hle s
    omega

/-- Without a budget the result is the cost of everything that is reached. -/
theorem estimate_unlimited (hm : Measurable h limits root) (hrange : h.InRange root)
    (hmem : limits.memLimit = maxBytes) (hok : estimate h limits oracle root = .ok u) :
    ∃ S : Finset Allocation, (∀ a, a ∈ S ↔ h.Reaches root.pieces a) ∧
      ∀ s, u.count s = h.exactTotal root S s := by
  obtain ⟨S, hreached, hbound, hwithin⟩ := estimate_counted hm hrange hok
  have hle : u.refined ≤ limits.memLimit := by
    rw [hmem]
    exact (hbound .refined).trans (hrange S hreached _)
  obtain ⟨hall, hexact⟩ := hwithin hle
  exact ⟨S, fun a => ⟨hreached a, hall a⟩, hexact⟩

/-! ### A heap with a cycle -/

/-- An array that holds itself and two integers. -/
def selfHolding : Heap :=
  ⟨#[.new (.array #[.object ⟨0⟩, .smi 7, .smi 8]) none], #[], #[], #[], #[], #[], 0, ∅⟩

namespace selfHolding

theorem object_zero :
    selfHolding.object ⟨0⟩ = .new (.array #[.object ⟨0⟩, .smi 7, .smi 8]) none := rfl

theorem object_succ (n : Nat) : selfHolding.object ⟨n + 1⟩ = .new .plain none := rfl

theorem measurable (b : Nat) :
    Measurable selfHolding ⟨2, b, 10, 10, .zero false⟩ (.node (.value (.object ⟨0⟩))) where
  heap := by
    rintro ⟨_ | n⟩
    · simp [object_zero, Object.toClass, Object.new, Payload.toClass]
    · simp [object_succ, Object.toClass, Object.new, Payload.toClass]
  root := trivial
  covers := by
    rintro ⟨_ | n⟩
    · simp [object_zero, Object.new, PropertyTable.toList, PropertyTable.empty]
    · simp [object_succ, Object.new, PropertyTable.toList, PropertyTable.empty]

theorem inRange : selfHolding.InRange (.node (.value (.object ⟨0⟩))) := by
  intro S hS s
  have hself : ∀ a ∈ S, a ∈ ({.object ⟨0⟩} : Finset Allocation) := by
    intro a ha
    refine (hS a ha).mem_of_closed (S := (· ∈ ({.object ⟨0⟩} : Finset Allocation))) ?_ ?_
    · simp [Root.pieces, Value.pieces]
    · intro b hb d hd
      obtain rfl := Finset.mem_singleton.mp hb
      simpa [Heap.pieces, object_zero, Object.pieces, Object.new, Object.isInitialized,
        Payload.pieces, Value.pieces, refs, PropertyTable.toList, PropertyTable.empty] using hd
  refine (Heap.exactTotal_mono hself s).trans ?_
  cases s <;> decide

/-- The budget is asked about after the header and after each element that is measured. -/
theorem estimate_eq (b : Nat) :
    estimate selfHolding ⟨2, b, 10, 10, .zero false⟩ (fun _ => none)
        (.node (.value (.object ⟨0⟩))) =
      .ok (.uniform (if b < 8 then 8 else if b < 16 then 16 else 24)) := by
  by_cases h₈ : b < 8 <;> by_cases h₁₆ : b < 16 <;>
  simp [estimate, rootUsage, nodeUsageHere, usageWithin, nodeUsage, valueUsage, objectUsage,
    object_zero, Object.new, Object.isInitialized, Context.new, Context.descend, Depth.descend,
    Estimate.run_bind, Estimate.run_map, Visits.visit, Visits.none, Estimate.bytes, innerObjects,
    propertiesUsage, PropertyTable.empty, PropertyTable.toList, walk, measureWhile, payloadUsage,
    Context.charge, Context.isOver, Limits.isExceededBy, Limits.samplesArray, Limits.samplesEntries,
    Except.map, Context.ascend, Depth.ascend, saturatingAdd, Usage.uniform, sizeHeader, sizeInt,
    maxBytes, h₈, h₁₆] <;> rfl

end selfHolding

/-! ### Main results -/

/-- An object that has not been made costs nothing. -/
theorem Heap.cost_uninitialized {o : ObjectId} (ho : (h.object o).isInitialized = false)
    (s : Scheme) : h.cost s (.object o) = 0 := by
  simp [Heap.cost, Heap.pieces, Object.pieces, ho]

/-- The exact estimate is the cost of the root and of every node that is reached from it, each
counted once. The order in which nodes are held plays no part in it. -/
theorem estimate_eq_cost_of_reached (hm : Measurable h limits root) (hrange : h.InRange root)
    (hmem : limits.memLimit = maxBytes) (hok : estimate h limits oracle root = .ok u) :
    (∃ S : Finset Allocation, (∀ a, a ∈ S ↔ h.Reaches root.pieces a) ∧
      ∀ s, u.count s = total s root.pieces + ∑ a ∈ S, h.cost s a) ∧
    (∀ o, (h.object o).isInitialized = false → ∀ s, h.cost s (.object o) = 0) ∧
    ∀ {h' : Heap} {limits' : Limits} {oracle' : SizeOracle} {root' : Root} {u' : Usage},
      Measurable h' limits' root' → limits'.memLimit = maxBytes → h.SameUpToOrder h' →
      root.pieces.Perm root'.pieces → estimate h' limits' oracle' root' = .ok u' → u' = u := by
  obtain ⟨S, hS, hu⟩ := estimate_unlimited hm hrange hmem hok
  refine ⟨⟨S, hS, hu⟩, fun o ho => Heap.cost_uninitialized ho, ?_⟩
  intro h' limits' oracle' root' u' hm' hmem' hh hroot hok'
  obtain ⟨S', hS', hu'⟩ := estimate_unlimited hm' (hrange.perm hh hroot) hmem' hok'
  -- Both heaps reach the same nodes, and each node costs the same in both.
  have hsame : S' = S := by
    ext a
    rw [hS, hS', Heap.reaches_perm hh hroot]
  refine Usage.ext_count fun s => ?_
  rw [hu, hu', hsame, Heap.exactTotal_perm hh hroot]

theorem estimate_eq_cost_of_cycle :
    ∃ u, estimate selfHolding ⟨2, maxBytes, 10, 10, .zero false⟩ (fun _ => none)
        (.node (.value (.object ⟨0⟩))) = .ok u ∧
      ∃ S : Finset Allocation,
        (∀ a, a ∈ S ↔ selfHolding.Reaches (Value.object ⟨0⟩).pieces a) ∧
          ∀ s, u.count s = total s (Value.object ⟨0⟩).pieces + ∑ a ∈ S, selfHolding.cost s a :=
  ⟨_, selfHolding.estimate_eq maxBytes,
    (estimate_eq_cost_of_reached (selfHolding.measurable maxBytes) selfHolding.inRange rfl
      (selfHolding.estimate_eq maxBytes)).1⟩

/-- A budget decides as the unlimited estimate would: within it the estimate is exact, and over it
the estimate is over the budget as well, though maybe by less. -/
theorem budget_decides {unlimited budgeted : Usage} (hm : Measurable h limits root)
    (hrange : h.InRange root)
    (hunlimited : estimate h { limits with memLimit := maxBytes } oracle root = .ok unlimited)
    (hbudgeted : estimate h limits oracle root = .ok budgeted) :
    (unlimited.refined ≤ limits.memLimit → budgeted = unlimited) ∧
    (limits.memLimit < unlimited.refined →
      limits.memLimit < budgeted.refined ∧ budgeted.refined ≤ unlimited.refined) ∧
    (limits.memLimit < budgeted.refined ↔ limits.memLimit < unlimited.refined) := by
  have hm' : Measurable h { limits with memLimit := maxBytes } root := ⟨hm.heap, hm.root, hm.covers⟩
  obtain ⟨S, hS, hexact⟩ := estimate_unlimited hm' hrange rfl hunlimited
  obtain ⟨S', hreached, hbound, hwithin⟩ := estimate_counted hm hrange hbudgeted
  have hsub : S' ⊆ S := fun a ha => (hS a).mpr (hreached a ha)
  have hle : budgeted.refined ≤ unlimited.refined := by
    have h₁ := (hbound .refined).trans (Heap.exactTotal_mono hsub .refined)
    rwa [← hexact] at h₁
  have hsame : budgeted.refined ≤ limits.memLimit → budgeted = unlimited := fun hin => by
    obtain ⟨hall, hu⟩ := hwithin hin
    have hsets : S' = S := Finset.Subset.antisymm hsub fun a ha => hall a ((hS a).mp ha)
    exact Usage.ext_count fun s => by rw [hu, hexact, hsets]
  have hover : limits.memLimit < unlimited.refined → limits.memLimit < budgeted.refined :=
    fun hlt => Nat.lt_of_not_le fun hin => by
      rw [hsame hin] at hin
      exact Nat.not_lt.mpr hin hlt
  exact ⟨fun hin => hsame (hle.trans hin), fun hlt => ⟨hover hlt, hle⟩,
    fun hlt => hlt.trans_le hle, hover⟩

/-- A budget of ten bytes stops the pass before its end, one of thirty does not. -/
theorem budget_decides_on_cycle :
    let pass (budget : Nat) := estimate selfHolding ⟨2, budget, 10, 10, .zero false⟩ (fun _ => none)
      (.node (.value (.object ⟨0⟩)))
    ∃ unlimited stopped whole, pass maxBytes = .ok unlimited ∧
      (pass 10 = .ok stopped ∧ 10 < stopped.refined ∧ stopped.refined ≤ unlimited.refined) ∧
      pass 30 = .ok whole ∧ whole = unlimited := by
  have decided (b : Nat) := budget_decides (selfHolding.measurable b) selfHolding.inRange
    (selfHolding.estimate_eq maxBytes) (selfHolding.estimate_eq b)
  exact ⟨_, _, _, selfHolding.estimate_eq maxBytes,
    ⟨selfHolding.estimate_eq 10, (decided 10).2.1 (by decide)⟩,
    selfHolding.estimate_eq 30, (decided 30).1 (by decide)⟩

end ScriptCore
