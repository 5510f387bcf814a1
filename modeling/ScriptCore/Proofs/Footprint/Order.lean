import ScriptCore.Proofs.Footprint.Headers

/-!
# ScriptCore.Proofs.Footprint.Order

What the **order** of references has to do with the cost of what they lead to.

Design points:

* An estimate in full, without a budget, is a cost that the graph determines, and the headers of some of
  the containers of the host that are held both ways (`Heap.ComesTo`). Nothing else depends on the order.
* A heap with one map and one object that wraps it shows that the order does matter there: the map costs
  its header only if it is met before the object.
-/

namespace ScriptCore

open Holding

/-! ### Totals -/

namespace Heap

/-- An allocation is held as a value of the host with a header and otherwise as well. -/
def HeldBothWays (h : Heap) (hs : List Holding) (a : Allocation) : Prop :=
  h.Carries hs (.headed a) ∧ h.Carries hs (.ref a)

/-- An allocation is held as a value of the host only. -/
def HeldDirectly (h : Heap) (hs : List Holding) (a : Allocation) : Prop :=
  h.Carries hs (.headed a) ∧ ¬ h.Carries hs (.ref a)

/-- What some holdings and some allocations cost, a number of headers included. -/
def costWithHeaders (h : Heap) (oracle : SizeOracle) (hs : List Holding) (S : Finset Allocation)
    (headers : Nat) (s : Scheme) : Nat :=
  worth oracle s hs + ∑ a ∈ S, worth oracle s (h.graph a) + sizeHeader * headers

/-- An amount is the cost of all that some holdings lead to, with the header of all that is held
directly only and of some containers that are held both ways. -/
structure ComesTo (h : Heap) (oracle : SizeOracle) (hs : List Holding) (S D xs : Finset Allocation)
    (m : Scheme → Nat) : Prop where
  reached : ∀ a, a ∈ S ↔ h.Meets hs a
  direct : ∀ a, a ∈ D ↔ h.HeldDirectly hs a
  both : ∀ a ∈ xs, h.HeldBothWays hs a
  amount : ∀ s, min (m s) maxBytes =
    min (h.costWithHeaders oracle hs S (D.card + xs.card) s) maxBytes

end Heap

section Totals

variable {h h' : Heap} {oracle : SizeOracle} {hs hs' : List Holding} {m : Scheme → Nat}

/-- What was met is all that the holdings lead to. -/
theorem Billed.mem_iff {as headed : List Allocation} {v : Visits}
    (hm : Billed h oracle hs as v headed m) (hall : ∀ a, v.Counted a ↔ a ∈ as) (a : Allocation) :
    a ∈ as ↔ h.Meets hs a := by
  constructor
  · intro ha
    by_cases hheaded : a ∈ headed
    · exact ⟨_, hm.direct a hheaded, rfl⟩
    · exact ⟨_, hm.plain a ha hheaded, rfl⟩
  · rintro ⟨x, hx, ha⟩
    induction hx generalizing a with
    | here hx => exact (hall a).mp (hm.followed _ hx a ha)
    | further _ hb hy ih => exact (hall a).mp (hm.closed _ (ih _ hb) _ hy a ha)

open Classical in
/-- A pass that starts from nothing. -/
theorem Billed.total {as headed : List Allocation} {v : Visits}
    (hm : Billed h oracle hs as v headed m) (hall : ∀ a, v.Counted a ↔ a ∈ as)
    (hnodup : as.Nodup) : ∃ S D xs, h.ComesTo oracle hs S D xs m := by
  refine ⟨as.toFinset, headed.toFinset.filter fun a => ¬ h.Carries hs (.ref a),
    headed.toFinset.filter fun a => h.Carries hs (.ref a), ?_, fun a => ?_, fun a ha => ?_,
    fun s => ?_⟩
  · simpa using hm.mem_iff hall
  · simp only [Finset.mem_filter, List.mem_toFinset]
    refine ⟨fun ⟨ha, hnot⟩ => ⟨hm.direct a ha, hnot⟩, fun ⟨ha, hnot⟩ => ⟨?_, hnot⟩⟩
    -- It was met, and not without its header.
    by_contra hheaded
    exact hnot (hm.plain a ((hm.mem_iff hall a).mpr ⟨_, ha, rfl⟩) hheaded)
  · obtain ⟨ha, hplain⟩ := Finset.mem_filter.mp ha
    exact ⟨hm.direct a (List.mem_toFinset.mp ha), hplain⟩
  · have hcard := Finset.card_filter_add_card_filter_not (s := headed.toFinset)
      fun a => h.Carries hs (.ref a)
    rw [List.toFinset_card_of_nodup hm.nodup] at hcard
    rw [hm.charged s, Heap.costWithHeaders, List.sum_toFinset _ hnodup, ← hcard,
      Nat.add_comm (Finset.card _)]
    rfl

/-- Holdings in another order lead to the same, and hold it in the same ways. -/
theorem Heap.ComesTo.perm {S D xs : Finset Allocation} (hm : h'.ComesTo oracle hs' S D xs m)
    (hperm : hs.Perm hs') (hgraph : ∀ a, (h.graph a).Perm (h'.graph a)) :
    h.ComesTo oracle hs S D xs m := by
  have holds : ∀ x, h'.Carries hs' x ↔ h.Carries hs x := fun x =>
    ⟨fun hx => hx.perm hperm.symm fun a => (hgraph a).symm, fun hx => hx.perm hperm hgraph⟩
  refine ⟨?_, ?_, ?_, fun s => ?_⟩
  · simpa only [Meets, holds] using hm.reached
  · simpa only [HeldDirectly, holds] using hm.direct
  · simpa only [HeldBothWays, holds] using hm.both
  · rw [hm.amount s, costWithHeaders, costWithHeaders, worth_perm hperm,
      Finset.sum_congr rfl fun a _ => worth_perm (hgraph a)]

end Totals

/-! ### Estimates -/

namespace Heap

/-- No container that a pass meets is sampled. -/
def InFull (h : Heap) (limits : Limits) (oracle : SizeOracle) (root : Root) : Prop :=
  ∀ j r c', h.Performs root.plan (.new limits oracle) j r c' → Unsampled j

variable {h : Heap} {limits : Limits} {oracle : SizeOracle} {root : Root} {u : Usage}

theorem Performs.estimate_eq {j : List Moment} {r : Except TooDeep Usage} {c' : Context}
    (performs : h.Performs root.plan (.new limits oracle) j r c') :
    estimate h limits oracle root = r := by
  obtain ⟨j₁, r₁, c₁, hrun, other⟩ := performs_rootUsage h root (Context.sound_new limits oracle)
  obtain ⟨-, rfl, -⟩ := performs.unique other
  rw [estimate, hrun]

theorem Performs.inFull {j : List Moment} {r : Except TooDeep Usage} {c' : Context}
    (performs : h.Performs root.plan (.new limits oracle) j r c') (hj : Unsampled j) :
    h.InFull limits oracle root := fun _ _ _ other => (performs.unique other).1 ▸ hj

theorem performs_of_estimate (hok : estimate h limits oracle root = .ok u) :
    ∃ j c', h.Performs root.plan (.new limits oracle) j (.ok u) c' := by
  obtain ⟨j, r, c', -, performs⟩ := performs_rootUsage h root (Context.sound_new limits oracle)
  obtain rfl : r = .ok u := performs.estimate_eq.symm.trans hok
  exact ⟨j, c', performs⟩

/-- An estimate in full, without a budget, is the cost of all that the root leads to. -/
theorem estimate_comesTo (hmem : limits.memLimit = maxBytes) (hfull : h.InFull limits oracle root)
    (hok : estimate h limits oracle root = .ok u) :
    ∃ S D xs, h.ComesTo oracle (h.holdings root.plan) S D xs u.count := by
  obtain ⟨j, c', performs⟩ := performs_of_estimate hok
  obtain ⟨headed, hbilled, -⟩ :=
    performs.billed (.new hmem) rfl root.flat_plan.canonical (hfull _ _ _ performs)
  have hcounts := performs.course.counts
  refine hbilled.total (fun a => ?_) hcounts.nodup
  exact (hcounts.visits a).trans (or_iff_right (Visits.not_counted_none a))

end Heap

/-- A slice is charged for with its header, so its estimate is in range. -/
theorem Heap.Performs.bounded_slice {h : Heap} {s : HostSliceId} {limits : Limits}
    {oracle : SizeOracle} {j : List Moment} {r : Except TooDeep Usage} {c' : Context} {u : Usage}
    (performs : h.Performs (.node (.host (.slice s))) (.new limits oracle) j r c')
    (hr : r = .ok u) : u.Bounded := by
  cases performs with
  | node performs =>
      cases performs with
      | met old => exact absurd old (Visits.not_counted_none _)
      | unmet _ content =>
          cases content with
          | bothFails _ => cases hr
          | both _ _ =>
              obtain ⟨w, -, rfl⟩ := eq_ok_of_map hr
              exact Usage.bounded_add _ _

/-! ### A map that is held both ways -/

/-- A map of the host without entries, and an object that wraps it. -/
def wrappedMap : Heap := ⟨#[.new (.hostMap ⟨0⟩ .none) none], #[], #[∅], #[], #[], #[], 0, ∅⟩

namespace wrappedMap

/-- The map, and then the object. -/
def mapFirst : List HostValue := [.map ⟨0⟩, .script (.object ⟨0⟩)]

/-- The object, and then the map. -/
def objectFirst : List HostValue := [.script (.object ⟨0⟩), .map ⟨0⟩]

/-- Inside of the new slice, after its header. -/
def inSlice : Context :=
  { ((Context.new .default fun _ => none).charge (.uniform 8)).record (.hostSlice ⟨0⟩) with
    depth := 1 }

variable (vs : List HostValue) {c : Context}

/-- The entries cost nothing, whether they are met for the first time or not. -/
theorem performs_entries (hroom : c.depth ≠ c.limits.maxDepth) : ∃ j, Unsampled j ∧
    (wrappedMap.withSlice vs).Performs ((wrappedMap.withSlice vs).hostEntriesPlan ⟨0⟩) c j
      (.ok .zero) (c.record (.hostMap ⟨0⟩)) := by
  by_cases old : c.visits.Counted (.hostMap ⟨0⟩)
  · exact ⟨_, by simp [Unsampled], .again old (.nothing _)⟩
  have descends : (c.record (.hostMap ⟨0⟩)).descend =
      .ok { c.record (.hostMap ⟨0⟩) with depth := c.depth + 1 } := by
    rw [Context.descend_eq]
    exact if_neg hroom
  refine ⟨_, ?_, .first old (.deeper descends (.contents
    (.container (r := .ok []) (s := .entries) ?_ (.nil _))))⟩
  · simp [Unsampled]
  · simp [Sampling.applies, Limits.samplesEntries]

/-- The map as a value of the host costs its header. -/
theorem performs_map (new : ¬ c.visits.Counted (.hostMap ⟨0⟩))
    (hroom : c.depth ≠ c.limits.maxDepth) : ∃ j, Unsampled j ∧
    (wrappedMap.withSlice vs).Performs (.node (.host (.map ⟨0⟩))) c j (.ok (.uniform 8))
      ((c.charge (.uniform 8)).record (.hostMap ⟨0⟩)) := by
  obtain ⟨j, hj, entries⟩ := performs_entries vs (c := c.charge (.uniform 8)) hroom
  refine ⟨_, ?_, .node (.unmet new (.both (r := .ok .zero) (.cost _ _) entries))⟩
  simpa [Unsampled] using hj

/-- The object costs a header of its own, and nothing for the map. -/
theorem performs_object (new : ¬ c.visits.Counted (.object ⟨0⟩))
    (hroom : c.depth + 1 < c.limits.maxDepth) (hover : (c.charge (.uniform 8)).isOver = false) :
    ∃ j, Unsampled j ∧
    (wrappedMap.withSlice vs).Performs (.node (.host (.script (.object ⟨0⟩)))) c j
      (.ok (.uniform 8))
      (((c.record (.object ⟨0⟩)).charge (.uniform 8)).record (.hostMap ⟨0⟩)) := by
  let c₁ : Context := { c.record (.object ⟨0⟩) with depth := c.depth + 1 }
  have descends : (c.record (.object ⟨0⟩)).descend = .ok c₁ := by
    rw [Context.descend_eq]
    exact if_neg (Nat.lt_of_succ_lt hroom).ne
  obtain ⟨j, hj, entries⟩ := performs_entries vs (c := c₁.charge (.uniform 8)) hroom.ne
  have properties : (wrappedMap.withSlice vs).Performs (.container .entries [])
      (c₁.charge (.uniform 8)) [] (.ok .zero) (c₁.charge (.uniform 8)) :=
    .container (r := .ok []) (by simp [Sampling.applies, Limits.samplesEntries]) (.nil _)
  have content := Heap.Performs.within
    (.both (.both (.cost (.bytes sizeHeader) c₁) (.nothing _)) properties) hover
    (.node (n := .hostEntries ⟨0⟩) entries)
  refine ⟨_, ?_, .node (.first new (.deeper descends (.contents content)))⟩
  simpa [Unsampled, or_imp, forall_and] using hj

variable {vs}

/-- The slice costs a header and its elements. -/
theorem performs_slice {j : List Moment} {c' : Context} (us : List Usage) (hj : Unsampled j)
    (hlength : vs.length ≤ inSlice.limits.arrayThreshold)
    (elements : (wrappedMap.withSlice vs).PerformsEach (vs.map fun v => .node (.host v)) inSlice j
      (.ok us) c') : ∃ j c', Unsampled j ∧
    (wrappedMap.withSlice vs).Performs (.node (.host (.slice ⟨0⟩)))
      (.new .default fun _ => none) j (.ok (.uniform 8 + Usage.sum us)) c' := by
  have descends : (((Context.new .default fun _ => none).charge (.uniform 8)).record
      (.hostSlice ⟨0⟩)).descend = .ok inSlice := rfl
  refine ⟨_, _, ?_, .node (.unmet (Visits.not_counted_none _) (.both (r := .ok (Usage.sum us))
    (.cost (.bytes sizeHeader) _) (.first (Visits.not_counted_none _) (.deeper descends
      (.contents (.container (r := .ok us) (s := .array) ?_ elements))))))⟩
  · simpa [Unsampled, or_imp, forall_and] using hj
  · simpa [Sampling.applies, Limits.samplesArray, Heap.hostSlice_withSlice, Heap.newSlice,
      wrappedMap] using hlength

theorem new_inSlice {a : Allocation} (ha : a ≠ .hostSlice ⟨0⟩) : ¬ inSlice.visits.Counted a := by
  simpa [inSlice, Context.record, Context.charge, Context.new, Visits.counted_record,
    Visits.not_counted_none] using ha

theorem performs_mapFirst : ∃ j c', Unsampled j ∧
    (wrappedMap.withSlice mapFirst).Performs (.node (.host (.slice ⟨0⟩)))
      (.new .default fun _ => none) j (.ok (.uniform 24)) c' := by
  obtain ⟨j₁, hj₁, map⟩ := performs_map mapFirst (new_inSlice (by decide)) (by decide)
  have new : ¬ ((inSlice.charge (.uniform 8)).record (.hostMap ⟨0⟩)).visits.Counted
      (.object ⟨0⟩) := by
    simpa [Context.record, Context.charge, Visits.counted_record] using new_inSlice (by decide)
  obtain ⟨j₂, hj₂, object⟩ := performs_object mapFirst new (by decide) rfl
  refine performs_slice [.uniform 8, .uniform 8] ?_ (by decide)
    (.cons (r := .ok [.uniform 8]) map rfl (.cons (r := .ok []) object rfl (.nil _)))
  simpa [Unsampled, or_imp, forall_and] using And.intro hj₁ hj₂

/-- The map costs nothing after the object. -/
theorem performs_objectFirst : ∃ j c', Unsampled j ∧
    (wrappedMap.withSlice objectFirst).Performs (.node (.host (.slice ⟨0⟩)))
      (.new .default fun _ => none) j (.ok (.uniform 16)) c' := by
  obtain ⟨j, hj, object⟩ := performs_object objectFirst (new_inSlice (by decide)) (by decide) rfl
  have met : (wrappedMap.withSlice objectFirst).Performs (.node (.host (.map ⟨0⟩)))
      (((inSlice.record (.object ⟨0⟩)).charge (.uniform 8)).record (.hostMap ⟨0⟩)) [] (.ok .zero)
      (((inSlice.record (.object ⟨0⟩)).charge (.uniform 8)).record (.hostMap ⟨0⟩)) :=
    .node (.met (Context.counted_record _ _))
  refine performs_slice [.uniform 8, .zero] ?_ (by decide)
    (.cons (r := .ok [.zero]) object rfl (.cons (r := .ok []) met rfl (.nil _)))
  simpa [Unsampled] using hj

end wrappedMap

/-! ### Main result -/

/-- The order of the elements of a slice decides about headers only, and only about those of containers
that are held both ways. -/
theorem order_decides_headers (h : Heap) {vs vs' : List HostValue} {limits : Limits}
    {oracle : SizeOracle} {u u' : Usage} (hperm : vs.Perm vs') (hmem : limits.memLimit = maxBytes)
    (hfull : (h.withSlice vs).InFull limits oracle (.node (.host (.slice h.newSlice))))
    (hfull' : (h.withSlice vs').InFull limits oracle (.node (.host (.slice h.newSlice))))
    (hok : estimate (h.withSlice vs) limits oracle (.node (.host (.slice h.newSlice))) = .ok u)
    (hok' : estimate (h.withSlice vs') limits oracle (.node (.host (.slice h.newSlice))) = .ok u') :
    (∃ S D xs xs' : Finset Allocation,
      (∀ a, a ∈ S ↔ (h.withSlice vs).Meets [.headed (.hostSlice h.newSlice)] a) ∧
      (∀ a, a ∈ D ↔ (h.withSlice vs).HeldDirectly [.headed (.hostSlice h.newSlice)] a) ∧
      (∀ a ∈ xs ∪ xs', (h.withSlice vs).HeldBothWays [.headed (.hostSlice h.newSlice)] a) ∧
      ∀ s, u.count s = min (∑ a ∈ S, worth oracle s ((h.withSlice vs).graph a) +
          sizeHeader * (D.card + xs.card)) maxBytes ∧
        u'.count s = min (∑ a ∈ S, worth oracle s ((h.withSlice vs).graph a) +
          sizeHeader * (D.card + xs'.card)) maxBytes) ∧
    ((∀ a, ¬ (h.withSlice vs).HeldBothWays [.headed (.hostSlice h.newSlice)] a) → u' = u) := by
  obtain ⟨S, D, xs, hu⟩ := Heap.estimate_comesTo hmem hfull hok
  obtain ⟨S', D', xs', hu'⟩ := Heap.estimate_comesTo hmem hfull' hok'
  replace hu' := hu'.perm (.refl _) (h.graph_withSlice_perm hperm)
  -- Both passes are led to the same allocations, and hold the same ones directly only.
  obtain rfl : S' = S := Finset.ext fun a => (hu'.reached a).trans (hu.reached a).symm
  obtain rfl : D' = D := Finset.ext fun a => (hu'.direct a).trans (hu.direct a).symm
  have hexact : ∀ {ys : Finset Allocation} {w : Usage}, w.Bounded →
      (h.withSlice vs).ComesTo oracle [.headed (.hostSlice h.newSlice)] S' D' ys w.count →
      ∀ s, w.count s = min (∑ a ∈ S', worth oracle s ((h.withSlice vs).graph a) +
        sizeHeader * (D'.card + ys.card)) maxBytes := by
    intro ys w hw hcomes s
    rw [← Nat.min_eq_left (hw s), hcomes.amount s, Heap.costWithHeaders]
    simp [own]
  obtain ⟨j, c, performs⟩ := Heap.performs_of_estimate hok
  obtain ⟨j', c', performs'⟩ := Heap.performs_of_estimate hok'
  have hcount := hexact (performs.bounded_slice rfl) hu
  have hcount' := hexact (performs'.bounded_slice rfl) hu'
  refine ⟨⟨S', D', xs, xs', hu.reached, hu.direct, fun a ha => ?_, fun s => ⟨hcount s, hcount' s⟩⟩,
    fun hnone => Usage.ext_count fun s => ?_⟩
  · exact (Finset.mem_union.mp ha).elim (hu.both a) (hu'.both a)
  · have hempty : xs = ∅ := Finset.eq_empty_of_forall_notMem fun a ha => hnone a (hu.both a ha)
    have hempty' : xs' = ∅ := Finset.eq_empty_of_forall_notMem fun a ha => hnone a (hu'.both a ha)
    rw [hcount, hcount', hempty, hempty']

/-- The totals differ, so there is something that is held both ways. -/
theorem order_decides_header_of_map : ∃ a,
    (wrappedMap.withSlice wrappedMap.mapFirst).HeldBothWays
      [.headed (.hostSlice wrappedMap.newSlice)] a := by
  obtain ⟨j, c, hj, performs⟩ := wrappedMap.performs_mapFirst
  obtain ⟨j', c', hj', performs'⟩ := wrappedMap.performs_objectFirst
  by_contra hnone
  have hsame := (order_decides_headers wrappedMap (.swap _ _ _) rfl (performs.inFull hj)
    (performs'.inFull hj') performs.estimate_eq performs'.estimate_eq).2
    fun a ha => hnone ⟨a, ha⟩
  cases hsame

/-- A map that an object wraps costs more if it is met before the object. -/
theorem map_costs_less_after_object :
    let limits := Limits.default
    let oracle : SizeOracle := fun _ => none
    let root : Root := .node (.host (.slice wrappedMap.newSlice))
    let h := wrappedMap.withSlice wrappedMap.mapFirst
    let h' := wrappedMap.withSlice wrappedMap.objectFirst
    wrappedMap.mapFirst.Perm wrappedMap.objectFirst ∧ limits.memLimit = maxBytes ∧
      h.InFull limits oracle root ∧ h'.InFull limits oracle root ∧
      estimate h limits oracle root = .ok (.uniform 24) ∧
      estimate h' limits oracle root = .ok (.uniform 16) := by
  obtain ⟨j, c, hj, performs⟩ := wrappedMap.performs_mapFirst
  obtain ⟨j', c', hj', performs'⟩ := wrappedMap.performs_objectFirst
  exact ⟨.swap _ _ _, rfl, performs.inFull hj, performs'.inFull hj', performs.estimate_eq,
    performs'.estimate_eq⟩

end ScriptCore
