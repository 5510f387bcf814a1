import ScriptCore.Proofs.Footprint.Charges
import ScriptCore.Proofs.Footprint.Holdings

/-!
# ScriptCore.Proofs.Footprint.Headers

Whose **headers** a pass charges.

Design points:

* A pass without a budget and without samples charges for everything that it is led to, once. Only the
  header of a container of the host is in doubt. It is charged if the container is met first as a value
  of the host, and it is not if an object that wraps the container is met first.
* What a part of a pass has charged is compared with the graph, where the containers that were charged
  with a header are given (`Billed`). One induction over performances derives it.
* Passes over the same holdings in different orders are led to the same allocations. They differ in the
  headers of containers that are held both ways, and in nothing else.
-/

namespace ScriptCore

open Holding

/-! ### Contexts -/

theorem Context.counted_record (c : Context) (a : Allocation) : (c.record a).visits.Counted a :=
  (Visits.counted_record a a).mpr (.inr rfl)

/-- There is a budget for everything that can be charged. -/
structure Context.Unlimited (oracle : SizeOracle) (c : Context) : Prop where
  budget : c.limits.memLimit = maxBytes
  spent : c.spent ≤ maxBytes
  oracle : c.oracle = oracle

namespace Context.Unlimited

variable {oracle : SizeOracle} {c c' : Context}

theorem new {limits : Limits} (hmem : limits.memLimit = maxBytes) :
    (Context.new limits oracle).Unlimited oracle :=
  ⟨hmem, Nat.zero_le _, rfl⟩

theorem isOver (hc : c.Unlimited oracle) : c.isOver = false := by
  simpa [Context.isOver, Limits.isExceededBy, hc.budget] using hc.spent

theorem step {e : Event} (hc : c.Unlimited oracle) (step : c.Step e c') : c'.Unlimited oracle := by
  cases step with
  | charged u => exact ⟨hc.budget, Nat.min_le_right _ _, hc.oracle⟩
  | entered descends =>
      obtain ⟨-, rfl⟩ := descend_ok descends
      exact ⟨hc.budget, hc.spent, hc.oracle⟩
  | _ => exact ⟨hc.budget, hc.spent, hc.oracle⟩

theorem course {j : List Moment} (hc : c.Unlimited oracle) (course : Course c j c') :
    c'.Unlimited oracle := by
  induction course with
  | nil => exact hc
  | cons step _ ih => exact ih (hc.step step)

end Context.Unlimited

/-! ### What has been charged -/

/-- What several allocations cost, without the headers of containers of the host. -/
def Heap.contentCost (h : Heap) (oracle : SizeOracle) (s : Scheme) (as : List Allocation) : Nat :=
  (as.map fun a => worth oracle s (h.graph a)).sum

/-- Some holdings were measured. On the way some allocations were met for the first time, some of them
with a header; and some amount was charged. -/
structure Billed (h : Heap) (oracle : SizeOracle) (hs : List Holding) (as : List Allocation)
    (v : Visits) (headed : List Allocation) (amount : Scheme → Nat) : Prop where
  nodup : headed.Nodup
  met : ∀ a ∈ headed, a ∈ as
  /-- Without a header an allocation is met in an object, or is no container. -/
  plain : ∀ a ∈ as, a ∉ headed → h.Carries hs (.ref a)
  /-- With a header it is met as a value of the host. -/
  direct : ∀ a ∈ headed, h.Carries hs (.headed a)
  followed : ∀ x ∈ hs, ∀ a, x.target? = some a → v.Counted a
  closed : ∀ a ∈ as, ∀ x ∈ h.graph a, ∀ b, x.target? = some b → v.Counted b
  charged : ∀ s, min (amount s) maxBytes =
    min (worth oracle s hs + h.contentCost oracle s as + sizeHeader * headed.length) maxBytes

namespace Billed

variable {h : Heap} {oracle : SizeOracle} {hs hs' : List Holding}
  {as bs headed headed' : List Allocation} {v : Visits} {c c₁ c' : Context} {m n : Scheme → Nat}
  {a : Allocation}

theorem nil (v : Visits) (hm : ∀ s, m s = 0) : Billed h oracle [] [] v [] m where
  nodup := .nil
  met := by simp
  plain := by simp
  direct := by simp
  followed := by simp
  closed := by simp
  charged := by simp [hm, Heap.contentCost]

theorem cost (k : Cost) (v : Visits) :
    Billed h oracle [.cost k] [] v [] (k.usage oracle).count where
  nodup := .nil
  met := by simp
  plain := by simp
  direct := by simp
  followed := by simp [target?]
  closed := by simp
  charged := by simp [own, Heap.contentCost]

/-- Only what is in range of an amount matters. -/
theorem amount (hm : Billed h oracle hs as v headed m)
    (hn : ∀ s, min (n s) maxBytes = min (m s) maxBytes) : Billed h oracle hs as v headed n :=
  { hm with charged := fun s => (hn s).trans (hm.charged s) }

/-- What was met for the first time before is not met for the first time again. -/
theorem append (hcounts : c.Counts as c₁) (hcounts' : c₁.Counts bs c')
    (hm : Billed h oracle hs as c₁.visits headed m)
    (hn : Billed h oracle hs' bs c'.visits headed' n) :
    Billed h oracle (hs ++ hs') (as ++ bs) c'.visits (headed ++ headed') fun s => m s + n s := by
  have hkept : ∀ a, c₁.visits.Counted a → c'.visits.Counted a := fun a ha =>
    (hcounts'.visits a).mpr (.inl ha)
  refine ⟨?_, ?_, ?_, ?_, ?_, ?_, ?_⟩
  · refine List.nodup_append.mpr ⟨hm.nodup, hn.nodup, fun a ha b hb hab => ?_⟩
    subst hab
    exact hcounts'.fresh a (hn.met a hb) ((hcounts.visits a).mpr (.inr (hm.met a ha)))
  · intro a ha
    simpa using (List.mem_append.mp ha).imp (hm.met a) (hn.met a)
  · intro a ha hnot
    simp only [List.mem_append, not_or] at ha hnot
    rcases ha with ha | ha
    · exact (hm.plain a ha hnot.1).mono fun _ => List.mem_append_left _
    · exact (hn.plain a ha hnot.2).mono fun _ => List.mem_append_right _
  · intro a ha
    rcases List.mem_append.mp ha with ha | ha
    · exact (hm.direct a ha).mono fun _ => List.mem_append_left _
    · exact (hn.direct a ha).mono fun _ => List.mem_append_right _
  · intro x hx a ha
    rcases List.mem_append.mp hx with hx | hx
    · exact hkept a (hm.followed x hx a ha)
    · exact hn.followed x hx a ha
  · intro a ha x hx b hb
    rcases List.mem_append.mp ha with ha | ha
    · exact hkept b (hm.closed a ha x hx b hb)
    · exact hn.closed a ha x hx b hb
  · intro s
    have h₁ := hm.charged s
    have h₂ := hn.charged s
    simp only [worth_append, Heap.contentCost, List.map_append, List.sum_append, List.length_append,
      Nat.mul_add] at h₁ h₂ ⊢
    omega

theorem add {u w : Usage} (hcounts : c.Counts as c₁) (hcounts' : c₁.Counts bs c')
    (hm : Billed h oracle hs as c₁.visits headed u.count)
    (hn : Billed h oracle hs' bs c'.visits headed' w.count) :
    Billed h oracle (hs ++ hs') (as ++ bs) c'.visits (headed ++ headed') (u + w).count :=
  (append hcounts hcounts' hm hn).amount fun s => by
    rw [Usage.count_add, saturatingAdd]
    omega

/-- An allocation that is met for the first time is measured in full. -/
theorem first (hm : Billed h oracle (h.graph a) as v headed m) (ha : v.Counted a) :
    Billed h oracle [.ref a] (a :: as) v headed m where
  nodup := hm.nodup
  met := fun b hb => List.mem_cons_of_mem _ (hm.met b hb)
  plain := by
    intro b hb hnot
    rcases List.mem_cons.mp hb with rfl | hb
    · exact .here List.mem_cons_self
    · exact (hm.plain b hb hnot).of_ref
  direct := fun b hb => (hm.direct b hb).of_ref
  followed := by
    intro x hx b hb
    obtain rfl := List.mem_singleton.mp hx
    exact Option.some.inj hb ▸ ha
  closed := by
    intro b hb x hx d hd
    rcases List.mem_cons.mp hb with rfl | hb
    · exact hm.followed x hx d hd
    · exact hm.closed b hb x hx d hd
  charged := by
    intro s
    rw [hm.charged s]
    simp [own, Heap.contentCost]

/-- An allocation that is met again leads to what it holds, and costs nothing by that. -/
theorem again (hm : Billed h oracle hs as v headed m)
    (hrefs : ∀ x ∈ hs, (∃ b, x = .ref b) ∧ x ∈ h.graph a) (ha : v.Counted a) :
    Billed h oracle [.ref a] as v headed m where
  nodup := hm.nodup
  met := hm.met
  plain := fun b hb hnot => ((hm.plain b hb hnot).mono fun x hx => (hrefs x hx).2).of_ref
  direct := fun b hb => ((hm.direct b hb).mono fun x hx => (hrefs x hx).2).of_ref
  followed := by
    intro x hx b hb
    obtain rfl := List.mem_singleton.mp hx
    exact Option.some.inj hb ▸ ha
  closed := hm.closed
  charged := by
    intro s
    rw [hm.charged s, worth_eq_zero fun x hx => (hrefs x hx).1]
    simp [own]

/-- A container of the host that was met before costs nothing. -/
theorem old (hm : ∀ s, m s = 0) (ha : v.Counted a) : Billed h oracle [.headed a] [] v [] m where
  nodup := .nil
  met := by simp
  plain := by simp
  direct := by simp
  followed := by
    intro x hx b hb
    obtain rfl := List.mem_singleton.mp hx
    exact Option.some.inj hb ▸ ha
  closed := by simp
  charged := by simp [hm, own, Heap.contentCost]

/-- A container of the host that is met for the first time is charged with its header. -/
theorem header (hm : Billed h oracle [.cost (.bytes sizeHeader), .ref a] as v headed m)
    (ha : a ∈ as) (hnot : a ∉ headed) : Billed h oracle [.headed a] as v (a :: headed) m where
  nodup := List.nodup_cons.mpr ⟨hnot, hm.nodup⟩
  met := by simpa [ha] using hm.met
  plain := by
    intro b hb hb'
    obtain ⟨hne, hb'⟩ := not_or.mp (List.mem_cons.not.mp hb')
    -- The header and the container itself are all that it does not lead to.
    simpa [hne] using (hm.plain b hb hb').of_header
  direct := by
    intro b hb
    rcases List.mem_cons.mp hb with rfl | hb
    · exact .here List.mem_cons_self
    · simpa using (hm.direct b hb).of_header
  followed := by
    intro x hx b hb
    obtain rfl := List.mem_singleton.mp hx
    exact hm.followed (.ref a) (by simp) b hb
  closed := hm.closed
  charged := by
    intro s
    have hcost : (Cost.usage oracle (.bytes sizeHeader)).count s = sizeHeader := by cases s <;> rfl
    rw [hm.charged s]
    simp only [worth_cons, worth_nil, own, hcost, List.length_cons, Nat.mul_add]
    congr 1
    omega

end Billed

/-! ### Passes -/

/-- A sum is what its parts come to, in range. -/
theorem Usage.count_foldl (us : List Usage) (u : Usage) (s : Scheme) :
    min ((us.foldl Usage.add u).count s) maxBytes =
      min (u.count s + (us.map (·.count s)).sum) maxBytes := by
  induction us generalizing u with
  | nil => simp
  | cons w us ih =>
      have hadd : (u.add w).count s = saturatingAdd (u.count s) (w.count s) := count_add u w s
      rw [List.foldl_cons, ih, hadd, List.map_cons, List.sum_cons, saturatingAdd]
      omega

namespace Heap

variable {h : Heap} {oracle : SizeOracle}

mutual

/-- A part of a pass charges for what its plan holds, as far as it is new. -/
theorem Performs.billed {p : Plan} {c : Context} {j : List Moment} {r : Except TooDeep Usage}
    {c' : Context} {u : Usage} (hc : c.Unlimited oracle) (hr : r = .ok u) :
    h.Performs p c j r c' → p.Canonical h → Unsampled j →
      ∃ headed, Billed h oracle (h.holdings p) (firsts j) c'.visits headed u.count ∧
        ∀ a, p.Enters a → ¬ c.visits.Counted a → a ∉ headed
  | .nothing _, _, _ => by
      cases hr
      exact ⟨[], .nil _ fun s => by simp, by simp⟩
  | .cost k _, _, _ => by
      cases hr
      exact ⟨[], hc.oracle ▸ .cost k _, by simp⟩
  | .node performs, _, hj => by
      obtain ⟨headed, hbilled, -⟩ := performs.billed hc hr (h.canonical_plan _) hj
      exact ⟨headed, by simpa using hbilled, fun a ha => nomatch ha⟩
  | .bothFails _, _, _ | .withinFails _, _, _ | .tooDeep _, _, _ => nomatch hr
  | .both first second, hp, hj => by
      obtain ⟨w, hw, rfl⟩ := eq_ok_of_map hr
      obtain ⟨hj₁, hj₂⟩ := List.forall_mem_append.mp hj
      obtain ⟨hd₁, hs₁, -⟩ := first.billed hc rfl hp.1 hj₁
      obtain ⟨hd₂, hs₂, henter⟩ := second.billed (hc.course first.course) hw hp.2 hj₂
      refine ⟨hd₁ ++ hd₂, ?_, fun a ha hnew => ?_⟩
      · rw [firsts_append]
        exact hs₁.add first.course.counts second.course.counts hs₂
      -- Charging a cost meets nothing, so what is entered is entered by the second part.
      · cases ha with
        | after k ha =>
            cases first
            have hnone : hd₁ = [] := List.eq_nil_iff_forall_not_mem.mpr fun b hb => by
              simpa [Event.first?] using hs₁.met b hb
            simpa [hnone] using henter a ha hnew
  | .withinStops first spent, _, _ => by
      rw [(hc.course first.course).isOver] at spent
      cases spent
  | .within first _ second, hp, hj => by
      obtain ⟨w, hw, rfl⟩ := eq_ok_of_map hr
      obtain ⟨hj₁, hj₂⟩ := List.forall_mem_append.mp hj
      obtain ⟨hd₁, hs₁, -⟩ := first.billed hc rfl hp.1 hj₁
      obtain ⟨hd₂, hs₂, -⟩ := second.billed (hc.course first.course) hw hp.2 hj₂
      refine ⟨hd₁ ++ hd₂, ?_, fun a ha => nomatch ha⟩
      rw [firsts_append]
      exact hs₁.add first.course.counts second.course.counts hs₂
  | .deeper descends content, hp, hj => by
      have hj' := (List.forall_mem_append.mp (List.forall_mem_cons.mp hj).2).1
      obtain ⟨headed, hbilled, -⟩ :=
        content.billed (hc.step (.entered descends)) hr hp hj'
      refine ⟨headed, ?_, fun a ha => nomatch ha⟩
      have hlevel : Billed h oracle _ _ (Context.ascend _).visits headed u.count := hbilled
      simpa [Event.first?, holdings] using hlevel
  | .first new content, hp, hj => by
      obtain ⟨⟨hgraph, hp⟩, -⟩ := hp
      obtain ⟨headed, hbilled, -⟩ :=
        content.billed (hc.step (.first new)) hr hp (List.forall_mem_cons.mp hj).2
      have hcounts := content.course.counts
      have hself := (hcounts.visits _).mpr (.inl (Context.counted_record _ _))
      rw [hgraph] at hbilled
      refine ⟨headed, hbilled.first hself, fun a ha _ hmem => ?_⟩
      cases ha
      exact hcounts.fresh _ (hbilled.met _ hmem) (Context.counted_record _ _)
  | .again old content, hp, hj => by
      obtain ⟨-, hrefs, hq⟩ := hp
      obtain ⟨headed, hbilled, -⟩ :=
        content.billed (hc.step (.again old)) hr hq (List.forall_mem_cons.mp hj).2
      have hself := (content.course.counts.visits _).mpr (.inl (Context.counted_record _ _))
      refine ⟨headed, hbilled.again hrefs hself, fun a ha hnew => ?_⟩
      cases ha
      exact absurd old hnew
  | .met old, _, _ => by
      cases hr
      exact ⟨[], .old (fun s => by simp) old, by simp⟩
  | .unmet new content, hp, hj => by
      obtain ⟨henters, hholdings, hp⟩ := hp
      obtain ⟨headed, hbilled, henter⟩ := content.billed hc hr hp hj
      rw [hholdings] at hbilled
      have hcounted := hbilled.followed (.ref _) (List.mem_cons_of_mem _ List.mem_cons_self) _ rfl
      have hmem := ((content.course.counts.visits _).mp hcounted).resolve_left new
      exact ⟨_ :: headed, hbilled.header hmem (henter _ henters new), fun a ha => nomatch ha⟩
  | .contents content, hp, hj => by
      obtain ⟨headed, hbilled, -⟩ := content.billed hc hr hp (List.forall_mem_cons.mp hj).2
      exact ⟨headed, hbilled, fun a ha => nomatch ha⟩
  | .container _ elements, hp, hj => by
      obtain ⟨us, hus, rfl⟩ := eq_ok_of_map hr
      obtain ⟨headed, hbilled⟩ := elements.billed hc hus ((Plan.canonicalEach_iff _).mp hp) hj
      refine ⟨headed, hbilled.amount fun s => ?_, fun a ha => nomatch ha⟩
      simpa [Usage.sum] using Usage.count_foldl us .zero s
  | .sample _ _, _, hj => absurd rfl (hj _ List.mem_cons_self)

theorem PerformsEach.billed {ps : List Plan} {c : Context} {j : List Moment}
    {r : Except TooDeep (List Usage)} {c' : Context} {us : List Usage} (hc : c.Unlimited oracle)
    (hr : r = .ok us) :
    h.PerformsEach ps c j r c' → (∀ p ∈ ps, p.Canonical h) → Unsampled j →
      ∃ headed, Billed h oracle (Plan.holdingsEach h.nodeHoldings ps) (firsts j) c'.visits headed
        fun s => (us.map (·.count s)).sum
  | .nil _, _, _ => by
      cases hr
      exact ⟨[], .nil _ fun s => by simp⟩
  | .fails _, _, _ => nomatch hr
  | .stops head spent, _, _ => by
      rw [(hc.course head.course).isOver] at spent
      cases spent
  | .cons head _ tail, hps, hj => by
      obtain ⟨ws, hws, rfl⟩ := eq_ok_of_map hr
      obtain ⟨hj₁, hj₂⟩ := List.forall_mem_append.mp hj
      obtain ⟨hd₁, hs₁, -⟩ := head.billed hc rfl (hps _ List.mem_cons_self) hj₁
      obtain ⟨hd₂, hs₂⟩ := tail.billed (hc.course head.course) hws
        (fun p hp => hps p (List.mem_cons_of_mem _ hp)) hj₂
      refine ⟨hd₁ ++ hd₂, ?_⟩
      rw [firsts_append]
      simpa [holdings] using hs₁.append head.course.counts tail.course.counts hs₂

end

end Heap

end ScriptCore
