import ScriptCore.Proofs.Footprint.Graph

/-!
# ScriptCore.Proofs.Footprint.Accounting

What an estimate has **accounted for** when it returns.

Design points:

* `Accounted` relates some pieces to the context before and after them, their measured usage and the
  nodes that were counted for the first time. The usage is never more than the cost of the pieces
  and of those nodes. It is exactly that, and nothing that can be reached is left out, unless the
  budget is used up.
* The budget is never given back, so a pass that ends within it was within it all along. This is why
  early exits need no case of their own: they make the second half of `Accounted` vacuous.
* `Accounts` is the specification of a program. It is closed under everything that estimates are
  built from.
-/

namespace ScriptCore

open Piece

/-! ### What has been counted -/

/-- A node has been counted. -/
def Visits.Counted (v : Visits) : Allocation → Prop
  | .frame f => .frame f ∈ v.frames
  | a => a ∈ v.allocations

namespace Visits

/-- Something was recorded. -/
def has (v : Visits) : Allocation → Bool
  | .frame f => v.frames.contains (.frame f)
  | a => v.allocations.contains a

/-- Records something; false if it was recorded before. -/
def record (v : Visits) : Allocation → Bool × Visits
  | .frame f => v.visitFrame (.frame f)
  | a => v.visit a

variable {v : Visits}

theorem not_counted_none (a : Allocation) : ¬ Visits.none.Counted a := by
  cases a <;> simp [Counted, none]

theorem has_iff (a : Allocation) : v.has a = true ↔ v.Counted a := by
  cases a <;> simp [has, Counted]

theorem record_fst (a : Allocation) : (v.record a).1 = !v.has a := by
  cases a <;> rfl

theorem record_fst_iff (a : Allocation) : (v.record a).1 = true ↔ ¬ v.Counted a := by
  simp [record_fst, ← has_iff]

theorem counted_record (a b : Allocation) :
    (v.record a).2.Counted b ↔ v.Counted b ∨ b = a := by
  cases a <;> cases b <;> simp [record, visit, visitFrame, Counted] <;> grind

end Visits

/-! ### Accounts -/

/-- What several nodes cost. -/
def Heap.costs (h : Heap) (s : Scheme) (as : List Allocation) : Nat := (as.map (h.cost s)).sum

@[simp] theorem Heap.costs_nil (h : Heap) (s : Scheme) : h.costs s [] = 0 := rfl

@[simp] theorem Heap.costs_cons (h : Heap) (s : Scheme) (a : Allocation) (as : List Allocation) :
    h.costs s (a :: as) = h.cost s a + h.costs s as := by
  simp [Heap.costs]

@[simp] theorem Heap.costs_append (h : Heap) (s : Scheme) (as bs : List Allocation) :
    h.costs s (as ++ bs) = h.costs s as + h.costs s bs := by
  simp [Heap.costs]

/-- From one context to another, some pieces were measured and some nodes were counted for the first
time. -/
structure Accounted (h : Heap) (ps : List Piece) (c : Context) (u : Usage) (c' : Context)
    (counted : List Allocation) : Prop where
  limits : c'.limits = c.limits
  spent : c'.spent = saturatingAdd c.spent u.refined
  nodup : counted.Nodup
  fresh : ∀ a ∈ counted, ¬ c.visits.Counted a
  visits : ∀ a, c'.visits.Counted a ↔ c.visits.Counted a ∨ a ∈ counted
  reached : ∀ a ∈ counted, h.Reaches ps a
  /-- Nothing is charged for twice. -/
  bound : ∀ s, u.count s ≤ total s ps + h.costs s counted
  /-- Within the budget everything is charged for. -/
  charged : c'.isOver = false →
    ∀ s, min (u.count s) maxBytes = min (total s ps + h.costs s counted) maxBytes
  /-- Within the budget every reference is followed. -/
  followed : c'.isOver = false → ∀ a, .ref a ∈ ps → c'.visits.Counted a
  /-- Within the budget the nodes that were counted are measured in full. -/
  closed : c'.isOver = false → ∀ a ∈ counted, ∀ b, .ref b ∈ h.pieces a → c'.visits.Counted b

/-- A node was recorded, and found to be new or not. -/
structure Context.Records (c : Context) (a : Allocation) (new : Bool) (c' : Context) : Prop where
  new : new = true ↔ ¬ c.visits.Counted a
  limits : c'.limits = c.limits
  spent : c'.spent = c.spent
  visits : ∀ b, c'.visits.Counted b ↔ c.visits.Counted b ∨ b = a

/-- A context from which the heap can be measured without sampling. -/
structure Context.Ready (c : Context) (h : Heap) : Prop where
  covers : c.limits.Covers h
  spent : c.spent ≤ maxBytes

theorem Context.Records.ready {h : Heap} {c c' : Context} {a : Allocation} {new : Bool}
    (hr : c.Records a new c') (hc : c.Ready h) : c'.Ready h :=
  ⟨by rw [hr.limits]; exact hc.covers, by rw [hr.spent]; exact hc.spent⟩

namespace Accounted

variable {h : Heap} {ps qs : List Piece} {c c' c'' : Context} {u v : Usage}
  {counted counted' : List Allocation}

theorem spent_le (ha : Accounted h ps c u c' counted) : c'.spent ≤ maxBytes := by
  rw [ha.spent]
  exact Nat.min_le_right _ _

theorem ready (ha : Accounted h ps c u c' counted) (hc : c.Ready h) : c'.Ready h :=
  ⟨by rw [ha.limits]; exact hc.covers, ha.spent_le⟩

/-- The budget is never given back. -/
theorem within (ha : Accounted h ps c u c' counted) (hc : c.spent ≤ maxBytes)
    (hover : c'.isOver = false) : c.isOver = false := by
  simp only [Context.isOver, Limits.isExceededBy, ha.limits, ha.spent, saturatingAdd,
    decide_eq_false_iff_not] at hover ⊢
  omega

theorem zero (hc : c.spent ≤ maxBytes) : Accounted h [] c .zero c [] where
  limits := rfl
  spent := by simp [saturatingAdd, Usage.zero, hc]
  nodup := .nil
  fresh := by simp
  visits := by simp
  reached := by simp
  bound := by simp
  charged := by simp
  followed := by simp
  closed := by simp

theorem leaf (c : Context) (u : Usage) : Accounted h [.cost u] c u (c.charge u) [] where
  limits := rfl
  spent := rfl
  nodup := .nil
  fresh := by simp
  visits := by simp [Context.charge]
  reached := by simp
  bound := by simp
  charged := by simp
  followed := by simp
  closed := by simp

theorem append (ha : Accounted h ps c u c' counted) (hb : Accounted h qs c' v c'' counted') :
    Accounted h (ps ++ qs) c (u + v) c'' (counted ++ counted') where
  limits := hb.limits.trans ha.limits
  spent := by
    rw [hb.spent, ha.spent]
    show _ = saturatingAdd c.spent (saturatingAdd u.refined v.refined)
    simp only [saturatingAdd]
    omega
  nodup := by
    refine List.nodup_append.mpr ⟨ha.nodup, hb.nodup, ?_⟩
    -- What the second part counted for the first time was not counted by the first.
    rintro a hau b hbv rfl
    exact hb.fresh a hbv ((ha.visits a).mpr (.inr hau))
  fresh := by
    intro a hmem
    rcases List.mem_append.mp hmem with hau | hav
    · exact ha.fresh a hau
    · exact fun hc => hb.fresh a hav ((ha.visits a).mpr (.inl hc))
  visits := by
    intro a
    rw [hb.visits, ha.visits, List.mem_append, or_assoc]
  reached := by
    intro a hmem
    rcases List.mem_append.mp hmem with hau | hav
    · exact (ha.reached a hau).mono fun p hp => List.mem_append_left _ hp
    · exact (hb.reached a hav).mono fun p hp => List.mem_append_right _ hp
  bound := by
    intro s
    have h₁ := ha.bound s
    have h₂ := hb.bound s
    simp only [Usage.count_add, total_append, Heap.costs_append, saturatingAdd]
    omega
  charged := by
    intro hover s
    have h₁ := ha.charged (hb.within ha.spent_le hover) s
    have h₂ := hb.charged hover s
    simp only [Usage.count_add, total_append, Heap.costs_append, saturatingAdd]
    omega
  followed := by
    intro hover a hmem
    rcases List.mem_append.mp hmem with hp | hq
    · exact (hb.visits a).mpr (.inl (ha.followed (hb.within ha.spent_le hover) a hp))
    · exact hb.followed hover a hq
  closed := by
    intro hover a hmem b hb'
    rcases List.mem_append.mp hmem with hau | hav
    · exact (hb.visits b).mpr (.inl (ha.closed (hb.within ha.spent_le hover) a hau b hb'))
    · exact hb.closed hover a hav b hb'

/-- Once the budget is used up, what is left out does not matter. -/
theorem stop (ha : Accounted h ps c u c' counted) (hover : c'.isOver = true) :
    Accounted h (ps ++ qs) c u c' counted where
  limits := ha.limits
  spent := ha.spent
  nodup := ha.nodup
  fresh := ha.fresh
  visits := ha.visits
  reached := fun a hmem => (ha.reached a hmem).mono fun p hp => List.mem_append_left _ hp
  bound := by
    intro s
    have h₁ := ha.bound s
    rw [total_append]
    omega
  charged := fun hnot => absurd hnot (by simp [hover])
  followed := fun hnot => absurd hnot (by simp [hover])
  closed := fun hnot => absurd hnot (by simp [hover])

/-- The depth is of no account. -/
theorem setDepth {d : Nat} (ha : Accounted h ps { c with depth := d } u c' counted) (d' : Nat) :
    Accounted h ps c u { c' with depth := d' } counted :=
  ⟨ha.limits, ha.spent, ha.nodup, ha.fresh, ha.visits, ha.reached, ha.bound,
    ha.charged, ha.followed, ha.closed⟩

/-- The pieces of a node that is counted for the first time make up a reference to it. -/
theorem enter {a : Allocation} {c₁ : Context} (hnew : c.Records a true c₁)
    (ha : Accounted h (h.pieces a) c₁ u c' counted) :
    Accounted h [.ref a] c u c' (a :: counted) where
  limits := ha.limits.trans hnew.limits
  spent := by rw [ha.spent, hnew.spent]
  nodup := List.nodup_cons.mpr
    ⟨fun hmem => ha.fresh a hmem ((hnew.visits a).mpr (.inr rfl)), ha.nodup⟩
  fresh := by
    intro b hmem
    rcases List.mem_cons.mp hmem with rfl | hmem
    · exact hnew.new.mp rfl
    · exact fun hc => ha.fresh b hmem ((hnew.visits b).mpr (.inl hc))
  visits := by
    intro b
    rw [ha.visits, hnew.visits, List.mem_cons, or_assoc]
  reached := by
    have hhere : h.Reaches [.ref a] a := .here (by simp)
    intro b hmem
    rcases List.mem_cons.mp hmem with rfl | hmem
    · exact hhere
    · exact (ha.reached b hmem).trans fun _ hb => .step hhere hb
  bound := by
    intro s
    have h₁ := ha.bound s
    simpa [Heap.cost] using h₁
  charged := by
    intro hover s
    have h₁ := ha.charged hover s
    simpa [Heap.cost] using h₁
  followed := by
    intro hover b hb
    obtain rfl : b = a := by simpa using hb
    exact (ha.visits b).mpr (.inl ((hnew.visits b).mpr (.inr rfl)))
  closed := by
    intro hover b hmem d hd
    -- The references of the node itself are those that were followed while it was measured.
    rcases List.mem_cons.mp hmem with rfl | hmem
    · exact ha.followed hover d hd
    · exact ha.closed hover b hmem d hd

/-- References to nodes that are reached anyway add nothing. -/
theorem drop (ha : Accounted h (ps ++ qs) c u c' counted)
    (hqs : ∀ p ∈ qs, ∃ b, p = .ref b ∧ h.Reaches ps b) : Accounted h ps c u c' counted := by
  have htotal : ∀ s, total s qs = 0 := fun s => total_eq_zero fun p hp => by
    obtain ⟨b, hb, -⟩ := hqs p hp
    exact ⟨b, hb⟩
  refine ⟨ha.limits, ha.spent, ha.nodup, ha.fresh, ha.visits, ?_, ?_, ?_, ?_, ha.closed⟩
  · intro a hmem
    refine (ha.reached a hmem).trans fun b hb => ?_
    rcases List.mem_append.mp hb with hp | hq
    · exact .here hp
    · obtain ⟨d, hd, hreach⟩ := hqs _ hq
      cases hd
      exact hreach
  · intro s
    simpa [htotal] using ha.bound s
  · intro hover s
    simpa [htotal] using ha.charged hover s
  · exact fun hover a hp => ha.followed hover a (List.mem_append_left _ hp)

/-- A node that was counted before costs nothing more. -/
theorem again {a : Allocation} (hc : c.spent ≤ maxBytes) (hold : c.Records a false c') :
    Accounted h [.ref a] c .zero c' [] where
  limits := hold.limits
  spent := by simp [hold.spent, saturatingAdd, Usage.zero, hc]
  nodup := .nil
  fresh := by simp
  visits := by
    have ha : c.visits.Counted a := by simpa using hold.new
    intro b
    rw [hold.visits]
    by_cases hb : b = a
    · simp [hb, ha]
    · simp [hb]
  reached := by simp
  bound := by simp
  charged := by simp
  followed := by
    intro _ b hb
    obtain rfl : b = a := by simpa using hb
    exact (hold.visits b).mpr (.inr rfl)
  closed := by simp

end Accounted

end ScriptCore
