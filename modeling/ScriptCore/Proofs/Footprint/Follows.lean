import ScriptCore.Proofs.Footprint.Rules

/-!
# ScriptCore.Proofs.Footprint.Follows

Estimates **follow the rules**.

Design points:

* An estimate is given how nodes one level down are measured, and the room below the ceiling bounds that
  recursion. What follows the rules does so from the contexts with some room (`Follows`).
* The plan of a node asks for other nodes one level down only (`Plan.Guarded`). That is why the room is
  enough: where there is none, nothing is asked for.
* Every estimate from a sound context is derived by the rules (`performs_rootUsage`). The bound on the
  recursion plays no part after that.
-/

namespace ScriptCore

open Estimate

/-! ### Passes are performances -/

/-- A pass at some level below the ceiling is a performance of a plan. -/
def Follows (h : Heap) (room : Nat) (m : Estimate Usage) (p : Plan) : Prop :=
  ∀ c : Context, c.depth + room = c.limits.maxDepth →
    ∃ j r c', m.run c = (r, c') ∧ h.Performs p c j r c'

/-- Nodes are asked for no less than one level down. -/
def Plan.Guarded : Plan → Prop
  | .nothing | .cost _ | .deeper _ => True
  | .both p q | .within p q | .record _ p q => p.Guarded ∧ q.Guarded
  | .unlessMet _ p | .contents _ p => p.Guarded
  | .node _ | .container _ _ => False

namespace Heap

variable (h : Heap)

theorem guarded_objectPlan (o : ObjectId) : (h.objectPlan o).Guarded := by
  refine ⟨?_, trivial⟩
  split <;> trivial

theorem guarded_valuePlan (v : Value) : (h.valuePlan v).Guarded := by
  cases v with
  | object o => exact h.guarded_objectPlan o
  | _ => trivial

theorem guarded_hostPlan (v : HostValue) : (h.hostPlan v).Guarded := by
  cases v with
  | map _ => exact ⟨trivial, trivial, trivial⟩
  | slice _ => exact ⟨trivial, trivial, trivial⟩
  | foreign _ => exact ⟨trivial, trivial⟩
  | script v => exact h.guarded_valuePlan v
  | _ => trivial

theorem guarded_plan (n : Node) : (h.plan n).Guarded := by
  cases n with
  | value v => exact h.guarded_valuePlan v
  | host v => exact h.guarded_hostPlan v
  | scope _ => trivial
  | hostEntries _ => exact ⟨trivial, trivial⟩
  | hostElements _ => exact ⟨trivial, trivial⟩

end Heap

theorem everyNth_subset {α : Type} {step : Nat} {items : List α} {x : α}
    (hx : x ∈ everyNth step items) : x ∈ items := by
  simp only [everyNth, List.mem_filterMap] at hx
  obtain ⟨⟨y, place⟩, hmem, hy⟩ := hx
  split at hy
  · cases hy
    exact List.fst_mem_of_mem_zipIdx hmem
  · cases hy

namespace Follows

variable {h : Heap} {room n : Nat} {inner : Node → Estimate Usage} {p q : Plan}

/-- A usage is added to what a pass returns. -/
theorem run_add (u : Usage) (m : Estimate Usage) (c : Context) :
    (do return u + (← m)).run c = ((m.run c).1.map (u + ·), (m.run c).2) := by
  rw [run_bind]
  rcases m.run c with ⟨_ | _, _⟩ <;> rfl

/-- A performance ends with as much room as it started with. -/
theorem room_of_performs {c c' : Context} {j : List Moment} {r : Except TooDeep Usage}
    (hc : c.depth + room = c.limits.maxDepth) (performs : h.Performs p c j r c') :
    c'.depth + room = c'.limits.maxDepth := by
  rw [performs.sameLevel.depth, performs.sameLevel.limits, hc]

theorem both (hp : Follows h room (p.run inner) p) (hq : Follows h room (q.run inner) q) :
    Follows h room ((Plan.both p q).run inner) (.both p q) := by
  intro c hc
  obtain ⟨j₁, r₁, c₁, hrun₁, first⟩ := hp c hc
  rw [Plan.run, run_bind, hrun₁]
  cases r₁ with
  | error e => exact ⟨j₁, .error e, c₁, rfl, .bothFails first⟩
  | ok u =>
      obtain ⟨j₂, r₂, c₂, hrun₂, second⟩ := hq c₁ (room_of_performs hc first)
      dsimp only
      rw [run_add, hrun₂]
      exact ⟨j₁ ++ j₂, _, _, rfl, .both first second⟩

theorem within (hp : Follows h room (p.run inner) p) (hq : Follows h room (q.run inner) q) :
    Follows h room ((Plan.within p q).run inner) (.within p q) := by
  intro c hc
  obtain ⟨j₁, r₁, c₁, hrun₁, first⟩ := hp c hc
  rw [Plan.run, run_bind, hrun₁]
  cases r₁ with
  | error e => exact ⟨j₁, .error e, c₁, rfl, .withinFails first⟩
  | ok u =>
      dsimp only
      rw [run_bind, run_isOver]
      cases spent : c₁.isOver with
      | true => exact ⟨j₁, .ok u, c₁, rfl, .withinStops first spent⟩
      | false =>
          obtain ⟨j₂, r₂, c₂, hrun₂, second⟩ := hq c₁ (room_of_performs hc first)
          dsimp only
          rw [if_neg Bool.false_ne_true, run_add, hrun₂]
          exact ⟨j₁ ++ j₂, _, _, rfl, .within first spent second⟩

theorem deeper (hp : ∀ k, room = k + 1 → Follows h k (p.run inner) p) :
    Follows h room ((Plan.deeper p).run inner) (.deeper p) := by
  intro c hc
  rw [Plan.run, run_nested]
  cases descends : c.descend with
  | error e => exact ⟨[], .error e, c, rfl, .tooDeep descends⟩
  | ok c₁ =>
      obtain ⟨hdepth, hc₁⟩ := Context.descend_ok descends
      -- There is room for another level, since the ceiling is not reached.
      obtain ⟨k, rfl⟩ : ∃ k, room = k + 1 := Nat.exists_eq_succ_of_ne_zero (by omega)
      have hroom : c₁.depth + k = c₁.limits.maxDepth := by
        rw [hc₁]
        show c.depth + 1 + k = c.limits.maxDepth
        omega
      obtain ⟨j, r, c', hrun, content⟩ := hp k rfl c₁ hroom
      refine ⟨_, r, c'.ascend, ?_, .deeper descends content⟩
      simp [hrun]

theorem record {a : Allocation} (hp : Follows h room (p.run inner) p)
    (hq : Follows h room (q.run inner) q) :
    Follows h room ((Plan.record a p q).run inner) (.record a p q) := by
  intro c hc
  rw [Plan.run, run_bind, run_record]
  cases old : c.visits.has a with
  | false =>
      obtain ⟨j, r, c', hrun, content⟩ := hp (c.record a) hc
      have new : ¬ c.visits.Counted a := by simp [← Visits.has_iff, old]
      exact ⟨_, r, c', hrun, .first new content⟩
  | true =>
      obtain ⟨j, r, c', hrun, content⟩ := hq (c.record a) hc
      exact ⟨_, r, c', hrun, .again ((Visits.has_iff a).mp old) content⟩

theorem unlessMet {a : Allocation} (hp : Follows h room (p.run inner) p) :
    Follows h room ((Plan.unlessMet a p).run inner) (.unlessMet a p) := by
  intro c hc
  rw [Plan.run, run_bind, run_get]
  cases old : c.visits.has a with
  | false =>
      obtain ⟨j, r, c', hrun, content⟩ := hp c hc
      have new : ¬ c.visits.Counted a := by simp [← Visits.has_iff, old]
      refine ⟨j, r, c', ?_, .unmet new content⟩
      simpa [old] using hrun
  | true =>
      refine ⟨[], .ok .zero, c, ?_, .met ((Visits.has_iff a).mp old)⟩
      simp [old]

theorem contents {a : Allocation} (hp : Follows h room (p.run inner) p) :
    Follows h room ((Plan.contents a p).run inner) (.contents a p) := by
  intro c hc
  obtain ⟨j, r, c', hrun, content⟩ := hp c hc
  exact ⟨_, r, c', hrun, .contents content⟩

/-- The loop over the elements of a container performs them, and adds up what they return. -/
theorem each {items : List Plan} (hitems : ∀ p ∈ items, Follows h room (p.run inner) p)
    (sum : Usage) (count : Nat) (c : Context) (hc : c.depth + room = c.limits.maxDepth) :
    ∃ j r c', (measureWhile id sum count (Plan.runEach inner items)).run c =
        (r.map fun us => (us.foldl Usage.add sum, count + us.length), c') ∧
      h.PerformsEach items c j r c' := by
  -- The loop carries a sum and a count, so both are part of what is proved.
  induction items generalizing sum count c with
  | nil => exact ⟨[], .ok [], c, rfl, .nil c⟩
  | cons p items ih =>
      obtain ⟨j₁, r₁, c₁, hrun₁, head⟩ := hitems p List.mem_cons_self c hc
      rw [Plan.runEach, measureWhile, run_bind, id, hrun₁]
      cases r₁ with
      | error e => exact ⟨j₁, .error e, c₁, rfl, .fails head⟩
      | ok u =>
          dsimp only
          rw [run_bind, run_isOver]
          cases spent : c₁.isOver with
          | true => exact ⟨j₁, .ok [u], c₁, rfl, .stops head spent⟩
          | false =>
              obtain ⟨j₂, r₂, c₂, hrun₂, tail⟩ := ih (fun q hq => hitems q (List.mem_cons_of_mem _ hq))
                (sum + u) (count + 1) c₁ (room_of_performs hc head)
              refine ⟨j₁ ++ j₂, r₂.map (u :: ·), c₂, ?_, .cons head spent tail⟩
              dsimp only
              rw [if_neg Bool.false_ne_true, hrun₂]
              cases r₂ with
              | error _ => rfl
              | ok us =>
                  have hcount : count + 1 + us.length = count + (us.length + 1) := by omega
                  simp [Except.map, hcount]
                  rfl

theorem container {s : Sampling} {items : List Plan}
    (hitems : ∀ p ∈ items, Follows h room (p.run inner) p) :
    Follows h room ((Plan.container s items).run inner) (.container s items) := by
  intro c hc
  rw [Plan.run, run_bind, run_ask]
  cases long : s.applies c.limits items.length with
  | false =>
      obtain ⟨j, r, c', hrun, elements⟩ := each hitems .zero 0 c hc
      refine ⟨j, r.map Usage.sum, c', ?_, .container long elements⟩
      dsimp only [walk]
      rw [if_neg Bool.false_ne_true, run_bind, hrun]
      cases r <;> rfl
  | true =>
      have hsample : ∀ p ∈ everyNth (sampleStep items.length c.limits.sampleRate) items,
          Follows h room (p.run inner) p := fun p hp => hitems p (everyNth_subset hp)
      obtain ⟨j, r, c', hrun, elements⟩ := each hsample .zero 0 c hc
      refine ⟨_, r.map (Usage.scaled items.length), c', ?_, .sample long elements⟩
      rw [Plan.runEach_eq_map] at hrun ⊢
      dsimp only [walk]
      rw [if_pos rfl, run_bind, run_get]
      dsimp only
      rw [List.length_map, everyNth_map, run_bind, hrun]
      cases r with
      | error _ => rfl
      | ok us => simp [Except.map, Usage.scaled, Usage.sum]

/-- With nodes that are followed wherever there is less room, a plan is followed, also where there is
as much if it asks for nodes further down only. -/
theorem run (hinner : ∀ k < n, ∀ x, Follows h k (inner x) (.node x)) (p : Plan) (hroom : room ≤ n)
    (hguarded : room = n → p.Guarded) : Follows h room (p.run inner) p := by
  induction p using Plan.induct generalizing room with
  | nothing => exact fun c _ => ⟨[], _, c, rfl, .nothing c⟩
  | cost k => exact fun c _ => ⟨_, _, _, k.run_charge c, .cost k c⟩
  | node x =>
      -- A guarded plan is no node, so there is less room here.
      have hlt : room < n := Nat.lt_of_le_of_ne hroom fun heq => hguarded heq
      exact hinner room hlt x
  | both p q ihp ihq =>
      exact both (ihp hroom fun heq => (hguarded heq).1) (ihq hroom fun heq => (hguarded heq).2)
  | within p q ihp ihq =>
      exact within (ihp hroom fun heq => (hguarded heq).1) (ihq hroom fun heq => (hguarded heq).2)
  | deeper p ih =>
      -- One level down there is less room, and the plan need not be guarded.
      refine deeper fun k hk => ih (by omega) fun heq => ?_
      omega
  | record a p q ihp ihq =>
      exact record (ihp hroom fun heq => (hguarded heq).1) (ihq hroom fun heq => (hguarded heq).2)
  | unlessMet a p ih => exact unlessMet (ih hroom hguarded)
  | contents a p ih => exact contents (ih hroom hguarded)
  | container s items ih =>
      have hlt : room < n := Nat.lt_of_le_of_ne hroom fun heq => hguarded heq
      exact container fun p hp => ih p hp hroom fun heq => absurd heq hlt.ne

theorem node {m : Estimate Usage} {x : Node} (hm : Follows h room m (h.plan x)) :
    Follows h room m (.node x) := by
  intro c hc
  obtain ⟨j, r, c', hrun, performs⟩ := hm c hc
  exact ⟨j, r, c', hrun, .node performs⟩

/-- With enough room for it, a node is measured as the rules say. -/
theorem usageWithin (x : Node) (hroom : room ≤ n) :
    Follows h room (usageWithin h n x) (.node x) := by
  induction n generalizing room x with
  | zero =>
      -- Without room no node is asked for, so that it does not matter how nodes are measured.
      refine node ?_
      rw [ScriptCore.usageWithin, nodeUsage_eq_run]
      exact run (fun k hk => absurd hk (Nat.not_lt_zero k)) _ hroom fun _ => h.guarded_plan x
  | succ n ih =>
      refine node ?_
      rw [ScriptCore.usageWithin, nodeUsage_eq_run]
      exact run (fun k hk x => ih x (Nat.le_of_lt_succ hk)) _ hroom fun _ => h.guarded_plan x

theorem nodeUsageHere (x : Node) : Follows h room (nodeUsageHere h x) (.node x) := by
  intro c hc
  have hroom : room = c.limits.maxDepth - c.depth := by omega
  exact usageWithin x hroom.le c hc

end Follows

/-- Every estimate from a sound context is derived by the rules. -/
theorem performs_rootUsage (h : Heap) (root : Root) {c : Context} (hc : c.Sound) :
    ∃ j r c', (rootUsage h root).run c = (r, c') ∧ h.Performs root.plan c j r c' := by
  have hroom : c.depth + (c.limits.maxDepth - c.depth) = c.limits.maxDepth := by
    have := hc.depth
    omega
  rw [rootUsage_eq_run]
  refine Follows.run (fun k _ x => .nodeUsageHere x) root.plan (Nat.le_succ _) ?_ c hroom
  exact fun heq => absurd heq (Nat.succ_ne_self _).symm

end ScriptCore
