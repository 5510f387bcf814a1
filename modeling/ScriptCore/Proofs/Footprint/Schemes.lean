import ScriptCore.Proofs.Binary64.Monotone
import ScriptCore.Proofs.Footprint.Follows

/-!
# ScriptCore.Proofs.Footprint.Schemes

The two ways of counting, **compared**: the legacy total is never more than the refined one.

Design points:

* Every single cost is in order, and sums and samples keep the order, since saturation and rounding are
  monotone. Each total is scaled up and saturated apart from the other, so this is asked of each step.
* The specification is one of programs (`Estimate.InOrder`). It says nothing about the context, so it
  holds in every one, also where the budget is used up or the depth is beyond the ceiling.
-/

namespace ScriptCore

open Estimate

/-! ### Usages -/

theorem saturatingAdd_mono {a a' b b' : Nat} (ha : a ≤ a') (hb : b ≤ b') :
    saturatingAdd a b ≤ saturatingAdd a' b' :=
  min_le_min_right _ (Nat.add_le_add ha hb)

/-- Scaling up a larger sum gives no less, even where the numbers are rounded and clamped. -/
theorem scaledUp_mono {sum sum' : Nat} (le : sum ≤ sum') (bounded : sum' ≤ maxBytes)
    (samples total : Nat) : scaledUp sum samples total ≤ scaledUp sum' samples total := by
  unfold scaledUp
  split
  · exact Nat.le_refl _
  · rename_i some
    have nonzero : (Binary64.ofNat samples).isZero = false :=
      (Binary64.atMost_ofNat (Nat.one_le_iff_ne_zero.mpr some)).notZero
        ((Binary64.whole_ofNat (by decide)).isZero)
    have finite : (Binary64.ofNat sum').isInfinite = false := by
      refine (Binary64.whole_ofUnits (k := 63) (by decide) ?_).notInfinite
      exact Nat.lt_of_le_of_lt bounded (by decide)
    have average := (Binary64.atMost_ofNat le).div (Binary64.atMost_ofNat (Nat.le_refl samples))
      finite nonzero
    exact Int.toNat_le_toNat
      (average.clamp_mul (Binary64.atMost_ofNat (Nat.le_refl total)) (Int.natCast_nonneg _))

namespace Usage

/-- The legacy total is at most the refined one. -/
def InOrder (u : Usage) : Prop := u.legacy ≤ u.refined

theorem inOrder_zero : zero.InOrder := Nat.le_refl _

theorem inOrder_uniform (n : Nat) : (uniform n).InOrder := Nat.le_refl n

theorem inOrder_string (payload : Nat) : (string payload).InOrder := Nat.le_add_right _ _

theorem InOrder.add {u v : Usage} (hu : u.InOrder) (hv : v.InOrder) : (u + v).InOrder :=
  saturatingAdd_mono hu hv

end Usage

theorem Cost.inOrder_usage (oracle : SizeOracle) (k : Cost) : (k.usage oracle).InOrder := by
  cases k with
  | string payload => exact Usage.inOrder_string payload
  | bytes n | foreign d => exact Usage.inOrder_uniform _

/-! ### Programs -/

/-- Whatever the context, a usage that is returned has its totals in order. -/
def Estimate.InOrder (m : Estimate Usage) : Prop :=
  ∀ ⦃c u c'⦄, m.run c = (.ok u, c') → u.InOrder

namespace Estimate.InOrder

variable {m n : Estimate Usage}

theorem pure {u : Usage} (hu : u.InOrder) : InOrder (Pure.pure u) := by
  intro c v c' run
  cases run
  exact hu

theorem fails (e : Context → TooDeep) : InOrder (do throw (e (← get))) := by
  intro c u c' run
  cases run

theorem charge (k : Cost) : InOrder k.charge := by
  intro c u c' run
  rw [Cost.run_charge] at run
  cases run
  exact k.inOrder_usage c.oracle

/-- A program that goes on with a usage only after something else has come to an end. -/
theorem bind {α : Type} {m : Estimate α} {f : α → Estimate Usage} (hf : ∀ a, InOrder (f a)) :
    InOrder (m >>= f) := by
  intro c u c' run
  obtain ⟨a, c₁, -, run⟩ := run_bind_ok run
  exact hf a run

theorem add (hm : InOrder m) (hn : InOrder n) : InOrder (do let u ← m; return u + (← n)) := by
  intro c u c' run
  obtain ⟨u₁, c₁, run₁, run⟩ := run_bind_ok run
  obtain ⟨u₂, c₂, run₂, run⟩ := run_bind_ok run
  obtain ⟨rfl, -⟩ := run_pure_ok run
  exact (hm run₁).add (hn run₂)

theorem within (hm : InOrder m) (hn : InOrder n) : InOrder (do
    let u ← m
    if ← isOver then return u
    return u + (← n)) := by
  intro c u c' run
  obtain ⟨u₁, c₁, run₁, run⟩ := run_bind_ok run
  rw [run_bind, run_isOver] at run
  dsimp only at run
  split at run
  · obtain ⟨rfl, -⟩ := run_pure_ok run
    exact hm run₁
  · obtain ⟨u₂, c₂, run₂, run⟩ := run_bind_ok run
    obtain ⟨rfl, -⟩ := run_pure_ok run
    exact (hm run₁).add (hn run₂)

theorem nested (hm : InOrder m) : InOrder (Estimate.nested m) := by
  intro c u c' run
  rw [run_nested] at run
  split at run
  · cases run
  · exact hm (Prod.ext (Prod.mk.inj run).1 rfl)

/-! ### Containers -/

/-- The sum so far is in order and in range. -/
structure Summed (u : Usage) : Prop where
  inOrder : u.InOrder
  bounded : u.Bounded

theorem measureWhile {items : List (Estimate Usage)} (each : ∀ m ∈ items, InOrder m) {sum : Usage}
    (hsum : Summed sum) {count : Nat} {c c' : Context} {r : Usage × Nat}
    (run : (measureWhile id sum count items).run c = (.ok r, c')) : Summed r.1 := by
  induction items generalizing sum count c with
  | nil =>
      obtain ⟨rfl, -⟩ := run_pure_ok run
      exact hsum
  | cons m items ih =>
      rw [ScriptCore.measureWhile] at run
      obtain ⟨u, c₁, run₁, run⟩ := run_bind_ok run
      have hadd : Summed (sum + u) :=
        ⟨hsum.inOrder.add (each m List.mem_cons_self run₁), Usage.bounded_add _ _⟩
      rw [run_bind, run_isOver] at run
      dsimp only at run
      split at run
      · obtain ⟨rfl, -⟩ := run_pure_ok run
        exact hadd
      · exact ih (fun m hm => each m (List.mem_cons_of_mem _ hm)) hadd run

theorem summed_zero : Summed .zero := ⟨Usage.inOrder_zero, fun s => by simp⟩

theorem walk {items : List (Estimate Usage)} (each : ∀ m ∈ items, InOrder m) (sampled : Bool) :
    InOrder (walk items sampled id) := by
  intro c u c' run
  cases sampled with
  | false =>
      obtain ⟨r, c₁, measured, rest⟩ := run_bind_ok run
      obtain ⟨rfl, -⟩ := run_pure_ok rest
      exact (measureWhile each summed_zero measured).inOrder
  | true =>
      obtain ⟨limits, c₁, -, run⟩ := run_bind_ok run
      obtain ⟨r, c₂, measured, rest⟩ := run_bind_ok run
      obtain ⟨rfl, -⟩ := run_pure_ok rest
      have hsum := measureWhile (fun m hm => each m (everyNth_subset hm)) summed_zero measured
      exact scaledUp_mono hsum.inOrder (hsum.bounded .refined) _ _

/-- A plan returns its totals in order if nodes do. -/
theorem run {inner : Node → Estimate Usage} (hinner : ∀ n, InOrder (inner n)) (p : Plan) :
    InOrder (p.run inner) := by
  induction p using Plan.induct with
  | nothing => exact pure Usage.inOrder_zero
  | cost k => exact charge k
  | node n => exact hinner n
  | both p q hp hq => exact hp.add hq
  | within p q hp hq => exact hp.within hq
  | deeper p hp => exact hp.nested
  | record a p q hp hq =>
      refine bind fun new => ?_
      cases new with
      | true => exact hp
      | false => exact hq
  | unlessMet a p hp =>
      refine bind fun c => ?_
      split
      · exact pure Usage.inOrder_zero
      · exact hp
  | contents a p hp => exact hp
  | container s items hitems =>
      refine bind fun sampled => walk ?_ sampled
      rw [Plan.runEach_eq_map, List.forall_mem_map]
      exact hitems

theorem usageWithin (h : Heap) (n : Nat) (node : Node) : InOrder (usageWithin h n node) := by
  induction n generalizing node with
  | zero =>
      rw [ScriptCore.usageWithin, nodeUsage_eq_run]
      exact run (fun _ => fails _) _
  | succ n ih =>
      rw [ScriptCore.usageWithin, nodeUsage_eq_run]
      exact run ih _

end Estimate.InOrder

/-! ### Main result -/

/-- Whatever is measured, under whatever limits and in whatever context, the legacy total is at most
the refined one. -/
theorem legacy_at_most_refined (h : Heap) (root : Root) {c c' : Context} {u : Usage}
    (run : (rootUsage h root).run c = (.ok u, c')) : u.legacy ≤ u.refined := by
  have hnodes : ∀ n, InOrder (nodeUsageHere h n) := fun n =>
    .bind fun c => .usageWithin h (c.limits.maxDepth - c.depth) n
  rw [rootUsage_eq_run] at run
  exact InOrder.run hnodes root.plan run

/-- The totals of two strings, where the budget ends the list after the first one. -/
theorem legacy_at_most_refined_beyond_budget :
    let vs : List Value := [.string (.imported "ab"), .string (.imported "cd")]
    let c : Context := .new ⟨0, 0, 1, 1, .nan⟩ fun _ => none
    (rootUsage .empty (.values vs)).run c = (.ok ⟨2, 18⟩, c.charge ⟨2, 18⟩) ∧
      (⟨2, 18⟩ : Usage).legacy ≤ (⟨2, 18⟩ : Usage).refined := by
  intro vs c
  have run : (rootUsage .empty (.values vs)).run c = (.ok ⟨2, 18⟩, c.charge ⟨2, 18⟩) := rfl
  exact ⟨run, legacy_at_most_refined .empty (.values vs) run⟩

end ScriptCore
