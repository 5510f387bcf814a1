import Mathlib.Data.Finset.Card
import Mathlib.Logic.Relation
import ScriptCore.Host.Describe
import ScriptCore.Proofs.Host.Identity

/-!
# ScriptCore.Proofs.Host.Description

Which values of the host **have a description**: those from which no way down comes to a container
that holds itself.

Design points:

* A way down never comes back to where it started unless there is a cycle. So with each step the
  containers below become fewer (`below_ssubset`), and the number of containers is enough for any way.
* Along a cycle there is always one more container to describe, however many have been.
-/

namespace ScriptCore

/-- What is put together from parts is there if all the parts are. -/
theorem isSome_mapM_iff {α β γ : Type} {f : α → Option β} {items : List α} (join : List β → γ) :
    (items.mapM f >>= fun parts => some (join parts)).isSome = true ↔
      ∀ a ∈ items, (f a).isSome = true := by
  induction items generalizing join with
  | nil => simp
  | cons a items ih =>
      rw [List.mapM_cons, List.forall_mem_cons]
      cases f a with
      | none => simp
      | some b =>
          rw [← ih fun parts => join (b :: parts)]
          cases items.mapM f <;> simp

namespace Heap

variable {h : Heap} {u v : HostValue} {n : Nat}

/-- A container of the host holds a value. -/
inductive Contains (h : Heap) : HostValue → HostValue → Prop where
  | entry {m : HostMapId} {e : String × HostValue} (mem : e ∈ (h.hostMap m).toList) :
      Contains h (.map m) e.2
  | item {s : HostSliceId} {v : HostValue} (mem : v ∈ (h.hostSlice s).toList) :
      Contains h (.slice s) v

/-- Somewhere below a value a container holds itself, by way of others perhaps. -/
def Bottomless (h : Heap) (v : HostValue) : Prop :=
  ∃ c, Relation.ReflTransGen h.Contains v c ∧ Relation.TransGen h.Contains c c

theorem Bottomless.of_contains (inside : h.Contains v u) (below : h.Bottomless u) :
    h.Bottomless v := by
  obtain ⟨c, path, cycle⟩ := below
  exact ⟨c, path.head inside, cycle⟩

theorem Bottomless.contains (below : h.Bottomless v) : ∃ u, h.Contains v u ∧ h.Bottomless u := by
  obtain ⟨c, path, cycle⟩ := below
  rcases Relation.ReflTransGen.cases_head path with rfl | ⟨u, inside, rest⟩
  · obtain ⟨u, inside, back⟩ := Relation.TransGen.head'_iff.mp cycle
    exact ⟨u, inside, v, back, cycle⟩
  · exact ⟨u, inside, c, rest, cycle⟩

/-! ### Containers below a value -/

/-- The containers of the heap. -/
def containers (h : Heap) : Finset Allocation :=
  (Finset.range h.hostMaps.size).image (fun i => .hostMap ⟨i⟩) ∪
    (Finset.range h.hostSlices.size).image (fun i => .hostSlice ⟨i⟩)

theorem card_containers_le (h : Heap) :
    h.containers.card ≤ h.hostMaps.size + h.hostSlices.size := by
  refine (Finset.card_union_le _ _).trans (Nat.add_le_add ?_ ?_) <;>
    exact Finset.card_image_le.trans (Nat.le_of_eq (Finset.card_range _))

/-- What holds something is a container of the heap. -/
theorem Contains.mem_containers (inside : h.Contains v u) :
    ∃ a ∈ h.containers, v.shared? = some a := by
  cases inside with
  | @entry m e mem =>
      have live : m.index < h.hostMaps.size := by
        by_contra hle
        obtain ⟨key, x⟩ := e
        rw [Std.TreeMap.mem_toList_iff_getElem?_eq_some, hostMap,
          Array.getElem?_eq_none (Nat.le_of_not_lt hle)] at mem
        simp at mem
      exact ⟨_, Finset.mem_union_left _ (Finset.mem_image.mpr ⟨_, Finset.mem_range.mpr live, rfl⟩),
        rfl⟩
  | @item s v mem =>
      have live : s.index < h.hostSlices.size := by
        by_contra hle
        rw [hostSlice, Array.getElem?_eq_none (Nat.le_of_not_lt hle)] at mem
        simp at mem
      exact ⟨_, Finset.mem_union_right _ (Finset.mem_image.mpr ⟨_, Finset.mem_range.mpr live, rfl⟩),
        rfl⟩

/-- The containers that a value leads down to, itself included. -/
noncomputable def below (h : Heap) (v : HostValue) : Finset Allocation := by
  classical
  exact h.containers.filter fun a => ∃ c, Relation.ReflTransGen h.Contains v c ∧ c.shared? = some a

theorem mem_below {a : Allocation} : a ∈ h.below v ↔
    a ∈ h.containers ∧ ∃ c, Relation.ReflTransGen h.Contains v c ∧ c.shared? = some a := by
  simp [below]

/-- Fewer containers lie below what a value holds, unless one leads back to the value. -/
theorem below_ssubset (inside : h.Contains v u) (bottom : ¬h.Bottomless v) :
    h.below u ⊂ h.below v := by
  refine ⟨fun a mem => ?_, fun sub => ?_⟩
  · obtain ⟨there, c, path, shared⟩ := mem_below.mp mem
    exact mem_below.mpr ⟨there, c, path.head inside, shared⟩
  · obtain ⟨a, there, shared⟩ := inside.mem_containers
    obtain ⟨-, c, path, shared'⟩ := mem_below.mp (sub (mem_below.mpr ⟨there, v, .refl, shared⟩))
    cases HostValue.shared?_inj shared shared'
    exact bottom ⟨v, .refl, Relation.TransGen.head' inside path⟩

/-! ### Descriptions -/

/-- A value has a description if all that it holds has one. -/
theorem isSome_describeHostWithin_succ : (h.describeHostWithin (n + 1) v).isSome = true ↔
    ∀ u, h.Contains v u → (h.describeHostWithin n u).isSome = true := by
  cases v with
  | map m =>
      have parts : (h.describeHostWithin (n + 1) (.map m)).isSome = true ↔
          ∀ e ∈ (h.hostMap m).toList, (h.describeHostWithin n e.2).isSome = true := by
        refine (isSome_mapM_iff _).trans (forall₂_congr fun e _ => ?_)
        rw [Option.isSome_map]
      rw [parts]
      refine ⟨fun all u inside => ?_, fun all e mem => all e.2 (.entry mem)⟩
      cases inside with
      | entry mem => exact all _ mem
  | slice s =>
      have parts : (h.describeHostWithin (n + 1) (.slice s)).isSome = true ↔
          ∀ u ∈ (h.hostSlice s).toList, (h.describeHostWithin n u).isSome = true :=
        isSome_mapM_iff _
      rw [parts]
      refine ⟨fun all u inside => ?_, fun all u mem => all u (.item mem)⟩
      cases inside with
      | item mem => exact all _ mem
  | _ => exact iff_of_true rfl fun u inside => nomatch inside

theorem isSome_describeHostWithin_of_bottom (bottom : ¬h.Bottomless v)
    (enough : (h.below v).card < n) : (h.describeHostWithin n v).isSome = true := by
  induction n generalizing v with
  | zero => exact absurd enough (Nat.not_lt_zero _)
  | succ n ih =>
      rw [isSome_describeHostWithin_succ]
      intro u inside
      refine ih (fun deeper => bottom (deeper.of_contains inside)) ?_
      have fewer := Finset.card_lt_card (below_ssubset inside bottom)
      omega

theorem describeHostWithin_of_bottomless (bottomless : h.Bottomless v) (n : Nat) :
    h.describeHostWithin n v = none := by
  induction n generalizing v with
  | zero =>
      obtain ⟨u, inside, -⟩ := bottomless.contains
      cases inside <;> rfl
  | succ n ih =>
      obtain ⟨u, inside, deeper⟩ := bottomless.contains
      by_contra some
      rw [← ne_eq, ← Option.isSome_iff_ne_none, isSome_describeHostWithin_succ] at some
      have ends := some u inside
      rw [ih deeper] at ends
      cases ends

/-- A value of the host has a description exactly if it has a bottom. -/
theorem describeHost?_eq_none_iff : h.describeHost? v = none ↔ h.Bottomless v := by
  refine ⟨fun endless => ?_, fun bottomless => describeHostWithin_of_bottomless bottomless _⟩
  by_contra bottom
  have few : (h.below v).card < h.hostMaps.size + h.hostSlices.size + 1 := by
    refine Nat.lt_succ_of_le (le_trans (Finset.card_le_card fun a mem => ?_) h.card_containers_le)
    exact (mem_below.mp mem).1
  have ends := isSome_describeHostWithin_of_bottom bottom few
  rw [describeHost?] at endless
  rw [endless] at ends
  cases ends

/-- The same goes for serving as a key. -/
theorem keyText?_eq_none_iff : h.keyText? v = none ↔ h.Bottomless v := by
  cases v with
  | str | int | uint | float | bool | nil =>
      refine iff_of_false (by simp [keyText?]) fun bottomless => ?_
      obtain ⟨u, inside, -⟩ := bottomless.contains
      cases inside
  | _ => exact describeHost?_eq_none_iff

end Heap

end ScriptCore
