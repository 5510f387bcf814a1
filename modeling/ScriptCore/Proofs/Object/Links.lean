import Mathlib.Logic.Relation
import ScriptCore.Proofs.Object.Guarantee
import ScriptCore.Proofs.Object.Ordinary

/-!
# ScriptCore.Proofs.Object.Links

The **links** that a look-up follows from object to object, and heaps in which no walk along them
comes back.

Design points:

* A link leads to the stored prototype, or from a proxy to its target. Both kinds count together: a
  cycle may be made of both.
* Well-foundedness is what a walk needs, so `Heap.Ordered` asks for that and not for a rank. A change
  to one object keeps it if none of the object's new links leads back to the object. That is so for
  links of any kind (`Heap.WalksEnd`).
* Identities are given out in order, so a reference beyond the heap would come to life with a later
  object. `Heap.Ordered` rules it out, also for the prototypes kept for values of the host.
-/

namespace ScriptCore

/-- A look-up may go on from the object to another. -/
inductive Object.LinksTo (obj : Object) (p : ObjectId) : Prop where
  | prototype (link : obj.prototype = some p)
  | target {handler} (link : obj.payload = .proxy (some p) handler)

/-- One of the prototypes for values of the host. -/
inductive HostPrototypes.Has (prototypes : HostPrototypes) (p : ObjectId) : Prop where
  | object (found : prototypes.object = some p)
  | array (found : prototypes.array = some p)
  | function (found : prototypes.function = some p)

/-- The object refers to another as a link, or as a prototype for values of the host. -/
def Object.Mentions (obj : Object) (p : ObjectId) : Prop :=
  obj.LinksTo p ∨ obj.payload.hostPrototypes.Has p

theorem HostPrototypes.not_has_none (p : ObjectId) : ¬HostPrototypes.none.Has p := by
  rintro (found | found | found)
  · cases found
  · cases found
  · cases found

theorem Object.not_mentions_default (p : ObjectId) : ¬(default : Object).Mentions p := by
  rintro ((link | link) | held)
  · cases link
  · cases link
  · exact HostPrototypes.not_has_none p held

/-- Links come from prototype and payload alone. -/
theorem Object.LinksTo.of_eq {obj obj' : Object} {p : ObjectId}
    (prototype : obj'.prototype = obj.prototype) (payload : obj'.payload = obj.payload)
    (h : obj'.LinksTo p) : obj.LinksTo p := by
  cases h with
  | prototype link => exact .prototype (prototype ▸ link)
  | target link => exact .target (payload ▸ link)

namespace Heap

/-- A look-up may go on from one object to another. -/
def Links (h : Heap) (o p : ObjectId) : Prop := (h.object o).LinksTo p

/-- Any number of links lead from one object to another. -/
def Leads (h : Heap) : ObjectId → ObjectId → Prop := Relation.ReflTransGen h.Links

/-- Any number of links of a kind lead from one object to another. -/
def LeadsAlong (L : Object → ObjectId → Prop) (h : Heap) : ObjectId → ObjectId → Prop :=
  Relation.ReflTransGen fun o p => L (h.object o) p

/-- Every walk along links of a kind ends. -/
def WalksEnd (L : Object → ObjectId → Prop) (h : Heap) : Prop :=
  WellFounded fun p o => L (h.object o) p

/-- Every reference is to an object of the heap. -/
def Complete (h : Heap) : Prop := ∀ o p, (h.object o).Mentions p → p.index < h.objects.size

/-- Every reference is to an object of the heap, and every walk along links ends. -/
structure Ordered (h : Heap) : Prop where
  live : ∀ o p, (h.object o).Mentions p → p.index < h.objects.size
  ends : WellFounded (Function.swap h.Links)

variable {h h' : Heap} {o p q : ObjectId}

/-! ### Walks along links of a kind -/

section Walks

variable {L : Object → ObjectId → Prop} {f : Object → Object}

theorem WalksEnd.not_leads_back (ends : h.WalksEnd L) (link : L (h.object o) p) :
    ¬h.LeadsAlong L p o := by
  intro back
  have round : Relation.TransGen (fun o p => L (h.object o) p) o o := .head' link back
  have down := Relation.transGen_swap.mpr round
  exact (WellFounded.transGen ends).asymmetric _ _ down down

theorem walksEnd_empty (bare : ∀ p, ¬L default p) : empty.WalksEnd L := by
  refine ⟨fun o => ⟨_, fun p link => ?_⟩⟩
  rw [object_of_le (Nat.zero_le _)] at link
  exact absurd link (bare p)

theorem WalksEnd.of_object (ends : h.WalksEnd L) (same : h'.object = h.object) : h'.WalksEnd L := by
  rw [WalksEnd, same]
  exact ends

/-- An object that does not lead to a changed one has all its walks unchanged. -/
theorem acc_of_not_leads {x : ObjectId} (same : ∀ y, y ≠ o → h'.object y = h.object y)
    (hx : Acc (fun y x => L (h.object x) y) x) (away : ¬h.LeadsAlong L x o) :
    Acc (fun y x => L (h'.object x) y) x := by
  induction hx with
  | intro x _ ih =>
      have hne : x ≠ o := by
        rintro rfl
        exact away .refl
      refine ⟨_, fun y link => ?_⟩
      have hold : L (h.object x) y := by
        rw [← same x hne]
        exact link
      exact ih y hold fun rest => away (.head hold rest)

/-- Walks go on ending when one object gets links that do not lead back to it. -/
theorem WalksEnd.of_away (ends : h.WalksEnd L) (same : ∀ y, y ≠ o → h'.object y = h.object y)
    (away : ∀ p, L (h'.object o) p → ¬h.LeadsAlong L p o) : h'.WalksEnd L := by
  have hself : Acc (fun y x => L (h'.object x) y) o :=
    ⟨_, fun p link => acc_of_not_leads same (ends.apply p) (away p link)⟩
  refine ⟨fun x => ends.induction (C := Acc fun y x => L (h'.object x) y) x fun x ih => ?_⟩
  rcases eq_or_ne x o with rfl | hne
  · exact hself
  · refine ⟨_, fun y link => ih y ?_⟩
    rw [← same x hne]
    exact link

theorem WalksEnd.updateObject (ends : h.WalksEnd L)
    (away : ∀ p, L (f (h.object o)) p → ¬h.LeadsAlong L p o) : (h.updateObject o f).WalksEnd L := by
  rcases Nat.lt_or_ge o.index h.objects.size with live | gone
  · refine ends.of_away (fun y hne => object_updateObject_of_ne hne f) fun p link => ?_
    rw [object_updateObject_self live] at link
    exact away p link
  · exact ends.of_object (funext fun p => object_updateObject_of_le gone f p)

/-- Nothing leads to a new object. -/
theorem WalksEnd.addObject {obj : Object} (ends : h.WalksEnd L)
    (old : ∀ o p, L (h.object o) p → p.index < h.objects.size)
    (new : ∀ p, L obj p → p.index < h.objects.size) : (h.addObject obj).2.WalksEnd L := by
  refine ends.of_away (fun y hne => object_addObject_of_ne obj hne) fun p link leads => ?_
  rw [object_addObject_self] at link
  rcases Relation.ReflTransGen.cases_tail leads with heq | ⟨q, _, last⟩
  · exact absurd (new p link) (heq ▸ Nat.lt_irrefl _)
  · exact Nat.lt_irrefl _ (old q _ last)

end Walks

/-! ### References -/

theorem complete_empty : empty.Complete := by
  intro o p mentions
  rw [object_of_le (Nat.zero_le _)] at mentions
  exact absurd mentions (Object.not_mentions_default p)

theorem Complete.of_objects (live : h.Complete) (same : h'.objects = h.objects) : h'.Complete := by
  intro o p mentions
  rw [object_of_objects same] at mentions
  rw [same]
  exact live o p mentions

theorem Complete.updateObject {f : Object → Object} (live : h.Complete)
    (mentions : ∀ p, (f (h.object o)).Mentions p → p.index < h.objects.size) :
    (h.updateObject o f).Complete := by
  rw [Complete, size_updateObject]
  exact forall_updateObject (P := fun _ obj => ∀ p, obj.Mentions p → p.index < h.objects.size) live
    mentions

theorem Complete.addObject {obj : Object} (live : h.Complete)
    (mentions : ∀ p, obj.Mentions p → p.index < h.objects.size) : (h.addObject obj).2.Complete := by
  rw [Complete, size_addObject]
  exact forall_addObject (P := fun _ obj => ∀ p, obj.Mentions p → p.index < h.objects.size + 1)
    (fun o p hp => Nat.lt_succ_of_lt (live o p hp)) fun p hp => Nat.lt_succ_of_lt (mentions p hp)

/-! ### Heaps with their links in order -/

theorem Ordered.walksEnd (ho : h.Ordered) : h.WalksEnd Object.LinksTo := ho.ends

theorem Ordered.not_leads_back (ho : h.Ordered) (link : h.Links o p) : ¬h.Leads p o :=
  ho.walksEnd.not_leads_back link

theorem ordered_empty : empty.Ordered where
  live := complete_empty
  ends := walksEnd_empty fun p link => Object.not_mentions_default p (.inl link)

theorem Ordered.of_objects (ho : h.Ordered) (same : h'.objects = h.objects) : h'.Ordered where
  live := Complete.of_objects ho.live same
  ends := ho.walksEnd.of_object (object_of_objects same)

theorem Ordered.updateObject (ho : h.Ordered) (o : ObjectId) {f : Object → Object}
    (live : ∀ p, (f (h.object o)).Mentions p → p.index < h.objects.size)
    (away : ∀ p, (f (h.object o)).LinksTo p → ¬h.Leads p o) : (h.updateObject o f).Ordered where
  live := Complete.updateObject ho.live live
  ends := ho.walksEnd.updateObject away

/-- A change after which an object mentions no more than before. -/
theorem Ordered.updateObject_of_fewer (ho : h.Ordered) (o : ObjectId) {f : Object → Object}
    (links : ∀ p, (f (h.object o)).LinksTo p → h.Links o p)
    (prototypes : ∀ p, (f (h.object o)).payload.hostPrototypes.Has p →
      (h.object o).payload.hostPrototypes.Has p) : (h.updateObject o f).Ordered := by
  refine ho.updateObject o (fun p hp => ho.live o p ?_) fun p link => ho.not_leads_back (links p link)
  exact hp.imp (links p) (prototypes p)

theorem Ordered.addObject (ho : h.Ordered) {obj : Object}
    (live : ∀ p, obj.Mentions p → p.index < h.objects.size) : (h.addObject obj).2.Ordered where
  live := Complete.addObject ho.live live
  ends := ho.walksEnd.addObject (fun o p link => ho.live o p (.inl link)) fun p link =>
    live p (.inl link)

/-! ### The check for cycles -/

/-- The check sees every stored prototype. -/
theorem ne_of_chainHas?_eq_false {n : Nat} (accepted : h.chainHas? o n (some p) = some false)
    (hq : h.Inherits p q) : q ≠ o := by
  induction hq generalizing n with
  | refl p =>
      cases n with
      | zero => cases accepted
      | succ n =>
          rintro rfl
          rw [chainHas?, if_pos rfl] at accepted
          cases accepted
  | step link _ ih =>
      cases n with
      | zero => cases accepted
      | succ n =>
          rw [chainHas?] at accepted
          split at accepted
          · cases accepted
          · rw [link] at accepted
            exact ih accepted

/-- What an object leads to is on its prototype chain, or behind a proxy on that. -/
theorem leads_cases (hq : h.Leads p q) : h.Inherits p q ∨
    ∃ r target handler, h.Inherits p r ∧ h.payload r = .proxy (some target) handler ∧
      h.Leads target q := by
  induction hq using Relation.ReflTransGen.head_induction_on with
  | refl => exact .inl (.refl q)
  | head link rest ih =>
      cases link with
      | target link => exact .inr ⟨_, _, _, .refl _, link, rest⟩
      | prototype link =>
          rcases ih with chain | ⟨r, target, handler, chain, hr, leads⟩
          · exact .inl (.step link chain)
          · exact .inr ⟨r, target, handler, .step link chain, hr, leads⟩

/-- An accepted prototype keeps walks ending, unless a proxy on its chain leads to the object. -/
theorem Ordered.setPrototype (ho : h.Ordered) {n : Nat} {prototype : Option ObjectId}
    (live : ∀ p, prototype = some p → p.index < h.objects.size)
    (behind : ∀ p, prototype = some p → ∀ r target handler, h.Inherits p r →
      h.payload r = .proxy (some target) handler → ¬h.Leads target o)
    (accepted : h.chainHas? o n prototype = some false) :
    (h.updateObject o fun obj => { obj with prototype }).Ordered := by
  refine ho.updateObject o (fun p hp => ?_) fun p link => ?_
  · rcases hp with link | held
    · cases link with
      | prototype link => exact live p link
      | target link => exact ho.live o p (.inl (.target link))
    · exact ho.live o p (.inr held)
  · cases link with
    | target link => exact ho.not_leads_back (.target link)
    | prototype link =>
        intro leads
        cases link
        rcases leads_cases leads with chain | ⟨r, target, handler, chain, hr, leads⟩
        · exact ne_of_chainHas?_eq_false accepted chain rfl
        · exact behind p rfl r target handler chain hr leads

end Heap

end ScriptCore
