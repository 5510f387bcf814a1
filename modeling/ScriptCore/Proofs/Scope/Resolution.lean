import Mathlib.Logic.Relation
import ScriptCore.Proofs.Object.Search
import ScriptCore.Proofs.Scope.Frames

/-!
# ScriptCore.Proofs.Scope.Resolution

Looking a name up and assigning to it **resolve to one binding**, in scopes whose objects are plain.

Design points:

* `Heap.Resolves` is the innermost binding of a name, said of the heap alone: a frame that declares the
  name, or one whose object has it, and neither in the frames further in. Both walks follow it, and
  where it does not exist, because a chain of prototypes leads back into itself, neither has an end.
* An assignment changes one binding only (`World.OnlyBinding`). No frame further in comes to bind the
  name by it: an object there that inherited from the changed one would have had the name before
  (`Heap.Finds.none_of_onlyBinding`).
* The frames that are looked at are any family of frames that has with a frame the one around it
  (`Heap.Scopes`). Other frames of the heap, and what their objects are, play no part.
-/

namespace ScriptCore

variable {σ : Type}

/-! ### Bindings -/

/-- Where a binding is kept. -/
inductive Place where
  /-- Among the declared names of a frame. -/
  | declared (f : FrameId)
  /-- In an object that acts for a frame. -/
  | property (o : ObjectId)

/-- The object computes no properties and calls no code for those that it has. -/
structure Object.IsPlain (obj : Object) : Prop where
  payload : obj.payload = .plain
  data : ∀ key slot, obj.properties.get? key = some slot → slot.isAccessor = false

/-- The objects differ at most in the own property under a key. -/
structure Object.SameBut (obj obj' : Object) (key : Text) : Prop where
  object : obj' = { obj with properties := obj'.properties }
  properties : ∀ k, (k == key) = false → obj'.properties.get? k = obj.properties.get? k

namespace Heap

/-- An object and all objects on its prototype chain are plain. -/
def PlainFrom (h : Heap) (o : ObjectId) : Prop := ∀ p, h.Inherits o p → (h.object p).IsPlain

/-- The prototype chain of an object has an end. -/
def EndsFrom (h : Heap) (o : ObjectId) : Prop :=
  ∃ p, h.Inherits o p ∧ (h.object p).prototype = none

/-- A frame neither declares a name nor has an object with it, own or inherited. -/
structure Unbound (h : Heap) (name : Text) (f : FrameId) : Prop where
  undeclared : ∀ v, ¬(h.frame f).Declares name v
  absent : ∀ o, (h.frame f).object = some o → ∃ n, h.Finds name n o none

/-- The innermost binding of a name from a frame on, with its value, or none if no frame binds it. -/
inductive Resolves (h : Heap) (name : Text) : FrameId → Option (Place × Value) → Prop where
  | declared {f v} (declares : (h.frame f).Declares name v) :
      Resolves h name f (some (.declared f, v))
  | property {f o n v a} (undeclared : ∀ v, ¬(h.frame f).Declares name v)
      (object : (h.frame f).object = some o) (found : h.Finds name n o (some (.data v a))) :
      Resolves h name f (some (.property o, v))
  | nowhere {f} (unbound : h.Unbound name f) (last : (h.frame f).outer = none) :
      Resolves h name f none
  | outward {f g r} (unbound : h.Unbound name f) (outer : (h.frame f).outer = some g)
      (rest : Resolves h name g r) : Resolves h name f r

/-- A property is read-only, or an inherited one of an object that must not get properties. -/
def Refuses (h : Heap) (o : ObjectId) (key : Text) : Prop :=
  ∃ n v a, h.Finds key n o (some (.data v a)) ∧
    (a.writable = false ∨ 0 < n ∧ (h.object o).extensible = false)

/-- A value is kept under a name in a place. -/
def Keeps (h : Heap) (name : Text) (v : Value) : Place → Prop
  | .declared f => (h.frame f).Declares name v
  | .property o => ∃ a, (h.object o).properties.get? name = some (.data v a)

/-- A family of frames with the frames around them: names are distinct, and objects that act for
frames are plain. -/
structure Scopes (h : Heap) (S : FrameId → Prop) : Prop where
  distinct : ∀ f, S f → (h.frame f).Distinct
  plain : ∀ f o, S f → (h.frame f).object = some o → h.PlainFrom o
  outer : ∀ f g, S f → (h.frame f).outer = some g → S g ∧ g.index < f.index

end Heap

/-- Nothing has changed but what is kept under a name in one place. -/
structure World.OnlyBinding (w w' : World σ) (place : Place) (name : Text) : Prop where
  frame : ∀ f, (w.heap.frame f).SameBut (w'.heap.frame f) name
  frames : ∀ f, place ≠ .declared f → w'.heap.frame f = w.heap.frame f
  object : ∀ o, (w.heap.object o).SameBut (w'.heap.object o) name
  objects : ∀ o, place ≠ .property o → w'.heap.object o = w.heap.object o
  size : w'.heap.objects.size = w.heap.objects.size
  rest : w' = { w with
    heap := { w.heap with objects := w'.heap.objects, frames := w'.heap.frames } }

/-- What assigning `v` to a name does, by its innermost binding. -/
inductive Rebinds (w : World σ) (name : Text) (v : Value) :
    Option (Place × Value) → Bool → World σ → Prop where
  | accepted {place u w'} (accepts : ∀ o, place = .property o → ¬w.heap.Refuses o name)
      (only : w.OnlyBinding w' place name) (keeps : w'.heap.Keeps name v place) :
      Rebinds w name v (some (place, u)) true w'
  | refused {o u} (refuses : w.heap.Refuses o name) :
      Rebinds w name v (some (.property o, u)) false w
  | unbound : Rebinds w name v none false w

/-! ### Plain objects -/

section Plain

variable {env : Embedding σ} {w : World σ} {key name : Text} {o p : ObjectId} {n : Nat}
  {r : Option Slot}

theorem Heap.PlainFrom.ordinary {h : Heap} (ho : h.PlainFrom o) : h.OrdinaryFrom o := by
  intro p hp
  rw [Heap.payload, (ho p hp).payload]
  rfl

theorem Heap.PlainFrom.prototype {h : Heap} (ho : h.PlainFrom o)
    (link : (h.object o).prototype = some p) : h.PlainFrom p :=
  fun q hq => ho q (.step link hq)

/-- Chains are made of prototypes only. -/
theorem Heap.Inherits.of_prototypes {h h' : Heap} (chain : h'.Inherits o p)
    (same : ∀ o, (h'.object o).prototype = (h.object o).prototype) : h.Inherits o p := by
  induction chain with
  | refl o => exact .refl o
  | step link _ ih => exact .step (same _ ▸ link) ih

theorem Heap.PlainFrom.of_objects {h h' : Heap} (ho : h.PlainFrom o)
    (same : h'.objects = h.objects) : h'.PlainFrom o := by
  have objects := Heap.object_of_objects same
  intro p hp
  rw [objects]
  exact ho p (hp.of_prototypes fun o => by rw [objects])

/-- What is found in plain objects is a stored value. -/
theorem Heap.Finds.data {h : Heap} (found : h.Finds key n o r) (ho : h.PlainFrom o) :
    r = none ∨ ∃ v a, r = some (.data v a) := by
  induction found with
  | own own =>
      rename_i o slot
      have hdata := (ho o (.refl o)).data key slot own
      cases slot with
      | data v a => exact .inr ⟨v, a, rfl⟩
      | accessor => cases hdata
  | missing => exact .inl rfl
  | inherited _ link _ ih => exact ih (ho.prototype link)

/-- Where the prototype chain has an end, a key is found or found missing. -/
theorem Heap.EndsFrom.exists_finds {h : Heap} (ends : h.EndsFrom o) (key : Text) :
    ∃ n r, h.Finds key n o r := by
  obtain ⟨p, chain, last⟩ := ends
  induction chain with
  | refl o =>
      cases own : (h.object o).properties.get? key with
      | some slot => exact ⟨0, _, .own own⟩
      | none => exact ⟨0, _, .missing own last⟩
  | @step o p q link _ ih =>
      cases own : (h.object o).properties.get? key with
      | some slot => exact ⟨0, _, .own own⟩
      | none =>
          obtain ⟨n, r, rest⟩ := ih last
          exact ⟨n + 1, r, .inherited own link rest⟩

/-- Along ordinary objects, the search is the walk along prototypes. -/
theorem searchWithin_ordinary (ho : w.heap.OrdinaryFrom o) (patience : Nat) :
    searchWithin env key patience o w =
      (inheritedWithin env key patience (some o) w).map fun p => (.found p.1, p.2) := by
  induction patience generalizing o with
  | zero => rfl
  | succ patience ih =>
      rw [searchWithin_step (ne_proxy_of_isOrdinary ho.self), ownProperty_ordinary ho.self,
        Option.bind_some]
      cases own : (w.heap.object o).properties.get? key with
      | some slot =>
          rw [inheritedWithin_own ho.self own]
          rfl
      | none =>
          rw [inheritedWithin_next ho.self own, prototypeOf_ordinary ho.self, Option.bind_some]
          cases link : (w.heap.object o).prototype with
          | some p => exact ih (ho.prototype link)
          | none =>
              rw [inheritedWithin_none]
              rfl

theorem hasProperty_of_finds (patient : w.heap.objects.size < env.patience)
    (ho : w.heap.OrdinaryFrom o) (found : w.heap.Finds key n o r) :
    hasProperty env o key w = some (r.isSome, w) := by
  rw [hasProperty, hasWithin_eq_search, searchWithin_ordinary ho,
    inheritedWithin_of_finds found ho (Nat.lt_of_le_of_lt found.le_size patient)]
  rfl

theorem hasProperty_endless (ho : w.heap.OrdinaryFrom o)
    (lost : ¬∃ n r, w.heap.Finds key n o r) : hasProperty env o key w = none := by
  rw [hasProperty, hasWithin_eq_search, searchWithin_ordinary ho,
    inheritedWithin_of_endless ho lost]
  rfl

theorem getOrUndefined_of_finds (patient : w.heap.objects.size < env.patience)
    (ho : w.heap.OrdinaryFrom o) {v : Value} {a : Attributes}
    (found : w.heap.Finds key n o (some (.data v a))) :
    getOrUndefined env o key w = some (v, w) := by
  have run : getProperty env o key w = some (.ok v, w) := by
    rw [getProperty, getWithin_ordinary ho,
      inheritedWithin_of_finds found ho (Nat.lt_of_le_of_lt found.le_size patient)]
    rfl
  exact Exec.bind_of_eq run _

end Plain

/-! ### Changed bindings -/

namespace World.OnlyBinding

variable {w w' : World σ} {place : Place} {name : Text} {o p : ObjectId}

theorem of_properties (only : w.OnlyProperties w' o)
    (others : ∀ k, (k == name) = false →
      (w'.heap.object o).properties.get? k = (w.heap.object o).properties.get? k) :
    w.OnlyBinding w' (.property o) name := by
  have frames : w'.heap.frames = w.heap.frames := by
    rw [only.rest]
  have frame : ∀ f, w'.heap.frame f = w.heap.frame f := fun f => by
    rw [Heap.frame, Heap.frame, frames]
  refine ⟨fun f => ?_, fun f _ => frame f, fun p => ?_, fun p hp => ?_, only.size, ?_⟩
  · rw [frame f]
    exact ⟨rfl, fun _ _ _ => Iff.rfl, rfl, rfl⟩
  · by_cases heq : p = o
    · cases heq
      exact ⟨only.object, others⟩
    · rw [only.others p heq]
      exact ⟨rfl, fun _ _ => rfl⟩
  · exact only.others p fun heq => hp (by rw [heq])
  · rw [frames]
    exact only.rest

theorem of_assign {f : FrameId} {i : Nat} (found : (w.heap.frame f).place? name = some i)
    (v : Value) :
    w.OnlyBinding { w with heap := w.heap.updateFrame f (·.assign i v) } (.declared f) name where
  frame g := by
    by_cases heq : g = f
    · cases heq
      rw [Heap.frame_updateFrame_self (Heap.lt_size_of_place found)]
      exact Frame.sameBut_assign found v
    · rw [Heap.frame_updateFrame_of_ne heq]
      exact ⟨rfl, fun _ _ _ => Iff.rfl, rfl, rfl⟩
  frames g hg := Heap.frame_updateFrame_of_ne (fun heq => hg (by rw [heq])) _
  object p := ⟨rfl, fun _ _ => rfl⟩
  objects p _ := rfl
  size := rfl
  rest := rfl

theorem inherits (only : w.OnlyBinding w' place name) (chain : w'.heap.Inherits o p) :
    w.heap.Inherits o p :=
  chain.of_prototypes fun o => by rw [(only.object o).object]

/-- Plain objects stay plain if the new value is a stored one. -/
theorem plainFrom (only : w.OnlyBinding w' place name) {v : Value}
    (keeps : w'.heap.Keeps name v place) (ho : w.heap.PlainFrom o) : w'.heap.PlainFrom o := by
  intro p chain
  have hp := ho p (only.inherits chain)
  refine ⟨by rw [(only.object p).object]; exact hp.payload, fun key slot own => ?_⟩
  by_cases same : (key == name) = true
  · by_cases at_p : place = .property p
    · cases at_p
      obtain ⟨a, kept⟩ := keeps
      rw [PropertyTable.get?_congr _ (Text.beq_iff_units.mp same), kept] at own
      cases own
      rfl
    · rw [only.objects p at_p] at own
      exact hp.data key slot own
  · rw [(only.object p).properties key ((Bool.not_eq_true _).mp same)] at own
    exact hp.data key slot own

theorem scopes (only : w.OnlyBinding w' place name) {v : Value}
    (keeps : w'.heap.Keeps name v place) {S : FrameId → Prop} (hs : w.heap.Scopes S) :
    w'.heap.Scopes S where
  distinct f hf := (hs.distinct f hf).of_names (only.frame f).names
  plain f o hf object := only.plainFrom keeps (hs.plain f o hf ((only.frame f).object ▸ object))
  outer f g hf outer := hs.outer f g hf ((only.frame f).outer ▸ outer)

end World.OnlyBinding

namespace Heap

variable {w w' : World σ} {place : Place} {name : Text} {o p : ObjectId} {n m : Nat} {u v : Value}

/-- An object that lacks a name does not get it from an object that had it before. -/
theorem Finds.none_of_onlyBinding (only : w.OnlyBinding w' place name)
    (had : ∀ o, place = .property o → ∃ m slot, w.heap.Finds name m o (some slot))
    (lacks : w.heap.Finds name n p none) : w'.heap.Finds name n p none := by
  have same : ∀ {q k}, w.heap.Finds name k q none → w'.heap.object q = w.heap.object q := by
    intro q k lacks
    refine only.objects q fun at_q => ?_
    obtain ⟨m, slot, found⟩ := had q at_q
    cases (found.unique lacks).2
  generalize hr : (none : Option Slot) = r at lacks
  induction lacks with
  | own => cases hr
  | missing own last =>
      have heq := same (.missing own last)
      exact .missing (heq ▸ own) (heq ▸ last)
  | inherited own link rest ih =>
      subst hr
      have heq := same (.inherited own link rest)
      exact .inherited (heq ▸ own) (heq ▸ link) (ih rfl)

theorem Unbound.of_onlyBinding {f : FrameId} (only : w.OnlyBinding w' place name)
    (had : ∀ o, place = .property o → ∃ m slot, w.heap.Finds name m o (some slot))
    (unbound : w.heap.Unbound name f) : w'.heap.Unbound name f where
  undeclared := by
    rw [← Frame.place?_eq_none_iff, Frame.place?_eq_none, (only.frame f).names,
      ← Frame.place?_eq_none, Frame.place?_eq_none_iff]
    exact unbound.undeclared
  absent o object := by
    obtain ⟨n, lacks⟩ := unbound.absent o ((only.frame f).object ▸ object)
    exact ⟨n, lacks.none_of_onlyBinding only had⟩

/-- The object of a binding has the name. -/
theorem Resolves.exists_finds {h : Heap} {f : FrameId}
    (resolves : h.Resolves name f (some (place, u))) :
    ∀ o, place = .property o → ∃ m slot, h.Finds name m o (some slot) := by
  generalize hr : some (place, u) = r at resolves
  induction resolves with
  | declared =>
      cases hr
      rintro o ⟨⟩
  | property _ _ found =>
      cases hr
      rintro o ⟨⟩
      exact ⟨_, _, found⟩
  | nowhere => cases hr
  | outward _ _ _ ih => exact ih hr

/-- After the innermost binding has got another value, it is still the innermost one. -/
theorem Resolves.of_onlyBinding {f : FrameId} (resolves : w.heap.Resolves name f (some (place, u)))
    (only : w.OnlyBinding w' place name)
    (had : ∀ o, place = .property o → ∃ m slot, w.heap.Finds name m o (some slot))
    (keeps : w'.heap.Keeps name v place) : w'.heap.Resolves name f (some (place, v)) := by
  generalize hr : some (place, u) = r at resolves
  induction resolves with
  | declared =>
      cases hr
      exact .declared keeps
  | @property f o n _ a undeclared object found =>
      cases hr
      obtain ⟨a', kept⟩ := keeps
      refine .property (fun u declares => ?_) ((only.frame f).object ▸ object) (.own kept)
      exact undeclared u (only.frames f (by simp) ▸ declares)
  | nowhere => cases hr
  | outward unbound outer _ ih =>
      exact .outward (unbound.of_onlyBinding only had) ((only.frame _).outer ▸ outer) (ih hr)

end Heap

/-! ### Walks outward -/

section Walks

variable {env : Embedding σ} {w : World σ} {f g : FrameId} {name : Text} {o : ObjectId} {v : Value}

theorem heap_apply (w : World σ) : (Exec.heap : Exec σ Heap) w = some (w.heap, w) := rfl

theorem lookupName_declared (declared : (w.heap.frame f).value? name = some v) :
    lookupName env f name w = some (some v, w) := by
  rw [lookupName, Exec.bind_of_eq (heap_apply w), declared]
  rfl

theorem assignName_declared {i : Nat} (declared : (w.heap.frame f).place? name = some i) :
    assignName env f name v w =
      some (true, { w with heap := w.heap.updateFrame f (·.assign i v) }) := by
  rw [assignName, Exec.bind_of_eq (heap_apply w), declared]
  rfl

/-- A frame without an object hands over to the frame around it. -/
theorem lookupName_bare (undeclared : (w.heap.frame f).value? name = none)
    (bare : (w.heap.frame f).object = none) :
    lookupName env f name w =
      (w.heap.outer? f).elim (some (none, w)) fun g => lookupName env g.1 name w := by
  rw [lookupName, Exec.bind_of_eq (heap_apply w), undeclared]
  dsimp only
  rw [bare]
  dsimp only
  rw [Exec.bind_of_eq (Exec.pure_apply _ _)]
  cases w.heap.outer? f <;> rfl

theorem assignName_bare (undeclared : (w.heap.frame f).place? name = none)
    (bare : (w.heap.frame f).object = none) :
    assignName env f name v w =
      (w.heap.outer? f).elim (some (false, w)) fun g => assignName env g.1 name v w := by
  rw [assignName, Exec.bind_of_eq (heap_apply w), undeclared]
  dsimp only
  rw [bare]
  dsimp only
  rw [Exec.bind_of_eq (Exec.pure_apply _ _)]
  cases w.heap.outer? f <;> rfl

/-- A frame without the name asks its object first. -/
theorem lookupName_object (undeclared : (w.heap.frame f).value? name = none)
    (object : (w.heap.frame f).object = some o) :
    lookupName env f name w = (hasProperty env o name w).bind fun p =>
      if p.1 then (getOrUndefined env o name p.2).map fun q => (some q.1, q.2)
      else (w.heap.outer? f).elim (some (none, p.2)) fun g => lookupName env g.1 name p.2 := by
  rw [lookupName, Exec.bind_of_eq (heap_apply w), undeclared]
  dsimp only
  rw [object]
  dsimp only
  rw [Exec.bind_eq]
  refine Option.bind_congr fun p _ => ?_
  obtain ⟨found, w'⟩ := p
  cases found with
  | true =>
      show (getOrUndefined env o name w').bind _ = _
      cases getOrUndefined env o name w' <;> rfl
  | false => cases w.heap.outer? f <;> rfl

theorem assignName_object (undeclared : (w.heap.frame f).place? name = none)
    (object : (w.heap.frame f).object = some o) :
    assignName env f name v w = (hasProperty env o name w).bind fun p =>
      if p.1 then trySet env o name v p.2
      else (w.heap.outer? f).elim (some (false, p.2)) fun g => assignName env g.1 name v p.2 := by
  rw [assignName, Exec.bind_of_eq (heap_apply w), undeclared]
  dsimp only
  rw [object]
  dsimp only
  rw [Exec.bind_eq]
  refine Option.bind_congr fun p _ => ?_
  obtain ⟨found, w'⟩ := p
  cases found with
  | true => rfl
  | false => cases w.heap.outer? f <;> rfl

/-- A frame without the name hands over to the frame around it. -/
theorem lookupName_outward (undeclared : (w.heap.frame f).value? name = none)
    (absent : ∀ o, (w.heap.frame f).object = some o → hasProperty env o name w = some (false, w)) :
    lookupName env f name w =
      (w.heap.outer? f).elim (some (none, w)) fun g => lookupName env g.1 name w := by
  cases object : (w.heap.frame f).object with
  | none => exact lookupName_bare undeclared object
  | some o =>
      rw [lookupName_object undeclared object, absent o object]
      rfl

theorem assignName_outward (undeclared : (w.heap.frame f).place? name = none)
    (absent : ∀ o, (w.heap.frame f).object = some o → hasProperty env o name w = some (false, w)) :
    assignName env f name v w =
      (w.heap.outer? f).elim (some (false, w)) fun g => assignName env g.1 name v w := by
  cases object : (w.heap.frame f).object with
  | none => exact assignName_bare undeclared object
  | some o =>
      rw [assignName_object undeclared object, absent o object]
      rfl

end Walks

/-! ### Resolution -/

section Resolution

variable {env : Embedding σ} {w : World σ} {S : FrameId → Prop} {f : FrameId} {name : Text}
  {o p : ObjectId} {n : Nat} {u v : Value} {a : Attributes} {r : Option (Place × Value)}

theorem Heap.Unbound.hasProperty (unbound : w.heap.Unbound name f)
    (hs : w.heap.Scopes S) (hf : S f) (patient : w.heap.objects.size < env.patience) :
    ∀ o, (w.heap.frame f).object = some o → hasProperty env o name w = some (false, w) := by
  intro o object
  obtain ⟨n, lacks⟩ := unbound.absent o object
  exact hasProperty_of_finds patient (hs.plain f o hf object).ordinary lacks

/-- A look-up gives the value of the innermost binding. -/
theorem lookupName_of_resolves (hs : w.heap.Scopes S)
    (patient : w.heap.objects.size < env.patience) (hf : S f)
    (resolves : w.heap.Resolves name f r) : lookupName env f name w = some (r.map (·.2), w) := by
  induction resolves with
  | declared declares => exact lookupName_declared ((hs.distinct _ hf).value?_eq_some.mpr declares)
  | property undeclared object found =>
      have ho := (hs.plain _ _ hf object).ordinary
      rw [lookupName_object (Frame.value?_eq_none undeclared) object,
        hasProperty_of_finds patient ho found, Option.bind_some]
      dsimp only
      rw [Option.isSome_some, if_pos rfl, getOrUndefined_of_finds patient ho found]
      rfl
  | nowhere unbound last =>
      rw [lookupName_outward (Frame.value?_eq_none unbound.undeclared)
        (unbound.hasProperty hs hf patient), Heap.outer?_eq_none last]
      rfl
  | outward unbound outer _ ih =>
      obtain ⟨hg, older⟩ := hs.outer _ _ hf outer
      rw [lookupName_outward (Frame.value?_eq_none unbound.undeclared)
        (unbound.hasProperty hs hf patient), Heap.outer?_eq_some outer older]
      exact ih hg

/-! ### Assignment to a property -/

/-- The first slot decides whether an object refuses. -/
theorem Heap.Finds.not_refuses {h : Heap} (found : h.Finds name n o (some (.data u a)))
    (writable : a.writable = true) (own : n = 0 ∨ (h.object o).extensible = true) :
    ¬h.Refuses o name := by
  rintro ⟨n', u', a', found', refuses⟩
  obtain ⟨rfl, same⟩ := found.unique found'
  cases same
  rcases refuses with readOnly | ⟨inherited, closed⟩
  · rw [writable] at readOnly
    cases readOnly
  · rcases own with rfl | extensible
    · exact Nat.lt_irrefl 0 inherited
    · rw [closed] at extensible
      cases extensible

theorem rebinds_putValue (own : (w.heap.object o).properties.get? name = some (.data u a))
    (writable : a.writable = true) (v : Value) :
    Rebinds w name v (some (.property o, u)) true
      { w with heap := w.heap.putValue o name v } := by
  have live := Heap.lt_size_of_own own
  have table := overwritten_update own v
  rw [← Heap.properties_updateProperties live (fun t => t.update name _)] at table
  refine .accepted ?_ (.of_properties (onlyProperties_update live _) fun k hk => ?_) ⟨a, table.slot⟩
  · rintro p ⟨⟩
    exact Heap.Finds.not_refuses (.own own) writable (.inl rfl)
  · exact table.others k (BEq.symm_false hk)

theorem rebinds_putSlot (own : (w.heap.object o).properties.get? name = none)
    (live : o.index < w.heap.objects.size) (accepts : ¬w.heap.Refuses o name) (v : Value) :
    Rebinds w name v (some (.property o, u)) true
      { w with heap := w.heap.putSlot o name (.data v .default) } := by
  have table := appended_insert own v
  rw [← Heap.properties_updateProperties live (fun t => t.insert name (.data v .default))] at table
  refine .accepted ?_ (.of_properties (onlyProperties_update live _) fun k hk => ?_)
    ⟨.default, table.slot⟩
  · rintro p ⟨⟩
    exact accepts
  · exact table.others k (BEq.symm_false hk)

/-- What is found further up the prototype chain decides. -/
theorem setStored_of_inherits (patient : w.heap.objects.size < env.patience)
    (ho : w.heap.OrdinaryFrom o) (own : (w.heap.object o).properties.get? name = none)
    (link : (w.heap.object o).prototype = some p) {slot : Option Slot}
    (rest : w.heap.Finds name n p slot) :
    setStored env o name v w = assignInherited env o name v slot w := by
  have hn := (Heap.Finds.inherited own link rest).le_size
  refine setStored_inherited ho.self own ?_
  rw [link, inheritedWithin_of_finds rest (ho.prototype link) (by omega)]

/-- Assigning to a property that a plain object has, own or inherited. -/
theorem setProperty_of_finds (patient : w.heap.objects.size < env.patience)
    (ho : w.heap.OrdinaryFrom o) (found : w.heap.Finds name n o (some (.data u a))) (v : Value) :
    ∃ ok w', setProperty env o name v w = some (.ok ok, w') ∧
      Rebinds w name v (some (.property o, u)) ok w' := by
  have hset : setProperty env o name v w = setStored env o name v w := by
    obtain ⟨m, hm⟩ := Nat.exists_eq_add_of_lt patient
    rw [setProperty, hm]
    exact setWithin_ordinary ho.self _
  rw [hset]
  cases hr : a.writable with
  | false =>
      refine ⟨false, w, ?_, .refused ⟨n, u, a, found, .inl hr⟩⟩
      cases found with
      | own own => rw [setStored_data own, hr]; rfl
      | inherited own link rest =>
          rw [setStored_of_inherits patient ho own link rest, assignInherited, if_neg (by simp [hr])]
          rfl
  | true =>
      cases found with
      | own own =>
          refine ⟨true, _, ?_, rebinds_putValue own hr v⟩
          rw [setStored_data own, hr, if_pos rfl]
      | inherited own link rest =>
          have found := Heap.Finds.inherited own link rest
          rw [setStored_of_inherits patient ho own link rest, assignInherited, if_pos hr,
            addProperty_apply]
          cases extensible : (w.heap.object o).extensible with
          | true =>
              exact ⟨true, _, rfl, rebinds_putSlot own (Heap.lt_size_of_prototype link)
                (found.not_refuses hr (.inr extensible)) v⟩
          | false =>
              exact ⟨false, w, rfl,
                .refused ⟨_, u, a, found, .inr ⟨Nat.succ_pos _, extensible⟩⟩⟩

/-- An assignment goes to the innermost binding. -/
theorem assignName_of_resolves (hs : w.heap.Scopes S)
    (patient : w.heap.objects.size < env.patience) (hf : S f)
    (resolves : w.heap.Resolves name f r) (v : Value) :
    ∃ ok w', assignName env f name v w = some (ok, w') ∧ Rebinds w name v r ok w' := by
  induction resolves with
  | @declared f u declares =>
      have hvalue := (hs.distinct _ hf).value?_eq_some.mpr declares
      obtain ⟨i, found, -⟩ := Option.bind_eq_some_iff.mp hvalue
      refine ⟨true, _, assignName_declared found, .accepted ?_ (.of_assign found v) ?_⟩
      · rintro p ⟨⟩
      · rw [Heap.Keeps, Heap.frame_updateFrame_self (Heap.lt_size_of_place found)]
        exact Frame.declares_assign found v
  | property undeclared object found =>
      have ho := (hs.plain _ _ hf object).ordinary
      obtain ⟨ok, w', run, rebinds⟩ := setProperty_of_finds patient ho found v
      refine ⟨ok, w', ?_, rebinds⟩
      rw [assignName_object (Frame.place?_eq_none_iff.mpr undeclared) object,
        hasProperty_of_finds patient ho found, Option.bind_some]
      exact trySet_of_ok run
  | nowhere unbound last =>
      refine ⟨false, w, ?_, .unbound⟩
      rw [assignName_outward (Frame.place?_eq_none_iff.mpr unbound.undeclared)
        (unbound.hasProperty hs hf patient), Heap.outer?_eq_none last]
      rfl
  | outward unbound outer _ ih =>
      obtain ⟨hg, older⟩ := hs.outer _ _ hf outer
      obtain ⟨ok, w', run, rebinds⟩ := ih hg
      refine ⟨ok, w', ?_, rebinds⟩
      rw [assignName_outward (Frame.place?_eq_none_iff.mpr unbound.undeclared)
        (unbound.hasProperty hs hf patient), Heap.outer?_eq_some outer older]
      exact run

/-! ### Names that do not resolve -/

/-- A frame declares a name, has an object with it, does not bind it, or has an object whose chain has
no end. -/
theorem Heap.Scopes.bound_or_unbound {h : Heap} (hs : h.Scopes S) (hf : S f) (name : Text) :
    (∃ b, h.Resolves name f (some b)) ∨ h.Unbound name f ∨
      (∀ v, ¬(h.frame f).Declares name v) ∧
        ∃ o, (h.frame f).object = some o ∧ ¬∃ n r, h.Finds name n o r := by
  by_cases declared : ∃ v, (h.frame f).Declares name v
  · obtain ⟨v, declares⟩ := declared
    exact .inl ⟨_, .declared declares⟩
  · have undeclared := not_exists.mp declared
    cases object : (h.frame f).object with
    | none => exact .inr (.inl ⟨undeclared, by simp [object]⟩)
    | some o =>
        by_cases ends : ∃ n r, h.Finds name n o r
        · obtain ⟨n, r, found⟩ := ends
          rcases found.data (hs.plain f o hf object) with rfl | ⟨v, a, rfl⟩
          · refine .inr (.inl ⟨undeclared, fun p hp => ?_⟩)
            rw [object] at hp
            cases hp
            exact ⟨n, found⟩
          · exact .inl ⟨_, .property undeclared object found⟩
        · exact .inr (.inr ⟨undeclared, o, rfl, ends⟩)

/-- Every name resolves where prototype chains end. -/
theorem Heap.Scopes.exists_resolves {h : Heap} (hs : h.Scopes S)
    (ends : ∀ f o, S f → (h.frame f).object = some o → h.EndsFrom o) (hf : S f) (name : Text) :
    ∃ r, h.Resolves name f r := by
  induction hn : f.index using Nat.strongRecOn generalizing f with
  | ind n ih =>
      subst hn
      rcases hs.bound_or_unbound hf name with ⟨b, resolves⟩ | unbound | ⟨-, o, object, lost⟩
      · exact ⟨_, resolves⟩
      · cases outer : (h.frame f).outer with
        | none => exact ⟨none, .nowhere unbound outer⟩
        | some g =>
            obtain ⟨hg, older⟩ := hs.outer f g hf outer
            obtain ⟨r, rest⟩ := ih g.index older hg rfl
            exact ⟨r, .outward unbound outer rest⟩
      · exact absurd ((ends f o hf object).exists_finds name) lost

/-- A name that does not resolve is looked up and assigned to without end. -/
theorem endless_of_not_resolves (hs : w.heap.Scopes S)
    (patient : w.heap.objects.size < env.patience) (hf : S f)
    (lost : ¬∃ r, w.heap.Resolves name f r) :
    lookupName env f name w = none ∧ ∀ v, assignName env f name v w = none := by
  induction hn : f.index using Nat.strongRecOn generalizing f with
  | ind n ih =>
      subst hn
      rcases hs.bound_or_unbound hf name with
        ⟨b, resolves⟩ | unbound | ⟨undeclared, o, object, endless⟩
      · exact absurd ⟨_, resolves⟩ lost
      · cases outer : (w.heap.frame f).outer with
        | none => exact absurd ⟨none, .nowhere unbound outer⟩ lost
        | some g =>
            obtain ⟨hg, older⟩ := hs.outer f g hf outer
            obtain ⟨looks, assigns⟩ := ih g.index older hg (fun ⟨r, rest⟩ =>
              lost ⟨r, .outward unbound outer rest⟩) rfl
            refine ⟨?_, fun v => ?_⟩
            · rw [lookupName_outward (Frame.value?_eq_none unbound.undeclared)
                (unbound.hasProperty hs hf patient), Heap.outer?_eq_some outer older]
              exact looks
            · rw [assignName_outward (Frame.place?_eq_none_iff.mpr unbound.undeclared)
                (unbound.hasProperty hs hf patient), Heap.outer?_eq_some outer older]
              exact assigns v
      · have run : hasProperty env o name w = none :=
          hasProperty_endless (hs.plain f o hf object).ordinary endless
        refine ⟨?_, fun v => ?_⟩
        · rw [lookupName_object (Frame.value?_eq_none undeclared) object, run, Option.bind_none]
        · rw [assignName_object (Frame.place?_eq_none_iff.mpr undeclared) object, run,
            Option.bind_none]

end Resolution

/-! ### Courses -/

/-- A name is declared in, or assigned to from, one of some frames. -/
inductive ScopeStep (env : Embedding σ) (S : FrameId → Prop) : World σ → World σ → Prop where
  | declare {w f} (inside : S f) (name : Text) (v : Value) :
      ScopeStep env S w { w with heap := (w.heap.declare f name v).2 }
  | assign {w w' f ok} (inside : S f) (name : Text) (v : Value)
      (run : assignName env f name v w = some (ok, w')) : ScopeStep env S w w'

/-- Some frames with the frames around them, before anything is declared in them. -/
structure Heap.FreshScopes (h : Heap) (S : FrameId → Prop) : Prop where
  empty : ∀ f, S f → (h.frame f).bindings = #[]
  plain : ∀ f o, S f → (h.frame f).object = some o → h.PlainFrom o
  outer : ∀ f g, S f → (h.frame f).outer = some g → S g ∧ g.index < f.index

/-- The prototype chains of the objects that act for some frames have ends. -/
def Heap.EndingScopes (h : Heap) (S : FrameId → Prop) : Prop :=
  ∀ f o, S f → (h.frame f).object = some o → h.EndsFrom o

/-- What a course keeps. -/
structure World.Scoped (w w' : World σ) (S : FrameId → Prop) : Prop where
  scopes : w'.heap.Scopes S
  size : w'.heap.objects.size = w.heap.objects.size
  object : ∀ f, (w'.heap.frame f).object = (w.heap.frame f).object
  prototype : ∀ o, (w'.heap.object o).prototype = (w.heap.object o).prototype

section Courses

variable {env : Embedding σ} {S : FrameId → Prop} {w w' : World σ}

theorem Heap.FreshScopes.scopes {h : Heap} (fresh : h.FreshScopes S) : h.Scopes S where
  distinct f hf := Frame.distinct_empty (fresh.empty f hf)
  plain := fresh.plain
  outer := fresh.outer

theorem World.Scoped.endingScopes (kept : w.Scoped w' S) (ends : w.heap.EndingScopes S) :
    w'.heap.EndingScopes S := by
  intro f o inside object
  obtain ⟨p, chain, last⟩ := ends f o inside (kept.object f ▸ object)
  exact ⟨p, chain.of_prototypes fun q => (kept.prototype q).symm, (kept.prototype p).trans last⟩

theorem World.Scoped.of_onlyBinding {place : Place} {name : Text} {v : Value}
    (only : w.OnlyBinding w' place name) (keeps : w'.heap.Keeps name v place)
    (hs : w.heap.Scopes S) : w.Scoped w' S where
  scopes := only.scopes keeps hs
  size := only.size
  object f := (only.frame f).object
  prototype o := by rw [(only.object o).object]

theorem scoped_declare (hs : w.heap.Scopes S) (f : FrameId) (name : Text) (v : Value) :
    w.Scoped { w with heap := (w.heap.declare f name v).2 } S := by
  have frames (g : FrameId) := w.heap.frame_updateFrame_cases (f := f) (g := g)
    fun _ => ((w.heap.frame f).declare name v).2
  have object (g : FrameId) :
      ((w.heap.declare f name v).2.frame g).object = (w.heap.frame g).object := by
    rcases frames g with same | ⟨rfl, changed⟩
    · exact congrArg Frame.object same
    · exact (congrArg Frame.object changed).trans (Frame.declare_object _ name v)
  have outer (g : FrameId) :
      ((w.heap.declare f name v).2.frame g).outer = (w.heap.frame g).outer := by
    rcases frames g with same | ⟨rfl, changed⟩
    · exact congrArg Frame.outer same
    · exact (congrArg Frame.outer changed).trans (Frame.declare_outer _ name v)
  refine ⟨⟨fun g hg => ?_, fun g o hg ho => ?_, fun g k hg hk => ?_⟩, rfl, object, fun o => rfl⟩
  · rcases frames g with same | ⟨rfl, changed⟩
    · exact same ▸ hs.distinct g hg
    · exact changed ▸ (hs.distinct g hg).declare name v
  · exact (hs.plain g o hg (object g ▸ ho)).of_objects rfl
  · exact hs.outer g k hg (outer g ▸ hk)

/-- What a step keeps. -/
theorem ScopeStep.scoped (step : ScopeStep env S w w')
    (patient : w.heap.objects.size < env.patience) (hs : w.heap.Scopes S) : w.Scoped w' S := by
  cases step with
  | declare inside name v => exact scoped_declare hs _ name v
  | @assign _ f _ inside name v run =>
      by_cases ends : ∃ r, w.heap.Resolves name f r
      · obtain ⟨r, resolves⟩ := ends
        obtain ⟨ok, w₁, run₁, rebinds⟩ := assignName_of_resolves hs patient inside resolves v
        rw [run] at run₁
        cases run₁
        cases rebinds with
        | accepted _ only keeps => exact .of_onlyBinding only keeps hs
        | refused | unbound => exact ⟨hs, rfl, fun _ => rfl, fun _ => rfl⟩
      · rw [(endless_of_not_resolves hs patient inside ends).2 v] at run
        cases run

theorem scoped_course (patient : w.heap.objects.size < env.patience)
    (fresh : w.heap.FreshScopes S) (course : Relation.ReflTransGen (ScopeStep env S) w w') :
    w.Scoped w' S := by
  induction course with
  | refl => exact ⟨fresh.scopes, rfl, fun _ => rfl, fun _ => rfl⟩
  | tail _ step first =>
      have second := step.scoped (first.size ▸ patient) first.scopes
      exact ⟨second.scopes, second.size.trans first.size,
        fun f => (second.object f).trans (first.object f),
        fun o => (second.prototype o).trans (first.prototype o)⟩

end Courses

/-! ### Main result -/

/-- In scopes with plain objects, whatever has been declared and assigned, names are distinct, and
looking a name up and assigning to it agree on its innermost binding. An assignment that is accepted
changes this binding only, and one that is refused changes nothing. -/
theorem lookup_and_assign_agree {env : Embedding σ} {S : FrameId → Prop} {w₀ w : World σ}
    (patient : w₀.heap.objects.size < env.patience) (fresh : w₀.heap.FreshScopes S)
    (course : Relation.ReflTransGen (ScopeStep env S) w₀ w) {f : FrameId} (inside : S f)
    (name : Text) :
    (w.heap.frame f).Distinct ∧ (w.heap.frame f).names.size = (w.heap.frame f).values.size ∧
      (∀ r, w.heap.Resolves name f r →
        lookupName env f name w = some (r.map (·.2), w) ∧
          ∀ v, ∃ ok w', assignName env f name v w = some (ok, w') ∧
            (ok = true → lookupName env f name w' = some (some v, w') ∧
              ∃ place u, r = some (place, u) ∧ w.OnlyBinding w' place name) ∧
            (ok = false → w' = w) ∧
            (ok = false ↔ r = none ∨ ∃ o u, r = some (.property o, u) ∧ w.heap.Refuses o name)) ∧
      ((¬∃ r, w.heap.Resolves name f r) →
        lookupName env f name w = none ∧ ∀ v, assignName env f name v w = none) ∧
      (w₀.heap.EndingScopes S → ∃ r, w.heap.Resolves name f r) := by
  have kept := scoped_course patient fresh course
  have hs := kept.scopes
  have patient' : w.heap.objects.size < env.patience := kept.size ▸ patient
  refine ⟨hs.distinct f inside, Frame.size_names _, fun r resolves => ⟨?_, fun v => ?_⟩,
    endless_of_not_resolves hs patient' inside,
    fun ends => hs.exists_resolves (kept.endingScopes ends) inside name⟩
  · exact lookupName_of_resolves hs patient' inside resolves
  · obtain ⟨ok, w', run, rebinds⟩ := assignName_of_resolves hs patient' inside resolves v
    refine ⟨ok, w', run, ?_⟩
    cases rebinds with
    | @accepted place u w' accepts only keeps =>
        refine ⟨fun _ => ⟨?_, place, u, rfl, only⟩, by simp, ⟨by simp, ?_⟩⟩
        · have had := resolves.exists_finds
          exact lookupName_of_resolves (only.scopes keeps hs) (only.size ▸ patient') inside
            (resolves.of_onlyBinding only had keeps)
        · rintro (none | ⟨o, u, property, refuses⟩)
          · cases none
          · cases property
            exact absurd refuses (accepts o rfl)
    | refused refuses =>
        exact ⟨by simp, fun _ => rfl, fun _ => .inr ⟨_, _, rfl, refuses⟩, fun _ => rfl⟩
    | unbound => exact ⟨by simp, fun _ => rfl, fun _ => .inl rfl, fun _ => rfl⟩

/-- A scope whose object inherits a read-only `k`, and one within it. -/
def nestedScopes : World Unit :=
  ⟨{ derivedHeap with frames := #[.new (some ⟨1⟩) none, .new none (some ⟨0⟩)] }, .start, #[], ()⟩

theorem freshScopes_nestedScopes : nestedScopes.heap.FreshScopes (·.index < 2) := by
  have cases {P : FrameId → Prop} (outer : P ⟨0⟩) (inner : P ⟨1⟩) (f : FrameId)
      (hf : f.index < 2) : P f := by
    obtain ⟨i⟩ := f
    match i, hf with
    | 0, _ => exact outer
    | 1, _ => exact inner
  have holder : (nestedScopes.heap.object ⟨0⟩).IsPlain := by
    refine ⟨rfl, fun key slot own => ?_⟩
    rw [show (nestedScopes.heap.object ⟨0⟩).properties =
        PropertyTable.empty.insert (.ofString "k") (.data (.smi 1) .frozen) from rfl,
      PropertyTable.get?_insert, PropertyTable.get?_empty] at own
    split at own
    · cases own
      rfl
    · cases own
  have heir : (nestedScopes.heap.object ⟨1⟩).IsPlain := by
    refine ⟨rfl, fun key slot own => ?_⟩
    rw [show (nestedScopes.heap.object ⟨1⟩).properties = PropertyTable.empty from rfl,
      PropertyTable.get?_empty] at own
    cases own
  refine ⟨cases rfl rfl, fun f o hf => ?_, fun f g hf => ?_⟩
  · refine cases (P := fun f => (nestedScopes.heap.frame f).object = some o → _) ?_ ?_ f hf
    · rintro ⟨⟩ p chain
      cases chain with
      | refl => exact heir
      | step link rest =>
          cases link
          cases rest with
          | refl => exact holder
          | step link => cases link
    · rintro ⟨⟩
  · refine cases (P := fun f => (nestedScopes.heap.frame f).outer = some g →
      g.index < 2 ∧ g.index < f.index) ?_ ?_ f hf
    · rintro ⟨⟩
    · rintro ⟨⟩
      decide

theorem lookup_and_assign_agree_on_inherited :
    let w := { nestedScopes with
      heap := (nestedScopes.heap.declare ⟨1⟩ (.ofString "x") .undefined).2 }
    let env : Embedding Unit := { (default : Embedding Unit) with patience := 8 }
    lookupName env ⟨1⟩ (.ofString "k") w = some (some (.smi 1), w) ∧
      assignName env ⟨1⟩ (.ofString "k") .null w = some (false, w) := by
  intro w env
  have found : w.heap.Finds (.ofString "k") 1 ⟨1⟩ (some (.data (.smi 1) .frozen)) :=
    .inherited (PropertyTable.get?_empty _) rfl (.own (PropertyTable.get?_insert_self _ _ _))
  have inner : w.heap.frame ⟨1⟩ = ⟨#[(.ofString "x", .undefined)], none, some ⟨0⟩⟩ := by
    refine (Heap.frame_updateFrame_self (by decide) _).trans ?_
    simp [Frame.place?, Heap.frame, nestedScopes, Frame.new]
  have resolves : w.heap.Resolves (.ofString "k") ⟨1⟩ (some (.property ⟨1⟩, .smi 1)) := by
    refine .outward (g := ⟨0⟩) ⟨?_, ?_⟩ (by rw [inner]) (.property ?_ rfl found)
    · rw [inner, ← Frame.place?_eq_none_iff, Frame.place?, Array.findIdx?_eq_none_iff]
      decide
    · rw [inner]
      rintro o ⟨⟩
    · rw [← Frame.place?_eq_none_iff]
      exact Array.findIdx?_empty
  have patient : nestedScopes.heap.objects.size < env.patience := by decide
  obtain ⟨-, -, agree, -⟩ := lookup_and_assign_agree patient freshScopes_nestedScopes
    (.single (.declare (f := ⟨1⟩) (by decide) (.ofString "x") .undefined))
    (f := ⟨1⟩) (by decide) (.ofString "k")
  obtain ⟨looks, assigns⟩ := agree _ resolves
  obtain ⟨ok, w', run, -, same, refused⟩ := assigns .null
  have hok : ok = false :=
    refused.mpr (.inr ⟨⟨1⟩, .smi 1, rfl, 1, .smi 1, .frozen, found, .inl rfl⟩)
  rw [hok, same hok] at run
  exact ⟨looks, run⟩

end ScriptCore
