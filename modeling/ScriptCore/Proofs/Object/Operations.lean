import Mathlib.Data.Finset.Card
import ScriptCore.Proofs.Object.Links

/-!
# ScriptCore.Proofs.Object.Operations

Worlds that are **reached** by operations on objects, and the order of their links.

Design points:

* `Operates` has one constructor for each operation and runs the operation itself. What it asks of a
  new object or a new prototype is what no check of the operation sees.
* An operation may run code of the embedding. `Embedding.Orderly` says of that code what is proved of
  the operations: it keeps links in order. An initializer besides has a result that does not lead
  back to its object, and initializers do not go on making new lazy objects for ever.
-/

namespace ScriptCore

variable {σ : Type} {env : Embedding σ} {w w' : World σ} {o : ObjectId}

/-- Links stay in order, and no object is lost. -/
def inOrder : Guarantee σ where
  holds w w' := w.heap.Ordered → w'.heap.Ordered ∧ w.heap.objects.size ≤ w'.heap.objects.size
  refl w ho := ⟨ho, Nat.le_refl _⟩
  trans h₁ h₂ ho := by
    obtain ⟨ho₁, hle₁⟩ := h₁ ho
    obtain ⟨ho₂, hle₂⟩ := h₂ ho₁
    exact ⟨ho₂, Nat.le_trans hle₁ hle₂⟩

/-- The initializer of an object has run: what it made may take the object's place. -/
structure Made (o : ObjectId) (w w' : World σ) (made : Object) : Prop where
  ordered : w'.heap.Ordered
  grows : w.heap.objects.size ≤ w'.heap.objects.size
  live : ∀ p, made.Mentions p → p.index < w'.heap.objects.size
  away : ∀ p, made.LinksTo p → ¬w'.heap.Leads p o

/-- The world while the initializer of an object runs. -/
def World.making (w : World σ) (o : ObjectId) : World σ :=
  { w with heap := w.heap.updatePayload o fun _ => .lazy none }

/-- One world comes from another by making a lazy object. -/
def Embedding.Initializes (env : Embedding σ) (w w' : World σ) : Prop :=
  ∃ o number, w.heap.payload o = .lazy (some number) ∧ materialize env o w = some ((), w')

/-- The code of the embedding keeps links in order, and its initializers return and run out. -/
structure Embedding.Orderly (env : Embedding σ) : Prop where
  natives : ∀ number this args, Exec.Along inOrder (env.callNative number this args).run
  hosts : ∀ number args, Exec.Along inOrder (env.callHost number args).run
  makes : ∀ {w o number}, w.heap.Ordered → w.heap.payload o = .lazy (some number) →
    ∃ made w', env.makeLazy number (w.making o) = some (made, w') ∧ Made o w w' made
  runsOut : ∀ w, w.heap.Ordered → Acc (Function.swap env.Initializes) w

/-! ### Making lazy objects -/

theorem materialize_of_ready (ready : ∀ number, w.heap.payload o ≠ .lazy (some number)) :
    materialize env o w = some ((), w) := by
  rw [materialize, Exec.bind_of_eq (Exec.asks_apply _ _)]
  cases hp : w.heap.payload o with
  | lazy initializer =>
      cases initializer with
      | none => rfl
      | some number => exact absurd hp (ready number)
  | _ => rfl

theorem materialize_of_made {number : Nat} {made : Object}
    (hp : w.heap.payload o = .lazy (some number))
    (hmade : env.makeLazy number (w.making o) = some (made, w')) :
    materialize env o w =
      some ((), { w' with heap := w'.heap.updateObject o fun _ => made }) := by
  rw [materialize, Exec.bind_of_eq (Exec.asks_apply _ _), hp]
  dsimp only
  rw [Exec.bind_of_eq (Exec.modifyHeap_apply _ _), ← World.making, Exec.bind_of_eq hmade,
    Exec.modifyHeap_apply]

/-- Making an object ends. Either nothing was to be done, or an initializer has run. -/
theorem materialize_ends (orderly : env.Orderly) (ho : w.heap.Ordered) (o : ObjectId) :
    ∃ w', materialize env o w = some ((), w') ∧ w'.heap.Ordered ∧
      w.heap.objects.size ≤ w'.heap.objects.size ∧ (w' = w ∨ env.Initializes w w') := by
  by_cases lazy : ∃ number, w.heap.payload o = .lazy (some number)
  · obtain ⟨number, hp⟩ := lazy
    obtain ⟨made, w₁, hmade, h⟩ := orderly.makes ho hp
    have run := materialize_of_made hp hmade
    refine ⟨_, run, h.ordered.updateObject o h.live h.away, ?_, .inr ⟨o, number, hp, run⟩⟩
    rw [Heap.size_updateObject]
    exact h.grows
  · exact ⟨w, materialize_of_ready fun number hp => lazy ⟨number, hp⟩, ho, Nat.le_refl _, .inl rfl⟩

/-! ### Initializers that run out -/

/-- The places of the objects whose initializers have not run. -/
noncomputable def Heap.pending (h : Heap) : Finset Nat := by
  classical
  exact (Finset.range h.objects.size).filter fun i => ∃ number, h.payload ⟨i⟩ = .lazy (some number)

theorem Heap.mem_pending {h : Heap} {i : Nat} :
    i ∈ h.pending ↔ i < h.objects.size ∧ ∃ number, h.payload ⟨i⟩ = .lazy (some number) := by
  simp [pending]

theorem Heap.lt_size_of_lazy {h : Heap} {number : Nat} (hp : h.payload o = .lazy (some number)) :
    o.index < h.objects.size :=
  lt_size_of_payload (by simp [hp])

/-- An initializer that only gives its object leaves one fewer to run. -/
theorem pending_lt_of_quiet (quiet : ∀ number, ∃ made : Object, (∀ k, made.payload ≠ .lazy k) ∧
    env.makeLazy number = pure made) (makes : env.Initializes w w') :
    w'.heap.pending.card < w.heap.pending.card := by
  obtain ⟨o, number, hp, run⟩ := makes
  obtain ⟨made, hmade, hrun⟩ := quiet number
  have live := Heap.lt_size_of_lazy hp
  rw [materialize_of_made hp (by rw [hrun, Exec.pure_apply])] at run
  cases run
  have hself : (((w.making o).heap.updateObject o fun _ => made).object o) = made :=
    Heap.object_updateObject_self (by simpa [World.making, Heap.updatePayload] using live) _
  refine Finset.card_lt_card ⟨fun i hi => ?_, fun sub => ?_⟩
  · rw [Heap.mem_pending] at hi ⊢
    obtain ⟨hlt, k, hk⟩ := hi
    have hne : (⟨i⟩ : ObjectId) ≠ o := by
      rintro rfl
      rw [Heap.payload, hself] at hk
      exact hmade _ hk
    rw [Heap.payload, Heap.object_updateObject_of_ne hne, World.making, Heap.updatePayload,
      Heap.object_updateObject_of_ne hne] at hk
    exact ⟨by simpa [World.making, Heap.updatePayload] using hlt, k, hk⟩
  · have hmem := sub (Heap.mem_pending.mpr ⟨live, number, hp⟩)
    obtain ⟨-, k, hk⟩ := Heap.mem_pending.mp hmem
    rw [Heap.payload, hself] at hk
    exact hmade _ hk

theorem runsOut_of_quiet (quiet : ∀ number, ∃ made : Object, (∀ k, made.payload ≠ .lazy k) ∧
    env.makeLazy number = pure made) (w : World σ) : Acc (Function.swap env.Initializes) w :=
  Subrelation.accessible (fun makes => pending_lt_of_quiet quiet makes)
    ((measure fun w : World σ => w.heap.pending.card).wf.apply w)

/-! ### The guarantee -/

/-- Wrapping makes at most one object. It has no properties, is not lazy, and mentions no more than the
prototypes. -/
theorem Heap.wrap_new (h : Heap) (prototypes : HostPrototypes) (v : HostValue) :
    (h.wrap prototypes v).2 = h ∨ ∃ payload prototype,
      (h.wrap prototypes v).2 = (h.addObject (.new payload prototype)).2 ∧
      (∀ initializer, payload ≠ .lazy initializer) ∧
      ∀ p, (Object.new payload prototype).Mentions p → prototypes.Has p := by
  have mentions : ∀ payload (prototype : Option ObjectId),
      (∀ target handler, payload ≠ .proxy target handler) →
      (∀ p, payload.hostPrototypes.Has p → prototypes.Has p) →
      (∀ p, prototype = some p → prototypes.Has p) →
      ∀ p, (Object.new payload prototype).Mentions p → prototypes.Has p := by
    intro payload prototype hproxy held hprototype p hp
    rcases hp with (link | link) | found
    · exact hprototype p link
    · exact absurd link (hproxy _ _)
    · exact held p found
  have none : ∀ p, HostPrototypes.none.Has p → prototypes.Has p :=
    fun p found => absurd found (HostPrototypes.not_has_none p)
  cases v with
  | map m => exact .inr ⟨_, _, rfl, by simp, mentions _ _ (by simp) (fun _ => id) fun _ => .object⟩
  | slice s => exact .inr ⟨_, _, rfl, by simp, mentions _ _ (by simp) (fun _ => id) fun _ => .array⟩
  | function f =>
      exact .inr ⟨_, _, rfl, by simp, mentions _ _ (by simp) (fun _ => id) fun _ => .function⟩
  | error message => exact .inr ⟨_, _, rfl, by simp, mentions _ _ (by simp) none fun _ => .object⟩
  | foreign d => exact .inr ⟨_, _, rfl, by simp, mentions _ _ (by simp) none fun _ => .object⟩
  | _ => exact .inl rfl

theorem Heap.wrap_cases (h : Heap) (prototypes : HostPrototypes) (v : HostValue) :
    (h.wrap prototypes v).2 = h ∨ ∃ obj, (h.wrap prototypes v).2 = (h.addObject obj).2 ∧
      ∀ p, obj.Mentions p → prototypes.Has p :=
  (h.wrap_new prototypes v).imp_right fun ⟨_, _, added, _, mentions⟩ => ⟨_, added, mentions⟩

theorem inOrder_updateObject {f : Object → Object}
    (links : ∀ p, (f (w.heap.object o)).LinksTo p → w.heap.Links o p)
    (prototypes : ∀ p, (f (w.heap.object o)).payload.hostPrototypes.Has p →
      (w.heap.object o).payload.hostPrototypes.Has p) :
    inOrder.holds w { w with heap := w.heap.updateObject o f } := by
  intro ho
  refine ⟨ho.updateObject_of_fewer o links prototypes, ?_⟩
  rw [Heap.size_updateObject]

theorem inOrder_updatePayload {f : Payload → Payload}
    (target : ∀ p handler, f (w.heap.payload o) = .proxy (some p) handler →
      w.heap.payload o = .proxy (some p) handler)
    (prototypes : ∀ p, (f (w.heap.payload o)).hostPrototypes.Has p →
      (w.heap.payload o).hostPrototypes.Has p) :
    inOrder.holds w { w with heap := w.heap.updatePayload o f } := by
  refine inOrder_updateObject (fun p link => ?_) prototypes
  cases link with
  | prototype link => exact .prototype link
  | target link => exact .target (target p _ link)

namespace Embedding.Orderly

variable (orderly : env.Orderly)

include orderly

theorem guarantees : env.Guarantees inOrder where
  makes o w _ w' run ho := by
    obtain ⟨w₁, run₁, ho₁, hle, -⟩ := materialize_ends orderly ho o
    rw [run₁] at run
    cases run
    exact ⟨ho₁, hle⟩
  natives := orderly.natives
  hosts := orderly.hosts
  wraps {w₀ w prototypes} held hw v ho₀ := by
    obtain ⟨ho, hle⟩ := hw ho₀
    obtain ⟨o, hpayload⟩ := held
    rcases w.heap.wrap_cases prototypes v with same | ⟨obj, added, mentions⟩
    · dsimp only
      rw [same]
      exact ⟨ho, hle⟩
    · rw [added, Heap.size_addObject]
      refine ⟨ho.addObject fun p hp => ?_, Nat.le_succ_of_le hle⟩
      have found : p.index < w₀.heap.objects.size :=
        ho₀.live o p (.inr (hpayload ▸ mentions p hp))
      exact Nat.lt_of_lt_of_le found hle

theorem writeGuarantees : env.WriteGuarantees inOrder where
  toGuarantees := orderly.guarantees
  properties w o f := inOrder_updateObject (fun p => .of_eq rfl rfl) fun p => id
  elements w o f := by
    refine inOrder_updatePayload (fun p handler link => ?_) fun p held => ?_
    · split at link
      · cases link
      · exact link
    · split at held
      · exact absurd held (HostPrototypes.not_has_none p)
      · exact held
  hostMaps w m f ho := ⟨ho.of_objects rfl, Nat.le_refl _⟩
  hostSlices w s f ho := ⟨ho.of_objects rfl, Nat.le_refl _⟩

end Embedding.Orderly

/-! ### Operations -/

theorem inOrder_revoke (w : World σ) (o : ObjectId) :
    inOrder.holds w { w with heap := w.heap.revoke o } := by
  refine inOrder_updatePayload (fun p handler link => ?_) fun p held => ?_
  · split at link
    · cases link
    · exact link
  · split at held
    · exact absurd held (HostPrototypes.not_has_none p)
    · exact held

theorem along_preventExtensions (orderly : env.Orderly) (o : ObjectId) :
    Exec.Along inOrder (preventExtensions env o) := by
  refine .bind (orderly.guarantees.makes o) fun _ => .modifyHeap fun w => ?_
  exact inOrder_updateObject (fun p => .of_eq rfl rfl) fun p => id

/-- What the check of a new prototype does not see: no proxy on its chain leads to the object. -/
def Heap.ClearOf (h : Heap) (o : ObjectId) (prototype : Option ObjectId) : Prop :=
  ∀ p, prototype = some p → ∀ r target handler, h.Inherits p r →
    h.payload r = .proxy (some target) handler → ¬h.Leads target o

/-- The world with another prototype of an object. -/
def World.relinked (w : World σ) (o : ObjectId) (prototype : Option ObjectId) : World σ :=
  { w with heap := w.heap.updateObject o fun obj => { obj with prototype } }

/-- Once the object has been made, the check decides. -/
theorem setPrototype_of_made {w₁ : World σ} (made : materialize env o w = some ((), w₁))
    (prototype : Option ObjectId) :
    setPrototype env o prototype w =
      if (w₁.heap.object o).extensible then
        (w₁.heap.chainHas? o (w₁.heap.objects.size + 1) prototype).map fun found =>
          (!found, if found then w₁ else w₁.relinked o prototype)
      else some (false, w₁) := by
  rw [setPrototype, Exec.bind_of_eq made, Exec.bind_of_eq (Exec.asks_apply _ _)]
  cases (w₁.heap.object o).extensible with
  | false => rfl
  | true =>
      rw [if_pos rfl, Bool.not_true, if_neg Bool.false_ne_true, Exec.bind_of_eq (Exec.asks_apply _ _)]
      cases w₁.heap.chainHas? o (w₁.heap.objects.size + 1) prototype with
      | none => rfl
      | some found => cases found <;> rfl

theorem setPrototype_inv {prototype : Option ObjectId} {b : Bool}
    (run : setPrototype env o prototype w = some (b, w')) :
    ∃ w₁, materialize env o w = some ((), w₁) ∧ (w' = w₁ ∨
      w₁.heap.chainHas? o (w₁.heap.objects.size + 1) prototype = some false ∧
        w' = w₁.relinked o prototype) := by
  obtain ⟨⟨⟩, w₁, made, -⟩ := Exec.bind_inv run
  refine ⟨w₁, made, ?_⟩
  rw [setPrototype_of_made made] at run
  split at run
  · obtain ⟨found, checked, same⟩ := Option.map_eq_some_iff.mp run
    cases found with
    | true =>
        cases same
        exact .inl rfl
    | false =>
        cases same
        exact .inr ⟨checked, rfl⟩
  · cases run
    exact .inl rfl

theorem inOrder_setPrototype (orderly : env.Orderly) {prototype : Option ObjectId} {b : Bool}
    (live : ∀ p, prototype = some p → p.index < w.heap.objects.size)
    (clear : ∀ w₁, materialize env o w = some ((), w₁) → w₁.heap.ClearOf o prototype)
    (run : setPrototype env o prototype w = some (b, w')) : inOrder.holds w w' := by
  intro ho
  obtain ⟨w₁, made, result⟩ := setPrototype_inv run
  obtain ⟨ho₁, hle⟩ := orderly.guarantees.makes o made ho
  rcases result with rfl | ⟨accepted, rfl⟩
  · exact ⟨ho₁, hle⟩
  · have live₁ : ∀ p, prototype = some p → p.index < w₁.heap.objects.size :=
      fun p hp => Nat.lt_of_lt_of_le (live p hp) hle
    refine ⟨ho₁.setPrototype live₁ (clear w₁ made) accepted, ?_⟩
    rw [World.relinked, Heap.size_updateObject]
    exact hle

/-- One operation leads from a world to another. -/
inductive Operates (env : Embedding σ) : World σ → World σ → Prop where
  /-- Any constructor, also of proxies and lazy objects: it refers to what is there already. -/
  | create {w : World σ} (obj : Object)
      (live : ∀ p, obj.Mentions p → p.index < w.heap.objects.size) :
      Operates env w { w with heap := (w.heap.addObject obj).2 }
  | materialize {w w' : World σ} {o : ObjectId} (run : materialize env o w = some ((), w')) :
      Operates env w w'
  | has {w w' : World σ} {o : ObjectId} {key : Text} {found : Bool}
      (run : hasProperty env o key w = some (found, w')) : Operates env w w'
  | get {w w' : World σ} {o : ObjectId} {key : Text} {r : Except Thrown Value}
      (run : getProperty env o key w = some (r, w')) : Operates env w w'
  | set {w w' : World σ} {o : ObjectId} {key : Text} {v : Value} {r : Except Thrown Bool}
      (run : setProperty env o key v w = some (r, w')) : Operates env w w'
  | define {w w' : World σ} {o : ObjectId} {key : Text} {slot : Slot}
      (run : defineProperty env o key slot w = some ((), w')) : Operates env w w'
  | delete {w w' : World σ} {o : ObjectId} {key : Text} {b : Bool}
      (run : deleteProperty env o key w = some (b, w')) : Operates env w w'
  | setPrototype {w w' : World σ} {o : ObjectId} {prototype : Option ObjectId} {b : Bool}
      (live : ∀ p, prototype = some p → p.index < w.heap.objects.size)
      (clear : ∀ w₁ : World σ, materialize env o w = some ((), w₁) → w₁.heap.ClearOf o prototype)
      (run : setPrototype env o prototype w = some (b, w')) : Operates env w w'
  | preventExtensions {w w' : World σ} {o : ObjectId}
      (run : preventExtensions env o w = some ((), w')) : Operates env w w'
  | revoke {w : World σ} (o : ObjectId) :
      Operates env w { w with heap := w.heap.revoke o }

/-- Operations have led from an empty heap to the world. -/
inductive Reached (env : Embedding σ) : World σ → Prop where
  | start {w : World σ} (empty : w.heap = .empty) : Reached env w
  | step {w w' : World σ} (before : Reached env w) (op : Operates env w w') : Reached env w'

/-- One operation keeps links in order. -/
theorem Operates.inOrder (orderly : env.Orderly) (op : Operates env w w') :
    inOrder.holds w w' := by
  cases op with
  | create obj live =>
      intro ho
      refine ⟨ho.addObject live, ?_⟩
      rw [Heap.size_addObject]
      exact Nat.le_succ _
  | materialize run => exact orderly.guarantees.makes _ run
  | has run => exact orderly.guarantees.hasProperty _ _ run
  | get run => exact orderly.guarantees.getProperty _ _ run
  | set run => exact orderly.writeGuarantees.setProperty _ _ _ run
  | define run => exact orderly.writeGuarantees.defineProperty _ _ _ run
  | delete run => exact orderly.writeGuarantees.deleteProperty _ _ run
  | setPrototype live clear run => exact inOrder_setPrototype orderly live clear run
  | preventExtensions run => exact along_preventExtensions orderly _ run
  | revoke o => exact inOrder_revoke _ o

/-- Every run of operations does. -/
theorem Reached.ordered (orderly : env.Orderly) (reached : Reached env w) : w.heap.Ordered := by
  induction reached with
  | start empty => exact empty ▸ Heap.ordered_empty
  | step _ op ih => exact (op.inOrder orderly ih).1

end ScriptCore
