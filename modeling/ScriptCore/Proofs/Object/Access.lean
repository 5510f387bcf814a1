import ScriptCore.Proofs.Object.Operations
import ScriptCore.Proofs.Object.Search

/-!
# ScriptCore.Proofs.Object.Access

**Accessing a lazy object**: whether it is made before or by the access makes no difference, with one
exception.

Design points:

* Every operation on properties is an `Access`, with a result of its own type. One statement about
  all of them follows from few: an operation that begins by making the object is settled by the
  object staying made, and the two look-ups share their search.
* A look-up tells a proxy from other objects before it makes the object. Of an object that turns out
  to be a proxy it therefore sees nothing (`proxy_unseen_by_first_access`), where a later look-up,
  or an assignment, goes on to the target.
-/

namespace ScriptCore

variable {σ α β : Type}

/-- An operation on the properties of an object. -/
inductive Access where
  /-- Reads a property. -/
  | get (key : Text)
  /-- Asks for a property. -/
  | has (key : Text)
  /-- Assigns a property. -/
  | set (key : Text) (v : Value)
  /-- Looks up an own property. -/
  | own (key : Text)
  /-- Lists the own properties. -/
  | names
  /-- Deletes an own property. -/
  | delete (key : Text)
  /-- Reads the prototype. -/
  | prototype
  /-- Replaces the prototype. -/
  | setPrototype (p : Option ObjectId)
  /-- Appends to an array. -/
  | push (v : Value)
  /-- Converts to a primitive. -/
  | primitive (hint : Hint)

namespace Access

/-- The type of what an access gives. -/
abbrev Result : Access → Type
  | get _ => Except Thrown Value
  | has _ | delete _ | setPrototype _ => Bool
  | set .. => Except Thrown Bool
  | own _ => Option Slot
  | names => List Text
  | prototype => Option ObjectId
  | push _ => Option Nat
  | primitive _ => Value

/-- Performs an access. -/
def run (env : Embedding σ) (o : ObjectId) : (a : Access) → Exec σ a.Result
  | get key => (getProperty env o key).run
  | has key => hasProperty env o key
  | set key v => (setProperty env o key v).run
  | own key => ownProperty env o key
  | names => ownPropertyNames env o
  | delete key => deleteProperty env o key
  | prototype => prototypeOf env o
  | setPrototype p => ScriptCore.setPrototype env o p
  | push v => pushElement env o v
  | primitive hint => toPrimitive env o hint

/-- The access looks along the prototypes of the object. -/
def looksUp : Access → Bool
  | get _ | has _ => true
  | _ => false

/-- What an initializer may make for an access: anything but another lazy object, and for a look-up
no proxy. -/
def Suits (a : Access) (made : Object) : Prop :=
  made.isInitialized = true ∧ (a.looksUp = true → made.toClass ≠ .proxy)

end Access

/-- What the initializer of an object makes, if the object is lazy and its initializer ends. -/
def Embedding.Makes (env : Embedding σ) (w : World σ) (o : ObjectId) (good : Object → Prop) : Prop :=
  ∀ number made w₁, w.heap.payload o = .lazy (some number) →
    env.makeLazy number (w.making o) = some (made, w₁) → good made

/-! ### Making an object once -/

section Materialize

variable {env : Embedding σ} {w w' : World σ} {o : ObjectId}

/-- What has become of an object once it has been made. -/
theorem materialize_inv (run : materialize env o w = some ((), w')) :
    (w' = w ∧ ∀ number, w.heap.payload o ≠ .lazy (some number)) ∨
      ∃ number made w₁, w.heap.payload o = .lazy (some number) ∧
        env.makeLazy number (w.making o) = some (made, w₁) ∧
        w' = { w₁ with heap := w₁.heap.updateObject o fun _ => made } := by
  by_cases lazy : ∃ number, w.heap.payload o = .lazy (some number)
  · obtain ⟨number, hp⟩ := lazy
    cases hmade : env.makeLazy number (w.making o) with
    | none =>
        rw [materialize, Exec.bind_of_eq (Exec.asks_apply _ _), hp] at run
        dsimp only at run
        rw [Exec.bind_of_eq (Exec.modifyHeap_apply _ _), ← World.making, Exec.bind_eq, hmade] at run
        cases run
    | some p =>
        obtain ⟨made, w₁⟩ := p
        cases (materialize_of_made hp hmade).symm.trans run
        exact .inr ⟨number, made, w₁, hp, hmade, rfl⟩
  · have ready : ∀ number, w.heap.payload o ≠ .lazy (some number) := fun number hp => lazy ⟨number, hp⟩
    cases (materialize_of_ready ready).symm.trans run
    exact .inl ⟨rfl, ready⟩

/-- What is true of the empty object and of all that the initializer makes is true of the object once
it has been made. -/
theorem object_of_materialize {good : Object → Prop} (makes : env.Makes w o good)
    (lazy : ∃ number, w.heap.payload o = .lazy (some number)) (empty : good default)
    (run : materialize env o w = some ((), w')) : good (w'.heap.object o) := by
  rcases materialize_inv run with ⟨-, ready⟩ | ⟨number, made, w₁, hp, hmade, rfl⟩
  · obtain ⟨number, hp⟩ := lazy
    exact absurd hp (ready number)
  · rcases Nat.lt_or_ge o.index w₁.heap.objects.size with live | gone
    · rw [Heap.object_updateObject_self live]
      exact makes number made w₁ hp hmade
    · rw [Heap.object_updateObject_of_le gone, Heap.object_of_le gone]
      exact empty

/-- A guarantee about one object that is not lazy is kept when others are made. -/
theorem along_materialize_of_others {R : Guarantee σ}
    (makes : ∀ number, Exec.Along R (env.makeLazy number))
    (others : ∀ w p f, p ≠ o → R.holds w { w with heap := w.heap.updateObject p f })
    (ready : ∀ {w w' number}, w.heap.payload o = .lazy (some number) → R.holds w w')
    (p : ObjectId) : Exec.Along R (materialize env p) := by
  intro w r w' run
  rcases materialize_inv run with ⟨rfl, -⟩ | ⟨number, made, w₁, waiting, hmade, rfl⟩
  · exact R.refl _
  · by_cases heq : p = o
    · exact ready (heq ▸ waiting)
    · have before : R.holds w (w.making p) := others w p _ heq
      exact R.trans (R.trans before (makes number hmade)) (others w₁ p _ heq)

/-- An object that has been made stays made. -/
theorem materialize_again (makes : env.Makes w o (·.isInitialized = true))
    (run : materialize env o w = some ((), w')) : materialize env o w' = some ((), w') := by
  by_cases lazy : ∃ number, w.heap.payload o = .lazy (some number)
  · refine materialize_of_ready fun number hp => ?_
    have made := object_of_materialize makes lazy rfl run
    rw [Object.isInitialized, show (w'.heap.object o).payload = _ from hp] at made
    cases made
  · have ready : ∀ number, w.heap.payload o ≠ .lazy (some number) := fun number hp => lazy ⟨number, hp⟩
    cases (materialize_of_ready ready).symm.trans run
    exact run

end Materialize

/-! ### Operations that make the object first -/

section First

variable {env : Embedding σ} {w : World σ} {o : ObjectId}

/-- A run gives the same if the object is made before it. -/
def MadeFirst (env : Embedding σ) (w : World σ) (o : ObjectId) (x : Exec σ α) : Prop :=
  x w = (materialize env o >>= fun _ => x) w

theorem madeFirst_of_ready (ready : ∀ number, w.heap.payload o ≠ .lazy (some number))
    (x : Exec σ α) : MadeFirst env w o x := by
  rw [MadeFirst, Exec.bind_of_eq (materialize_of_ready ready)]

theorem madeFirst_bind (makes : env.Makes w o (·.isInitialized = true)) (f : Unit → Exec σ α) :
    MadeFirst env w o (materialize env o >>= f) := by
  rw [MadeFirst, Exec.bind_eq, Exec.bind_eq]
  refine Option.bind_congr fun p run => ?_
  rw [Exec.bind_of_eq (materialize_again makes run)]

theorem madeFirst_lift_bind (makes : env.Makes w o (·.isInitialized = true))
    (f : Unit → Throws σ α) :
    MadeFirst env w o (liftM (materialize env o) >>= f : Throws σ α).run := by
  have same : (liftM (materialize env o) >>= f : Throws σ α).run =
      materialize env o >>= fun made => (f made).run :=
    funext fun w => Throws.lift_bind_eq (materialize env o) f w
  rw [same]
  exact madeFirst_bind makes _

/-- What is made of the result makes no difference. -/
theorem MadeFirst.bind {x : Exec σ α} (first : MadeFirst env w o x) (f : α → Exec σ β) :
    MadeFirst env w o (x >>= f) := by
  rw [MadeFirst, Exec.bind_eq, first, Exec.bind_eq, Exec.bind_eq, Option.bind_assoc]
  rfl

theorem madeFirst_endless : MadeFirst env w o (Exec.endless : Exec σ α) := by
  rw [MadeFirst, Exec.bind_eq]
  cases materialize env o w <;> rfl

/-- A search, too, if the object does not turn out to be a proxy. -/
theorem madeFirst_search (makes : env.Makes w o fun made =>
      made.isInitialized = true ∧ made.toClass ≠ .proxy) (key : Text) (n : Nat) :
    MadeFirst env w o (searchWithin env key n o) := by
  by_cases lazy : ∃ number, w.heap.payload o = .lazy (some number)
  · cases n with
    | zero => exact madeFirst_endless
    | succ n =>
        obtain ⟨number, hp⟩ := lazy
        have initialized : env.Makes w o (·.isInitialized = true) :=
          fun number made w₁ hp hmade => (makes number made w₁ hp hmade).1
        rw [MadeFirst, searchWithin_step (by simp [hp]), Exec.bind_eq, ownProperty, Exec.bind_eq,
          Option.bind_assoc]
        refine Option.bind_congr fun p run => ?_
        have made := object_of_materialize makes ⟨number, hp⟩ ⟨rfl, by decide⟩ run
        have noProxy : ∀ target handler, p.2.heap.payload o ≠ .proxy target handler := by
          intro target handler proxy
          exact made.2 (by rw [Object.toClass, show (p.2.heap.object o).payload = _ from proxy]; rfl)
        rw [searchWithin_step noProxy, ownProperty,
          Exec.bind_of_eq (materialize_again initialized run)]
  · exact madeFirst_of_ready (fun number hp => lazy ⟨number, hp⟩) _

theorem get_run_eq_search (key : Text) : (Access.get key).run env o =
    searchWithin env key env.patience o >>= fun r => (r.read env o).run := by
  funext w
  exact getWithin_eq_search o env.patience o w

theorem has_run_eq_search (key : Text) : (Access.has key).run env o =
    searchWithin env key env.patience o >>= fun r => pure r.isPresent := by
  funext w
  rw [Access.run, hasProperty, hasWithin_eq_search, Option.map_eq_bind]
  rfl

variable (env o) in
theorem primitive_eq_materialize (text : ObjectId → Exec σ Text) (depth : Nat) (hint : Hint) :
    ∃ f, toPrimitiveWithin env text depth o hint = materialize env o >>= f := by
  cases depth with
  | zero => exact ⟨_, rfl⟩
  | succ depth => exact ⟨_, rfl⟩

/-- Any access gives the same if the object is made before it. -/
theorem Access.madeFirst (a : Access) (makes : env.Makes w o a.Suits) :
    MadeFirst env w o (a.run env o) := by
  have initialized : env.Makes w o (·.isInitialized = true) :=
    fun number made w₁ hp hmade => (makes number made w₁ hp hmade).1
  cases a with
  | get key =>
      rw [get_run_eq_search]
      refine (madeFirst_search (fun number made w₁ hp hmade => ?_) key _).bind _
      exact (makes number made w₁ hp hmade).imp_right fun noProxy => noProxy rfl
  | has key =>
      rw [has_run_eq_search]
      refine (madeFirst_search (fun number made w₁ hp hmade => ?_) key _).bind _
      exact (makes number made w₁ hp hmade).imp_right fun noProxy => noProxy rfl
  | set key v =>
      rw [Access.run, setProperty]
      cases env.patience with
      | zero => exact madeFirst_endless
      | succ n => exact madeFirst_lift_bind initialized _
  | primitive hint =>
      obtain ⟨f, same⟩ := primitive_eq_materialize env o (textWithin env env.patience)
        formDepth hint
      rw [Access.run, toPrimitive, same]
      exact madeFirst_bind initialized f
  | own key | names | delete key | prototype | setPrototype p | push v =>
      exact madeFirst_bind initialized _

/-- What an initializer makes takes the place of its object, and nothing else is touched. -/
theorem materialize_in_place {w₁ : World σ} {number : Nat} {made : Object}
    (hp : w.heap.payload o = .lazy (some number))
    (hmade : env.makeLazy number (w.making o) = some (made, w₁))
    (live : o.index < w₁.heap.objects.size) :
    ∃ w', materialize env o w = some ((), w') ∧ w'.heap.object o = made ∧
      (∀ p, p ≠ o → w'.heap.object p = w₁.heap.object p) ∧
      w'.heap.objects.size = w₁.heap.objects.size := by
  refine ⟨_, materialize_of_made hp hmade, ?_, ?_, ?_⟩
  · exact Heap.object_updateObject_self live _
  · intro p hne
    exact Heap.object_updateObject_of_ne hne _
  · exact Heap.size_updateObject _ _ _

end First

/-! ### What accesses keep -/

section Along

variable {env : Embedding σ} {R : Guarantee σ}

/-- Replacing a prototype keeps what the replacement itself keeps. -/
theorem along_setPrototype (h : env.Guarantees R)
    (links : ∀ w o prototype, R.holds w { w with heap := w.heap.updateObject o fun obj =>
      { obj with prototype } }) (p : ObjectId) (prototype : Option ObjectId) :
    Exec.Along R (setPrototype env p prototype) := by
  refine (h.makes p).bind fun _ => .bind (.asks _) fun extensible => ?_
  split
  · exact .pure _
  · refine .bind (.asks _) fun found => ?_
    cases found with
    | none => exact .endless
    | some found =>
        cases found with
        | true => exact .pure _
        | false => exact .bind (.modifyHeap fun w => links w p prototype) fun _ => .pure _

/-- Any access keeps what the changes of properties keep, if replacing a prototype does. -/
theorem Access.along (h : env.EditGuarantees R) (p : ObjectId) (a : Access)
    (links : ∀ prototype, a = .setPrototype prototype →
      Exec.Along R (ScriptCore.setPrototype env p prototype)) : Exec.Along R (a.run env p) := by
  cases a with
  | get key => exact h.getProperty p key
  | has key => exact h.hasProperty p key
  | set key v => exact h.setProperty p key v
  | own key => exact h.ownProperty p key
  | names => exact (h.makes p).bind fun _ => .asks _
  | delete key => exact h.deleteProperty p key
  | prototype => exact h.prototypeOf p
  | primitive hint => exact h.toPrimitive p hint
  | push v => exact h.pushElement p v
  | setPrototype q => exact links q rfl

end Along

/-! ### A lazy proxy -/

/-- A plain object with a property `a`, a handler, and a third object. -/
def proxyWorld (third : Object) : World Unit :=
  ⟨{ Heap.empty with
    objects := #[(Object.new .plain none).withProperty "a" (.smi 1), .new .plain none, third] },
    .start, #[], ()⟩

/-- A proxy of the plain object. -/
def proxyOfPlain : Object := .new (.proxy (some ⟨0⟩) (some ⟨1⟩)) none

/-- Its initializer makes a lazy object that proxy. -/
def proxyMaker : Embedding Unit :=
  { (default : Embedding Unit) with patience := 4, makeLazy := fun _ => pure proxyOfPlain }

theorem proxyMaker_makes : materialize proxyMaker ⟨2⟩ (proxyWorld (.new (.lazy (some 0)) none)) =
    some ((), proxyWorld proxyOfPlain) := rfl

theorem search_lazy_proxy : searchWithin proxyMaker (.ofString "a") 4 ⟨2⟩
    (proxyWorld (.new (.lazy (some 0)) none)) = some (.found none, proxyWorld proxyOfPlain) := by
  have own : ownProperty proxyMaker ⟨2⟩ (.ofString "a") (proxyWorld (.new (.lazy (some 0)) none)) =
      some (none, proxyWorld proxyOfPlain) := by
    rw [ownProperty, Exec.bind_of_eq proxyMaker_makes, Exec.onHeap_apply]
    exact congrArg (fun slot => some (slot, proxyWorld proxyOfPlain)) (PropertyTable.get?_empty _)
  have noProxy (target handler : Option ObjectId) :
      (proxyWorld (.new (.lazy (some 0)) none)).heap.payload ⟨2⟩ ≠ .proxy target handler := by
    intro proxy
    cases proxy
  rw [searchWithin_step noProxy, own]
  rfl

theorem search_made_proxy : searchWithin proxyMaker (.ofString "a") 4 ⟨2⟩ (proxyWorld proxyOfPlain) =
    some (.found (some (.data (.smi 1) .default)), proxyWorld proxyOfPlain) := by
  have own : ownProperty proxyMaker ⟨0⟩ (.ofString "a") (proxyWorld proxyOfPlain) =
      some (some (.data (.smi 1) .default), proxyWorld proxyOfPlain) := by
    rw [ownProperty_ordinary rfl]
    exact congrArg (fun slot => some (slot, proxyWorld proxyOfPlain))
      (PropertyTable.get?_insert_self _ _ _)
  have noProxy (target handler : Option ObjectId) :
      (proxyWorld proxyOfPlain).heap.payload ⟨0⟩ ≠ .proxy target handler := by
    intro proxy
    cases proxy
  rw [searchWithin_proxy rfl, searchWithin_step noProxy, own]
  rfl

/-- The first look-up on a lazy object that turns out to be a proxy finds nothing. Had the object been
made before, the look-up would have gone on to the target and found its property. -/
theorem proxy_unseen_by_first_access :
    let w := proxyWorld (.new (.lazy (some 0)) none)
    let w' := proxyWorld proxyOfPlain
    let make := materialize proxyMaker ⟨2⟩
    let get := (Access.get (.ofString "a")).run proxyMaker ⟨2⟩
    let has := (Access.has (.ofString "a")).run proxyMaker ⟨2⟩
    (get w = some (.ok .undefined, w') ∧ (make >>= fun _ => get) w = some (.ok (.smi 1), w')) ∧
      (has w = some (false, w') ∧ (make >>= fun _ => has) w = some (true, w')) := by
  intro w w' make get has
  have made : make w = some ((), w') := proxyMaker_makes
  have unseen : searchWithin proxyMaker (.ofString "a") proxyMaker.patience ⟨2⟩ w = _ :=
    search_lazy_proxy
  have seen : searchWithin proxyMaker (.ofString "a") proxyMaker.patience ⟨2⟩ w' = _ :=
    search_made_proxy
  have get_eq : get = _ := get_run_eq_search (.ofString "a")
  have has_eq : has = _ := has_run_eq_search (.ofString "a")
  refine ⟨⟨?_, ?_⟩, ?_, ?_⟩
  · rw [get_eq, Exec.bind_of_eq unseen]
    rfl
  · rw [Exec.bind_of_eq made, get_eq, Exec.bind_of_eq seen]
    rfl
  · rw [has_eq, Exec.bind_of_eq unseen]
    rfl
  · rw [Exec.bind_of_eq made, has_eq, Exec.bind_of_eq seen]
    rfl

end ScriptCore
