import ScriptCore.Proofs.Object.Shapes
import ScriptCore.Value.Equality

/-!
# ScriptCore.Proofs.Host.Identity

Data of the host has **one identity** for scripts, however often it is wrapped.

Design points:

* What an object gives back to the host (`Payload.hostValue?`) is said once. Wrapping, unwrapping and
  identity are each proved to agree with it, and it never changes once the object is there.
* Wrappings may lie any number of steps apart: all that is asked of what happens in between is what
  every operation on objects guarantees (`settles`).
* The object for a function of the host gives nothing back. It can be called, but it is an object of
  its own, and so is the next one for the same function (`wrapped_function_is_new`).
-/

namespace ScriptCore

/-- The value of the host that an object with the payload gives back. -/
def Payload.hostValue? : Payload → Option HostValue
  | .hostMap m _ => some (.map m)
  | .hostSlice s _ => some (.slice s)
  | .hostData v => some v
  | _ => none

/-- The value as the object around it gives it back. A function is not given back. -/
def HostValue.returned? : HostValue → Option HostValue
  | .function _ => none
  | v => some v

namespace HostValue

variable {u v : HostValue} {a : Allocation}

theorem returned?_of_data (data : ∀ f, v ≠ .function f) : v.returned? = some v := by
  cases v with
  | function f => exact absurd rfl (data f)
  | _ => rfl

/-- Nothing but the value itself shares what a value shares. -/
theorem shared?_inj (first : u.shared? = some a) (second : v.shared? = some a) : u = v := by
  cases u <;> cases first <;> cases v <;> cases second <;> rfl

theorem shared?_of_returned? {b : Allocation} (reference : v.shared? = some a)
    (returned : v.returned?.bind shared? = some b) : a = b := by
  cases v with
  | function f => cases returned
  | _ => exact Option.some.inj (reference.symm.trans returned)

end HostValue

namespace Payload

theorem shared?_eq (p : Payload) : p.shared? = p.hostValue?.bind HostValue.shared? := by
  cases p <;> rfl

theorem hostValue?_shape (p : Payload) : p.shape.hostValue? = p.hostValue? := by
  cases p <;> rfl

/-- An object that gives back a value of the host always gives back that value. -/
theorem Settles.hostValue? {p p' : Payload} (settles : p.Settles p')
    (made : ∀ number, p ≠ .lazy (some number)) (direct : ∀ target handler, p ≠ .proxy target handler) :
    p'.hostValue? = p.hostValue? := by
  rw [← hostValue?_shape, settles.shape_eq made direct, hostValue?_shape]

end Payload

namespace Heap

theorem unwrap_object (h : Heap) (o : ObjectId) :
    h.unwrap (.object o) = (h.payload o).hostValue?.getD (.script (.object o)) := by
  rw [unwrap]
  cases h.payload o <;> rfl

/-- Wrapping something that is shared makes a new object, which gives it back unless it is a
function. -/
theorem wrap_of_shared (h : Heap) (prototypes : HostPrototypes) {v : HostValue} {a : Allocation}
    (reference : v.shared? = some a) :
    ∃ obj : Object, h.wrap prototypes v = (.object (h.addObject obj).1, (h.addObject obj).2) ∧
      obj.payload.hostValue? = v.returned? ∧
      (∀ number, obj.payload ≠ .lazy (some number)) ∧
      ∀ target handler, obj.payload ≠ .proxy target handler := by
  cases v with
  | map m | slice s | function f | foreign d => exact ⟨_, rfl, rfl, by simp [Object.new]⟩
  | _ => cases reference

/-- Two objects are one for scripts if they are the same or share the same data. -/
theorem sameIdentity_iff (h : Heap) (o p : ObjectId) : h.sameIdentity o p = true ↔
    o = p ∨ ∃ a, (h.payload o).shared? = some a ∧ (h.payload p).shared? = some a := by
  rw [sameIdentity, Bool.or_eq_true, beq_iff_eq]
  refine or_congr_right ?_
  cases (h.payload o).shared? with
  | none => simp
  | some x =>
      cases (h.payload p).shared? with
      | none => simp
      | some y => simpa using eq_comm

end Heap

variable {σ : Type} {env : Embedding σ} {w₀ w₁ w : World σ}

/-- The three equalities of two values have one answer, and running code does not come into it. -/
def EqualitiesSay (env : Embedding σ) (w : World σ) (x y : Value) (answer : Bool) : Prop :=
  w.heap.strictEq x y = answer ∧ w.heap.same x y = answer ∧ looseEq env x y w = some (answer, w)

theorem equalitiesSay_objects (env : Embedding σ) (w : World σ) (o p : ObjectId) :
    EqualitiesSay env w (.object o) (.object p) (w.heap.sameIdentity o p) :=
  ⟨rfl, rfl, rfl⟩

/-- What has been wrapped is given back ever after. -/
theorem hostValue?_of_wrap {prototypes : HostPrototypes} {v : HostValue} {x : Value} {a : Allocation}
    {h : Heap} (reference : v.shared? = some a) (wrapped : w₀.heap.wrap prototypes v = (x, h))
    (later : settles.holds { w₀ with heap := h } w) :
    x = .object ⟨w₀.heap.objects.size⟩ ∧ w₀.heap.objects.size < w.heap.objects.size ∧
      (w.heap.payload ⟨w₀.heap.objects.size⟩).hostValue? = v.returned? := by
  obtain ⟨obj, same, returned, made, direct⟩ := w₀.heap.wrap_of_shared prototypes reference
  cases wrapped.symm.trans same
  have here : (w₀.heap.addObject obj).2.payload ⟨w₀.heap.objects.size⟩ = obj.payload :=
    congrArg Object.payload (Heap.object_addObject_self w₀.heap obj)
  have live : w₀.heap.objects.size < (w₀.heap.addObject obj).2.objects.size := by
    rw [Heap.size_addObject]
    exact Nat.lt_succ_self _
  refine ⟨rfl, Nat.lt_of_lt_of_le live later.1, ?_⟩
  have settled := later.2 ⟨w₀.heap.objects.size⟩ live
  dsimp only at settled
  rw [here] at settled
  rw [settled.hostValue? made direct, returned]

/-- Wrapping keeps identity. Whenever maps, slices and foreign data are wrapped, with whatever
prototypes, the objects give them back, and two of them are equal in each of the three ways exactly if
they wrap the same data. Objects around different data, functions included, are never equal. -/
theorem wrappers_share_identity {p q : HostPrototypes} {u v : HostValue} {a b : Allocation}
    {x y : Value} {h₁ h₂ : Heap} (first : u.shared? = some a) (second : v.shared? = some b)
    (wrapped : w₀.heap.wrap p u = (x, h₁)) (between : settles.holds { w₀ with heap := h₁ } w₁)
    (again : w₁.heap.wrap q v = (y, h₂)) (later : settles.holds { w₁ with heap := h₂ } w) :
    ((∀ f, u ≠ .function f) → w.heap.unwrap x = u ∧
      (a = b → w.heap.unwrap y = u ∧ EqualitiesSay env w x y true)) ∧
    (a ≠ b → EqualitiesSay env w x y false) := by
  have wrapping : settles.holds w₁ { w₁ with heap := h₂ } := by
    have step := settles.wrap settles_addObject w₁ q v
    rwa [again] at step
  obtain ⟨rfl, -, returnedX⟩ := hostValue?_of_wrap first wrapped
    (settles.trans between (settles.trans wrapping later))
  obtain ⟨-, older, -⟩ := hostValue?_of_wrap first wrapped between
  obtain ⟨rfl, -, returnedY⟩ := hostValue?_of_wrap second again later
  have shared (o : ObjectId) (x : HostValue)
      (returned : (w.heap.payload o).hostValue? = x.returned?) :
      (w.heap.payload o).shared? = x.returned?.bind HostValue.shared? := by
    rw [Payload.shared?_eq, returned]
  refine ⟨fun data => ?_, fun different => ?_⟩
  · have given (o : ObjectId) (returned : (w.heap.payload o).hostValue? = u.returned?) :
        w.heap.unwrap (.object o) = u := by
      rw [Heap.unwrap_object, returned, HostValue.returned?_of_data data]
      rfl
    refine ⟨given _ returnedX, ?_⟩
    intro same
    subst same
    cases HostValue.shared?_inj first second
    have one : w.heap.sameIdentity ⟨w₀.heap.objects.size⟩ ⟨w₁.heap.objects.size⟩ = true := by
      refine (w.heap.sameIdentity_iff _ _).mpr (.inr ⟨a, ?_, ?_⟩)
      · rw [shared _ _ returnedX, HostValue.returned?_of_data data, Option.bind_some, first]
      · rw [shared _ _ returnedY, HostValue.returned?_of_data data, Option.bind_some, first]
    exact ⟨given _ returnedY, one ▸ equalitiesSay_objects env w _ _⟩
  · have two : w.heap.sameIdentity ⟨w₀.heap.objects.size⟩ ⟨w₁.heap.objects.size⟩ = false := by
      rw [Bool.eq_false_iff]
      intro one
      rcases (w.heap.sameIdentity_iff _ _).mp one with same | ⟨c, sharedX, sharedY⟩
      · exact Nat.ne_of_lt older (congrArg ObjectId.index same)
      · rw [shared _ _ returnedX] at sharedX
        rw [shared _ _ returnedY] at sharedY
        exact different ((HostValue.shared?_of_returned? first sharedX).trans
          (HostValue.shared?_of_returned? second sharedY).symm)
    exact two ▸ equalitiesSay_objects env w _ _

/-! ### A map and a function, each wrapped twice -/

/-- The host has a map and a function. -/
def hostDataWorld : World Unit :=
  ⟨{ Heap.empty with hostMaps := #[∅], hostFunctions := #[.embedded 0] }, .start, #[], ()⟩

theorem wrappers_share_identity_on_map :
    let first := hostDataWorld.heap.wrap .none (.map ⟨0⟩)
    let second := first.2.wrap .none (.map ⟨0⟩)
    let w : World Unit := { hostDataWorld with heap := second.2 }
    first.1 ≠ second.1 ∧ EqualitiesSay default w first.1 second.1 true ∧
      w.heap.unwrap first.1 = .map ⟨0⟩ := by
  intro first second w
  have wrapped : hostDataWorld.heap.wrap .none (.map ⟨0⟩) = (first.1, first.2) := rfl
  have again : ({ hostDataWorld with heap := first.2 } : World Unit).heap.wrap .none (.map ⟨0⟩) =
      (second.1, second.2) := rfl
  obtain ⟨returned, equal⟩ := (wrappers_share_identity rfl rfl wrapped (settles.refl _) again
    (settles.refl w)).1 (by simp)
  refine ⟨fun same => ?_, (equal rfl).2, returned⟩
  cases same

/-- Two objects around one function are different in each of the three ways, and neither gives the
function back. -/
theorem wrapped_function_is_new :
    let first := hostDataWorld.heap.wrap .none (.function ⟨0⟩)
    let second := first.2.wrap .none (.function ⟨0⟩)
    let w : World Unit := { hostDataWorld with heap := second.2 }
    (HostValue.function ⟨0⟩).shared? = some (.hostFunction ⟨0⟩) ∧
      EqualitiesSay default w first.1 second.1 false ∧
      (w.heap.unwrap first.1).shared? = none ∧ (w.heap.unwrap second.1).shared? = none := by
  intro first second w
  exact ⟨rfl, ⟨rfl, rfl, rfl⟩, rfl, rfl⟩

end ScriptCore
