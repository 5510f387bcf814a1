import ScriptCore.Proofs.Object.Access
import ScriptCore.Proofs.Object.OwnSlot

/-!
# ScriptCore.Proofs.Object.Shapes

What **kind of object** an object is, and that this is settled once it has been made.

Design points:

* Operations change the elements of an array and the entries of a collection, they make lazy objects,
  and a proxy may be revoked. A payload does not become another one in any other way (`settles`).
* This is asked of the code of the embedding too (`Embedding.Settled`). What initializers make is
  besides not lazy again.
-/

namespace ScriptCore

/-- The payload without its elements and entries. -/
def Payload.shape : Payload → Payload
  | .array _ => .array #[]
  | .map _ => .map .empty
  | .set _ => .set .empty
  | p => p

/-- What may become of a payload. -/
inductive Payload.Settles : Payload → Payload → Prop where
  /-- Nothing but elements and entries are changed. -/
  | same {p p'} (shape : p'.shape = p.shape) : Settles p p'
  /-- A lazy object is made. -/
  | made {number p'} : Settles (.lazy (some number)) p'
  | revoked {target handler} : Settles (.proxy target handler) (.proxy none none)

namespace Payload

variable {p p' p'' : Payload} {key : Text}

theorem eq_of_shape_proxy {target handler : Option ObjectId}
    (shape : p'.shape = (Payload.proxy target handler).shape) : p' = .proxy target handler := by
  cases p' with
  | proxy => exact shape
  | _ => cases shape

theorem eq_of_shape_lazy {initializer : Option Nat}
    (shape : p'.shape = (Payload.lazy initializer).shape) : p' = .lazy initializer := by
  cases p' with
  | lazy => exact shape
  | _ => cases shape

theorem hostPrototypes_shape (p : Payload) : p.shape.hostPrototypes = p.hostPrototypes := by
  cases p <;> rfl

theorem Settles.trans (first : Settles p p') (second : Settles p' p'') : Settles p p'' := by
  cases first with
  | made => exact .made
  | same shape =>
      cases second with
      | same shape' => exact .same (shape'.trans shape)
      | made =>
          rw [eq_of_shape_lazy shape.symm]
          exact .made
      | revoked =>
          rw [eq_of_shape_proxy shape.symm]
          exact .revoked
  | revoked =>
      cases second with
      | same shape =>
          rw [eq_of_shape_proxy shape]
          exact .revoked
      | revoked => exact .revoked

/-- Nothing but a proxy and a lazy object changes its shape. -/
theorem Settles.shape_eq (settles : Settles p p') (made : ∀ number, p ≠ .lazy (some number))
    (direct : ∀ target handler, p ≠ .proxy target handler) : p'.shape = p.shape := by
  cases settles with
  | same shape => exact shape
  | made => exact absurd rfl (made _)
  | revoked => exact absurd rfl (direct _ _)

/-- A proxy keeps its target unless it is revoked. -/
theorem Settles.of_proxy {target handler : Option ObjectId}
    (settles : (Payload.proxy target handler).Settles p') :
    p' = .proxy target handler ∨ p' = .proxy none none := by
  cases settles with
  | same shape => exact .inl (eq_of_shape_proxy shape)
  | revoked => exact .inr rfl

theorem shape_mapElements (p : Payload) (f : Array Value → Array Value) :
    (p.mapElements f).shape = p.shape := by
  cases p <;> rfl

end Payload

variable {σ : Type}

/-- Payloads settle, and no object is lost. -/
def settles : Guarantee σ where
  holds w w' := w.heap.objects.size ≤ w'.heap.objects.size ∧
    ∀ o, o.index < w.heap.objects.size → (w.heap.payload o).Settles (w'.heap.payload o)
  refl _ := ⟨Nat.le_refl _, fun _ _ => .same rfl⟩
  trans first second := ⟨Nat.le_trans first.1 second.1, fun o live =>
    (first.2 o live).trans (second.2 o (Nat.lt_of_lt_of_le live first.1))⟩

/-- The code of the embedding leaves objects what they are, and its initializers make them. -/
structure Embedding.Settled (env : Embedding σ) : Prop where
  natives : ∀ number this args, Exec.Along settles (env.callNative number this args).run
  hosts : ∀ number args, Exec.Along settles (env.callHost number args).run
  makes : ∀ number, Exec.Along settles (env.makeLazy number)
  made : ∀ number w made w', env.makeLazy number w = some (made, w') → made.isInitialized = true

variable {env : Embedding σ} {w w' w₁ : World σ} {o : ObjectId}

theorem settles_of_shape (size : w.heap.objects.size ≤ w'.heap.objects.size)
    (shape : ∀ o, o.index < w.heap.objects.size →
      (w'.heap.payload o).shape = (w.heap.payload o).shape) : settles.holds w w' :=
  ⟨size, fun o live => .same (shape o live)⟩

theorem settles_updateObject {f : Object → Object}
    (shape : ∀ obj : Object, (f obj).payload.shape = obj.payload.shape) (w : World σ) (p : ObjectId) :
    settles.holds w { w with heap := w.heap.updateObject p f } := by
  refine settles_of_shape (Nat.le_of_eq (Heap.size_updateObject _ _ _).symm) fun o _ => ?_
  exact Heap.forall_updateObject (P := fun o obj => obj.payload.shape = (w.heap.payload o).shape)
    (fun _ => rfl) (shape _) o

theorem settles_addObject (w : World σ) (obj : Object) :
    settles.holds w { w with heap := (w.heap.addObject obj).2 } := by
  refine settles_of_shape ?_ fun o live => ?_
  · rw [Heap.size_addObject]
    exact Nat.le_succ _
  · rw [Heap.payload, Heap.payload, Heap.object_addObject_of_lt obj live]

namespace Embedding.Settled

variable (settled : env.Settled)

include settled

/-- An object that has been made waits for no initializer. -/
theorem ready (run : materialize env o w = some ((), w')) (number : Nat) :
    w'.heap.payload o ≠ .lazy (some number) := by
  intro lazy
  by_cases waiting : ∃ number, w.heap.payload o = .lazy (some number)
  · have makes : env.Makes w o (·.isInitialized = true) :=
      fun number made w₁ _ hmade => settled.made number _ made w₁ hmade
    have made := object_of_materialize makes waiting rfl run
    rw [Object.isInitialized, show (w'.heap.object o).payload = _ from lazy] at made
    cases made
  · cases (materialize_of_ready fun number hp => waiting ⟨number, hp⟩).symm.trans run
    exact waiting ⟨number, lazy⟩

theorem along_materialize (o : ObjectId) : Exec.Along settles (materialize env o) := by
  intro w r w' run
  rcases materialize_inv run with ⟨rfl, -⟩ | ⟨number, made, w₁, waiting, hmade, rfl⟩
  · exact settles.refl _
  · obtain ⟨grows, others⟩ := settled.makes number hmade
    rw [World.making, Heap.updatePayload, Heap.size_updateObject] at grows
    refine ⟨Nat.le_trans grows (Nat.le_of_eq (Heap.size_updateObject _ _ _).symm), fun p live => ?_⟩
    by_cases heq : p = o
    · rw [heq, waiting]
      exact .made
    · have later := others p (by rwa [World.making, Heap.updatePayload, Heap.size_updateObject])
      rw [Heap.payload, World.making, Heap.updatePayload, Heap.object_updateObject_of_ne heq] at later
      rwa [Heap.payload, Heap.payload, Heap.object_updateObject_of_ne heq]

theorem writeGuarantees : env.WriteGuarantees settles where
  makes := settled.along_materialize
  natives := settled.natives
  hosts := settled.hosts
  wraps _ hw v := settles.trans hw (settles.wrap settles_addObject _ _ v)
  properties w o f :=
    settles_updateObject (f := fun obj => { obj with properties := f obj.properties })
      (fun _ => rfl) w o
  elements w o f := settles_updateObject (fun obj => obj.payload.shape_mapElements f) w o
  hostMaps _ _ _ := settles_of_shape (Nat.le_refl _) fun _ _ => rfl
  hostSlices _ _ _ := settles_of_shape (Nat.le_refl _) fun _ _ => rfl

end Embedding.Settled

end ScriptCore
