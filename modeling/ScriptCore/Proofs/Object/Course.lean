import ScriptCore.Host.Export
import ScriptCore.Proofs.Object.Shapes

/-!
# ScriptCore.Proofs.Object.Course

The **course** that a heap takes under the operations on objects, and what all of it keeps.

Design points:

* `Performs` has one constructor for each operation that comes to an object, and runs the operation
  itself. All that leaves the objects alone is one more: scopes, symbols, tokens, and what the host
  does to its own containers.
* Operations change an object in few ways (`Embedding.OperationGuarantees`). So an invariant is proved
  once for each kind of change, and then holds along every course (`guarantee_of_performed`).
* New objects may refer to what is there already, and may be restricted further (`fits`). The wrappers
  of values of the host have to be among those that are allowed.
-/

namespace ScriptCore

variable {σ α β : Type}

/-- One operation leads from a world to another. -/
inductive Performs (env : Embedding σ) (fits : Object → Prop) : World σ → World σ → Prop where
  /-- Any constructor, also of proxies and lazy objects: it refers to what is there already. -/
  | create {w : World σ} (obj : Object) (fitting : fits obj)
      (live : ∀ p, obj.Mentions p → p.index < w.heap.objects.size) :
      Performs env fits w { w with heap := (w.heap.addObject obj).2 }
  /-- Reading, assigning, listing, deleting, appending, converting, and reading and replacing the
  prototype. -/
  | access {w w' : World σ} {o : ObjectId} {a : Access} {r : a.Result}
      (live : ∀ p, a = .setPrototype (some p) → p.index < w.heap.objects.size)
      (run : a.run env o w = some (r, w')) : Performs env fits w w'
  | materialize {w w' : World σ} {o : ObjectId} (run : materialize env o w = some ((), w')) :
      Performs env fits w w'
  | define {w w' : World σ} {o : ObjectId} {key : Text} {slot : Slot}
      (run : defineProperty env o key slot w = some ((), w')) : Performs env fits w w'
  | preventExtensions {w w' : World σ} {o : ObjectId}
      (run : preventExtensions env o w = some ((), w')) : Performs env fits w w'
  | call {w w' : World σ} {o : ObjectId} {this : Value} {args : List Value}
      {r : Except Thrown Value} (run : callObject env o this args w = some (r, w')) :
      Performs env fits w w'
  | callHost {w w' : World σ} {f : HostFunctionId} {args : List HostValue}
      {r : Except String HostValue} (run : callHostFunction env f args w = some (r, w')) :
      Performs env fits w w'
  | wrap {w : World σ} (prototypes : HostPrototypes)
      (live : ∀ p, prototypes.Has p → p.index < w.heap.objects.size) (v : HostValue) :
      Performs env fits w { w with heap := (w.heap.wrap prototypes v).2 }
  | «export» {w w' : World σ} {v : Value} {shape : ExportShape} {r : Except ExportError HostValue}
      (run : exportAs env v shape w = some (r, w')) : Performs env fits w w'
  | mapSet {w : World σ} (o : ObjectId) (key v : Value) :
      Performs env fits w { w with heap := (w.heap.mapSet o key v).2 }
  | setAdd {w : World σ} (o : ObjectId) (v : Value) :
      Performs env fits w { w with heap := (w.heap.setAdd o v).2 }
  /-- Deleting from a collection, clearing it, and moving a cursor along it. -/
  | onCollection {α : Type} {w : World σ} (o : ObjectId) (otherwise : α)
      (f : Collection → α × Collection) :
      Performs env fits w { w with heap := (w.heap.onCollection o otherwise f).2 }
  | revoke {w : World σ} (o : ObjectId) : Performs env fits w { w with heap := w.heap.revoke o }
  /-- The objects are left alone. -/
  | elsewhere {w w' : World σ} (objects : w'.heap.objects = w.heap.objects) : Performs env fits w w'

/-- Each kind of change to an object keeps the guarantee, besides code, making and wrapping. -/
structure Embedding.OperationGuarantees (env : Embedding σ) (fits : Object → Prop) (R : Guarantee σ) :
    Prop extends env.Guarantees R where
  creates : ∀ w obj, fits obj → (∀ p, obj.Mentions p → p.index < w.heap.objects.size) →
    R.holds w { w with heap := (w.heap.addObject obj).2 }
  wrappers : ∀ payload prototype, (∀ initializer, payload ≠ .lazy initializer) →
    fits (.new payload prototype)
  puts : ∀ w o key slot, R.holds w { w with heap := w.heap.putSlot o key slot }
  values : ∀ w o key v, R.holds w { w with heap := w.heap.putValue o key v }
  erases : ∀ w o key, R.holds w { w with heap := w.heap.updateProperties o (·.erase key) }
  /-- Elements and entries. -/
  contents : ∀ w o (f : Payload → Payload), (∀ p, (f p).shape = p.shape) →
    R.holds w { w with heap := w.heap.updatePayload o f }
  closes : ∀ w o, R.holds w
    { w with heap := w.heap.updateObject o fun obj => { obj with extensible := false } }
  links : ∀ {w w' o prototype b}, (∀ p, prototype = some p → p.index < w.heap.objects.size) →
    setPrototype env o prototype w = some (b, w') → R.holds w w'
  revokes : ∀ w o, R.holds w { w with heap := w.heap.revoke o }
  elsewhere : ∀ {w w'}, w'.heap.objects = w.heap.objects → R.holds w w'

/-! ### Runs that export -/

namespace Exec.Along

variable {ε : Type} {R : Guarantee σ}

theorem run_mapM {f : α → ExceptT ε (Exec σ) β} (hf : ∀ a, Along R (f a).run) (as : List α) :
    Along R (as.mapM f).run := by
  induction as with
  | nil => exact run_pure _
  | cons a as ih =>
      rw [List.mapM_cons]
      exact run_bind (hf a) fun _ => run_bind ih fun _ => run_pure _

end Exec.Along

variable {env : Embedding σ} {fits : Object → Prop} {R : Guarantee σ}

namespace Embedding.OperationGuarantees

open Exec

variable (h : env.OperationGuarantees fits R)

include h

theorem editGuarantees : env.EditGuarantees R where
  toGuarantees := h.toGuarantees
  puts := h.puts
  values := h.values
  erases := h.erases
  elements w o f := h.contents w o _ (Payload.shape_mapElements · f)
  hostMaps _ _ _ := h.elsewhere rfl
  hostSlices _ _ _ := h.elsewhere rfl

/-- What is added to the rows of the host leaves the objects alone. -/
theorem adds {f : Heap → α × Heap} (objects : ∀ heap, (f heap).2.objects = heap.objects) :
    Along R (Exec.onHeap f : Exports σ α).run :=
  .run_onHeap fun w => h.elsewhere (objects w.heap)

theorem newHostSlice (items : List HostValue) :
    Along R (newHostSlice items : Exports σ HostValue).run :=
  .run_bind (h.adds fun _ => rfl) fun _ => .run_pure _

theorem newHostMap (entries : List (String × HostValue)) :
    Along R (newHostMap entries : Exports σ HostValue).run :=
  .run_bind (h.adds fun _ => rfl) fun _ => .run_pure _

theorem getOrUndefined (o : ObjectId) (key : Text) : Along R (getOrUndefined env o key) :=
  .bind (h.getProperty o key) fun _ => .pure _

section Child

variable {child : Value → Exports σ HostValue} (hchild : ∀ v, Along R (child v).run)

include hchild

theorem exportProperties (o : ObjectId) (names : List Text) :
    Along R (exportProperties env child o names).run := by
  induction names with
  | nil => exact .run_pure _
  | cons name names ih =>
      refine .run_bind (.run_lift (h.ownProperty o name)) fun slot => ?_
      split
      · split
        · refine .run_bind (.run_lift (h.getOrUndefined o name)) fun v => ?_
          exact .run_bind (hchild v) fun _ => .run_bind ih fun _ => .run_pure _
        · exact ih
      · exact ih

theorem exportEntry (entry : Value × Option Value) :
    Along R (do
      let key ← child entry.1
      let value ← match entry.2 with
        | some v => child v
        | none => pure .nil
      ScriptCore.newHostSlice [key, value] : Exports σ HostValue).run := by
  refine .run_bind (hchild _) fun key => ?_
  split
  · exact .run_bind (hchild _) fun _ => h.newHostSlice _
  · exact .run_bind (.run_pure _) fun _ => h.newHostSlice _

theorem exportObject (o : ObjectId) : Along R (exportObject env child o).run := by
  refine .run_bind (.run_lift (h.makes o)) fun _ => .run_bind (.run_asks _) fun payload => ?_
  cases payload with
  | array elements => exact .run_bind (.run_mapM hchild _) fun _ => h.newHostSlice _
  | map entries =>
      exact .run_bind (.run_mapM (fun entry => h.exportEntry hchild entry) _) fun _ =>
        h.newHostSlice _
  | set entries => exact .run_bind (.run_mapM (fun _ => hchild _) _) fun _ => h.newHostSlice _
  | boxed v => exact hchild v
  | date t => exact .run_pure _
  | proxy target handler =>
      cases target with
      | some target => exact hchild _
      | none => exact .run_pure _
  | function f => exact .run_bind (h.adds fun _ => rfl) fun _ => .run_pure _
  | plain | hostMap | hostSlice | hostData | lazy =>
      refine .run_bind (.run_lift ((h.makes o).bind fun _ => .asks _)) fun names => ?_
      exact .run_bind (h.exportProperties hchild o names) fun _ => h.newHostMap _

end Child

theorem exportAt {child : List ObjectId → Value → Exports σ HostValue}
    (hchild : ∀ path v, Along R (child path v).run) (path : List ObjectId) (v : Value) :
    Along R (exportAt env child path v).run := by
  cases v with
  | object o =>
      refine .run_bind (.run_asks _) fun payload => ?_
      split
      · exact .run_pure _
      · exact .run_pure _
      · exact .run_pure _
      · split
        · exact .run_throw _
        · split
          · exact .run_throw _
          · exact h.exportObject (hchild _) o
  | _ => exact .run_asks fun heap => heap.unwrap _

theorem exportAny (v : Value) : Along R (exportAny env v).run := by
  have within (n : Nat) : ∀ path v, Along R (exportWithin env n path v).run := by
    induction n with
    | zero => exact h.exportAt fun _ _ => .run_throw _
    | succ n ih => exact h.exportAt ih
  exact within _ [] v

theorem exportAs (v : Value) (shape : ExportShape) : Along R (exportAs env v shape).run := by
  have refuse : Along R (do
      let source ← (Exec.walks (·.typeOf v) : Exec σ String)
      throw (.incompatible source shape.name) : Exports σ HostValue).run :=
    .run_bind (.run_lift (.walks _)) fun _ => .run_throw _
  cases shape with
  | any => exact h.exportAny v
  | bool => exact .run_pure _
  | int =>
      refine .run_bind (.run_lift (.bind (h.primitiveOf .number v) fun _ => .pure _)) fun n => ?_
      split
      · split
        · exact refuse
        · exact .run_pure _
      · exact .run_pure _
  | float =>
      cases v with
      | symbol s => exact refuse
      | _ => exact .run_bind (.run_lift (h.numericOf _)) fun _ => .run_pure _
  | string => exact .run_bind (.run_lift (h.textOf v)) fun _ => .run_pure _
  | map =>
      cases v with
      | object o =>
          refine .run_bind (.run_lift (h.makes o)) fun _ => .run_bind (.run_asks _) fun payload => ?_
          cases payload with
          | array | set | hostSlice | hostData => exact refuse
          | _ =>
              refine .run_bind (h.exportAny _) fun x => ?_
              split
              · exact .run_pure _
              · refine .run_bind (.run_asks _) fun kind => ?_
                split
                · refine .run_bind (.run_asks _) fun entries => ?_
                  split
                  · exact h.newHostMap _
                  · exact .endless
                · exact refuse
              · exact refuse
      | _ => exact refuse
  | slice =>
      cases v with
      | object o =>
          refine .run_bind (.run_lift (h.makes o)) fun _ => .run_bind (.run_asks _) fun payload => ?_
          cases payload with
          | array | map | set | hostSlice | proxy =>
              refine .run_bind (h.exportAny _) fun x => ?_
              split
              · exact .run_pure _
              · exact refuse
          | _ => exact refuse
      | _ => exact refuse

/-! ### Courses -/

theorem wrapLive (w : World σ) (prototypes : HostPrototypes)
    (live : ∀ p, prototypes.Has p → p.index < w.heap.objects.size) (v : HostValue) :
    R.holds w { w with heap := (w.heap.wrap prototypes v).2 } := by
  rcases w.heap.wrap_new prototypes v with same | ⟨payload, prototype, added, made, mentions⟩
  · rw [same]
    exact R.refl w
  · rw [added]
    exact h.creates w _ (h.wrappers payload prototype made) fun p hp => live p (mentions p hp)

theorem access {w w' : World σ} {o : ObjectId} {a : Access} {r : a.Result}
    (live : ∀ p, a = .setPrototype (some p) → p.index < w.heap.objects.size)
    (run : a.run env o w = some (r, w')) : R.holds w w' := by
  by_cases replaces : ∃ prototype, a = .setPrototype prototype
  · obtain ⟨prototype, rfl⟩ := replaces
    exact h.links (fun p hp => live p (by rw [hp])) run
  · have along : Along R (a.run env o) :=
      Access.along h.editGuarantees o a fun q hq => absurd ⟨q, hq⟩ replaces
    exact along run

theorem onCollection (w : World σ) (o : ObjectId) (otherwise : α) (f : Collection → α × Collection) :
    R.holds w { w with heap := (w.heap.onCollection o otherwise f).2 } := by
  rw [Heap.onCollection]
  split
  · rename_i entries _
    exact h.contents w o (·.setCollection (f entries).2) fun p => by cases p <;> rfl
  · exact R.refl w

theorem mapSet (w : World σ) (o : ObjectId) (key v : Value) :
    R.holds w { w with heap := (w.heap.mapSet o key v).2 } := by
  rw [Heap.mapSet]
  split
  · dsimp only
    refine h.contents w o _ fun p => ?_
    cases p <;> rfl
  · exact R.refl w

theorem setAdd (w : World σ) (o : ObjectId) (v : Value) :
    R.holds w { w with heap := (w.heap.setAdd o v).2 } := by
  rw [Heap.setAdd]
  split
  · dsimp only
    refine h.contents w o _ fun p => ?_
    cases p <;> rfl
  · exact R.refl w

end Embedding.OperationGuarantees

variable {w w' : World σ}

/-- One operation keeps what every kind of change keeps. -/
theorem Performs.guarantee (h : env.OperationGuarantees fits R) (step : Performs env fits w w') :
    R.holds w w' := by
  cases step with
  | create obj fitting live => exact h.creates w obj fitting live
  | access live run => exact h.access live run
  | materialize run => exact h.makes _ run
  | define run => exact h.editGuarantees.defineProperty _ _ _ run
  | preventExtensions run => exact (h.makes _).bind (fun _ => .modifyHeap fun w => h.closes w _) run
  | call run => exact h.callObject _ _ _ run
  | callHost run => exact h.callHostWith h.callObject _ _ run
  | wrap prototypes live v => exact h.wrapLive w prototypes live v
  | «export» run => exact h.exportAs _ _ run
  | mapSet o key v => exact h.mapSet w o key v
  | setAdd o v => exact h.setAdd w o v
  | onCollection o otherwise f => exact h.onCollection w o otherwise f
  | revoke o => exact h.revokes w o
  | elsewhere objects => exact h.elsewhere objects

/-- So does every course. -/
theorem guarantee_of_performed (h : env.OperationGuarantees fits R)
    (course : Relation.ReflTransGen (Performs env fits) w w') : R.holds w w' := by
  induction course with
  | refl => exact R.refl w
  | tail _ step ih => exact R.trans ih (step.guarantee h)

end ScriptCore
