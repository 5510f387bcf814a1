import ScriptCore.Object.Assign
import ScriptCore.Proofs.Execution.Along
import ScriptCore.Proofs.Heap.Objects

/-!
# ScriptCore.Proofs.Object.Guarantee

What the operations on objects **guarantee**, given what the embedding's code does.

Design points:

* Reads, calls and conversions change the heap in three places of their own only: a lazy object is
  made, a value of the host is wrapped, and code of the embedding runs. `Embedding.Guarantees` names
  these; each function then has one lemma, in the order of the model.
* A value is wrapped with prototypes that some object has held before, perhaps some steps ago
  (`Heap.Holds`).
* Assignment changes stored properties, elements of arrays and data of the host besides. What is
  asked of the changes to stored properties comes in three grades: that assigning as a whole keeps
  the guarantee (`Embedding.StoreGuarantees`), that each kind of change does
  (`Embedding.EditGuarantees`), or that any change does (`Embedding.WriteGuarantees`).
-/

namespace ScriptCore

/-- The prototypes that a payload holds for wrapping values of the host. -/
def Payload.hostPrototypes : Payload → HostPrototypes
  | .function ⟨_, some (.host _ prototypes), _⟩ => prototypes
  | .hostMap _ prototypes | .hostSlice _ prototypes => prototypes
  | _ => .none

/-- Some object holds the prototypes. -/
def Heap.Holds (h : Heap) (prototypes : HostPrototypes) : Prop :=
  ∃ o, (h.payload o).hostPrototypes = prototypes

theorem Heap.holds_none (h : Heap) : h.Holds .none := by
  refine ⟨⟨h.objects.size⟩, ?_⟩
  rw [payload, object_of_le (o := ⟨h.objects.size⟩) (Nat.le_refl _)]
  rfl

variable {σ α : Type} {env : Embedding σ} {R : Guarantee σ}

/-- Wrapping a value makes at most one object. -/
theorem Guarantee.wrap (R : Guarantee σ)
    (adds : ∀ w obj, R.holds w { w with heap := (w.heap.addObject obj).2 }) (w : World σ)
    (prototypes : HostPrototypes) (v : HostValue) :
    R.holds w { w with heap := (w.heap.wrap prototypes v).2 } := by
  cases v with
  | map m | slice s | function f | error message | foreign d => exact adds w _
  | _ => exact R.refl w

/-- The code of the embedding, the making of lazy objects and the wrapping of values keep a
guarantee. -/
structure Embedding.Guarantees (env : Embedding σ) (R : Guarantee σ) : Prop where
  makes : ∀ o, Exec.Along R (materialize env o)
  natives : ∀ number this args, Exec.Along R (env.callNative number this args).run
  hosts : ∀ number args, Exec.Along R (env.callHost number args).run
  wraps : ∀ {w₀ w : World σ} {prototypes}, w₀.heap.Holds prototypes → R.holds w₀ w → ∀ v,
    R.holds w₀ { w with heap := (w.heap.wrap prototypes v).2 }

namespace Embedding.Guarantees

open Exec

variable (h : env.Guarantees R)

include h

/-! ### Own properties -/

theorem wrapAll {w₀ w : World σ} {prototypes : HostPrototypes} (held : w₀.heap.Holds prototypes)
    (hw : R.holds w₀ w) (vs : List HostValue) :
    R.holds w₀ { w with heap := (w.heap.wrapAll prototypes vs).2 } := by
  induction vs generalizing w with
  | nil => exact hw
  | cons v vs ih => exact ih (h.wraps held hw v)

theorem computed (w : World σ) (o : ObjectId) (key : Text) :
    R.holds w { w with heap := (w.heap.computed? o key).2 } := by
  rw [Heap.computed?]
  cases hp : w.heap.payload o with
  | array es => cases key.arrayIndex? <;> exact R.refl w
  | boxed v =>
      cases v with
      | string t => cases key.arrayIndex? <;> exact R.refl w
      | _ => exact R.refl w
  | hostData v => cases v <;> exact R.refl w
  | hostMap m prototypes =>
      dsimp only
      cases (w.heap.hostMap m)[key.toString]? with
      | none => exact R.refl w
      | some v => exact h.wraps ⟨o, by rw [hp]; rfl⟩ (R.refl w) v
  | hostSlice s prototypes =>
      dsimp only
      cases key.arrayIndex? with
      | none => exact R.refl w
      | some i =>
          dsimp only
          cases (w.heap.hostSlice s)[i]? with
          | none => exact R.refl w
          | some v => exact h.wraps ⟨o, by rw [hp]; rfl⟩ (R.refl w) v
  | _ => exact R.refl w

theorem ownSlot (w : World σ) (o : ObjectId) (key : Text) :
    R.holds w { w with heap := (w.heap.ownSlot? o key).2 } := by
  have hc := h.computed w o key
  rw [Heap.ownSlot?]
  cases hcomputed : w.heap.computed? o key with
  | mk slot heap =>
      rw [hcomputed] at hc
      cases slot <;> exact hc

theorem ownProperty (o : ObjectId) (key : Text) : Along R (ownProperty env o key) :=
  (h.makes o).bind fun _ => .onHeap fun w => h.ownSlot w o key

theorem prototypeOf (o : ObjectId) : Along R (prototypeOf env o) :=
  (h.makes o).bind fun _ => .asks _

/-! ### Calls -/

theorem callHostWith {call : ObjectId → Value → List Value → Throws σ Value}
    (hcall : ∀ o this args, Along R (call o this args).run) (f : HostFunctionId)
    (args : List HostValue) : Along R (callHostWith env call f args).run := by
  refine .run_bind (.run_asks _) fun hf => ?_
  cases hf with
  | embedded number => exact h.hosts number args
  | exported o =>
      refine .run_bind (.run_onHeap fun w => h.wrapAll w.heap.holds_none (R.refl w) args) fun vs => ?_
      refine .run_bind (.run_lift (hcall o .undefined vs)) fun r => ?_
      cases r with
      | ok v => exact .run_asks _
      | error e => exact .run_throw _

theorem callBuiltin {keyOf : Value → Exec σ Text} (hkey : ∀ v, Along R (keyOf v)) (b : Builtin)
    (this : Value) (args : List Value) : Along R (callBuiltin env keyOf b this args).run := by
  cases b with
  | nothing => exact .run_pure _
  | valueOf =>
      rw [ScriptCore.callBuiltin]
      split
      · exact .run_throw _
      · exact .run_pure _
  | hasOwnProperty =>
      refine .run_bind (.run_lift (hkey _)) fun key => ?_
      split
      · rename_i o
        refine .run_bind (.run_lift (h.makes o)) fun _ => ?_
        exact .run_bind (.run_onHeap fun w => h.ownSlot w o key) fun _ => .run_pure _
      · split
        · exact .run_throw _
        · exact .run_pure _

/-- The prototypes for the result of a function of the host are read off before it runs. -/
theorem wrapResult {x : ExceptT String (Exec σ) HostValue} (hx : Along R x.run) {w w' : World σ}
    {prototypes : HostPrototypes} (held : w.heap.Holds prototypes) {r : Except Thrown Value}
    (run : (do
      match ← (liftM x.run : Throws σ (Except String HostValue)) with
      | .ok v => Exec.onHeap (·.wrap prototypes v)
      | .error text => throw (.hostFailure text) : Throws σ Value) w = some (r, w')) :
    R.holds w w' := by
  rw [Throws.lift_bind_eq] at run
  obtain ⟨⟨r₁, w₁⟩, h₁, h₂⟩ := Option.bind_eq_some_iff.mp run
  cases r₁ with
  | ok v =>
      cases h₂
      exact h.wraps held (hx h₁) v
  | error text =>
      cases h₂
      exact hx h₁

theorem invoke {keyOf : Value → Exec σ Text} (hkey : ∀ v, Along R (keyOf v)) (n : Nat)
    (o : ObjectId) (this : Value) (args : List Value) :
    Along R (invoke env keyOf n o this args).run := by
  induction n generalizing o this args with
  | zero => exact .endless
  | succ n ih =>
      refine .run_bind (.run_asks _) fun behind => ?_
      cases behind with
      | endless => exact .endless
      | revoked => exact .run_throw _
      | object f =>
          intro w r w' run
          replace run := (Throws.bind_of_ok (Throws.asks_apply _ _) _).symm.trans run
          cases hp : w.heap.payload f with
          | function fn =>
              rw [hp] at run
              dsimp only at run
              cases hcode : fn.code with
              | none =>
                  rw [hcode] at run
                  exact Along.run_pure _ run
              | some code =>
                  rw [hcode] at run
                  cases code with
                  | embedded number => exact h.natives number this args run
                  | builtin b => exact h.callBuiltin hkey b this args run
                  | host g prototypes =>
                      refine h.wrapResult (h.callHostWith ih g _) ⟨f, ?_⟩
                        ((Throws.bind_of_ok (Throws.asks_apply _ _) _).symm.trans run)
                      rw [hp]
                      cases fn
                      cases hcode
                      rfl
          | _ =>
              rw [hp] at run
              exact Along.run_throw _ run

theorem callBare (o : ObjectId) (this : Value) : Along R (callBare env o this).run :=
  h.invoke (fun _ => .pure _) _ o this []

/-! ### Look-up -/

theorem hasWithin (key : Text) (n : Nat) (o : ObjectId) : Along R (hasWithin env key n o) := by
  induction n generalizing o with
  | zero => exact .endless
  | succ n ih =>
      refine .bind (.asks _) fun payload => ?_
      split
      · exact ih _
      · exact .pure _
      · refine .bind (h.ownProperty o key) fun slot => ?_
        split
        · exact .pure _
        · refine .bind (h.prototypeOf o) fun p => ?_
          cases p with
          | some p => exact ih p
          | none => exact .pure _

theorem hasProperty (o : ObjectId) (key : Text) : Along R (hasProperty env o key) :=
  h.hasWithin key _ o

theorem getWithin (receiver : ObjectId) (key : Text) (n : Nat) (o : ObjectId) :
    Along R (getWithin env receiver key n o).run := by
  induction n generalizing o with
  | zero => exact .endless
  | succ n ih =>
      refine .run_bind (.run_asks _) fun payload => ?_
      split
      · exact ih _
      · exact .run_throw _
      · refine .run_bind (.run_lift (h.ownProperty o key)) fun slot => ?_
        split
        · exact .run_pure _
        · exact h.callBare _ _
        · exact .run_pure _
        · refine .run_bind (.run_lift (h.prototypeOf o)) fun p => ?_
          cases p with
          | some p => exact ih p
          | none => exact .run_pure _

theorem getProperty (o : ObjectId) (key : Text) : Along R (getProperty env o key).run :=
  h.getWithin o key _ o

/-! ### Conversions -/

theorem askMethods (o : ObjectId) (names : List String) : Along R (askMethods env o names) := by
  induction names with
  | nil => exact .pure _
  | cons name names ih =>
      refine .bind (h.getProperty o _) fun r => ?_
      split
      · refine .bind (.walks _) fun callable => ?_
        split
        · refine .bind (h.callBare _ _) fun answer => ?_
          split
          · exact ih
          · exact .pure _
          · exact ih
        · exact ih
      · exact ih

section Forms

variable {textOf : ObjectId → Exec σ Text} (htext : ∀ o, Along R (textOf o))
  {deeper : Option (ObjectId → Hint → Exec σ Value)}
  (hdeeper : ∀ form ∈ deeper, ∀ o hint, Along R (form o hint))

include htext hdeeper

omit h in
theorem elementText (self : ObjectId) (v : Value) :
    Along R (elementText textOf deeper self v) := by
  rw [ScriptCore.elementText.eq_def]
  split
  · exact .pure _
  · exact .pure _
  · split
    · exact .pure _
    · rename_i form
      split
      · exact .pure _
      · refine .bind (hdeeper form rfl _ _) fun v => ?_
        split
        · exact .bind (htext _) fun _ => .pure _
        · exact .pure _
  · exact .pure _

omit h in
theorem sequenceForm (self : ObjectId) (elements : List Value) :
    Along R (sequenceForm textOf deeper self elements) := by
  refine .bind ?_ fun _ => .pure _
  induction elements with
  | nil => exact .pure _
  | cons v vs ih =>
      rw [List.mapM_cons]
      exact .bind (elementText htext hdeeper self v) fun _ => .bind ih fun _ => .pure _

theorem ownForm (o : ObjectId) (wantsString : Bool) :
    Along R (ownForm textOf deeper o wantsString) := by
  intro w v w' run
  rw [ScriptCore.ownForm, bind_of_eq (asks_apply _ _)] at run
  cases hp : w.heap.payload o with
  | array es =>
      rw [hp] at run
      exact sequenceForm htext hdeeper o _ run
  | hostSlice s prototypes =>
      rw [hp] at run
      exact R.trans (h.wrapAll ⟨o, by rw [hp]; rfl⟩ (R.refl w) _)
        (sequenceForm htext hdeeper o _ ((bind_of_eq (onHeap_apply _ _) _).symm.trans run))
  | proxy target handler =>
      rw [hp] at run
      cases target with
      | none => exact Along.pure _ run
      | some target =>
          cases deeper with
          | none => exact Along.pure _ run
          | some form => exact hdeeper form rfl _ _ run
  | hostData v =>
      rw [hp] at run
      cases v <;> exact Along.pure _ run
  | _ =>
      rw [hp] at run
      exact Along.pure _ run

theorem primitiveForm (o : ObjectId) (hint : Hint) :
    Along R (primitiveForm env textOf deeper o hint) := by
  refine .bind (h.makes o) fun _ => .bind (.asks _) fun payload => ?_
  cases payload with
  | boxed v => exact .pure _
  | _ =>
      refine .bind (h.askMethods o _) fun answer => ?_
      cases answer with
      | some v => exact .pure _
      | none => exact h.ownForm htext hdeeper o _

end Forms

theorem toPrimitiveWithin {textOf : ObjectId → Exec σ Text} (htext : ∀ o, Along R (textOf o))
    (depth : Nat) (o : ObjectId) (hint : Hint) :
    Along R (toPrimitiveWithin env textOf depth o hint) := by
  induction depth generalizing o hint with
  | zero => exact h.primitiveForm htext (by simp) o hint
  | succ depth ih =>
      refine h.primitiveForm htext ?_ o hint
      rintro form ⟨⟩
      exact ih

theorem textWithin (n : Nat) (o : ObjectId) : Along R (textWithin env n o) := by
  induction n generalizing o with
  | zero => exact .endless
  | succ n ih => exact .bind (h.toPrimitiveWithin ih _ o _) fun _ => .pure _

theorem toPrimitive (o : ObjectId) (hint : Hint) : Along R (toPrimitive env o hint) :=
  h.toPrimitiveWithin (h.textWithin _) _ o hint

theorem primitiveOf (hint : Hint) (v : Value) : Along R (primitiveOf env hint v) := by
  cases v with
  | object o => exact h.toPrimitive o hint
  | _ => exact .pure _

theorem numericOf (v : Value) : Along R (numericOf env v) :=
  .bind (.bind (h.primitiveOf .number v) fun _ => .pure _) fun _ => .pure _

theorem textOf (v : Value) : Along R (textOf env v) :=
  .bind (h.primitiveOf .string v) fun _ => .pure _

theorem callObject (o : ObjectId) (this : Value) (args : List Value) :
    Along R (callObject env o this args).run :=
  h.invoke h.textOf _ o this args

/-! ### Setters and inherited properties -/

theorem callSetter (o : ObjectId) (setter : Option ObjectId) (v : Value) :
    Along R (callSetter env o setter v).run := by
  cases setter with
  | none => exact .run_pure _
  | some s => exact .run_bind (h.callObject s _ _) fun _ => .run_pure _

theorem inheritedWithin (key : Text) (n : Nat) (p : Option ObjectId) :
    Along R (inheritedWithin env key n p) := by
  induction n generalizing p with
  | zero =>
      cases p with
      | none => exact .pure _
      | some p => exact .endless
  | succ n ih =>
      cases p with
      | none => exact .pure _
      | some p =>
          refine .bind (h.ownProperty p key) fun slot => ?_
          cases slot with
          | some slot => exact .pure _
          | none => exact .bind (h.prototypeOf p) fun q => ih q

end Embedding.Guarantees

/-! ### Assignment -/

/-- Besides, assigning by the rules of stored properties, and any change to the elements of an array
and to data of the host, keep the guarantee. -/
structure Embedding.StoreGuarantees (env : Embedding σ) (R : Guarantee σ) : Prop
    extends env.Guarantees R where
  stored : ∀ o key v, Exec.Along R (setStored env o key v).run
  elements : ∀ w o (f : Array Value → Array Value),
    R.holds w { w with heap := w.heap.updatePayload o fun
      | .array es => .array (f es)
      | p => p }
  hostMaps : ∀ w m f, R.holds w { w with heap := w.heap.updateHostMap m f }
  hostSlices : ∀ w s f, R.holds w { w with heap := w.heap.updateHostSlice s f }

namespace Embedding.StoreGuarantees

open Exec

variable (h : env.StoreGuarantees R)

include h

theorem setLength (o : ObjectId) (key : Text) (v : Value) :
    Along R (setLength env o key v).run := by
  refine .run_bind (.run_lift (h.numericOf v)) fun n => .run_bind (.run_asks _) fun payload => ?_
  split
  · split
    · exact .run_bind (.run_throw _) fun _ =>
        .run_bind (.run_modifyHeap fun w => h.elements w o _) fun _ => .run_pure _
    · exact .run_bind (.run_modifyHeap fun w => h.elements w o _) fun _ => .run_pure _
  · exact h.stored o key v

theorem setElement (w : World σ) (o : ObjectId) (size i : Nat) (v : Value) :
    R.holds w { w with heap := (w.heap.setElement o size i v).2 } := by
  rw [Heap.setElement]
  split
  · exact h.elements w o _
  · split
    · exact R.refl w
    · exact h.elements w o fun es => (resized es i).push v

theorem setHostElement (w : World σ) (s : HostSliceId) (i : Nat) (v : HostValue) :
    R.holds w { w with heap := (w.heap.setHostElement s i v).2 } := by
  rw [Heap.setHostElement]
  split
  · exact h.hostSlices w s _
  · split
    · exact h.hostSlices w s _
    · exact R.refl w

theorem assignAt (o : ObjectId) (key : Text) (v : Value) (payload : Payload) :
    Along R (assignAt env o key v payload).run := by
  rw [ScriptCore.assignAt.eq_def]
  split
  · exact .run_bind (.run_modifyHeap fun w => h.hostMaps w _ _) fun _ => .run_pure _
  · split
    · exact .run_onHeap fun w => h.setHostElement w _ _ _
    · exact h.stored o key v
  · split
    · exact .run_onHeap fun w => h.setElement w _ _ _ _
    · split
      · exact h.setLength o key v
      · exact h.stored o key v
  · exact h.stored o key v

theorem setWithin (key : Text) (v : Value) (n : Nat) (o : ObjectId) :
    Along R (setWithin env key v n o).run := by
  induction n generalizing o with
  | zero => exact .endless
  | succ n ih =>
      refine .run_bind (.run_lift (h.makes o)) fun _ => .run_bind (.run_asks _) fun payload => ?_
      split
      · exact ih _
      · exact .run_throw _
      · exact h.assignAt o key v _

theorem setProperty (o : ObjectId) (key : Text) (v : Value) :
    Along R (setProperty env o key v).run :=
  h.setWithin key v _ o

end Embedding.StoreGuarantees

/-! ### Every change of properties -/

/-- Besides, each of the changes that are made to stored properties keeps the guarantee: a slot is
put, the value in one is replaced, and one is erased. -/
structure Embedding.EditGuarantees (env : Embedding σ) (R : Guarantee σ) : Prop
    extends env.Guarantees R where
  puts : ∀ w o key slot, R.holds w { w with heap := w.heap.putSlot o key slot }
  values : ∀ w o key v, R.holds w { w with heap := w.heap.putValue o key v }
  erases : ∀ w o key, R.holds w { w with heap := w.heap.updateProperties o (·.erase key) }
  elements : ∀ w o (f : Array Value → Array Value),
    R.holds w { w with heap := w.heap.updatePayload o fun
      | .array es => .array (f es)
      | p => p }
  hostMaps : ∀ w m f, R.holds w { w with heap := w.heap.updateHostMap m f }
  hostSlices : ∀ w s f, R.holds w { w with heap := w.heap.updateHostSlice s f }

namespace Embedding.EditGuarantees

open Exec

variable (h : env.EditGuarantees R)

include h

theorem addProperty (o : ObjectId) (key : Text) (v : Value) :
    Along R (addProperty o key v : Throws σ Bool).run := by
  refine .run_bind (.run_asks _) fun extensible => ?_
  split
  · exact .run_bind (.run_modifyHeap fun w => h.puts w o _ _) fun _ => .run_pure _
  · exact .run_pure _

theorem assignInherited (o : ObjectId) (key : Text) (v : Value) (inherited : Option Slot) :
    Along R (assignInherited env o key v inherited).run := by
  rw [ScriptCore.assignInherited.eq_def]
  split
  · exact h.callSetter o _ v
  · split
    · exact h.addProperty o key v
    · exact .run_pure _
  · exact h.addProperty o key v

theorem setStored (o : ObjectId) (key : Text) (v : Value) :
    Along R (setStored env o key v).run := by
  refine .run_bind (.run_asks _) fun slot => ?_
  split
  · split
    · exact .run_bind (.run_modifyHeap fun w => h.values w o _ _) fun _ => .run_pure _
    · exact .run_pure _
  · exact h.callSetter o _ v
  · refine .run_bind (.run_lift (h.prototypeOf o)) fun p => ?_
    exact .run_bind (.run_lift (h.inheritedWithin key _ p)) fun r => h.assignInherited o key v r

theorem storeGuarantees : env.StoreGuarantees R where
  toGuarantees := h.toGuarantees
  stored := h.setStored
  elements := h.elements
  hostMaps := h.hostMaps
  hostSlices := h.hostSlices

theorem setProperty (o : ObjectId) (key : Text) (v : Value) :
    Along R (setProperty env o key v).run :=
  h.storeGuarantees.setProperty o key v

theorem defineProperty (o : ObjectId) (key : Text) (slot : Slot) :
    Along R (defineProperty env o key slot) :=
  .bind (h.makes o) fun _ => .modifyHeap fun w => h.puts w o _ _

theorem deleteStored (w : World σ) (o : ObjectId) (key : Text) :
    R.holds w { w with heap :=
      (match (w.heap.object o).properties.get? key with
      | none => (true, w.heap)
      | some slot =>
        if slot.attributes.configurable then (true, w.heap.updateProperties o (·.erase key))
        else (false, w.heap)).2 } := by
  split
  · exact R.refl w
  · split
    · exact h.erases w o key
    · exact R.refl w

theorem deleteKey (w : World σ) (o : ObjectId) (key : Text) :
    R.holds w { w with heap := (w.heap.deleteKey o key).2 } := by
  have stored := h.deleteStored w o key
  rw [Heap.deleteKey]
  cases w.heap.payload o with
  | array es =>
      dsimp only
      split
      · split
        · exact h.elements w o _
        · exact stored
      · exact stored
  | hostMap m prototypes =>
      dsimp only
      split
      · exact h.hostMaps w m _
      · exact stored
  | _ => exact stored

theorem deleteProperty (o : ObjectId) (key : Text) : Along R (deleteProperty env o key) :=
  .bind (h.makes o) fun _ => .onHeap fun w => h.deleteKey w o key

theorem pushElement (o : ObjectId) (v : Value) : Along R (pushElement env o v) := by
  refine .bind (h.makes o) fun _ => .onHeap fun w => ?_
  split
  · exact h.elements w o (·.push v)
  · exact R.refl w

end Embedding.EditGuarantees

/-- Any change at all to stored properties keeps the guarantee, besides any change to the elements of
an array and to data of the host. -/
structure Embedding.WriteGuarantees (env : Embedding σ) (R : Guarantee σ) : Prop
    extends env.Guarantees R where
  properties : ∀ w o f, R.holds w { w with heap := w.heap.updateProperties o f }
  elements : ∀ w o (f : Array Value → Array Value),
    R.holds w { w with heap := w.heap.updatePayload o fun
      | .array es => .array (f es)
      | p => p }
  hostMaps : ∀ w m f, R.holds w { w with heap := w.heap.updateHostMap m f }
  hostSlices : ∀ w s f, R.holds w { w with heap := w.heap.updateHostSlice s f }

namespace Embedding.WriteGuarantees

open Exec

variable (h : env.WriteGuarantees R)

include h

theorem editGuarantees : env.EditGuarantees R where
  toGuarantees := h.toGuarantees
  puts w o _ _ := h.properties w o _
  values w o _ _ := h.properties w o _
  erases w o _ := h.properties w o _
  elements := h.elements
  hostMaps := h.hostMaps
  hostSlices := h.hostSlices

theorem assignAt (o : ObjectId) (key : Text) (v : Value) (payload : Payload) :
    Along R (assignAt env o key v payload).run :=
  h.editGuarantees.storeGuarantees.assignAt o key v payload

theorem setProperty (o : ObjectId) (key : Text) (v : Value) :
    Along R (setProperty env o key v).run :=
  h.editGuarantees.setProperty o key v

theorem defineProperty (o : ObjectId) (key : Text) (slot : Slot) :
    Along R (defineProperty env o key slot) :=
  h.editGuarantees.defineProperty o key slot

theorem deleteProperty (o : ObjectId) (key : Text) : Along R (deleteProperty env o key) :=
  h.editGuarantees.deleteProperty o key

end Embedding.WriteGuarantees

end ScriptCore
