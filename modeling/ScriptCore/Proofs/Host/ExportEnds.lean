import ScriptCore.Proofs.Collection.Invariant
import ScriptCore.Proofs.Host.Description
import ScriptCore.Proofs.Host.Export
import ScriptCore.Proofs.Object.ProxyChains
import ScriptCore.Proofs.Object.Shapes

/-!
# ScriptCore.Proofs.Host.ExportEnds

**Deep exports end**, whatever getters and initializers do on the way, with one exception.

Design points:

* What the code of the embedding has to do is said of a family of worlds (`Embedding.Returning`): it
  returns, and stays within the family. An export only adds data of the host to that.
* Code that runs in the middle of an export may change any object but not what kind of object it is
  (`settles`). So the object whose properties are being read does not become a proxy, and a property
  that has been found on it is found there again when it is read.
* What is refused is refused with the name of its type, and that of a proxy is known only if its chain
  ends (`Heap.ProxiesEnd`). An object is refused where it has been copied, so its chain has been
  followed to the end, or where it is no proxy.
* The exception is a map that is exported as a map. Its exported keys are turned into texts after the
  export, and that goes down into containers of the host without looking where it has been. The export
  has no end exactly if there is a key without a bottom (`Heap.Bottomless`).
-/

namespace ScriptCore

variable {σ α β : Type}

/-! ### Objects that stay what they are -/

/-- An object that is there, has been made, and is no proxy. -/
structure Heap.Fixed (h : Heap) (o : ObjectId) : Prop where
  live : o.index < h.objects.size
  ready : ∀ number, h.payload o ≠ .lazy (some number)
  direct : ∀ target handler, h.payload o ≠ .proxy target handler

/-- It stays what it is. -/
theorem Heap.Fixed.stays {w w' : World σ} {o : ObjectId} (fixed : w.heap.Fixed o)
    (later : settles.holds w w') : w'.heap.Fixed o := by
  have shape := (later.2 o fixed.live).shape_eq fixed.ready fixed.direct
  refine ⟨Nat.lt_of_lt_of_le fixed.live later.1, fun number lazy => ?_, fun target handler proxy => ?_⟩
  · rw [lazy] at shape
    exact fixed.ready number (Payload.eq_of_shape_lazy shape.symm)
  · rw [proxy] at shape
    exact fixed.direct target handler (Payload.eq_of_shape_proxy shape.symm)

/-- An object that has been made and has no target gets none. -/
theorem Heap.targetless_stays {w w' : World σ} {o : ObjectId} (later : settles.holds w w')
    (live : o.index < w.heap.objects.size) (ready : ∀ number, w.heap.payload o ≠ .lazy (some number))
    (last : ∀ target handler, w.heap.payload o ≠ .proxy (some target) handler) :
    ∀ target handler, w'.heap.payload o ≠ .proxy (some target) handler := by
  intro target handler payload'
  have kept := later.2 o live
  rw [payload'] at kept
  generalize payload : w.heap.payload o = p at kept
  cases kept with
  | same shape => exact last _ _ (payload.trans (Payload.eq_of_shape_proxy shape.symm))
  | made => exact ready _ payload

theorem Payload.toClass_shape (p : Payload) : p.shape.toClass = p.toClass := by cases p <;> rfl

theorem Heap.Fixed.toClass_eq {w w' : World σ} {o : ObjectId} (fixed : w.heap.Fixed o)
    (later : settles.holds w w') : (w'.heap.object o).toClass = (w.heap.object o).toClass := by
  have shape := (later.2 o fixed.live).shape_eq fixed.ready fixed.direct
  calc (w'.heap.payload o).toClass = (w'.heap.payload o).shape.toClass :=
        (Payload.toClass_shape _).symm
    _ = (w.heap.payload o).shape.toClass := congrArg Payload.toClass shape
    _ = (w.heap.payload o).toClass := Payload.toClass_shape _

/-! ### Worlds in which the embedding's code returns -/

/-- A family of worlds in which getters and initializers return, and leave objects what they are. The
host may get new data, and its data may be wrapped. -/
structure Embedding.Returning (env : Embedding σ) (I : World σ → Prop) : Prop where
  patient : 0 < env.patience
  settled : env.Settled
  makes : ∀ {w : World σ} {o number}, I w → w.heap.payload o = .lazy (some number) →
    ∃ w', materialize env o w = some ((), w') ∧ I w'
  getters : ∀ {w : World σ} {o key getter setter a}, I w →
    (w.heap.object o).properties.get? key = some (.accessor (some getter) setter a) →
    ∃ r w', callBare env getter (.object o) w = some (r, w') ∧ I w'
  grows : ∀ {w : World σ} {h}, I w → w.heap.Extends h → I { w with heap := h }
  wraps : ∀ {w : World σ}, I w → ∀ prototypes v,
    I { w with heap := (w.heap.wrap prototypes v).2 }

namespace Embedding.Returning

variable {env : Embedding σ} {I : World σ → Prop} {w w' : World σ} {o : ObjectId} {key : Text}
  (returning : env.Returning I)

include returning

theorem materialize_ends (hw : I w) (o : ObjectId) :
    ∃ w', materialize env o w = some ((), w') ∧ I w' ∧ settles.holds w w' ∧
      ∀ number, w'.heap.payload o ≠ .lazy (some number) := by
  obtain ⟨w', run, hw'⟩ : ∃ w', materialize env o w = some ((), w') ∧ I w' := by
    by_cases lazy : ∃ number, w.heap.payload o = .lazy (some number)
    · obtain ⟨number, lazy⟩ := lazy
      exact returning.makes hw lazy
    · exact ⟨w, materialize_of_ready fun number hp => lazy ⟨number, hp⟩, hw⟩
  exact ⟨w', run, hw', returning.settled.along_materialize o run, returning.settled.ready run⟩

/-- An own property of an object that has been made is looked up. -/
theorem ownProperty_ends (hw : I w) (fixed : w.heap.Fixed o) (key : Text) :
    ∃ w', ownProperty env o key w = some ((w.heap.ownSlot? o key).1, w') ∧ I w' ∧
      settles.holds w w' ∧ w'.heap = (w.heap.ownSlot? o key).2 := by
  have run : ownProperty env o key w = some ((w.heap.ownSlot? o key).1,
      { w with heap := (w.heap.ownSlot? o key).2 }) := by
    rw [ownProperty, Exec.bind_of_eq (materialize_of_ready fixed.ready), Exec.onHeap_apply]
  refine ⟨_, run, ?_, returning.settled.writeGuarantees.ownProperty o key run, rfl⟩
  rcases w.heap.ownSlot?_snd o key with same | ⟨-, prototypes, v, same⟩
  · rw [same]
    exact hw
  · rw [same]
    exact returning.wraps hw prototypes v

/-- A property that is there is read. -/
theorem getOrUndefined_ends (hw : I w) (fixed : w.heap.Fixed o)
    (own : (w.heap.ownSlot? o key).1.isSome = true) :
    ∃ v w', getOrUndefined env o key w = some (v, w') ∧ I w' ∧ settles.holds w w' := by
  obtain ⟨r, w', run, hw'⟩ : ∃ r w', getProperty env o key w = some (r, w') ∧ I w' := by
    obtain ⟨n, hn⟩ := Nat.exists_eq_add_of_lt returning.patient
    obtain ⟨slot, found⟩ := Option.isSome_iff_exists.mp own
    obtain ⟨w₁, run, hw₁, -, -⟩ := returning.ownProperty_ends hw fixed key
    rw [getProperty, hn, getWithin_step fixed.direct, run, Option.bind_some, found]
    cases slot with
    | data v a => exact ⟨_, w₁, rfl, hw₁⟩
    | accessor getter setter a =>
        cases getter with
        | none => exact ⟨_, w₁, rfl, hw₁⟩
        | some getter =>
            rw [found] at run
            exact returning.getters hw₁ (made_of_ownProperty_governs rfl run).2
  have along := returning.settled.writeGuarantees.getProperty o key run
  exact ⟨_, w', Exec.bind_of_eq (x := (getProperty env o key).run) run _, hw', along⟩

end Embedding.Returning

/-! ### Exports that end -/

/-- From a world, an export ends in the family and leaves objects what they are. -/
def Exports.Ends (I : World σ → Prop) (x : Exports σ α) (w : World σ) : Prop :=
  ∃ r w', x w = some (r, w') ∧ I w' ∧ settles.holds w w'

namespace Exports.Ends

variable {I : World σ → Prop} {w w' : World σ}

theorem pure (a : α) (hw : I w) : Ends I (Pure.pure a : Exports σ α) w :=
  ⟨_, w, rfl, hw, settles.refl w⟩

theorem throw (e : ExportError) (hw : I w) : Ends I (MonadExcept.throw e : Exports σ α) w :=
  ⟨_, w, rfl, hw, settles.refl w⟩

theorem bind {x : Exports σ α} {f : α → Exports σ β} (first : Ends I x w)
    (rest : ∀ a w', I w' → settles.holds w w' → Ends I (f a) w') : Ends I (x >>= f) w := by
  obtain ⟨r, w₁, run, hw₁, later⟩ := first
  cases r with
  | error e => exact ⟨_, w₁, Exports.bind_of_error run f, hw₁, later⟩
  | ok a =>
      obtain ⟨r, w₂, run₂, hw₂, later₂⟩ := rest a w₁ hw₁ later
      exact ⟨r, w₂, (Exports.bind_of_ok run f).trans run₂, hw₂, settles.trans later later₂⟩

theorem asks_bind {r : Heap → α} {f : α → Exports σ β} (rest : Ends I (f (r w.heap)) w) :
    Ends I (Exec.asks r >>= f) w := rest

/-- What is said of an export that ends is said of its run. -/
theorem later {x : Exports σ α} {r : Except ExportError α} (ends : Ends I x w)
    (run : x w = some (r, w')) : settles.holds w w' := by
  obtain ⟨_, _, same, -, later⟩ := ends
  cases run.symm.trans same
  exact later

/-- A step that cannot fail is run first. -/
theorem lift_bind {x : Exec σ α} {f : α → Exports σ β} {a : α} (run : x w = some (a, w'))
    (later : settles.holds w w') (rest : Ends I (f a) w') : Ends I (liftM x >>= f) w := by
  obtain ⟨r, w₂, run₂, hw₂, later₂⟩ := rest
  exact ⟨r, w₂, (Exports.bind_of_ok (Exports.lift_apply run) f).trans run₂, hw₂,
    settles.trans later later₂⟩

theorem mapM {f : α → Exports σ β} (each : ∀ a w, I w → Ends I (f a) w) (items : List α) (hw : I w) :
    Ends I (items.mapM f) w := by
  induction items generalizing w with
  | nil => exact pure [] hw
  | cons a items ih =>
      rw [List.mapM_cons]
      refine (each a w hw).bind fun b w₁ hw₁ _ => (ih hw₁).bind fun bs w₂ hw₂ _ => ?_
      exact pure (b :: bs) hw₂

end Exports.Ends

section Exports

variable {env : Embedding σ} {I : World σ → Prop} {w w' : World σ} {o : ObjectId} {key : Text}
  {child : Value → Exports σ HostValue} (returning : env.Returning I)

include returning

open Exports

theorem Exports.Ends.of_extends {x : Exports σ α} {a : α} {h : Heap} (hw : I w)
    (run : x w = some (.ok a, { w with heap := h })) (grows : w.heap.Extends h) : Ends I x w := by
  refine ⟨_, _, run, returning.grows hw grows, settles_of_shape ?_ fun o _ => ?_⟩
  · rw [grows.rest]
  · rw [grows.payload]

theorem newHostSlice_ends (items : List HostValue) (hw : I w) : Ends I (newHostSlice items) w :=
  .of_extends returning hw rfl (.addHostSlice w.heap items.toArray)

theorem newHostMap_ends (entries : List (String × HostValue)) (hw : I w) :
    Ends I (newHostMap entries) w := by
  have grows := Heap.Extends.addHostMap w.heap (.ofList entries)
  exact .of_extends returning hw rfl grows

variable (parts : ∀ v w, I w → Ends I (child v) w)

include parts

/-- Properties are exported one by one, whatever has become of them by then. -/
theorem exportProperties_ends (names : List Text) (hw : I w) (fixed : w.heap.Fixed o) :
    Ends I (exportProperties env child o names) w := by
  induction names generalizing w with
  | nil => exact .pure [] hw
  | cons name names ih =>
      obtain ⟨w₁, run, hw₁, later, heap⟩ := returning.ownProperty_ends hw fixed name
      rw [exportProperties]
      refine .lift_bind run later ?_
      have fixed₁ := fixed.stays later
      cases found : (w.heap.ownSlot? o name).1 with
      | none => exact ih hw₁ fixed₁
      | some slot =>
          dsimp only
          split
          · have again : (w₁.heap.ownSlot? o name).1.isSome = true := by
              rw [heap, Heap.isSome_ownSlot?_again, found]
              rfl
            obtain ⟨v, w₂, read, hw₂, later₂⟩ := returning.getOrUndefined_ends hw₁ fixed₁ again
            refine .lift_bind read later₂ ((parts v w₂ hw₂).bind fun x w₃ hw₃ later₃ => ?_)
            refine (ih hw₃ ((fixed₁.stays later₂).stays later₃)).bind fun entries w₄ hw₄ _ => ?_
            exact .pure _ hw₄
          · exact ih hw₁ fixed₁

theorem entry_ends (e : Value × Option Value) (hw : I w) :
    Ends I (do
      let key ← child e.1
      let value ← match e.2 with
        | some v => child v
        | none => pure .nil
      newHostSlice [key, value]) w := by
  refine (parts e.1 w hw).bind fun key w₁ hw₁ _ => ?_
  cases e.2 with
  | none => exact newHostSlice_ends returning [key, .nil] hw₁
  | some v =>
      exact (parts v w₁ hw₁).bind fun x w₂ hw₂ _ => newHostSlice_ends returning [key, x] hw₂

theorem exportObject_ends (o : ObjectId) (hw : I w) : Ends I (exportObject env child o) w := by
  obtain ⟨w₁, run, hw₁, later, ready⟩ := returning.materialize_ends hw o
  rw [exportObject]
  refine .lift_bind run later (.asks_bind ?_)
  have properties (direct : ∀ target handler, w₁.heap.payload o ≠ .proxy target handler) :
      Ends I (do newHostMap (← exportProperties env child o (← ownPropertyNames env o))) w₁ := by
    refine .lift_bind (ownPropertyNames_of_ready ready) (settles.refl _) (.bind ?_ ?_)
    · by_cases live : o.index < w₁.heap.objects.size
      · exact exportProperties_ends returning parts _ hw₁ ⟨live, ready, direct⟩
      · -- An object that is not there has no names.
        have dead := Heap.object_of_le (Nat.le_of_not_lt live)
        rw [Heap.ownNames, Heap.computedNames, Heap.payload, dead]
        exact .pure [] hw₁
    · exact fun entries w₂ hw₂ _ => newHostMap_ends returning entries hw₂
  cases payload : w₁.heap.payload o with
  | array elements =>
      exact (Ends.mapM parts elements.toList hw₁).bind fun items w₂ hw₂ _ =>
        newHostSlice_ends returning items hw₂
  | map entries =>
      refine (Ends.mapM (fun e w hw => entry_ends returning parts e hw) entries.toList hw₁).bind ?_
      exact fun items w₂ hw₂ _ => newHostSlice_ends returning items hw₂
  | set entries =>
      refine (Ends.mapM (fun e w hw => parts e.1 w hw) entries.toList hw₁).bind ?_
      exact fun items w₂ hw₂ _ => newHostSlice_ends returning items hw₂
  | boxed v => exact parts v w₁ hw₁
  | date t => exact .pure _ hw₁
  | proxy target handler =>
      cases target with
      | none => exact .pure _ hw₁
      | some target => exact parts (.object target) w₁ hw₁
  | function f => exact .of_extends returning hw₁ rfl (.addHostFunction w₁.heap (.exported o))
  | _ => exact properties fun target handler => by simp [payload]

end Exports

section Deep

variable {env : Embedding σ} {I : World σ → Prop} {w w₁ : World σ} {o : ObjectId}
  (returning : env.Returning I)

include returning

open Exports

theorem exportAt_ends {child : List ObjectId → Value → Exports σ HostValue}
    (parts : ∀ path v w, I w → Ends I (child path v) w) (path : List ObjectId) (v : Value)
    (hw : I w) : Ends I (exportAt env child path v) w := by
  cases v with
  | object o =>
      rw [exportAt]
      refine .asks_bind ?_
      have own : Ends I (if path.contains o then throw .circular
          else if maxExportDepth ≤ path.length then throw (.tooDeep maxExportDepth)
          else exportObject env (child (o :: path)) o) w := by
        split
        · exact .throw _ hw
        · split
          · exact .throw _ hw
          · exact exportObject_ends returning (parts (o :: path)) o hw
      cases w.heap.payload o with
      | hostMap m prototypes => exact .pure _ hw
      | hostSlice s prototypes => exact .pure _ hw
      | hostData v => exact .pure _ hw
      | _ => exact own
  | _ => exact .pure (w.heap.unwrap _) hw

/-- An export of any depth ends, for with each object on its path there is room for one fewer. -/
theorem exportWithin_ends (n : Nat) (path : List ObjectId) (v : Value) (hw : I w) :
    Ends I (exportWithin env n path v) w := by
  induction n generalizing path v w with
  | zero => exact exportAt_ends returning (fun _ _ w hw => .throw _ hw) path v hw
  | succ n ih => exact exportAt_ends returning (fun path v w hw => ih path v hw) path v hw

end Deep

/-! ### Refusals

What cannot be exported in a shape is refused with the name of its type. -/

section Refusals

variable {env : Embedding σ} {I : World σ → Prop} {w w' : World σ} {o : ObjectId} {x : HostValue}

/-- A value is refused where its type is known. -/
theorem refusal_ends {v : Value} (hw : I w) (shape : ExportShape)
    (known : ∀ o, v = .object o → ∃ n, w.heap.ProxiesEnd n o) : Exports.Ends I (do
      let source ← (Exec.walks (·.typeOf v) : Exec σ String)
      throw (.incompatible source shape.name) : Exports σ HostValue) w := by
  obtain ⟨source, named⟩ := Option.isSome_iff_exists.mp (Heap.isSome_typeOf_iff.mpr known)
  exact .lift_bind (Exec.walks_of_some named) (settles.refl w) (.throw _ hw)

variable (returning : env.Returning I)

include returning

open Exports

/-- After an object has been copied, its chain of proxies ends: a proxy is copied through its target,
and no code on the way gives one another target. -/
theorem proxiesEnd_of_exportObject {child : Value → Exports σ HostValue}
    (parts : ∀ v w, I w → Ends I (child v) w)
    (deeper : ∀ target w w' x, I w → child (.object target) w = some (.ok x, w') →
      ∃ n, w'.heap.ProxiesEnd n target)
    (hw : I w) (run : exportObject env child o w = some (.ok x, w')) :
    ∃ n, w'.heap.ProxiesEnd n o := by
  obtain ⟨w₁, made, hw₁, -, ready⟩ := returning.materialize_ends hw o
  have again : exportObject env child o w₁ = some (.ok x, w') := by
    rw [← run, exportObject, Exports.bind_of_ok (Exports.lift_apply made),
      Exports.bind_of_ok (Exports.lift_apply (materialize_of_ready ready))]
  have later := (exportObject_ends returning parts o hw₁).later again
  by_cases link : ∃ target handler, w₁.heap.payload o = .proxy (some target) handler
  · obtain ⟨target, handler, link⟩ := link
    rw [exportObject, Exports.bind_of_ok (Exports.lift_apply (materialize_of_ready ready)),
      Exports.bind_of_ok (Exports.asks_apply _ _), link] at again
    obtain ⟨n, rest⟩ := deeper target w₁ w' x hw₁ again
    have kept := later.2 o (Heap.lt_size_of_payload (by simp [link]))
    rw [link] at kept
    rcases kept.of_proxy with kept | revoked
    · exact ⟨n + 1, .next kept rest⟩
    · exact ⟨0, .here (by simp [revoked])⟩
  · have last (target handler) : w₁.heap.payload o ≠ .proxy (some target) handler :=
      fun payload => link ⟨target, handler, payload⟩
    rcases Nat.lt_or_ge o.index w₁.heap.objects.size with live | gone
    · exact ⟨0, .here (Heap.targetless_stays later live ready last)⟩
    · -- Of an object that is not there the copy is an empty map.
      have dead := Heap.object_of_le gone
      have payload : w₁.heap.payload o = .plain := congrArg Object.payload dead
      rw [exportObject, Exports.bind_of_ok (Exports.lift_apply (materialize_of_ready ready)),
        Exports.bind_of_ok (Exports.asks_apply _ _), payload] at again
      dsimp only at again
      rw [Exports.bind_of_ok (Exports.lift_apply (ownPropertyNames_of_ready ready)), Heap.ownNames,
        Heap.computedNames, payload, dead] at again
      cases again
      exact ⟨0, .here last⟩

theorem proxiesEnd_of_exportAt {child : List ObjectId → Value → Exports σ HostValue}
    (parts : ∀ path v w, I w → Ends I (child path v) w)
    (deeper : ∀ path target w w' x, I w → child path (.object target) w = some (.ok x, w') →
      ∃ k, w'.heap.ProxiesEnd k target)
    {path : List ObjectId} (hw : I w) (run : exportAt env child path (.object o) w = some (.ok x, w')) :
    ∃ k, w'.heap.ProxiesEnd k o := by
  by_cases backed : w.heap.IsHostBacked o
  · rw [exportAt_leaf (by rintro _ ⟨⟩; exact backed) w (.refl _)] at run
    cases run
    refine ⟨0, .here fun target handler payload => ?_⟩
    rw [Heap.IsHostBacked, payload] at backed
    cases backed
  · rw [exportAt_own backed w (.refl _)] at run
    split at run
    · cases run
    · split at run
      · cases run
      · exact proxiesEnd_of_exportObject returning (parts (o :: path)) (deeper (o :: path)) hw run

/-- The chain of an object that has been copied ends, to any depth. -/
theorem proxiesEnd_of_exportWithin (n : Nat) {path : List ObjectId} (hw : I w)
    (run : exportWithin env n path (.object o) w = some (.ok x, w')) :
    ∃ k, w'.heap.ProxiesEnd k o := by
  induction n generalizing path o w w' x with
  | zero =>
      exact proxiesEnd_of_exportAt returning (fun _ _ w hw => .throw _ hw)
        (by rintro _ _ _ _ _ _ ⟨⟩) hw run
  | succ n ih =>
      exact proxiesEnd_of_exportAt returning
        (fun path v w hw => exportWithin_ends returning n path v hw)
        (fun path target w w' x hw run => ih hw run) hw run

/-- What is done with the copy of an object is done where its chain of proxies ends. -/
theorem copied_ends {f : HostValue → Exports σ α} (hw : I w)
    (rest : ∀ x w', exportAny env (.object o) w = some (.ok x, w') → I w' →
      (∃ n, w'.heap.ProxiesEnd n o) → Ends I (f x) w') :
    Ends I (exportAny env (.object o) >>= f) w := by
  obtain ⟨r, w₁, copy, hw₁, later⟩ := exportWithin_ends returning maxExportDepth [] (.object o) hw
  cases r with
  | error e => exact ⟨_, w₁, Exports.bind_of_error copy f, hw₁, later⟩
  | ok x =>
      obtain ⟨r, w₂, made, hw₂, later₂⟩ :=
        rest x w₁ copy hw₁ (proxiesEnd_of_exportWithin returning maxExportDepth hw copy)
      exact ⟨r, w₂, (Exports.bind_of_ok copy f).trans made, hw₂, settles.trans later later₂⟩

theorem exportAsSlice_ends (o : ObjectId) {refuse : Exports σ HostValue}
    (refused : ∀ w, I w → (∃ n, w.heap.ProxiesEnd n o) → Ends I refuse w) (hw : I w) :
    Ends I (exportAsSlice env o refuse) w := by
  obtain ⟨w₁, run, hw₁, later, -⟩ := returning.materialize_ends hw o
  rw [exportAsSlice]
  refine .lift_bind run later (.asks_bind ?_)
  cases payload : w₁.heap.payload o with
  | array _ | map _ | set _ | hostSlice _ _ | proxy _ _ =>
      refine copied_ends returning hw₁ fun x w₂ _ hw₂ ends => ?_
      cases x with
      | slice s => exact .pure _ hw₂
      | _ => exact refused w₂ hw₂ ends
  | _ => exact refused w₁ hw₁ ⟨0, .here (by simp [payload])⟩

end Refusals

/-! ### Keys -/

namespace Heap

variable {h : Heap} {pairs : HostSliceId} {key : HostValue}

/-- A pair of an exported map has the key. -/
def PairKey (h : Heap) (pairs : HostSliceId) (key : HostValue) : Prop :=
  ∃ s value rest, .slice s ∈ (h.hostSlice pairs).toList ∧
    (h.hostSlice s).toList = key :: value :: rest

end Heap

theorem filterMapM_eq_none_iff {f : α → Option (Option β)} {items : List α} :
    items.filterMapM f = none ↔ ∃ a ∈ items, f a = none := by
  induction items with
  | nil => simp
  | cons a items ih =>
      rw [List.filterMapM_cons]
      cases ha : f a with
      | none => exact iff_of_true rfl ⟨a, List.mem_cons_self, ha⟩
      | some b =>
          have rest : (∃ a' ∈ a :: items, f a' = none) ↔ ∃ a' ∈ items, f a' = none := by
            simp [ha]
          rw [rest, ← ih]
          cases b with
          | none => rfl
          | some b => cases items.filterMapM f <;> simp

/-- The keys of exported pairs have texts unless one has no bottom. -/
theorem Heap.pairEntries_eq_none_iff {h : Heap} {pairs : HostSliceId} :
    pairEntries h (h.hostSlice pairs).toList = none ↔ ∃ key, h.PairKey pairs key ∧ h.Bottomless key := by
  rw [pairEntries, filterMapM_eq_none_iff]
  constructor
  · intro ⟨pair, mem, endless⟩
    cases pair with
    | slice s =>
        dsimp only at endless
        split at endless
        · rename_i key value rest content
          rw [Option.map_eq_none_iff, keyText?_eq_none_iff] at endless
          exact ⟨key, ⟨s, value, rest, mem, content⟩, endless⟩
        · cases endless
    | _ => cases endless
  · intro ⟨key, ⟨s, value, rest, mem, content⟩, bottomless⟩
    refine ⟨_, mem, ?_⟩
    dsimp only
    rw [content]
    dsimp only
    rw [keyText?_eq_none_iff.mpr bottomless, Option.map_none]

/-! ### Shapes -/

section Shapes

variable {env : Embedding σ} {I : World σ → Prop} {w w₀ w₁ : World σ} {o : ObjectId}

/-- A map is exported, and the copy of one of its keys has no bottom. -/
def BottomlessKey (env : Embedding σ) (v : Value) (w : World σ) : Prop :=
  ∃ o w₀ pairs w₁ key, v = .object o ∧ materialize env o w = some ((), w₀) ∧
    exportAny env v w₀ = some (.ok (.slice pairs), w₁) ∧ (w₁.heap.object o).toClass = .map ∧
    w₁.heap.PairKey pairs key ∧ w₁.heap.Bottomless key

/-- What becomes of the copy of an object that may be exported as a map. -/
def mapOfCopy (o : ObjectId) (refuse : Exports σ HostValue) : HostValue → Exports σ HostValue
  | .map m => return .map m
  | .slice pairs => do
    if (← Exec.asks (·.object o |>.toClass)) = .map then
      match ← Exec.asks fun h => pairEntries h (h.hostSlice pairs).toList with
      | some entries => newHostMap entries
      | none => Exec.endless
    else refuse
  | _ => refuse

theorem mapOfCopy_ends (returning : env.Returning I) {refuse : Exports σ HostValue}
    (refused : Exports.Ends I refuse w) (x : HostValue) (hw : I w)
    (bottom : ∀ pairs key, x = .slice pairs → (w.heap.object o).toClass = .map →
      w.heap.PairKey pairs key → ¬w.heap.Bottomless key) :
    Exports.Ends I (mapOfCopy o refuse x) w := by
  cases x with
  | map m => exact .pure _ hw
  | slice pairs =>
      rw [mapOfCopy]
      refine .asks_bind ?_
      split
      · rename_i isMap
        refine .asks_bind ?_
        cases entries : pairEntries w.heap (w.heap.hostSlice pairs).toList with
        | some texts => exact newHostMap_ends returning texts hw
        | none =>
            obtain ⟨key, pair, bottomless⟩ := Heap.pairEntries_eq_none_iff.mp entries
            exact absurd bottomless (bottom pairs key rfl isMap pair)
      · exact refused
  | _ => exact refused

theorem exportAsMap_of_run {refuse : Exports σ HostValue} (run : materialize env o w = some ((), w₀)) :
    exportAsMap env o refuse w = match w₀.heap.payload o with
      | .array _ | .set _ | .hostSlice .. | .hostData _ => refuse w₀
      | _ => (exportAny env (.object o) >>= mapOfCopy o refuse) w₀ := by
  rw [exportAsMap, Exports.bind_of_ok (Exports.lift_apply run),
    Exports.bind_of_ok (Exports.asks_apply _ _)]
  cases w₀.heap.payload o <;> rfl

theorem exportAsMap_ends (returning : env.Returning I) {refuse : Exports σ HostValue}
    (refused : ∀ w, I w → (∃ n, w.heap.ProxiesEnd n o) → Exports.Ends I refuse w) (hw : I w)
    (bottom : ¬BottomlessKey env (.object o) w) :
    ∃ r w', exportAsMap env o refuse w = some (r, w') ∧ I w' := by
  obtain ⟨w₀, run, hw₀, -, -⟩ := returning.materialize_ends hw o
  rw [exportAsMap_of_run run]
  have copied : Exports.Ends I (exportAny env (.object o) >>= mapOfCopy o refuse) w₀ :=
    copied_ends returning hw₀ fun x w₁ copy hw₁ ends =>
      mapOfCopy_ends returning (refused w₁ hw₁ ends) x hw₁
        fun pairs key same isMap pair bottomless =>
          bottom ⟨o, w₀, pairs, w₁, key, rfl, run, same ▸ copy, isMap, pair, bottomless⟩
  have either (x : Exports σ HostValue) (ends : Exports.Ends I x w₀) :
      ∃ r w', x w₀ = some (r, w') ∧ I w' := by
    obtain ⟨r, w', ended, hw', -⟩ := ends
    exact ⟨r, w', ended, hw'⟩
  cases payload : w₀.heap.payload o with
  | array | set | hostSlice | hostData =>
      exact either _ (refused w₀ hw₀ ⟨0, .here (by simp [payload])⟩)
  | _ => exact either _ copied

theorem exportAsMap_endless (returning : env.Returning I) {refuse : Exports σ HostValue}
    (hw : I w) (endless : BottomlessKey env (.object o) w) : exportAsMap env o refuse w = none := by
  obtain ⟨o', w₀, pairs, w₁, key, same, run, copy, isMap, pair, bottomless⟩ := endless
  cases same
  obtain ⟨w₀', run', hw₀, -, ready⟩ := returning.materialize_ends hw o
  cases run.symm.trans run'
  have later : settles.holds w₀ w₁ :=
    (exportWithin_ends returning maxExportDepth [] (.object o) hw₀).later copy
  have isMap₀ (fixed : w₀.heap.Fixed o) : (w₀.heap.payload o).toClass = .map :=
    (fixed.toClass_eq later).symm.trans isMap
  have fixed {p : Payload} (payload : w₀.heap.payload o = p) (plain : p ≠ .plain)
      (direct : ∀ target handler, p ≠ .proxy target handler) : w₀.heap.Fixed o :=
    ⟨Heap.lt_size_of_payload (payload ▸ plain), ready, payload ▸ direct⟩
  rw [exportAsMap_of_run run]
  have whole : (exportAny env (.object o) >>= mapOfCopy o refuse) w₀ = none := by
    rw [Exports.bind_of_ok copy, mapOfCopy, Exports.bind_of_ok (Exports.asks_apply _ _), if_pos isMap,
      Exports.bind_of_ok (Exports.asks_apply _ _),
      Heap.pairEntries_eq_none_iff.mpr ⟨key, pair, bottomless⟩]
    rfl
  cases payload : w₀.heap.payload o with
  | array | set | hostSlice | hostData =>
      have another := isMap₀ (fixed payload (by simp) (by simp))
      rw [payload] at another
      cases another
  | _ => exact whole

end Shapes

/-- Deep exports end. Where getters and initializers return, exporting any value as what fits best or
as a slice gives a result or an error, whatever of the host's data holds itself. Exporting it as a
map does so too, unless it is a map with a key whose copy leads down to a container that holds itself;
then the export has no end. -/
theorem export_ends {env : Embedding σ} {I : World σ → Prop} {w : World σ}
    (returning : env.Returning I) (hw : I w) (v : Value) :
    (∀ shape, shape = .any ∨ shape = .slice → ∃ r w', exportAs env v shape w = some (r, w') ∧ I w') ∧
    (¬BottomlessKey env v w → ∃ r w', exportAs env v .map w = some (r, w') ∧ I w') ∧
    (BottomlessKey env v w → exportAs env v .map w = none) := by
  have refused (shape : ExportShape) (w : World σ) (hw : I w)
      (known : ∀ o, v = .object o → ∃ n, w.heap.ProxiesEnd n o) := refusal_ends hw shape known
  refine ⟨fun shape which => ?_, fun bottom => ?_, fun bottomless => ?_⟩
  · have ends : Exports.Ends I (exportAs env v shape) w := by
      rcases which with rfl | rfl
      · exact exportWithin_ends returning maxExportDepth [] v hw
      · cases v with
        | object o =>
            exact exportAsSlice_ends returning o
              (fun w hw ends => refused .slice w hw (by rintro _ ⟨⟩; exact ends)) hw
        | _ => exact refused .slice w hw (by rintro _ ⟨⟩)
    obtain ⟨r, w', run, hw', -⟩ := ends
    exact ⟨r, w', run, hw'⟩
  · cases v with
    | object o =>
        exact exportAsMap_ends returning
          (fun w hw ends => refused .map w hw (by rintro _ ⟨⟩; exact ends)) hw bottom
    | _ =>
        obtain ⟨r, w', run, hw', -⟩ := refused .map w hw (by rintro _ ⟨⟩)
        exact ⟨r, w', run, hw'⟩
  · cases v with
    | object o => exact exportAsMap_endless returning hw bottomless
    | _ =>
        obtain ⟨o, _, _, _, _, same, -⟩ := bottomless
        cases same

/-! ### A slice that holds itself, as a value and as a key -/

theorem Object.Settled.wrapped {payload : Payload} {prototype : Option ObjectId} {h : Heap}
    (settled : h.Settled) (made : (Object.new payload prototype).isInitialized = true) :
    (h.wrapPayload payload prototype).2.Settled := by
  exact Heap.forall_addObject settled (settled_new prototype made)

/-- Where there are no getters and no lazy objects, all there are return. -/
theorem returning_of_settled {env : Embedding σ} (patient : 0 < env.patience) (settled : env.Settled) :
    env.Returning fun w => w.heap.Settled where
  patient := patient
  settled := settled
  makes {w o number} hw lazy := by
    have made := (hw o).made
    rw [Object.isInitialized, show (w.heap.object o).payload = _ from lazy] at made
    cases made
  getters {w o key getter setter a} hw own := by cases (hw o).stored key _ own
  grows {w h} hw grows o := by
    rw [grows.object]
    exact hw o
  wraps {w} hw prototypes v := by
    cases v with
    | map | slice | function | error | foreign => exact .wrapped hw rfl
    | _ => exact hw

/-- A slice of the host that holds itself, an object around it, and a map with one entry. -/
def selfHoldingWorld (key v : Value) : World Unit :=
  ⟨{ Heap.empty with
      hostSlices := #[#[.slice ⟨0⟩]]
      objects := #[.new (.hostSlice ⟨0⟩ .none) none, .new (.map (.insert .empty key (some v))) none] },
    .start, #[], ()⟩

/-- An entry that consists of the object and an integer is copied as a pair. -/
theorem exportAny_selfHoldingWorld (env : Embedding Unit) (key v : Value)
    (leafKey : ∀ o, Collection.storedKey key = .object o → o = ⟨0⟩)
    (leaf : ∀ o, v = .object o → o = ⟨0⟩) :
    ∃ w', exportAny env (.object ⟨1⟩) (selfHoldingWorld key v) = some (.ok (.slice ⟨2⟩), w') ∧
      w'.heap.hostSlices = #[#[.slice ⟨0⟩],
        #[(selfHoldingWorld key v).heap.unwrap (Collection.storedKey key),
          (selfHoldingWorld key v).heap.unwrap v], #[.slice ⟨1⟩]] ∧
      w'.heap.objects = (selfHoldingWorld key v).heap.objects := by
  let w := selfHoldingWorld key v
  let child := exportWithin env 127 [⟨1⟩]
  have backed : w.heap.IsHostBacked ⟨0⟩ := rfl
  have copyKey : child (Collection.storedKey key) w = some (.ok (w.heap.unwrap _), w) :=
    exportAt_leaf (fun o same => leafKey o same ▸ backed) w (.refl _)
  have copy : child v w = some (.ok (w.heap.unwrap v), w) :=
    exportAt_leaf (fun o same => leaf o same ▸ backed) w (.refl _)
  have whole : exportAny env (.object ⟨1⟩) w = exportObject env child ⟨1⟩ w := rfl
  have ready : materialize env ⟨1⟩ w = some ((), w) := rfl
  rw [whole, exportObject, Exports.bind_of_ok (Exports.lift_apply ready),
    Exports.bind_of_ok (Exports.asks_apply _ _),
    show w.heap.payload ⟨1⟩ = .map (Collection.empty.insert key (some v)) from rfl]
  dsimp only
  have entry : (do
      let key ← child (Collection.storedKey key)
      let value ← child v
      newHostSlice [key, value]) w = some (.ok (.slice ⟨1⟩), { w with heap := (w.heap.addHostSlice
        #[w.heap.unwrap (Collection.storedKey key), w.heap.unwrap v]).2 }) := by
    rw [Exports.bind_of_ok copyKey, Exports.bind_of_ok copy]
    rfl
  rw [Collection.toList_insert_empty, List.mapM_cons, List.mapM_nil]
  refine ⟨_, (Exports.bind_of_ok ((Exports.bind_of_ok entry _).trans rfl) _).trans rfl, ?_, ?_⟩
  · rfl
  · rfl

theorem selfHoldingWorld_settled (key v : Value) : (selfHoldingWorld key v).heap.Settled
  | ⟨0⟩ | ⟨1⟩ => Object.settled_new none rfl
  | ⟨_ + 2⟩ => Object.settled_new none rfl

/-- Where there is no code at all, all there is returns. -/
theorem returning_of_codeless (n : Nat) :
    ((default : Embedding Unit).withPatience (n + 1)).Returning fun w => w.heap.Settled :=
  returning_of_settled (Nat.succ_pos n)
    { natives := fun _ _ _ _ _ _ run => nomatch run
      hosts := fun _ _ _ _ _ run => nomatch run
      makes := fun _ _ _ _ run => nomatch run
      made := fun _ _ _ _ run => nomatch run }

/-- As a value the slice is no obstacle, in whatever shape the map is exported. -/
theorem export_ends_with_cyclic_value :
    let env := (default : Embedding Unit).withPatience 1
    let w := selfHoldingWorld (.smi 7) (.object ⟨0⟩)
    env.Returning (fun w => w.heap.Settled) ∧ w.heap.Settled ∧
      ¬BottomlessKey env (.object ⟨1⟩) w ∧
      ∀ shape, shape = .any ∨ shape = .slice ∨ shape = .map →
        ∃ r w', exportAs env (.object ⟨1⟩) shape w = some (r, w') ∧ w'.heap.Settled := by
  intro env w
  have bottom : ¬BottomlessKey env (.object ⟨1⟩) w := by
    intro ⟨o, w₀, pairs, w₁, key, same, run, copy, _, pair, bottomless⟩
    cases same
    cases run.symm.trans (show materialize env ⟨1⟩ w = some ((), w) from rfl)
    obtain ⟨w₁', copy', slices, -⟩ := exportAny_selfHoldingWorld env (.smi 7) (.object ⟨0⟩)
      (by simp [Collection.storedKey]) (by simp)
    cases copy.symm.trans copy'
    obtain ⟨s, value, rest, mem, content⟩ := pair
    -- The only pair is the one of the integer and the slice, and nothing is inside the integer.
    have inside : s = ⟨1⟩ := by simpa [Heap.hostSlice, slices] using mem
    have integer : key = .int 7 := by
      rw [inside, Heap.hostSlice, slices] at content
      exact (List.cons.inj content).1.symm
    obtain ⟨u, deeper, -⟩ := bottomless.contains
    rw [integer] at deeper
    cases deeper
  obtain ⟨shaped, mapped, -⟩ :=
    export_ends (returning_of_codeless 0) (selfHoldingWorld_settled _ _) (.object ⟨1⟩)
  refine ⟨returning_of_codeless 0, selfHoldingWorld_settled _ _, bottom, fun shape which => ?_⟩
  rcases which with rfl | rfl | rfl
  · exact shaped .any (.inl rfl)
  · exact shaped .slice (.inr rfl)
  · exact mapped bottom

/-- As a key it keeps the export as a map from ending, with any patience. -/
theorem export_of_cyclic_key_endless :
    let w := selfHoldingWorld (.object ⟨0⟩) (.smi 7)
    w.heap.Settled ∧ ∀ n, let env := (default : Embedding Unit).withPatience (n + 1)
      env.Returning (fun w => w.heap.Settled) ∧ exportAs env (.object ⟨1⟩) .map w = none := by
  intro w
  refine ⟨selfHoldingWorld_settled _ _, fun n => ?_⟩
  intro env
  refine ⟨returning_of_codeless n,
    exportAsMap_endless (returning_of_codeless n) (selfHoldingWorld_settled _ _) ?_⟩
  obtain ⟨w₁, copy, slices, objects⟩ := exportAny_selfHoldingWorld env (.object ⟨0⟩) (.smi 7)
    (by simp [Collection.storedKey]) (by simp)
  refine ⟨⟨1⟩, w, ⟨2⟩, w₁, .slice ⟨0⟩, rfl, rfl, copy, ?_, ⟨⟨1⟩, .int 7, [], ?_, ?_⟩, ?_⟩
  · rw [Heap.object, objects]
    rfl
  · simp [Heap.hostSlice, slices]
  · rw [Heap.hostSlice, slices]
    rfl
  · have inside : w₁.heap.Contains (.slice ⟨0⟩) (.slice ⟨0⟩) := .item (by simp [Heap.hostSlice, slices])
    exact ⟨.slice ⟨0⟩, .refl, .single inside⟩

end ScriptCore
