import ScriptCore.Proofs.Object.Extensibility
import ScriptCore.Proofs.Object.Visibility

/-!
# ScriptCore.Proofs.Object.Definition

A **definition** goes into the stored properties. It takes effect where they are what reads see and
what assignments ask.

Design points:

* Reads compute a property before they look at the stored ones. An element of an array, a character
  of a string in a box or an entry of a map of the host therefore stays what it was when it is defined
  anew (`definition_unseen_and_overwritten`).
* Assignments to elements and entries do not look at stored properties at all, and a proxy passes
  assignments on. Where they do, a read-only value is for good: `Heap.Fixes` says of the object alone
  all that an assignment asks, and nothing that assigns changes it.
* Setters and conversions run code, which may assign properties too. It is given the embedding that it
  runs in, and the knot is tied at every depth (`tied`).
-/

namespace ScriptCore

/-- The object has a read-only value under the key, and both reads and assignments come to it. -/
structure Heap.Fixes (h : Heap) (o : ObjectId) (key : Text) (slot : Slot) : Prop where
  /-- The value is stored. -/
  own : (h.object o).properties.get? key = some slot
  /-- It must not be written. -/
  readOnly : ∃ v a, slot = .data v a ∧ a.writable = false
  /-- Assignments go by the stored properties. -/
  stores : (h.payload o).stores key = true
  /-- So do reads. -/
  shown : (h.payload o).hides key = false
  /-- The object has been made. -/
  ready : ∀ number, h.payload o ≠ .lazy (some number)

variable {σ : Type}

/-- A read-only value stays. -/
def keepsFixed (o : ObjectId) (key : Text) (slot : Slot) : Guarantee σ where
  holds w w' := w.heap.Fixes o key slot → w'.heap.Fixes o key slot
  refl _ := id
  trans first second fixes := second (first fixes)

/-- Code that keeps a guarantee if all that it is given does: reading, calling, converting and
assigning. -/
structure Respects (code : Embedding σ → Embedding σ) (R : Guarantee σ) : Prop where
  natives : ∀ {env}, env.StoreGuarantees R → ∀ number this args,
    Exec.Along R ((code env).callNative number this args).run
  hosts : ∀ {env}, env.StoreGuarantees R → ∀ number args,
    Exec.Along R ((code env).callHost number args).run
  makes : ∀ {env}, env.StoreGuarantees R → ∀ number, Exec.Along R ((code env).makeLazy number)

/-- Some property of some object is assigned. -/
def Assigned (env : Embedding σ) (w w' : World σ) : Prop :=
  ∃ p key v r, setProperty env p key v w = some (r, w')

variable {env : Embedding σ} {w w' w₁ : World σ} {o p t : ObjectId} {key k : Text} {slot : Slot}
  {v : Value}

/-! ### Read-only values -/

namespace Heap.Fixes

variable {h h' : Heap}

theorem live (fixes : h.Fixes o key slot) : o.index < h.objects.size := lt_size_of_own fixes.own

/-- The table under the key and the kind of the object are all that matters. -/
theorem of_object (fixes : h.Fixes o key slot)
    (own : (h'.object o).properties.get? key = (h.object o).properties.get? key)
    (shape : (h'.payload o).shape = (h.payload o).shape) : h'.Fixes o key slot where
  own := own.trans fixes.own
  readOnly := fixes.readOnly
  stores := by rw [← Payload.stores_shape, shape, Payload.stores_shape, fixes.stores]
  shown := by rw [← Payload.hides_shape, shape, Payload.hides_shape, fixes.shown]
  ready number lazy := by
    rw [lazy] at shape
    exact fixes.ready number (Payload.eq_of_shape_lazy shape.symm)

theorem bare (fixes : h.Fixes o key slot) : (h.computed? o key).1 = none :=
  computed?_of_stores fixes.stores fixes.shown

end Heap.Fixes

/-- What is stored is read, where nothing is computed. -/
theorem ownProperty_of_stored (env : Embedding σ)
    (ready : ∀ number, w.heap.payload o ≠ .lazy (some number))
    (bare : (w.heap.computed? o key).1 = none)
    (own : (w.heap.object o).properties.get? key = some slot) :
    ownProperty env o key w = some (some slot, w) := by
  rw [ownProperty, Exec.bind_of_eq (materialize_of_ready ready), Exec.onHeap_apply,
    ownSlot?_of_not_computed bare, own]

/-- An assignment is refused, and does nothing. -/
theorem setStored_of_fixes (env : Embedding σ) (fixes : w.heap.Fixes o key slot)
    (same : k.units = key.units) (v : Value) : setStored env o k v w = some (.ok false, w) := by
  obtain ⟨u, a, rfl, readOnly⟩ := fixes.readOnly
  have own : (w.heap.object o).properties.get? k = some (.data u a) :=
    (PropertyTable.get?_congr _ same).trans fixes.own
  rw [setStored_data own, readOnly, if_neg Bool.false_ne_true]

theorem setProperty_of_fixes (patient : 0 < env.patience) (fixes : w.heap.Fixes o key slot)
    (same : k.units = key.units) (v : Value) : setProperty env o k v w = some (.ok false, w) := by
  obtain ⟨n, patience⟩ := Nat.exists_eq_add_of_lt patient
  have stores : (w.heap.payload o).stores k = true := by
    rw [← fixes.stores]
    have alike := Text.alike_of_units same
    cases w.heap.payload o <;> simp only [Payload.stores, alike.arrayIndex, alike.isText]
  have recipient : recipientWithin env env.patience o w = some (.ok o, w) := by
    rw [patience, Nat.zero_add, recipientWithin_step (materialize_of_ready fixes.ready)]
    cases payload : w.heap.payload o with
    | proxy => simp [payload, Payload.stores] at stores
    | _ => rfl
  rw [setProperty, setWithin_eq_recipient, recipient, Option.bind_some]
  dsimp only
  rw [assignAt_of_stores stores, setStored_of_fixes env fixes same]

/-! ### What assignments keep -/

theorem keepsFixed_of_object (same : w'.heap.object o = w.heap.object o) :
    (keepsFixed o key slot).holds w w' := fun fixes =>
  fixes.of_object (by rw [same]) (by rw [Heap.payload, same, Heap.payload])

theorem keepsFixed_updateObject (f : Object → Object)
    (own : p = o → (f (w.heap.object o)).properties.get? key =
      (w.heap.object o).properties.get? key)
    (shape : (f (w.heap.object o)).payload.shape = (w.heap.object o).payload.shape) :
    (keepsFixed o key slot).holds w { w with heap := w.heap.updateObject p f } := by
  intro fixes
  by_cases heq : p = o
  · subst heq
    have changed := Heap.object_updateObject_self fixes.live f
    refine fixes.of_object ?_ ?_
    · rw [changed, own rfl]
    · rw [Heap.payload, changed, shape, Heap.payload]
  · exact keepsFixed_of_object (Heap.object_updateObject_of_ne (Ne.symm heq) f) fixes

theorem keepsFixed_updateObject_of_ne (hne : p ≠ o) (w : World σ) (f : Object → Object) :
    (keepsFixed o key slot).holds w { w with heap := w.heap.updateObject p f } :=
  keepsFixed_of_object (Heap.object_updateObject_of_ne hne.symm f)

theorem keepsFixed_addObject (w : World σ) (obj : Object) :
    (keepsFixed o key slot).holds w { w with heap := (w.heap.addObject obj).2 } := fun fixes =>
  keepsFixed_of_object (Heap.object_addObject_of_lt obj fixes.live) fixes

/-- A slot under another key is put, or one of another object. -/
theorem keepsFixed_putSlot (apart : t = o → (k == key) = false) (w : World σ) (s : Slot) :
    (keepsFixed o key slot).holds w { w with heap := w.heap.putSlot t k s } := by
  refine keepsFixed_updateObject _ (fun heq => ?_) rfl
  dsimp only
  rw [PropertyTable.get?_insert, apart heq, if_neg Bool.false_ne_true]

theorem keepsFixed_putValue (apart : t = o → (k == key) = false) (w : World σ) (v : Value) :
    (keepsFixed o key slot).holds w { w with heap := w.heap.putValue t k v } := by
  refine keepsFixed_updateObject _ (fun heq => ?_) rfl
  dsimp only
  cases present : (w.heap.object o).properties.get? k with
  | none => rw [PropertyTable.update, present]
  | some s =>
      rw [PropertyTable.get?_update_of_some _ present, apart heq, if_neg Bool.false_ne_true]

/-- Assigning by the rules of stored properties keeps a read-only value: the slot itself refuses, and
another one does not matter. -/
theorem keepsFixed_setStored (h : env.Guarantees (keepsFixed o key slot)) (t : ObjectId) (k : Text)
    (v : Value) : Exec.Along (keepsFixed o key slot) (setStored env t k v).run := by
  intro w r w' run fixes
  by_cases same : t = o ∧ k.units = key.units
  · obtain ⟨rfl, same⟩ := same
    cases (setStored_of_fixes env fixes same v).symm.trans run
    exact fixes
  · have apart (heq : t = o) : (k == key) = false := by
      rw [Bool.eq_false_iff, Ne, Text.beq_iff_units]
      exact fun units => same ⟨heq, units⟩
    replace run : setStored env t k v w = some (r, w') := run
    cases own : (w.heap.object t).properties.get? k with
    | some s =>
        cases s with
        | accessor getter setter a =>
            rw [setStored_accessor own] at run
            exact h.callSetter t setter v run fixes
        | data u a =>
            rw [setStored_data own] at run
            cases run
            split
            · exact keepsFixed_putValue apart w v fixes
            · exact fixes
    | none =>
        rw [setStored_eq_decision] at run
        obtain ⟨⟨d, w₁⟩, decided, run⟩ := Option.bind_eq_some_iff.mp run
        have fixes₁ := decision_along h t k decided fixes
        rcases decision_inv decided with ⟨s, stored, -⟩ | ⟨inherited, rfl⟩
        · rw [own] at stored
          cases stored
        · rcases assignInherited_cases env t k v inherited w₁ with
            ⟨-, setter, -, -, called⟩ | refused | added
          · exact h.callSetter t setter v (called.symm.trans run) fixes₁
          · cases refused.symm.trans run
            exact fixes₁
          · rw [Decision.assign, added, addProperty_apply] at run
            cases run
            split
            · exact keepsFixed_putSlot apart w₁ _ fixes₁
            · exact fixes₁

theorem keepsFixed_storeGuarantees (h : env.Guarantees (keepsFixed o key slot)) :
    env.StoreGuarantees (keepsFixed o key slot) where
  toGuarantees := h
  stored := keepsFixed_setStored h
  elements _ _ f :=
    keepsFixed_updateObject _ (fun _ => rfl) (Payload.shape_mapElements _ f)
  hostMaps _ _ _ := keepsFixed_of_object rfl
  hostSlices _ _ _ := keepsFixed_of_object rfl

theorem keepsFixed_guarantees
    (natives : ∀ number this args,
      Exec.Along (keepsFixed o key slot) (env.callNative number this args).run)
    (hosts : ∀ number args, Exec.Along (keepsFixed o key slot) (env.callHost number args).run)
    (makes : ∀ number, Exec.Along (keepsFixed o key slot) (env.makeLazy number)) :
    env.Guarantees (keepsFixed o key slot) where
  makes := along_materialize_of_others makes
    (fun w _ f hne => keepsFixed_updateObject_of_ne hne w f)
    (fun waiting fixes => absurd waiting (fixes.ready _))
  natives := natives
  hosts := hosts
  wraps _ hw v := (keepsFixed o key slot).trans hw ((keepsFixed o key slot).wrap keepsFixed_addObject _ _ v)

/-- At every depth, code that assigns keeps a read-only value. -/
theorem tied_keepsFixed {code : Embedding σ → Embedding σ}
    (respects : Respects code (keepsFixed o key slot)) (depth : Nat) :
    (tied code depth).StoreGuarantees (keepsFixed o key slot) := by
  induction depth with
  | zero =>
      exact keepsFixed_storeGuarantees
        (keepsFixed_guarantees (fun _ _ _ => .endless) (fun _ _ => .endless) fun _ => .endless)
  | succ n ih =>
      exact keepsFixed_storeGuarantees
        (keepsFixed_guarantees (respects.natives ih) (respects.hosts ih) (respects.makes ih))

/-- So does every run of assignments. -/
theorem fixes_of_assigned (h : env.StoreGuarantees (keepsFixed o key slot))
    (fixes : w.heap.Fixes o key slot) (run : Relation.ReflTransGen (Assigned env) w w') :
    w'.heap.Fixes o key slot := by
  induction run with
  | refl => exact fixes
  | tail _ step ih =>
      obtain ⟨p, k, v, r, assigned⟩ := step
      exact h.setProperty p k v assigned ih

/-! ### Definitions -/

/-- The slot is stored, whatever is computed under the key. -/
theorem defineProperty_of_made (made : materialize env o w = some ((), w₁)) (slot : Slot) :
    defineProperty env o key slot w =
      some ((), { w₁ with heap := w₁.heap.putSlot o key slot }) := by
  rw [defineProperty, Exec.bind_of_eq made, Exec.modifyHeap_apply]

theorem payload_putSlot (h : Heap) (o : ObjectId) (key : Text) (slot : Slot) :
    (h.putSlot o key slot).payload o = h.payload o :=
  Heap.payload_updateProperties h o _

theorem get?_putSlot {h : Heap} (live : o.index < h.objects.size) (key : Text) (slot : Slot) :
    ((h.putSlot o key slot).object o).properties.get? key = some slot := by
  rw [Heap.putSlot, Heap.properties_updateProperties live, PropertyTable.get?_insert_self]

/-- A definition takes effect where nothing is computed under the key, and is not seen where something
is. A value that is defined read-only, where assignments go by the stored properties and reads see
them, stays under every later run of assignments, to this object or another, at every depth at which
code is run by them; and each assignment to it is refused and does nothing. -/
theorem definition_takes_effect {code : Embedding σ → Embedding σ} {depth : Nat}
    (patient : 0 < (tied code depth).patience)
    (made : materialize (tied code depth) o w = some ((), w₁))
    (live : o.index < w₁.heap.objects.size)
    (ready : ∀ number, w₁.heap.payload o ≠ .lazy (some number)) (key : Text) (slot : Slot) :
    ∃ w', defineProperty (tied code depth) o key slot w = some ((), w') ∧
      ((w₁.heap.computed? o key).1 = none →
        ownProperty (tied code depth) o key w' = some (some slot, w')) ∧
      ((w₁.heap.computed? o key).1 ≠ none →
        (ownProperty (tied code depth) o key w').map Prod.fst =
          (ownProperty (tied code depth) o key w₁).map Prod.fst) ∧
      ∀ v a, slot = .data v a → a.writable = false → (w₁.heap.payload o).stores key = true →
        (w₁.heap.payload o).hides key = false → Respects code (keepsFixed o key slot) →
        ∀ w'', Relation.ReflTransGen (Assigned (tied code depth)) w' w'' →
          ownProperty (tied code depth) o key w'' = some (some slot, w'') ∧
          ∀ k u, k.units = key.units →
            setProperty (tied code depth) o k u w'' = some (.ok false, w'') := by
  let w' : World σ := { w₁ with heap := w₁.heap.putSlot o key slot }
  have payload : w'.heap.payload o = w₁.heap.payload o := payload_putSlot w₁.heap o key slot
  have stored : (w'.heap.object o).properties.get? key = some slot := get?_putSlot live key slot
  have computed : (w'.heap.computed? o key).1 = (w₁.heap.computed? o key).1 :=
    Heap.computed?_updateProperties w₁.heap o _ key
  have ready' (number : Nat) : w'.heap.payload o ≠ .lazy (some number) := payload ▸ ready number
  refine ⟨w', defineProperty_of_made made slot, fun bare => ?_, fun shown => ?_, ?_⟩
  · exact ownProperty_of_stored _ ready' (computed.trans bare) stored
  · obtain ⟨x, shown⟩ := Option.ne_none_iff_exists'.mp shown
    have after : (ownProperty (tied code depth) o key w').map Prod.fst = _ :=
      ownProperty_of_ready ready' key
    rw [Heap.ownSlot?_fst, computed, shown] at after
    rw [after, ownProperty_of_ready ready, Heap.ownSlot?_fst, shown]
  · intro v a data readOnly stores hides respects w'' later
    have fixes : w'.heap.Fixes o key slot :=
      ⟨stored, ⟨v, a, data, readOnly⟩, payload ▸ stores, payload ▸ hides, ready'⟩
    have fixes' := fixes_of_assigned (tied_keepsFixed respects depth) fixes later
    exact ⟨ownProperty_of_stored _ fixes'.ready fixes'.bare fixes'.own,
      fun k u same => setProperty_of_fixes patient fixes' same u⟩

theorem assigning_respects (o : ObjectId) (key : Text) (slot : Slot) :
    Respects assigning (keepsFixed o key slot) where
  natives h _ _ _ := .run_bind (h.setProperty _ _ _) fun _ => .run_pure _
  hosts _ _ _ := .endless
  makes _ _ := .endless

/-- A property `b` is defined read-only. It stays what it is when `a` is assigned, whose setter assigns
`b`. -/
theorem definition_takes_effect_against_setter :
    let env := tied assigning 2
    let slot : Slot := .data (.smi 7) .frozen
    0 < env.patience ∧ Respects assigning (keepsFixed ⟨0⟩ (.ofString "b") slot) ∧
      ∃ w', defineProperty env ⟨0⟩ (.ofString "b") slot (guardedWorld true) = some ((), w') ∧
        ownProperty env ⟨0⟩ (.ofString "b") w' = some (some slot, w') ∧
        setProperty env ⟨0⟩ (.ofString "b") (.smi 8) w' = some (.ok false, w') ∧
        ∀ r w'', setProperty env ⟨0⟩ (.ofString "a") (.smi 5) w' = some (r, w'') →
          ownProperty env ⟨0⟩ (.ofString "b") w'' = some (some slot, w'') := by
  intro env slot
  have respects := assigning_respects ⟨0⟩ (.ofString "b") slot
  have made : materialize env ⟨0⟩ (guardedWorld true) = some ((), guardedWorld true) := rfl
  obtain ⟨w', defined, seen, -, fixed⟩ := definition_takes_effect (by decide) made (by decide)
    (by rintro number ⟨⟩) (.ofString "b") slot
  have later := fixed _ _ rfl rfl rfl rfl respects
  exact ⟨by decide, respects, w', defined, seen rfl, (later w' .refl).2 _ _ rfl,
    fun r w'' run => (later w'' (.single ⟨_, _, _, r, run⟩)).1⟩

/-- An array without elements. -/
def emptyArray : World Unit := worldOf #[.new (.array #[]) none]

/-- An element of an array that is defined anew is still the old one; and where there is no element yet,
one that is defined read-only is overwritten by an assignment. -/
theorem definition_unseen_and_overwritten :
    (∃ w', defineProperty fourLinks ⟨0⟩ (.ofString "0") (.data (.smi 9) .frozen)
          (singletonWorld true) = some ((), w') ∧
        (ownProperty fourLinks ⟨0⟩ (.ofString "0") w').map Prod.fst =
          some (some (.data (.smi 1) .default))) ∧
      ∃ w' w'', defineProperty fourLinks ⟨0⟩ (.ofString "0") (.data (.smi 1) .frozen) emptyArray =
          some ((), w') ∧
        setProperty fourLinks ⟨0⟩ (.ofString "0") (.smi 2) w' = some (.ok true, w'') ∧
        (ownProperty fourLinks ⟨0⟩ (.ofString "0") w'').map Prod.fst =
          some (some (.data (.smi 2) .default)) :=
  ⟨⟨_, rfl, rfl⟩, _, _, rfl, rfl, rfl⟩

end ScriptCore
