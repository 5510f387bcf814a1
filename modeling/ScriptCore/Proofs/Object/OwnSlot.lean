import ScriptCore.Proofs.Object.LookupEnds

/-!
# ScriptCore.Proofs.Object.OwnSlot

**Own properties**, as the heap has them.

An own property is computed from the payload, or else stored. Only computing wraps anything, so an
own property that is stored or missing is read off the heap without a change
(`made_of_ownProperty_none`, `made_of_ownProperty_governs`).
-/

namespace ScriptCore

/-- The slot has a say when its property is assigned: it calls a setter or refuses. -/
def Slot.governs : Slot → Bool
  | .accessor .. => true
  | .data _ a => !a.writable

namespace Heap

variable {h h' : Heap} {o : ObjectId} {key : Text}

/-! ### Own properties, read off the heap -/

theorem ownSlot?_fst (h : Heap) (o : ObjectId) (k : Text) :
    (h.ownSlot? o k).1 = match (h.computed? o k).1 with
      | some v => some (.data v (if k.isText "length" then .length else .default))
      | none => (h.object o).properties.get? k := by
  cases hc : (h.computed? o k).1 with
  | none => rw [ownSlot?_of_not_computed hc]
  | some v =>
      rw [ownSlot?]
      cases hcomputed : h.computed? o k with
      | mk found h' =>
          rw [hcomputed] at hc
          cases hc
          rfl

/-- A value of the host is wrapped alike in heaps with as many objects. -/
theorem wrap_fst_congr (size : h'.objects.size = h.objects.size) (prototypes : HostPrototypes)
    (v : HostValue) : (h'.wrap prototypes v).1 = (h.wrap prototypes v).1 := by
  cases v <;> simp [wrap, wrapPayload, addObject, size]

/-- A computed property comes from the payload and the data of the host. -/
theorem computed?_fst_congr (payload : h'.payload o = h.payload o)
    (size : h'.objects.size = h.objects.size) (hostMaps : h'.hostMaps = h.hostMaps)
    (hostSlices : h'.hostSlices = h.hostSlices) (k : Text) :
    (h'.computed? o k).1 = (h.computed? o k).1 := by
  rw [computed?, computed?, payload]
  cases h.payload o with
  | hostSlice s prototypes =>
      simp only [hostSlice, hostSlices]
      cases k.arrayIndex? with
      | none => rfl
      | some i =>
          dsimp only
          split
          · exact congrArg some (wrap_fst_congr size prototypes _)
          · rfl
  | hostMap m prototypes =>
      simp only [hostMap, hostMaps]
      split
      · exact congrArg some (wrap_fst_congr size prototypes _)
      · rfl
  | array es => cases k.arrayIndex? <;> rfl
  | hostData v => cases v <;> rfl
  | boxed v =>
      cases v with
      | string t => cases k.arrayIndex? <;> rfl
      | _ => rfl
  | _ => rfl

theorem computed?_updateProperties (h : Heap) (o : ObjectId) (f : PropertyTable → PropertyTable)
    (k : Text) : ((h.updateProperties o f).computed? o k).1 = (h.computed? o k).1 :=
  computed?_fst_congr (payload_updateProperties h o f) (size_updateObject _ _ _) rfl rfl k

/-! ### Looking twice -/

/-- Which properties are computed does not depend on the number of objects. -/
theorem isSome_computed?_congr (payload : h'.payload o = h.payload o)
    (hostMaps : h'.hostMaps = h.hostMaps) (hostSlices : h'.hostSlices = h.hostSlices) (k : Text) :
    (h'.computed? o k).1.isSome = (h.computed? o k).1.isSome := by
  rw [computed?, computed?, payload]
  cases h.payload o with
  | hostSlice s prototypes =>
      simp only [hostSlice, hostSlices]
      cases k.arrayIndex? with
      | none => rfl
      | some i =>
          dsimp only
          split <;> rfl
  | hostMap m prototypes =>
      simp only [hostMap, hostMaps]
      split <;> rfl
  | array es => cases k.arrayIndex? <;> rfl
  | hostData v => cases v <;> rfl
  | boxed v =>
      cases v with
      | string t => cases k.arrayIndex? <;> rfl
      | _ => rfl
  | _ => rfl

/-- Looking a property up wraps at most one value, and only of an object that is there. -/
theorem ownSlot?_snd (h : Heap) (o : ObjectId) (k : Text) :
    (h.ownSlot? o k).2 = h ∨ (h.payload o ≠ .plain ∧
      ∃ prototypes v, (h.ownSlot? o k).2 = (h.wrap prototypes v).2) := by
  have same : (h.ownSlot? o k).2 = (h.computed? o k).2 := by
    rw [ownSlot?]
    cases hc : h.computed? o k with
    | mk found h' => cases found <;> rfl
  rw [same, computed?]
  cases h.payload o with
  | hostSlice s prototypes =>
      cases k.arrayIndex? with
      | none => exact .inl rfl
      | some i =>
          dsimp only
          split
          · exact .inr ⟨by simp, prototypes, _, rfl⟩
          · exact .inl rfl
  | hostMap m prototypes =>
      dsimp only
      split
      · exact .inr ⟨by simp, prototypes, _, rfl⟩
      · exact .inl rfl
  | array es => cases k.arrayIndex? <;> exact .inl rfl
  | hostData v => cases v <;> exact .inl rfl
  | boxed v =>
      cases v with
      | string t => cases k.arrayIndex? <;> exact .inl rfl
      | _ => exact .inl rfl
  | _ => exact .inl rfl

/-- What has been found is found again. -/
theorem isSome_ownSlot?_again (h : Heap) (o : ObjectId) (k : Text) :
    ((h.ownSlot? o k).2.ownSlot? o k).1.isSome = (h.ownSlot? o k).1.isSome := by
  rcases h.ownSlot?_snd o k with same | ⟨wrapped, prototypes, v, same⟩
  · rw [same]
  · rw [same]
    rcases h.wrap_cases prototypes v with same | ⟨obj, same, -⟩
    · rw [same]
    · have object : (h.addObject obj).2.object o = h.object o :=
        object_addObject_of_lt obj (lt_size_of_payload wrapped)
      have computed : ((h.addObject obj).2.computed? o k).1.isSome = (h.computed? o k).1.isSome :=
        isSome_computed?_congr (congrArg Object.payload object) rfl rfl k
      rw [same, ownSlot?_fst, ownSlot?_fst, object]
      revert computed
      cases ((h.addObject obj).2.computed? o k).1 <;> cases (h.computed? o k).1 <;> simp

end Heap

variable {σ : Type}

/-! ### Own properties in a world -/

section World

variable {env : Embedding σ} {w w' : World σ} {o : ObjectId} {key : Text}

theorem ownProperty_of_ready (ready : ∀ number, w.heap.payload o ≠ .lazy (some number)) (k : Text) :
    (ownProperty env o k w).map Prod.fst = some (w.heap.ownSlot? o k).1 := by
  rw [ownProperty, Exec.bind_of_eq (materialize_of_ready ready)]
  rfl

theorem ownPropertyNames_of_ready (ready : ∀ number, w.heap.payload o ≠ .lazy (some number)) :
    ownPropertyNames env o w = some (w.heap.ownNames o, w) := by
  rw [ownPropertyNames, Exec.bind_of_eq (materialize_of_ready ready)]
  rfl

theorem made_of_ownProperty {r : Option Slot} (own : ownProperty env o key w = some (r, w')) :
    ∃ w₁, materialize env o w = some ((), w₁) ∧ r = (w₁.heap.ownSlot? o key).1 ∧
      w' = { w₁ with heap := (w₁.heap.ownSlot? o key).2 } := by
  obtain ⟨_, w₁, made, rest⟩ := Exec.bind_inv own
  cases rest
  exact ⟨w₁, made, rfl, rfl⟩

/-- To find no own property, the object is made and nothing else is done. -/
theorem made_of_ownProperty_none (own : ownProperty env o key w = some (none, w')) :
    materialize env o w = some ((), w') ∧ (w'.heap.object o).properties.get? key = none := by
  obtain ⟨w₁, made, missing, rfl⟩ := made_of_ownProperty own
  rw [ownSlot?_of_none missing.symm]
  rw [Heap.ownSlot?_fst] at missing
  split at missing
  · cases missing
  · exact ⟨made, missing.symm⟩

/-- A slot that has a say is a stored one, because computed properties can be written. -/
theorem made_of_ownProperty_governs {slot : Slot} (governs : slot.governs = true)
    (own : ownProperty env o key w = some (some slot, w')) :
    materialize env o w = some ((), w') ∧ (w'.heap.object o).properties.get? key = some slot := by
  obtain ⟨w₁, made, found, rfl⟩ := made_of_ownProperty own
  cases computed : (w₁.heap.computed? o key).1 with
  | none =>
      rw [ownSlot?_of_not_computed computed] at found ⊢
      exact ⟨made, found.symm⟩
  | some v =>
      rw [Heap.ownSlot?_fst, computed] at found
      cases found
      rw [Slot.governs] at governs
      split at governs <;> cases governs

end World

end ScriptCore
