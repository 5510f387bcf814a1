import ScriptCore.Proofs.Object.MapView
import ScriptCore.Proofs.Value.Keys
import ScriptCore.Proofs.Value.Meaning

/-!
# ScriptCore.Proofs.Host.ReadBack

What is written into a container of the host **reads back as the same value**.

Design points:

* The host takes the value over and wraps it again on a read. A number comes back in its canonical
  form, a string as its characters, and data of the host in a new object. Sameness sees none of that
  (`same_wrap_unwrap`).
* What the host cannot give back is left out (`Heap.Returnable`): it has no `undefined`, its texts
  have no lone surrogates, and an error has no identity.
* A container holds its own wrapper as itself, so nothing is special about a wrapper that is written
  into the container it is around.
-/

namespace ScriptCore

namespace Heap

variable {h h' : Heap} {o : ObjectId} {u : HostValue} {v : Value} {a : Allocation}

/-- The host gives the value back as the same value. -/
def Returnable (h : Heap) : Value → Prop
  | .undefined => False
  | .string t => Utf16.isWellFormed t.units = true
  | .object o => ∀ u, h.payload o = .hostData u → ∃ d, u = .foreign d
  | _ => True

/-! ### To the host and back -/

/-- The canonical form of a number is the same number. -/
theorem same_ofBinary64 (h : Heap) (x : Binary64) :
    h.same (.ofBinary64 x) (.double x) = true := by
  rw [Value.ofBinary64]
  split
  · rename_i canonical
    simp only [Bool.and_eq_true, decide_eq_true_eq] at canonical
    obtain ⟨⟨whole, signed⟩, small⟩ := canonical
    have small : x.truncate.natAbs ≤ 2 ^ 53 := small
    have kept : (Int64.ofInt x.truncate).toInt = x.truncate :=
      Int64.toInt_ofInt_of_le (by omega) (by omega)
    have denotes : x.number? = some (.finite x.truncate) :=
      Value.Numeric.intEqFloat_iff.mp (by simp [Value.Numeric.intEqFloat, whole])
    have nonzero : x.isNegativeZero = false := (Bool.not_eq_true' _).mp signed
    have same : Value.Numeric.same (.int (Int64.ofInt x.truncate).toInt) (.float x) = true := by
      rw [Value.Numeric.same_iff, kept]
      exact ⟨denotes.symm, nonzero.symm⟩
    exact same
  · exact h.same_equivalence.refl _

/-- Data of the host that is given back and wrapped is the same as in the object that held it. -/
theorem same_wrap_of_held (prototypes : HostPrototypes) (held : (h.payload o).hostValue? = some u)
    (reference : u.shared? = some a) (returned : u.returned? = some u) :
    (h.wrap prototypes u).2.same (h.wrap prototypes u).1 (.object o) = true := by
  obtain ⟨obj, wrapped, gives, -⟩ := h.wrap_of_shared prototypes reference
  have live : o.index < h.objects.size := by
    refine lt_size_of_payload fun plain => ?_
    rw [plain] at held
    cases held
  have new : o ≠ (h.addObject obj).1 := by
    rintro rfl
    exact Nat.lt_irrefl _ live
  rw [wrapped]
  refine ((h.addObject obj).2.sameIdentity_iff _ _).mpr (.inr ⟨a, ?_, ?_⟩)
  · rw [payload, object_addObject_self, Payload.shared?_eq, gives, returned, Option.bind_some,
      reference]
  · rw [payload, object_addObject_of_ne obj new, ← payload, Payload.shared?_eq, held,
      Option.bind_some, reference]

/-- A value that the host has taken over and that is wrapped again is the same value. -/
theorem same_wrap_unwrap (returnable : h.Returnable v) (prototypes : HostPrototypes) :
    (h.wrap prototypes (h.unwrap v)).2.same (h.wrap prototypes (h.unwrap v)).1 v = true := by
  have numbers {a : Value} {m n : Value.Numeric} (ha : a.numeric? = some m) (hv : v.numeric? = some n)
      (same : m.same n = true) : h.same a v = true := by
    rw [Heap.same, ha, hv]
    exact same
  cases v with
  | undefined => exact absurd returnable id
  | null | boolean | symbol | smi => exact h.same_equivalence.refl _
  | int64 n => exact numbers rfl rfl (beq_self_eq_true _)
  | int32 n => exact numbers rfl rfl (beq_iff_eq.mpr n.toInt_toInt64)
  | uint32 n =>
      refine numbers rfl rfl (beq_iff_eq.mpr ?_)
      exact Int64.toInt_ofNat_of_lt (Nat.lt_trans n.toNat_lt (by decide))
  | double x => exact h.same_ofBinary64 x
  | string t =>
      refine same_iff.mpr ⟨congrArg Meaning.string ?_, rfl⟩
      have kept : Utf16.encode (Utf16.decode t.units) = t.units := beq_iff_eq.mp returnable
      have units : (Text.imported t.toString).units = Utf16.encode t.toString.toList := rfl
      rw [units, Text.toString_eq, String.toList_ofList, kept]
  | object o =>
      rw [unwrap_object]
      cases held : h.payload o with
      | hostMap m p => exact same_wrap_of_held prototypes (by rw [held]; rfl) rfl rfl
      | hostSlice s p => exact same_wrap_of_held prototypes (by rw [held]; rfl) rfl rfl
      | hostData u =>
          obtain ⟨d, rfl⟩ := returnable u held
          exact same_wrap_of_held prototypes (by rw [held]; rfl) rfl rfl
      | _ => exact h.same_equivalence.refl _

theorem payload_of_objects (objects : h'.objects = h.objects) (o : ObjectId) :
    h'.payload o = h.payload o := by
  rw [payload, object_of_objects objects, payload]

/-- What the host takes over depends on the objects alone. -/
theorem unwrap_of_objects (objects : h'.objects = h.objects) (v : Value) :
    h'.unwrap v = h.unwrap v := by
  cases v with
  | object o => rw [unwrap, unwrap, payload_of_objects objects]
  | _ => rfl

theorem Returnable.of_objects (returnable : h.Returnable v) (objects : h'.objects = h.objects) :
    h'.Returnable v := by
  cases v with
  | object o =>
      intro u held
      rw [payload_of_objects objects] at held
      exact returnable u held
  | _ => exact returnable

/-! ### Slices -/

/-- An element is put into a slice of the host, at most one place behind the last, and everything
else stays as it was. -/
structure PutsElement (h : Heap) (s : HostSliceId) (i : Nat) (u : HostValue) (h' : Heap) : Prop where
  /-- The element. -/
  element : (h'.hostSlice s)[i]? = some u
  /-- Other elements are left alone. -/
  others : ∀ j ≠ i, (h'.hostSlice s)[j]? = (h.hostSlice s)[j]?
  /-- The slice grows by one at its end, and nowhere else. -/
  size : (h'.hostSlice s).size =
    if i = (h.hostSlice s).size then (h.hostSlice s).size + 1 else (h.hostSlice s).size
  /-- Other slices are left alone. -/
  slices : ∀ t ≠ s, h'.hostSlice t = h.hostSlice t
  /-- No slice is added. -/
  count : h'.hostSlices.size = h.hostSlices.size
  /-- So is the rest of the heap. -/
  rest : h' = { h with hostSlices := h'.hostSlices }

variable {s t : HostSliceId} {i : Nat}

theorem hostSlice_updateHostSlice_of_ne (f : Array HostValue → Array HostValue) (hne : t ≠ s) :
    (h.updateHostSlice s f).hostSlice t = h.hostSlice t := by
  have index : s.index ≠ t.index := fun same => hne (by cases s; cases t; cases same; rfl)
  simp [hostSlice, updateHostSlice, Array.getElem?_modify, index]

theorem putsElement_updateHostSlice {f : Array HostValue → Array HostValue}
    (live : s.index < h.hostSlices.size) (element : (f (h.hostSlice s))[i]? = some u)
    (others : ∀ j ≠ i, (f (h.hostSlice s))[j]? = (h.hostSlice s)[j]?)
    (size : (f (h.hostSlice s)).size =
      if i = (h.hostSlice s).size then (h.hostSlice s).size + 1 else (h.hostSlice s).size) :
    h.PutsElement s i u (h.updateHostSlice s f) := by
  have changed := hostSlice_updateHostSlice_self live f
  exact ⟨changed ▸ element, changed ▸ others, changed ▸ size,
    fun t hne => hostSlice_updateHostSlice_of_ne f hne, Array.size_modify, rfl⟩

/-- Inside a slice and at its end an element is put. -/
theorem setHostElement_of_le (live : s.index < h.hostSlices.size) (le : i ≤ (h.hostSlice s).size)
    (u : HostValue) :
    ∃ h', h.setHostElement s i u = (true, h') ∧ h.PutsElement s i u h' := by
  rcases Nat.lt_or_eq_of_le le with inside | atEnd
  · refine ⟨_, if_pos inside, putsElement_updateHostSlice live ?_ (fun j hne => ?_) ?_⟩
    · rw [Array.getElem?_setIfInBounds_self_of_lt inside]
    · exact Array.getElem?_setIfInBounds_ne hne.symm
    · rw [if_neg (Nat.ne_of_lt inside), Array.size_setIfInBounds]
  · subst atEnd
    refine ⟨_, (if_neg (Nat.lt_irrefl _)).trans (if_pos rfl),
      putsElement_updateHostSlice live ?_ (fun j hne => ?_) ?_⟩
    · rw [Array.getElem?_push, if_pos rfl]
    · rw [Array.getElem?_push, if_neg hne]
    · rw [if_pos rfl, Array.size_push]

/-- Beyond its end nothing is done. -/
theorem setHostElement_of_gt (gt : (h.hostSlice s).size < i) (u : HostValue) :
    h.setHostElement s i u = (false, h) := by
  rw [setHostElement]
  exact (if_neg (by omega)).trans (if_neg (by omega))

end Heap

/-! ### Writing and reading -/

variable {σ : Type} {env : Embedding σ} {w w' : World σ} {o : ObjectId} {m : HostMapId}
  {s : HostSliceId} {prototypes : HostPrototypes} {key : Text} {i : Nat} {v : Value}

/-- The property reads as the value, and reading it leaves the containers of the host alone. -/
def ReadsBack (env : Embedding σ) (w : World σ) (o : ObjectId) (key : Text) (v : Value) : Prop :=
  ∃ x w', getProperty env o key w = some (.ok x, w') ∧ w'.heap.same x v = true ∧
    w'.heap.hostMaps = w.heap.hostMaps ∧ w'.heap.hostSlices = w.heap.hostSlices

/-- An object that computes a property by wrapping what the host has taken over reads it back. -/
theorem readsBack_of_computed (prototypes : HostPrototypes) (patient : 0 < env.patience)
    (objects : w'.heap.objects = w.heap.objects) (returnable : w.heap.Returnable v)
    (direct : ∀ target handler, w'.heap.payload o ≠ .proxy target handler)
    (ready : ∀ number, w'.heap.payload o ≠ .lazy (some number))
    (computed : w'.heap.computed? o key = (some (w'.heap.wrap prototypes (w.heap.unwrap v)).1,
      (w'.heap.wrap prototypes (w.heap.unwrap v)).2)) : ReadsBack env w' o key v := by
  have behind : w'.heap.behindWithin env.patience o = .object o := by
    obtain ⟨n, patience⟩ := Nat.exists_eq_add_of_lt patient
    rw [patience, Nat.zero_add, Heap.behindWithin]
    cases payload : w'.heap.payload o with
    | proxy target handler => exact absurd payload (direct target handler)
    | _ => rfl
  have containers : (w'.heap.wrap prototypes (w.heap.unwrap v)).2.hostMaps = w'.heap.hostMaps ∧
      (w'.heap.wrap prototypes (w.heap.unwrap v)).2.hostSlices = w'.heap.hostSlices := by
    rcases w'.heap.wrap_cases prototypes (w.heap.unwrap v) with same | ⟨obj, same, -⟩
    · rw [same]
      exact ⟨rfl, rfl⟩
    · rw [same]
      exact ⟨rfl, rfl⟩
  refine ⟨_, _, getProperty_of_reads behind ready (Heap.reads_of_computed computed), ?_, containers⟩
  rw [← Heap.unwrap_of_objects objects v]
  exact Heap.same_wrap_unwrap (returnable.of_objects objects) prototypes

theorem map_reads_back (patient : 0 < env.patience) (returnable : w.heap.Returnable v)
    (around : w.heap.payload o = .hostMap m prototypes) (live : m.index < w.heap.hostMaps.size)
    (key : Text) :
    ∃ w', setProperty env o key v w = some (.ok true, w') ∧
      w.Leaves m (Function.update (w.heap.contents m) key.toString (some (w.heap.unwrap v))) w' ∧
      ReadsBack env w' o key v := by
  let h' := w.heap.updateHostMap m (·.insert key.toString (w.heap.unwrap v))
  refine ⟨{ w with heap := h' }, setProperty_of_around patient around key v,
    World.leaves_updateHostMap (Heap.contents_insert live _ _), ?_⟩
  have around' : h'.payload o = .hostMap m prototypes := around
  refine readsBack_of_computed prototypes patient rfl returnable ?_ ?_ ?_
  · simp [around']
  · simp [around']
  · have entry : (h'.hostMap m)[key.toString]? = some (w.heap.unwrap v) := by
      rw [Heap.hostMap_updateHostMap_self live, Std.TreeMap.getElem?_insert_self]
    rw [Heap.computed?, around']
    dsimp only
    rw [entry]
    rfl

theorem slice_reads_back (patient : 0 < env.patience) (returnable : w.heap.Returnable v)
    (around : w.heap.payload o = .hostSlice s prototypes) (live : s.index < w.heap.hostSlices.size)
    (index : key.arrayIndex? = some i) :
    (i ≤ (w.heap.hostSlice s).size →
      ∃ h', setProperty env o key v w = some (.ok true, { w with heap := h' }) ∧
        w.heap.PutsElement s i (w.heap.unwrap v) h' ∧
        ReadsBack env { w with heap := h' } o key v) ∧
    ((w.heap.hostSlice s).size < i → setProperty env o key v w = some (.ok false, w)) := by
  obtain ⟨n, patience⟩ := Nat.exists_eq_add_of_lt patient
  have ready (number : Nat) : w.heap.payload o ≠ .lazy (some number) := by
    rw [around]
    rintro ⟨⟩
  have assigned : setProperty env o key v w =
      some (.ok (w.heap.setHostElement s i (w.heap.unwrap v)).1,
        { w with heap := (w.heap.setHostElement s i (w.heap.unwrap v)).2 }) := by
    rw [setProperty, patience, Nat.zero_add, setWithin_step (materialize_of_ready ready), around]
    dsimp only
    rw [assignedAt, around, assignAt, index]
    rfl
  rw [assigned]
  refine ⟨fun le => ?_, fun gt => ?_⟩
  · obtain ⟨h', set, puts⟩ := Heap.setHostElement_of_le live le (w.heap.unwrap v)
    rw [set]
    have objects : h'.objects = w.heap.objects := by
      rw [puts.rest]
    have around' : h'.payload o = .hostSlice s prototypes :=
      (Heap.payload_of_objects objects o).trans around
    refine ⟨h', rfl, puts, readsBack_of_computed prototypes patient objects
      returnable ?_ ?_ ?_⟩
    · simp [around']
    · simp [around']
    · rw [Heap.computed?, around', index]
      dsimp only
      rw [puts.element]
  · rw [Heap.setHostElement_of_gt gt]

/-- What is written into a container of the host through an object around it reads back as the same
value, whatever the value is, if the host can give it back at all. The entry that is written is the
only one that changes, in this container and in the others. A slice takes an element inside it and at
its end, where it grows by one, and refuses one beyond. -/
theorem host_containers_keep_values (patient : 0 < env.patience) (returnable : w.heap.Returnable v) :
    (∀ o m prototypes key, w.heap.payload o = .hostMap m prototypes →
      m.index < w.heap.hostMaps.size →
      ∃ w', setProperty env o key v w = some (.ok true, w') ∧
        w.Leaves m (Function.update (w.heap.contents m) key.toString (some (w.heap.unwrap v))) w' ∧
        ReadsBack env w' o key v) ∧
    ∀ o s prototypes key i, w.heap.payload o = .hostSlice s prototypes →
      s.index < w.heap.hostSlices.size → key.arrayIndex? = some i →
      (i ≤ (w.heap.hostSlice s).size →
        ∃ h', setProperty env o key v w = some (.ok true, { w with heap := h' }) ∧
          w.heap.PutsElement s i (w.heap.unwrap v) h' ∧
          ReadsBack env { w with heap := h' } o key v) ∧
      ((w.heap.hostSlice s).size < i → setProperty env o key v w = some (.ok false, w)) :=
  ⟨fun _ _ _ key around live => map_reads_back patient returnable around live key,
    fun _ _ _ _ _ around live index => slice_reads_back patient returnable around live index⟩

/-! ### A slice in itself -/

/-- The host has an empty slice, and an object is around it. -/
def emptySlice : World Unit :=
  { worldOf #[.new (.hostSlice ⟨0⟩ .none) none] with heap.hostSlices := #[#[]] }

/-- The wrapper of a slice, written into the slice, reads back as the same value, and the slice has
one element more. -/
theorem host_containers_keep_values_on_itself :
    0 < fourLinks.patience ∧ emptySlice.heap.Returnable (.object ⟨0⟩) ∧
      ∃ h', setProperty fourLinks ⟨0⟩ (.ofString "0") (.object ⟨0⟩) emptySlice =
          some (.ok true, { emptySlice with heap := h' }) ∧
        (h'.hostSlice ⟨0⟩).size = 1 ∧
        ReadsBack fourLinks { emptySlice with heap := h' } ⟨0⟩ (.ofString "0") (.object ⟨0⟩) := by
  have patient : 0 < fourLinks.patience := by decide
  have returnable : emptySlice.heap.Returnable (.object ⟨0⟩) := fun u held => by cases held
  obtain ⟨h', accepted, puts, back⟩ := ((host_containers_keep_values patient returnable).2 ⟨0⟩ ⟨0⟩
    .none (.ofString "0") 0 rfl Nat.zero_lt_one (by decide)).1 (Nat.zero_le _)
  exact ⟨patient, returnable, h', accepted, puts.size, back⟩

end ScriptCore
