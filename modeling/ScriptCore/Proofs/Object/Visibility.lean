import ScriptCore.Proofs.Object.Agreement
import ScriptCore.Proofs.Object.Assignment
import ScriptCore.Proofs.Object.Shapes

/-!
# ScriptCore.Proofs.Object.Visibility

An assignment that is accepted is **visible** to the next read.

Design points:

* The recipient of an assignment takes the value in one of three places: the data of the host, the
  elements of an array, or the stored properties. A read computes a property before it looks at the
  stored ones. So the question is whether something is computed where a value has been stored
  (`Payload.hides`): the characters of a string in a box, the length of a slice, the message of an
  error. There the assignment is accepted and has no effect (`boxed_character_stays`).
* What is read may be the value in another form (`Shown`): it has been to the host and back, or it is
  the length of an array.
* Code that runs meanwhile, in a conversion or an initializer, may revoke a proxy that the assignment
  came through. A read then throws.
-/

namespace ScriptCore

/-- Under the key, the payload computes a property, which assignment does not change. -/
def Payload.hides (p : Payload) (key : Text) : Bool :=
  match p with
  | .hostSlice .. => key.isText "length"
  | .hostData (.error _) => key.isText "message"
  | .boxed (.string t) => match key.arrayIndex? with
    | some i => i < t.length
    | none => key.isText "length"
  | _ => false

/-- The object is in the heap, with the data of the host behind it. -/
def Heap.Live (h : Heap) (o : ObjectId) : Prop :=
  o.index < h.objects.size ∧ match h.payload o with
    | .hostMap m _ => m.index < h.hostMaps.size
    | .hostSlice s _ => s.index < h.hostSlices.size
    | _ => True

variable {σ : Type}

/-- What is read of a value that has been assigned to an object with a payload. -/
inductive Shown (env : Embedding σ) (p : Payload) (key : Text) (v : Value) (w w' : World σ) :
    Value → World σ → Prop where
  /-- The value. -/
  | same : Shown env p key v w w' v w'
  /-- The value, taken over by the host and wrapped again. -/
  | wrapped {x h prototypes}
      (host : (∃ m, p = .hostMap m prototypes) ∨
        ∃ s, p = .hostSlice s prototypes ∧ key.arrayIndex?.isSome = true)
      (wrapped : w'.heap.wrap prototypes (w.heap.unwrap v) = (x, h)) :
      Shown env p key v w w' x { w' with heap := h }
  /-- The length of an array: the value as a number of 32 bits. -/
  | length {es x w₁} (array : p = .array es) (name : key.isText "length" = true)
      (number : numericOf env v w = some (x, w₁)) :
      Shown env p key v w w' (.ofNat x.toUInt32.toNat) w'

namespace Heap

variable {h h' : Heap} {o t : ObjectId} {key : Text} {x : Value}

/-- The own property under the key is a value; reading it may wrap it. -/
def Reads (h : Heap) (o : ObjectId) (key : Text) (x : Value) (h' : Heap) : Prop :=
  ∃ a, h.ownSlot? o key = (some (.data x a), h')

theorem reads_of_computed (computed : h.computed? o key = (some x, h')) : h.Reads o key x h' := by
  refine ⟨if key.isText "length" then .length else .default, ?_⟩
  rw [ownSlot?, computed]

theorem reads_of_stored {a : Attributes} (bare : (h.computed? o key).1 = none)
    (own : (h.object o).properties.get? key = some (.data x a)) : h.Reads o key x h := by
  refine ⟨a, ?_⟩
  rw [ownSlot?_of_not_computed bare, own]

/-- Where stored properties are assigned, one is computed only if it hides them. -/
theorem computed?_of_stores (stores : (h.payload o).stores key = true)
    (shown : (h.payload o).hides key = false) : (h.computed? o key).1 = none := by
  rw [computed?]
  cases hp : h.payload o with
  | proxy | hostMap => simp [hp, Payload.stores] at stores
  | array es =>
      rw [hp, Payload.stores, Bool.and_eq_true, Option.isNone_iff_eq_none] at stores
      rw [stores.1]
      simpa using stores.2
  | hostSlice s prototypes =>
      rw [hp, Payload.stores, Option.isNone_iff_eq_none] at stores
      rw [hp, Payload.hides] at shown
      rw [stores]
      simp [shown]
  | hostData v =>
      cases v with
      | error message =>
          rw [hp, Payload.hides] at shown
          simp [shown]
      | _ => rfl
  | boxed v =>
      cases v with
      | string t =>
          rw [hp, Payload.hides] at shown
          cases hi : key.arrayIndex? with
          | none => simpa [hi] using shown
          | some i => simpa [hi] using shown
      | _ => rfl
  | _ => rfl

/-! ### Through proxies -/

/-- A read goes through proxies to the object behind them. -/
theorem getWithin_of_behind (env : Embedding σ) (key : Text) {w : World σ} {n : Nat}
    (receiver : ObjectId)
    (behind : w.heap.behindWithin n o = .object t) :
    (∀ target handler, w.heap.payload t ≠ .proxy target handler) ∧
      ∃ m, getWithin env receiver key n o w = getWithin env receiver key (m + 1) t w := by
  induction n generalizing o with
  | zero => cases behind
  | succ n ih =>
      rw [behindWithin] at behind
      split at behind
      · rename_i target handler hp
        obtain ⟨direct, m, same⟩ := ih behind
        refine ⟨direct, m, ?_⟩
        rw [getWithin, Throws.bind_of_ok (Throws.asks_apply _ _), hp]
        exact same
      · cases behind
      · rename_i noTarget noRevoked
        cases behind
        refine ⟨fun target handler hp => ?_, n, rfl⟩
        cases target with
        | some target => exact noTarget target handler hp
        | none => exact noRevoked handler hp

end Heap

variable {env : Embedding σ} {w w' w₁ w₂ : World σ} {o t : ObjectId} {key : Text} {v x : Value}

/-- What an object behind proxies reads as its own is what a read through them gives. -/
theorem getProperty_of_reads (behind : w.heap.behindWithin env.patience o = .object t)
    (ready : ∀ number, w.heap.payload t ≠ .lazy (some number)) {h : Heap}
    (reads : w.heap.Reads t key x h) :
    getProperty env o key w = some (.ok x, { w with heap := h }) := by
  obtain ⟨direct, m, same⟩ := Heap.getWithin_of_behind env key o behind
  obtain ⟨a, own⟩ := reads
  have found : ownProperty env t key w = some (some (.data x a), { w with heap := h }) := by
    rw [ownProperty, Exec.bind_of_eq (materialize_of_ready ready), Exec.onHeap_apply, own]
  rw [getProperty, same, getWithin_step direct, found]
  rfl

theorem recipientWithin_ready (settled : env.Settled) {n : Nat}
    (recipient : recipientWithin env n o w = some (.ok t, w₁)) :
    (∀ number, w₁.heap.payload t ≠ .lazy (some number)) ∧
      ∀ target handler, w₁.heap.payload t ≠ .proxy target handler := by
  induction n generalizing o w with
  | zero => cases recipient
  | succ n ih =>
      obtain ⟨w₂, made, ⟨target, handler, -, rest⟩ | ⟨rfl, rfl, direct⟩⟩ :=
        recipientWithin_inv recipient
      · exact ih rest
      · exact ⟨settled.ready made, direct⟩

/-- Unless a proxy has been revoked, the recipient of an assignment stays behind them. -/
theorem behindWithin_of_recipient (settled : env.Settled) {n : Nat}
    (recipient : recipientWithin env n o w = some (.ok t, w₁))
    (live : t.index < w₁.heap.objects.size) (later : settles.holds w₁ w')
    (unrevoked : w'.heap.behindWithin n o ≠ .revoked) : w'.heap.behindWithin n o = .object t := by
  induction n generalizing o w with
  | zero => cases recipient
  | succ n ih =>
      rw [Heap.behindWithin] at unrevoked ⊢
      obtain ⟨w₂, made, ⟨target, handler, hp, rest⟩ | ⟨rfl, rfl, direct⟩⟩ :=
        recipientWithin_inv recipient
      · have here : o.index < w₂.heap.objects.size := Heap.lt_size_of_payload (by rw [hp]; simp)
        have way := recipientWithin_along settled.writeGuarantees.toGuarantees n target rest
        have becomes := (settles.trans way later).2 o here
        rw [hp] at becomes
        rcases becomes.of_proxy with kept | revoked
        · rw [kept] at unrevoked ⊢
          exact ih rest unrevoked
        · rw [revoked] at unrevoked
          exact absurd rfl unrevoked
      · have shape := (later.2 t live).shape_eq (settled.ready made) direct
        cases hp' : w'.heap.payload t with
        | proxy target handler =>
            rw [hp'] at shape
            exact absurd (Payload.eq_of_shape_proxy shape.symm) (direct target handler)
        | _ => rfl

/-! ### What the recipient makes of the value -/

theorem Payload.stores_shape (p : Payload) (key : Text) : p.shape.stores key = p.stores key := by
  cases p <;> rfl

theorem Payload.hides_shape (p : Payload) (key : Text) : p.shape.hides key = p.hides key := by
  cases p <;> rfl

theorem stored_of_addProperty (live : t.index < w.heap.objects.size)
    (accepted : addProperty t key v w = some (.ok true, w')) :
    (w'.heap.object t).properties.get? key = some (.data v .default) := by
  rw [addProperty_apply] at accepted
  cases extensible : (w.heap.object t).extensible with
  | false => simp [extensible] at accepted
  | true =>
      simp only [extensible, if_pos, Option.some.injEq, Prod.mk.injEq, true_and] at accepted
      subst accepted
      rw [Heap.putSlot, Heap.properties_updateProperties live, PropertyTable.get?_insert_self]

/-- A value that is accepted by the rules of stored properties is stored, unless a setter is called. -/
theorem stored_of_accepted (settled : env.Settled) (live : t.index < w.heap.objects.size)
    (quiet : ∀ d w', decision env t key w = some (d, w') → d.setter? = none)
    (accepted : setStored env t key v w = some (.ok true, w')) :
    ∃ a, (w'.heap.object t).properties.get? key = some (.data v a) := by
  cases own : (w.heap.object t).properties.get? key with
  | some slot =>
      cases slot with
      | accessor getter setter a =>
          cases (show setter = none from quiet _ _ (decision_own own))
          rw [setStored_accessor own] at accepted
          cases accepted
      | data u a =>
          rw [setStored_data own] at accepted
          cases hw : a.writable with
          | false => simp [hw] at accepted
          | true =>
              simp only [hw, if_pos, Option.some.injEq, Prod.mk.injEq, true_and] at accepted
              subst accepted
              refine ⟨a, ?_⟩
              rw [Heap.putValue, Heap.properties_updateProperties live,
                PropertyTable.get?_update_of_some _ own]
              simp
  | none =>
      rw [setStored_eq_decision] at accepted
      obtain ⟨⟨d, w₁⟩, decided, accepted⟩ := Option.bind_eq_some_iff.mp accepted
      have grows := (decision_along settled.writeGuarantees.toGuarantees t key decided).1
      rcases decision_inv decided with ⟨slot, stored, -⟩ | ⟨slot, rfl⟩
      · rw [own] at stored
        cases stored
      · have live₁ := Nat.lt_of_lt_of_le live grows
        rcases assignInherited_quiet (quiet _ _ decided) with refused | added
        · cases refused.symm.trans accepted
        · exact ⟨.default, stored_of_addProperty live₁ (added.symm.trans accepted)⟩

/-- A conversion leaves an array an array. -/
theorem array_of_numericOf (settled : env.Settled) {es : Array Value}
    (array : w.heap.payload t = .array es) {x : Value.Numeric}
    (number : numericOf env v w = some (x, w')) : ∃ es', w'.heap.payload t = .array es' := by
  have settles := settled.writeGuarantees.numericOf v number
  have shape := (settles.2 t (Heap.lt_size_of_array array)).shape_eq (by simp [array]) (by simp [array])
  cases hp : w'.heap.payload t with
  | array es' => exact ⟨es', rfl⟩
  | _ =>
      rw [hp, array] at shape
      cases shape

theorem length_of_accepted (settled : env.Settled) {es : Array Value}
    (array : w.heap.payload t = .array es)
    (accepted : setLength env t key v w = some (.ok true, w')) :
    ∃ x w₁ es', numericOf env v w = some (x, w₁) ∧ w'.heap.payload t = .array es' ∧
      es'.size = x.toUInt32.toNat := by
  rw [setLength, Throws.lift_bind_eq] at accepted
  obtain ⟨⟨x, w₁⟩, number, accepted⟩ := Option.bind_eq_some_iff.mp accepted
  obtain ⟨es', array'⟩ := array_of_numericOf settled array number
  dsimp only at accepted
  rw [Throws.bind_of_ok (Throws.asks_apply _ _), array'] at accepted
  dsimp only at accepted
  split at accepted
  · cases accepted
  · cases accepted
    refine ⟨x, w₁, resized es' x.toUInt32.toNat, number, ?_, size_resized _ _⟩
    exact Heap.payload_mapElements array' (resized · x.toUInt32.toNat)

/-- A map of the host takes the value over. -/
theorem reads_hostMap {m : HostMapId} {prototypes : HostPrototypes}
    (map : w.heap.payload t = .hostMap m prototypes) (live : m.index < w.heap.hostMaps.size)
    (accepted : assignAt env t key v (.hostMap m prototypes) w = some (.ok true, w')) :
    ∃ x h, w'.heap.Reads t key x h ∧
      Shown env (.hostMap m prototypes) key v w w' x { w' with heap := h } := by
  have map' : w'.heap.payload t = .hostMap m prototypes := by
    cases accepted
    exact map
  have entry : (w'.heap.hostMap m)[key.toString]? = some (w.heap.unwrap v) := by
    cases accepted
    dsimp only
    rw [Heap.hostMap_updateHostMap_self live, Std.TreeMap.getElem?_insert_self]
  cases wrapped : w'.heap.wrap prototypes (w.heap.unwrap v) with
  | mk x h =>
      refine ⟨x, h, Heap.reads_of_computed ?_, .wrapped (.inl ⟨m, rfl⟩) wrapped⟩
      rw [Heap.computed?, map']
      dsimp only
      rw [entry]
      dsimp only
      rw [wrapped]

/-- So does a slice of the host, inside of it and at its end. -/
theorem hostElement_of_accepted {h h' : Heap} {s : HostSliceId} {i : Nat} {u : HostValue}
    (live : s.index < h.hostSlices.size) (accepted : h.setHostElement s i u = (true, h')) :
    (h'.hostSlice s)[i]? = some u ∧ h'.objects = h.objects := by
  rw [Heap.setHostElement] at accepted
  split at accepted
  · rename_i inside
    cases accepted
    refine ⟨?_, rfl⟩
    rw [Heap.hostSlice_updateHostSlice_self live]
    simp [inside]
  · split at accepted
    · rename_i end_
      cases accepted
      refine ⟨?_, rfl⟩
      rw [Heap.hostSlice_updateHostSlice_self live, end_]
      simp
    · cases accepted

theorem reads_hostSlice {s : HostSliceId} {prototypes : HostPrototypes} {i : Nat}
    (slice : w.heap.payload t = .hostSlice s prototypes) (live : s.index < w.heap.hostSlices.size)
    (index : key.arrayIndex? = some i)
    (accepted : assignAt env t key v (.hostSlice s prototypes) w = some (.ok true, w')) :
    ∃ x h, w'.heap.Reads t key x h ∧
      Shown env (.hostSlice s prototypes) key v w w' x { w' with heap := h } := by
  rw [assignAt, index] at accepted
  dsimp only at accepted
  cases hset : w.heap.setHostElement s i (w.heap.unwrap v) with
  | mk b h' =>
      rw [Throws.onHeap_apply, hset] at accepted
      cases accepted
      obtain ⟨element, objects⟩ := hostElement_of_accepted live hset
      have slice' : h'.payload t = .hostSlice s prototypes := by
        rw [Heap.payload, Heap.object, objects, ← Heap.object, ← Heap.payload, slice]
      have host : key.arrayIndex?.isSome = true := by rw [index]; rfl
      cases wrapped : h'.wrap prototypes (w.heap.unwrap v) with
      | mk x h'' =>
          refine ⟨x, h'', Heap.reads_of_computed ?_, .wrapped (.inr ⟨s, rfl, host⟩) wrapped⟩
          rw [Heap.computed?, slice', index]
          dsimp only
          rw [element]
          dsimp only
          rw [wrapped]

/-- An element of an array is the value. -/
theorem element_of_accepted {h h' : Heap} {es : Array Value} {i : Nat}
    (array : h.payload t = .array es) (accepted : h.setElement t es.size i v = (true, h')) :
    ∃ es', h'.payload t = .array es' ∧ es'[i]? = some v := by
  rw [Heap.setElement] at accepted
  split at accepted
  · rename_i inside
    cases accepted
    refine ⟨_, Heap.payload_mapElements array (·.setIfInBounds i v), ?_⟩
    simp [inside]
  · split at accepted
    · cases accepted
    · cases accepted
      refine ⟨_, Heap.payload_mapElements array fun es => (resized es i).push v, ?_⟩
      rw [Array.getElem?_push, size_resized, if_pos rfl]

theorem reads_array (settled : env.Settled) {es : Array Value}
    (array : w.heap.payload t = .array es) (stores : (Payload.array es).stores key = false)
    (accepted : assignAt env t key v (.array es) w = some (.ok true, w')) :
    ∃ x h, w'.heap.Reads t key x h ∧
      Shown env (.array es) key v w w' x { w' with heap := h } := by
  rw [assignAt] at accepted
  cases index : key.arrayIndex? with
  | some i =>
      rw [index] at accepted
      dsimp only at accepted
      cases hset : w.heap.setElement t es.size i v with
      | mk b h' =>
          rw [Throws.onHeap_apply, hset] at accepted
          cases accepted
          obtain ⟨es', array', element⟩ := element_of_accepted array hset
          refine ⟨v, h', Heap.reads_of_computed ?_, .same⟩
          rw [Heap.computed?, array', index]
          dsimp only
          rw [element]
  | none =>
      have name : key.isText "length" = true := by simpa [Payload.stores, index] using stores
      rw [index] at accepted
      dsimp only at accepted
      rw [name, if_pos rfl] at accepted
      obtain ⟨x, w₁, es', number, array', size⟩ := length_of_accepted settled array accepted
      refine ⟨_, w'.heap, Heap.reads_of_computed ?_, .length rfl name number⟩
      rw [Heap.computed?, array', index]
      dsimp only
      rw [name, if_pos rfl, size]

/-- What the recipient of an accepted value reads of it. -/
theorem reads_of_accepted (settled : env.Settled) (live : w.heap.Live t)
    (direct : ∀ target handler, w.heap.payload t ≠ .proxy target handler)
    (ready : ∀ number, w.heap.payload t ≠ .lazy (some number))
    (shown : (w.heap.payload t).hides key = false) (quiet : ¬CallsSetter env w t key)
    (accepted : assignAt env t key v (w.heap.payload t) w = some (.ok true, w')) :
    ∃ x h, w'.heap.Reads t key x h ∧
      Shown env (w.heap.payload t) key v w w' x { w' with heap := h } := by
  have later := settled.writeGuarantees.assignAt t key v _ accepted
  by_cases stores : (w.heap.payload t).stores key = true
  · rw [assignAt_of_stores stores] at accepted
    have noSetter (d : Decision) (w₁ : World σ) (decided : decision env t key w = some (d, w₁)) :
        d.setter? = none := by
      rw [Option.eq_none_iff_forall_ne_some]
      exact fun s hs => quiet ⟨stores, d, w₁, s, decided, hs⟩
    obtain ⟨a, stored⟩ := stored_of_accepted settled live.1 noSetter accepted
    have shape := (later.2 t live.1).shape_eq ready direct
    refine ⟨v, w'.heap, Heap.reads_of_stored (Heap.computed?_of_stores ?_ ?_) stored, .same⟩
    · rw [← Payload.stores_shape, shape, Payload.stores_shape, stores]
    · rw [← Payload.hides_shape, shape, Payload.hides_shape, shown]
  · rw [Bool.not_eq_true] at stores
    cases hp : w.heap.payload t with
    | proxy target handler => exact absurd hp (direct target handler)
    | hostMap m prototypes =>
        rw [hp] at accepted
        exact reads_hostMap hp (by simpa [hp] using live.2) accepted
    | hostSlice s prototypes =>
        rw [hp] at accepted stores
        rw [Payload.stores, Option.isNone_eq_false_iff, Option.isSome_iff_exists] at stores
        obtain ⟨i, index⟩ := stores
        exact reads_hostSlice hp (by simpa [hp] using live.2) index accepted
    | array es =>
        rw [hp] at accepted stores
        exact reads_array settled hp stores accepted
    | _ =>
        rw [hp] at stores
        cases stores

/-- An accepted assignment is visible. It has come to a recipient; and unless a setter was called, or the
recipient computes a property that hides the one assigned, or a proxy on the way has been revoked
meanwhile, the next read gives the value, in the form that it has taken on there. -/
theorem accepted_assignment_shown (settled : env.Settled)
    (accepted : setProperty env o key v w = some (.ok true, w')) :
    ∃ t w₁, recipientWithin env env.patience o w = some (.ok t, w₁) ∧
      (w₁.heap.Live t → (w₁.heap.payload t).hides key = false → ¬CallsSetter env w₁ t key →
        w'.heap.behindWithin env.patience o ≠ .revoked →
        ∃ x w'', getProperty env o key w' = some (.ok x, w'') ∧
          Shown env (w₁.heap.payload t) key v w₁ w' x w'') := by
  rw [setProperty, setWithin_eq_recipient] at accepted
  obtain ⟨⟨r, w₁⟩, recipient, accepted⟩ := Option.bind_eq_some_iff.mp accepted
  cases r with
  | error thrown => cases accepted
  | ok t =>
      refine ⟨t, w₁, recipient, fun live shown quiet unrevoked => ?_⟩
      obtain ⟨ready, direct⟩ := recipientWithin_ready settled recipient
      have later := settled.writeGuarantees.assignAt t key v _ accepted
      obtain ⟨x, h, reads, form⟩ := reads_of_accepted settled live direct ready shown quiet accepted
      have behind := behindWithin_of_recipient settled recipient live.1 later unrevoked
      have ready' (number : Nat) : w'.heap.payload t ≠ .lazy (some number) := by
        have shape := (later.2 t live.1).shape_eq ready direct
        intro lazy
        rw [lazy] at shape
        exact ready number (Payload.eq_of_shape_lazy shape.symm)
      exact ⟨x, _, getProperty_of_reads behind ready' reads, form⟩

theorem fourLinks_settled : fourLinks.Settled where
  natives number this args w r w' run := by cases run
  hosts number args w r w' run := by cases run
  makes number := .pure _
  made number w made w' run := by
    cases run
    rfl

/-- An array of two elements, and a proxy of it. -/
def proxiedPair : World Unit :=
  worldOf #[.new (.array #[.smi 1, .smi 2]) none, .new (.proxy (some ⟨0⟩) none) none]

/-- What is assigned to an element through a proxy is read through it. -/
theorem accepted_assignment_shown_through_proxy :
    fourLinks.Settled ∧ ∃ w', setProperty fourLinks ⟨1⟩ (.ofString "1") (.smi 9) proxiedPair =
        some (.ok true, w') ∧
      (getProperty fourLinks ⟨1⟩ (.ofString "1") w').map Prod.fst = some (.ok (.smi 9)) := by
  obtain ⟨w', accepted⟩ : ∃ w', setProperty fourLinks ⟨1⟩ (.ofString "1") (.smi 9) proxiedPair =
      some (.ok true, w') := ⟨_, rfl⟩
  refine ⟨fourLinks_settled, w', accepted, ?_⟩
  obtain ⟨t, w₁, recipient, visible⟩ := accepted_assignment_shown fourLinks_settled accepted
  cases recipient
  have live : proxiedPair.heap.Live ⟨0⟩ := ⟨by decide, trivial⟩
  have quiet : ¬CallsSetter fourLinks proxiedPair ⟨0⟩ (.ofString "1") := fun ⟨stores, _⟩ => by
    cases stores
  have unrevoked : w'.heap.behindWithin fourLinks.patience ⟨1⟩ ≠ .revoked := by
    cases accepted
    rintro ⟨⟩
  obtain ⟨x, w'', read, form⟩ := visible live rfl quiet unrevoked
  rw [read]
  cases form with
  | same => rfl
  | length array name => cases name
  | wrapped host =>
      rcases host with ⟨m, map⟩ | ⟨s, slice, -⟩
      · cases map
      · cases slice

/-- A box around the string `ab`. -/
def boxedText : World Unit := worldOf #[.new (.boxed (.ofString "ab")) none]

/-- A character of a string in a box stays what it is, though an assignment is accepted. -/
theorem boxed_character_stays :
    ∃ w', setProperty fourLinks ⟨0⟩ (.ofString "0") (.smi 1) boxedText = some (.ok true, w') ∧
      getProperty fourLinks ⟨0⟩ (.ofString "0") w' = some (.ok (.ofString "a"), w') := by
  let w' : World Unit := { boxedText with
    heap := boxedText.heap.putSlot ⟨0⟩ (.ofString "0") (.data (.smi 1) .default) }
  have own : (boxedText.heap.object ⟨0⟩).properties.get? (.ofString "0") = none :=
    PropertyTable.get?_empty _
  have assigned : setProperty fourLinks ⟨0⟩ (.ofString "0") (.smi 1) boxedText =
      setStored fourLinks ⟨0⟩ (.ofString "0") (.smi 1) boxedText := rfl
  refine ⟨w', ?_, rfl⟩
  rw [assigned, setStored_eq_decision, decision_inherited own]
  rfl

end ScriptCore
