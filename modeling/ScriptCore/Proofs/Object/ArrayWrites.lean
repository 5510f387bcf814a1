import ScriptCore.Proofs.Object.Visibility
import ScriptCore.Proofs.Text.Index

/-!
# ScriptCore.Proofs.Object.ArrayWrites

Assignments **to arrays**, and how far an array grows by them.

Design points:

* An index and `length` change nothing but the elements (`World.OnlyElements`). `WritesElement` and
  `WritesLength` have one rule for each outcome; bounds are sums, so no difference is ever cut off.
* The new length is converted first, and the conversion may run code that changes the array. It is the
  length after the conversion that decides.
* Under other keys, an array is assigned to like any object. Two things may then run code that changes
  the elements: a setter, and the initializer of a lazy object that the look-up comes to
  (`Heap.LooksAt`). Either may add any number of elements (`code_fills_array`).
-/

namespace ScriptCore

variable {σ : Type}

/-- Nothing has changed but the elements of one array, which are now the given ones. -/
structure World.OnlyElements (w w' : World σ) (o : ObjectId) (es : Array Value) : Prop where
  object : w'.heap.object o = { w.heap.object o with payload := .array es }
  others : ∀ p, p ≠ o → w'.heap.object p = w.heap.object p
  size : w'.heap.objects.size = w.heap.objects.size
  rest : w' = { w with heap := { w.heap with objects := w'.heap.objects } }

/-- What assigning `v` to the element `i` of an array with elements `es` does. -/
inductive WritesElement (w : World σ) (o : ObjectId) (es : Array Value) (i : Nat) (v : Value) :
    Bool → World σ → Prop where
  | replaces {w'} (inside : i < es.size) (only : w.OnlyElements w' o (es.set i v inside)) :
      WritesElement w o es i v true w'
  | appends {w' es'} (outside : es.size ≤ i) (near : i ≤ es.size + maxArrayGap)
      (extensible : (w.heap.object o).extensible = true) (only : w.OnlyElements w' o es')
      (size : es'.size = i + 1) (old : ∀ j (hj : j < es.size), es'[j]? = some es[j])
      (gap : ∀ j, es.size ≤ j → j < i → es'[j]? = some .undefined) (last : es'[i]? = some v) :
      WritesElement w o es i v true w'
  | rejected (outside : es.size ≤ i)
      (why : (w.heap.object o).extensible = false ∨ es.size + maxArrayGap < i) :
      WritesElement w o es i v false w

/-- What assigning the length `n` to an array with elements `es` does. -/
inductive WritesLength (w : World σ) (o : ObjectId) (es : Array Value) (n : Nat) :
    Except Thrown Bool → World σ → Prop where
  | resizes {w' es'} (near : n ≤ es.size + maxArrayGap) (only : w.OnlyElements w' o es')
      (size : es'.size = n)
      (old : ∀ j (hj : j < es.size), j < n → es'[j]? = some es[j])
      (gap : ∀ j, es.size ≤ j → j < n → es'[j]? = some .undefined) :
      WritesLength w o es n (.ok true) w'
  | tooLong {e} (far : es.size + maxArrayGap < n) (kind : e.kind = .rangeError)
      (message : e.message = "Invalid array length") : WritesLength w o es n (.error e) w

/-- Looking for what an object inherits under a key comes to an object: nothing before it has the
key. -/
inductive Heap.LooksAt (h : Heap) (key : Text) (o : ObjectId) : ObjectId → Prop where
  | prototype {p} (own : (h.object o).properties.get? key = none)
      (link : (h.object o).prototype = some p) : LooksAt h key o p
  | next {p q} (before : LooksAt h key o p) (missing : (h.ownSlot? p key).1 = none)
      (link : (h.object p).prototype = some q) : LooksAt h key o q

/-- Assigning under the key runs no code: no setter is called and no lazy object is made. -/
structure World.Undisturbed (env : Embedding σ) (w : World σ) (o : ObjectId) (key : Text) :
    Prop where
  quiet : ¬CallsSetter env w o key
  made : ∀ p number, w.heap.LooksAt key o p → w.heap.payload p ≠ .lazy (some number)

/-- A number of primitive values are assigned to an object one after the other. Those under keys of
stored properties run no code. -/
inductive PrimitiveWrites (env : Embedding σ) (o : ObjectId) : Nat → World σ → World σ → Prop where
  | none {w} : PrimitiveWrites env o 0 w w
  | some {m w w₁ w' key v r} (before : PrimitiveWrites env o m w w₁)
      (primitive : v.isObject = false)
      (calm : (w₁.heap.payload o).stores key = true → w₁.Undisturbed env o key)
      (run : setProperty env o key v w₁ = some (r, w')) : PrimitiveWrites env o (m + 1) w w'

/-! ### Elements -/

section Elements

variable {env : Embedding σ} {w w' : World σ} {o : ObjectId} {key : Text} {v : Value}
  {es : Array Value}

theorem getElem?_resized_old {n j : Nat} (hj : j < es.size) (hn : j < n) :
    (resized es n)[j]? = some es[j] := by
  have inside : j < (es.shrink n).size := by
    simp
    omega
  rw [resized, Array.getElem?_append_left inside, Array.getElem?_eq_getElem inside]
  simp

theorem getElem?_resized_gap {n j : Nat} (hj : es.size ≤ j) (hn : j < n) :
    (resized es n)[j]? = some .undefined := by
  rw [resized, Array.getElem?_append_right (by simp; omega), Array.getElem?_replicate, if_pos]
  simp
  omega

theorem onlyElements_mapElements (array : w.heap.payload o = .array es)
    (f : Array Value → Array Value) :
    w.OnlyElements { w with heap := w.heap.updatePayload o (·.mapElements f) } o (f es) where
  object := by
    dsimp only
    rw [Heap.updatePayload, Heap.object_updateObject_self (Heap.lt_size_of_array array),
      show (w.heap.object o).payload = _ from array]
    rfl
  others p hne := Heap.object_updateObject_of_ne hne _
  size := Heap.size_updateObject _ _ _
  rest := rfl

theorem World.OnlyElements.payload (only : w.OnlyElements w' o es) :
    w'.heap.payload o = .array es := by
  rw [Heap.payload, only.object]

/-- An array is assigned to by its own rules. -/
theorem setProperty_array (patient : 0 < env.patience) (array : w.heap.payload o = .array es) :
    setProperty env o key v w = assignAt env o key v (.array es) w := by
  obtain ⟨n, hn⟩ := Nat.exists_eq_add_of_lt patient
  have made : materialize env o w = some ((), w) := materialize_of_ready (by simp [array])
  rw [setProperty, hn, setWithin_step made, array]
  dsimp only
  rw [assignedAt, array]

theorem writesElement (array : w.heap.payload o = .array es) (i : Nat) (v : Value) :
    WritesElement w o es i v (w.heap.setElement o es.size i v).1
      { w with heap := (w.heap.setElement o es.size i v).2 } := by
  rw [Heap.setElement]
  by_cases inside : i < es.size
  · rw [if_pos inside]
    have only := onlyElements_mapElements array (·.setIfInBounds i v)
    rw [Array.setIfInBounds_def, dif_pos inside] at only
    exact .replaces inside only
  · have outside := Nat.le_of_not_lt inside
    rw [if_neg inside]
    split
    · rename_i why
      refine .rejected outside ?_
      simp only [Bool.or_eq_true, Bool.not_eq_true', decide_eq_true_eq] at why
      exact why.imp_right fun far => by omega
    · rename_i allowed
      simp only [Bool.or_eq_true, Bool.not_eq_true', decide_eq_true_eq, not_or,
        Bool.not_eq_false] at allowed
      have size := size_resized es i
      refine .appends outside (by omega) allowed.1
        (onlyElements_mapElements array fun es => (resized es i).push v) ?_ ?_ ?_ ?_
      · rw [Array.size_push, size]
      · intro j hj
        rw [Array.getElem?_push, if_neg (by omega), getElem?_resized_old hj (by omega)]
      · intro j hj hi
        rw [Array.getElem?_push, if_neg (by omega), getElem?_resized_gap hj hi]
      · rw [Array.getElem?_push, size, if_pos rfl]

theorem setProperty_index (patient : 0 < env.patience) (array : w.heap.payload o = .array es)
    {i : Nat} (index : key.arrayIndex? = some i) :
    ∃ ok w', setProperty env o key v w = some (.ok ok, w') ∧ WritesElement w o es i v ok w' := by
  refine ⟨_, _, ?_, writesElement array i v⟩
  rw [setProperty_array patient array, assignAt, index]
  rfl

/-! ### Length -/

theorem setProperty_length (patient : 0 < env.patience) (array : w.heap.payload o = .array es)
    (length : key.isText "length" = true) :
    setProperty env o key v w = (numericOf env v w).bind fun p =>
      match p.2.heap.payload o with
      | .array es =>
        if es.size + maxArrayGap < p.1.toUInt32.toNat then
          some (.error .invalidArrayLength, p.2)
        else some (.ok true, { p.2 with
          heap := p.2.heap.updatePayload o (·.mapElements (resized · p.1.toUInt32.toNat)) })
      | _ => setStored env o key v p.2 := by
  have noIndex : key.arrayIndex? = none := by
    cases index : key.arrayIndex? with
    | none => rfl
    | some i =>
        rw [Text.not_isText_length_of_arrayIndex? index] at length
        cases length
  rw [setProperty_array patient array, assignAt, noIndex]
  dsimp only
  rw [if_pos length, setLength, Throws.lift_bind_eq]
  refine Option.bind_congr fun p _ => ?_
  rw [Throws.bind_of_ok (Throws.asks_apply _ _)]
  cases p.2.heap.payload o with
  | array es =>
      dsimp only
      split <;> rfl
  | _ => rfl

theorem writesLength (array : w.heap.payload o = .array es) (n : Nat) :
    ∃ r w', (if es.size + maxArrayGap < n then some (.error .invalidArrayLength, w)
        else some (.ok true, { w with
          heap := w.heap.updatePayload o (·.mapElements (resized · n)) })) = some (r, w') ∧
      WritesLength w o es n r w' := by
  by_cases far : es.size + maxArrayGap < n
  · exact ⟨_, _, if_pos far, .tooLong far rfl rfl⟩
  · exact ⟨_, _, if_neg far, .resizes (Nat.le_of_not_lt far)
      (onlyElements_mapElements array (resized · n)) (size_resized es n)
      (fun j hj hn => getElem?_resized_old hj hn) fun j hj hn => getElem?_resized_gap hj hn⟩

/-- The length after the conversion decides. -/
theorem setProperty_converted (patient : 0 < env.patience) (array : w.heap.payload o = .array es)
    (length : key.isText "length" = true) {x : Value.Numeric} {w₁ : World σ} {es₁ : Array Value}
    (number : numericOf env v w = some (x, w₁)) (array₁ : w₁.heap.payload o = .array es₁) :
    ∃ r w', setProperty env o key v w = some (r, w') ∧
      WritesLength w₁ o es₁ x.toUInt32.toNat r w' := by
  obtain ⟨r, w', run, writes⟩ := writesLength array₁ x.toUInt32.toNat
  refine ⟨r, w', ?_, writes⟩
  rw [setProperty_length patient array length, number, Option.bind_some]
  dsimp only
  rw [array₁]
  exact run

/-- A primitive value is converted without running anything. -/
theorem numericOf_primitive (primitive : v.isObject = false) :
    numericOf env v w = some (v.primitiveNumber.numeric, w) := by
  cases v with
  | object => cases primitive
  | _ => rfl

end Elements

/-! ### Other keys -/

section Others

variable {env : Embedding σ} {w w' : World σ} {o p q : ObjectId} {key : Text} {v : Value}

/-- Objects that were there are as they were. -/
def World.KeepsObjects (w w' : World σ) : Prop :=
  ∀ p, p.index < w.heap.objects.size → w'.heap.object p = w.heap.object p

theorem prototypeOf_of_ready (ready : ∀ number, w.heap.payload o ≠ .lazy (some number)) :
    prototypeOf env o w = some ((w.heap.object o).prototype, w) := by
  rw [prototypeOf, Exec.bind_of_eq (materialize_of_ready ready)]
  rfl

theorem keepsObjects_ownSlot (w : World σ) (o : ObjectId) (key : Text) :
    w.KeepsObjects { w with heap := (w.heap.ownSlot? o key).2 } := by
  intro p live
  dsimp only
  rcases w.heap.ownSlot?_snd o key with same | ⟨-, prototypes, v, same⟩
  · rw [same]
  · rw [same]
    rcases w.heap.wrap_cases prototypes v with same | ⟨obj, same, -⟩
    · rw [same]
    · rw [same, Heap.object_addObject_of_lt obj live]

/-- A look-up that comes to no lazy object that is to be made wraps at most a value. -/
theorem keepsObjects_inheritedWithin {P : Option ObjectId → Prop}
    (ready : ∀ p, P (some p) → ∀ number, w.heap.payload p ≠ .lazy (some number))
    (next : ∀ p, P (some p) → (w.heap.ownSlot? p key).1 = none → P (w.heap.object p).prototype)
    {n : Nat} {p : Option ObjectId} (hp : P p) {r : Option Slot}
    (found : inheritedWithin env key n p w = some (r, w')) : w.KeepsObjects w' := by
  induction n generalizing p with
  | zero =>
      cases p with
      | none => cases found; exact fun _ _ => rfl
      | some p => cases found
  | succ n ih =>
      cases p with
      | none => cases found; exact fun _ _ => rfl
      | some p =>
          have own : ownProperty env p key w = some ((w.heap.ownSlot? p key).1,
              { w with heap := (w.heap.ownSlot? p key).2 }) := by
            rw [ownProperty, Exec.bind_of_eq (materialize_of_ready (ready p hp))]
            rfl
          rw [inheritedWithin, Exec.bind_of_eq own] at found
          cases slot : (w.heap.ownSlot? p key).1 with
          | some s =>
              rw [slot] at found
              cases found
              exact keepsObjects_ownSlot w p key
          | none =>
              rw [slot, ownSlot?_of_none slot] at found
              have prototype : prototypeOf env p w = some ((w.heap.object p).prototype, w) :=
                prototypeOf_of_ready (ready p hp)
              exact ih (next p hp slot) ((Exec.bind_of_eq prototype _).symm.trans found)

theorem keepsObjects_decision {es : Array Value} (array : w.heap.payload o = .array es)
    (made : ∀ p number, w.heap.LooksAt key o p → w.heap.payload p ≠ .lazy (some number))
    {d : Decision} (decided : decision env o key w = some (d, w')) : w.KeepsObjects w' := by
  cases own : (w.heap.object o).properties.get? key with
  | some slot =>
      rw [decision_own own] at decided
      cases decided
      exact fun _ _ => rfl
  | none =>
      rw [decision_inherited own, prototypeOf_of_ready (by simp [array]), Option.bind_some]
        at decided
      obtain ⟨⟨r, w₁⟩, found, same⟩ := Option.map_eq_some_iff.mp decided
      cases same
      refine keepsObjects_inheritedWithin (P := fun p => ∀ q ∈ p, w.heap.LooksAt key o q)
        (fun p hp number => made p number (hp p rfl)) (fun p hp missing q hq => ?_)
        (fun q hq => ?_) found
      · exact .next (hp p rfl) missing hq
      · exact .prototype own hq

/-- Without a setter, what has been decided leaves payloads alone. -/
theorem payload_of_assign {d : Decision} (quiet : d.setter? = none) {r : Except Thrown Bool}
    (run : d.assign env o key v w = some (r, w')) : w'.heap.payload p = w.heap.payload p := by
  have updated (f : PropertyTable → PropertyTable) :
      (w.heap.updateProperties o f).payload p = w.heap.payload p := by
    by_cases heq : p = o
    · rw [heq, Heap.payload_updateProperties]
    · rw [Heap.payload, Heap.updateProperties, Heap.object_updateObject_of_ne heq, Heap.payload]
  cases d with
  | own slot =>
      cases slot with
      | data u a =>
          rw [Decision.assign] at run
          split at run <;> cases run
          · exact updated _
          · rfl
      | accessor getter setter a =>
          cases (show setter = none from quiet)
          cases run
          rfl
  | inherited slot =>
      have cases : assignInherited env o key v slot w = some (.ok false, w) ∨
          assignInherited env o key v slot w = addProperty o key v w := assignInherited_quiet quiet
      rcases cases with refuses | adds
      · cases refuses.symm.trans run
        rfl
      · replace run := (adds.trans (addProperty_apply o key v w)).symm.trans run
        cases extensible : (w.heap.object o).extensible <;> rw [extensible] at run <;> cases run
        · rfl
        · exact updated _

/-- Under a key of stored properties, an array keeps its elements unless the assignment runs code. -/
theorem payload_of_undisturbed (patient : 0 < env.patience) {es : Array Value}
    (array : w.heap.payload o = .array es) (stores : (Payload.array es).stores key = true)
    (calm : w.Undisturbed env o key) {r : Except Thrown Bool}
    (run : setProperty env o key v w = some (r, w')) : w'.heap.payload o = .array es := by
  have live := Heap.lt_size_of_array array
  rw [setProperty_array patient array, assignAt_of_stores stores, setStored_eq_decision] at run
  obtain ⟨⟨d, w₁⟩, decided, run⟩ := Option.bind_eq_some_iff.mp run
  have quiet : d.setter? = none := by
    rw [Option.eq_none_iff_forall_ne_some]
    exact fun s hs => calm.quiet ⟨array ▸ stores, d, w₁, s, decided, hs⟩
  have same := keepsObjects_decision array calm.made decided o live
  rw [payload_of_assign quiet run, Heap.payload, same]
  exact array

end Others

/-! ### Growth -/

section Growth

variable {env : Embedding σ} {w w' : World σ} {o : ObjectId} {key : Text} {v : Value}
  {es : Array Value}

/-- One primitive value lets an array grow a little, and never beyond the largest length. -/
theorem growth_of_write (patient : 0 < env.patience) (array : w.heap.payload o = .array es)
    (primitive : v.isObject = false)
    (calm : (Payload.array es).stores key = true → w.Undisturbed env o key)
    {r : Except Thrown Bool} (run : setProperty env o key v w = some (r, w')) :
    ∃ es', w'.heap.payload o = .array es' ∧ es'.size ≤ es.size + (maxArrayGap + 1) ∧
      es'.size ≤ max es.size Text.indexLimit := by
  cases index : key.arrayIndex? with
  | some i =>
      obtain ⟨ok, w₁, run₁, writes⟩ := setProperty_index (v := v) patient array index
      cases run₁.symm.trans run
      have small := Text.lt_indexLimit index
      cases writes with
      | replaces inside only =>
          refine ⟨_, only.payload, ?_, ?_⟩ <;> rw [Array.size_set] <;> omega
      | appends outside near _ only size => exact ⟨_, only.payload, by omega, by omega⟩
      | rejected => exact ⟨es, array, by omega, by omega⟩
  | none =>
      by_cases length : key.isText "length" = true
      · obtain ⟨r₁, w₁, run₁, writes⟩ :=
          setProperty_converted patient array length (numericOf_primitive primitive) array
        cases run₁.symm.trans run
        have small := v.primitiveNumber.numeric.toUInt32.toNat_lt
        have limit : Text.indexLimit = 2 ^ 32 - 1 := rfl
        cases writes with
        | resizes near only size => exact ⟨_, only.payload, by omega, by omega⟩
        | tooLong => exact ⟨es, array, by omega, by omega⟩
      · have stores : (Payload.array es).stores key = true := by
          rw [Payload.stores, index]
          simpa using length
        have array' := payload_of_undisturbed patient array stores (calm stores) run
        exact ⟨es, array', by omega, by omega⟩

theorem growth_of_writes (patient : 0 < env.patience) {m : Nat}
    (writes : PrimitiveWrites env o m w w') (array : w.heap.payload o = .array es) :
    ∃ es', w'.heap.payload o = .array es' ∧ es'.size ≤ es.size + m * (maxArrayGap + 1) ∧
      es'.size ≤ max es.size Text.indexLimit := by
  induction writes with
  | none => exact ⟨es, array, by omega, by omega⟩
  | some before primitive calm run ih =>
      obtain ⟨es₁, array₁, growth₁, limit₁⟩ := ih array
      obtain ⟨es', array', growth, limit⟩ := growth_of_write patient array₁ primitive
        (fun stores => calm (array₁ ▸ stores)) run
      refine ⟨es', array', ?_, by omega⟩
      rw [Nat.succ_mul]
      omega

end Growth

/-! ### Main result -/

/-- Assigning to an array replaces or appends one element, with `undefined` before it, or sets the
length, or leaves the elements alone where no code is run. So each primitive value lets it grow by no
more than one element beyond the largest gap. -/
theorem array_writes_stay_dense {env : Embedding σ} (settled : env.Settled)
    (patient : 0 < env.patience) {w : World σ} {o : ObjectId} {es : Array Value}
    (array : w.heap.payload o = .array es) :
    (∀ key v i, key.arrayIndex? = some i → ∃ ok w',
      setProperty env o key v w = some (.ok ok, w') ∧ WritesElement w o es i v ok w') ∧
    (∀ key v, key.isText "length" = true →
      (numericOf env v w = none → setProperty env o key v w = none) ∧
      ∀ x w₁, numericOf env v w = some (x, w₁) → ∃ es₁, w₁.heap.payload o = .array es₁ ∧
        ∃ r w', setProperty env o key v w = some (r, w') ∧
          WritesLength w₁ o es₁ x.toUInt32.toNat r w') ∧
    (∀ key v r w', (Payload.array es).stores key = true → w.Undisturbed env o key →
      setProperty env o key v w = some (r, w') → w'.heap.payload o = .array es) ∧
    ∀ m w', PrimitiveWrites env o m w w' → ∃ es', w'.heap.payload o = .array es' ∧
      es'.size ≤ es.size + m * (maxArrayGap + 1) ∧ es'.size ≤ max es.size Text.indexLimit := by
  refine ⟨fun key v i index => setProperty_index patient array index, fun key v length => ⟨?_, ?_⟩,
    fun key v r w' stores calm run => payload_of_undisturbed patient array stores calm run,
    fun m w' writes => growth_of_writes patient writes array⟩
  · intro endless
    rw [setProperty_length patient array length, endless, Option.bind_none]
  · intro x w₁ number
    obtain ⟨es₁, array₁⟩ := array_of_numericOf settled array number
    exact ⟨es₁, array₁, setProperty_converted patient array length number array₁⟩

/-- An element beyond the end of an array of one element, with a gap between. -/
theorem array_writes_stay_dense_with_gap :
    let w := worldOf #[.new (.array #[.smi 1]) none]
    fourLinks.Settled ∧ w.heap.payload ⟨0⟩ = .array #[.smi 1] ∧
      ∃ w' es, setProperty fourLinks ⟨0⟩ (.ofString "2") (.smi 3) w = some (.ok true, w') ∧
        w'.heap.payload ⟨0⟩ = .array es ∧ es.size = 3 ∧ es[0]? = some (.smi 1) ∧
        es[1]? = some .undefined ∧ es[2]? = some (.smi 3) := by
  intro w
  have array : w.heap.payload ⟨0⟩ = .array #[.smi 1] := rfl
  refine ⟨fourLinks_settled, array, ?_⟩
  obtain ⟨elements, -⟩ := array_writes_stay_dense fourLinks_settled (by decide) array
  obtain ⟨ok, w', run, writes⟩ := elements (.ofString "2") (.smi 3) 2 (by decide)
  cases writes with
  | replaces inside => exact absurd inside (by decide)
  | appends _ _ _ only size old gap last =>
      exact ⟨w', _, run, only.payload, size, old 0 (by decide), gap 1 (by decide) (by decide), last⟩
  | rejected _ why =>
      rcases why with closed | far
      · cases closed
      · exact absurd far (by decide)

/-! ### Code that fills an array -/

theorem World.OnlyElements.trans {w w₁ w' : World σ} {o : ObjectId} {es es' : Array Value}
    (first : w.OnlyElements w₁ o es) (second : w₁.OnlyElements w' o es') :
    w.OnlyElements w' o es' where
  object := by rw [second.object, first.object]
  others p hne := (second.others p hne).trans (first.others p hne)
  size := second.size.trans first.size
  rest := by
    rw [second.rest, first.rest]

theorem callObject_native {env : Embedding σ} (patient : 0 < env.patience) {w : World σ}
    {o f : ObjectId} {number : Nat} {name : Text} {scope : Option FrameId}
    (behind : w.heap.behind o = .object f)
    (code : w.heap.payload f = .function ⟨name, some (.embedded number), scope⟩) (this : Value)
    (args : List Value) : callObject env o this args w = env.callNative number this args w := by
  obtain ⟨n, hn⟩ := Nat.exists_eq_add_of_lt patient
  rw [callObject, hn, invoke, Throws.bind_of_ok (Throws.asks_apply _ _), behind]
  dsimp only
  rw [Throws.bind_of_ok (Throws.asks_apply _ _), code]

/-- Sets the length of the first object twice, each time to a larger one. -/
def fill : Exec Unit Unit := do
  let _ ← trySet fourLinks ⟨0⟩ (.ofString "length") (.smi 65536)
  let _ ← trySet fourLinks ⟨0⟩ (.ofString "length") (.smi 131072)

/-- Code with one function and one initializer, which fill the first object. -/
def filling : Embedding Unit :=
  { fourLinks with
    callNative := fun _ _ _ => do
      fill
      return .undefined
    makeLazy := fun _ => do
      fill
      return .new .plain none }

/-- An empty array with an accessor `y`, which inherits from a lazy object, and the function that is
the setter. -/
def fillableWorld : World Unit :=
  worldOf #[{ Object.new (.array #[]) (some ⟨1⟩) with
      properties := PropertyTable.empty.insert (.ofString "y")
        (.accessor none (some ⟨2⟩) .default) },
    .new (.lazy (some 0)) none,
    .new (.function ⟨.empty, some (.embedded 0), none⟩) none]

theorem fill_run {w : World Unit} (array : w.heap.payload ⟨0⟩ = .array #[]) :
    ∃ w' es, fill w = some ((), w') ∧ w.OnlyElements w' ⟨0⟩ es ∧ es.size = 131072 := by
  have patient : 0 < fourLinks.patience := by decide
  have length : (Text.ofString "length").isText "length" = true := by decide
  have write {w : World Unit} {es : Array Value} (array : w.heap.payload ⟨0⟩ = .array es)
      (n : Int64) (near : n.toInt.toNat ≤ es.size + maxArrayGap)
      (same : ((Value.smi n).primitiveNumber.numeric.toUInt32).toNat = n.toInt.toNat) :
      ∃ w' es', trySet fourLinks ⟨0⟩ (.ofString "length") (.smi n) w = some (true, w') ∧
        w.OnlyElements w' ⟨0⟩ es' ∧ es'.size = n.toInt.toNat := by
    obtain ⟨r, w', run, writes⟩ := setProperty_converted patient array length
      (numericOf_primitive (v := .smi n) rfl) array
    rw [same] at writes
    cases writes with
    | resizes _ only size => exact ⟨w', _, trySet_of_ok run, only, size⟩
    | tooLong far => exact absurd near (Nat.not_le_of_lt far)
  obtain ⟨w₁, es₁, run₁, only₁, size₁⟩ := write array 65536 (by decide) (by decide)
  have near : (131072 : Int64).toInt.toNat ≤ es₁.size + maxArrayGap := by
    rw [size₁]
    decide
  obtain ⟨w₂, es₂, run₂, only₂, size₂⟩ := write only₁.payload 131072 near (by decide)
  refine ⟨w₂, es₂, ?_, only₁.trans only₂, size₂⟩
  rw [fill, Exec.bind_of_eq run₁, Exec.bind_of_eq run₂]
  rfl

/-- The initializer fills the array before it makes its object. -/
theorem materialize_fills : ∃ w' es, materialize filling ⟨1⟩ fillableWorld = some ((), w') ∧
    w'.heap.object ⟨1⟩ = .new .plain none ∧ w'.heap.payload ⟨0⟩ = .array es ∧
      es.size = 131072 := by
  obtain ⟨w₁, es, filled, only, size⟩ := fill_run (w := fillableWorld.making ⟨1⟩) rfl
  have makes : filling.makeLazy 0 (fillableWorld.making ⟨1⟩) = some (.new .plain none, w₁) :=
    Exec.bind_of_eq filled _
  have live : (⟨1⟩ : ObjectId).index < w₁.heap.objects.size := by
    rw [only.size]
    decide
  refine ⟨_, es, materialize_of_made rfl makes, Heap.object_updateObject_self live _, ?_, size⟩
  rw [Heap.payload, Heap.object_updateObject_of_ne (by decide)]
  exact only.payload

/-- What the array inherits is looked for in the object that has been made. -/
theorem decision_fills : ∃ w' es, decision filling ⟨0⟩ (.ofString "x") fillableWorld =
      some (.inherited none, w') ∧ w'.heap.payload ⟨0⟩ = .array es ∧ es.size = 131072 := by
  obtain ⟨w', es, made, object, array, size⟩ := materialize_fills
  have ordinary : (w'.heap.payload ⟨1⟩).isOrdinary = true := by
    rw [Heap.payload, object]
    rfl
  have absent : (w'.heap.object ⟨1⟩).properties.get? (.ofString "x") = none := by
    rw [object]
    exact PropertyTable.get?_empty _
  have own : ownProperty filling ⟨1⟩ (.ofString "x") fillableWorld = some (none, w') := by
    rw [ownProperty, Exec.bind_of_eq made, Exec.onHeap_apply, ownSlot?_ordinary ordinary, absent]
  have missing : (fillableWorld.heap.object ⟨0⟩).properties.get? (.ofString "x") = none := by
    have other : (Text.ofString "y" == .ofString "x") = false := by decide
    refine (PropertyTable.get?_insert _ _ _ _).trans ?_
    rw [other]
    exact PropertyTable.get?_empty _
  have prototype : prototypeOf filling ⟨0⟩ fillableWorld = some (some ⟨1⟩, fillableWorld) := rfl
  refine ⟨w', es, ?_, array, size⟩
  rw [decision_inherited missing, prototype, Option.bind_some,
    show filling.patience = 3 + 1 from rfl, inheritedWithin, Exec.bind_of_eq own]
  dsimp only
  rw [Exec.bind_of_eq (prototypeOf_ordinary ordinary), object]
  rfl

/-- An initializer may fill an array that is assigned under another key, without a setter and with
more than one assignment adds. So may a setter. -/
theorem code_fills_array :
    let w := fillableWorld
    w.heap.payload ⟨0⟩ = .array #[] ∧
      (¬CallsSetter filling w ⟨0⟩ (.ofString "x") ∧
        ∃ r w' es, setProperty filling ⟨0⟩ (.ofString "x") (.smi 1) w = some (r, w') ∧
          w'.heap.payload ⟨0⟩ = .array es ∧ 0 + 1 * (maxArrayGap + 1) < es.size) ∧
      ∃ r w' es, setProperty filling ⟨0⟩ (.ofString "y") (.smi 1) w = some (r, w') ∧
        w'.heap.payload ⟨0⟩ = .array es ∧ 0 + 1 * (maxArrayGap + 1) < es.size := by
  intro w
  have patient : 0 < filling.patience := by decide
  have large : 0 + 1 * (maxArrayGap + 1) < 131072 := by decide
  refine ⟨rfl, ⟨?_, ?_⟩, ?_⟩
  · rintro ⟨-, d, w₁, s, decided, setter⟩
    obtain ⟨w', es, decided', -⟩ := decision_fills
    cases decided'.symm.trans decided
    cases setter
  · obtain ⟨w', es, decided, array, size⟩ := decision_fills
    obtain ⟨r, w'', run⟩ : ∃ r w'', (Decision.inherited none).assign filling ⟨0⟩ (.ofString "x")
        (.smi 1) w' = some (r, w'') := ⟨_, _, addProperty_apply _ _ _ _⟩
    refine ⟨r, w'', es, ?_, (payload_of_assign rfl run).trans array, size ▸ large⟩
    rw [setProperty_array patient rfl, assignAt_of_stores (by decide), setStored_eq_decision,
      decided]
    exact run
  · obtain ⟨w', es, filled, only, size⟩ := fill_run (w := fillableWorld) rfl
    have own : (fillableWorld.heap.object ⟨0⟩).properties.get? (.ofString "y") =
        some (.accessor none (some ⟨2⟩) .default) := PropertyTable.get?_insert_self _ _ _
    have body : filling.callNative 0 (.object ⟨0⟩) [.smi 1] fillableWorld =
        some (.ok .undefined, w') := by
      refine (Throws.lift_bind_eq fill (fun _ => pure Value.undefined) fillableWorld).trans ?_
      rw [filled]
      rfl
    have called : callObject filling ⟨2⟩ (.object ⟨0⟩) [.smi 1] fillableWorld =
        some (.ok .undefined, w') :=
      (callObject_native patient rfl rfl _ _).trans body
    refine ⟨.ok true, w', es, ?_, only.payload, size ▸ large⟩
    rw [setProperty_array patient rfl, assignAt_of_stores (by decide), setStored_accessor own,
      callSetter_some, called]
    rfl

end ScriptCore
