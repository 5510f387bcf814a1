import ScriptCore.Object.Assign
import ScriptCore.Proofs.Collection.Invariant
import ScriptCore.Proofs.Collection.Log
import ScriptCore.Proofs.Heap.Objects
import ScriptCore.Proofs.Text.Forms
import ScriptCore.Proofs.Value.Keys
import ScriptCore.Value.Equality

/-!
# ScriptCore.Proofs.Object.Membership

Maps and sets find an entry by **equality** of the key.

Design points:

* Keys are taken from values (`Key.ofValue`) without a look at the heap, whereas equality of objects asks
  the heap what data they wrap. The two agree on all values, numbers of any width and strings of any
  form included, but for one pair: two objects that wrap the same data of the host (`TwoWrappers`).
  Those are equal and have two keys, so a map can hold both (`wrappers_are_two_keys`).
* An entry is found through the index. What it says about the entries in order is the invariant of
  the collection, which holds of all that an object's collection goes through (`Collects`).
-/

namespace ScriptCore

/-- The value has the type of a number and denotes none. -/
def Value.IsNaN (v : Value) : Prop := ∃ m, v.numeric? = some m ∧ m.number? = none

theorem Value.isNaN_iff {v : Value} {m : Value.Numeric} (h : v.numeric? = some m) :
    v.IsNaN ↔ m.number? = none := by
  simp [Value.IsNaN, h]

namespace Heap

variable {h h' : Heap} {o : ObjectId} {a b : Value}

/-- Two objects around the same data of the host. -/
def TwoWrappers (h : Heap) (a b : Value) : Prop :=
  ∃ p q, a = .object p ∧ b = .object q ∧ p ≠ q ∧ h.sameIdentity p q = true

/-- Equal as keys: what is not a number is equal to itself, and of two wrappers each is itself. -/
def KeyEqual (h : Heap) (a b : Value) : Prop :=
  (h.strictEq a b = true ∧ ¬h.TwoWrappers a b) ∨ (a.IsNaN ∧ b.IsNaN)

/-! ### Keys and equality -/

/-- Two wrappers are objects. -/
theorem TwoWrappers.not_number (two : h.TwoWrappers a b) : a.numeric? = none := by
  obtain ⟨p, q, rfl, -, -, -⟩ := two
  rfl

/-- One object is no two. -/
theorem not_twoWrappers_self (h : Heap) (a : Value) : ¬h.TwoWrappers a a := by
  rintro ⟨p, q, rfl, same, apart, -⟩
  cases same
  exact apart rfl

theorem keyEqual_numbers {m n : Value.Numeric} (ha : a.numeric? = some m) (hb : b.numeric? = some n) :
    h.KeyEqual a b ↔ m.number? = n.number? := by
  have hstrict : h.strictEq a b = m.eq n := by rw [strictEq, ha, hb]
  have hone : ¬h.TwoWrappers a b := by
    intro two
    cases ha.symm.trans two.not_number
  rw [KeyEqual, hstrict, Value.Numeric.eq_iff, Value.isNaN_iff ha, Value.isNaN_iff hb]
  cases m.number? <;> cases n.number? <;> simp [hone, eq_comm]

theorem keyEqual_of_not_number (ha : a.numeric? = none) :
    h.KeyEqual a b ↔ h.strictEq a b = true ∧ ¬h.TwoWrappers a b := by
  rw [KeyEqual, or_iff_left]
  intro ⟨⟨m, hm, _⟩, _⟩
  cases ha.symm.trans hm

theorem KeyEqual.number_iff (equal : h.KeyEqual a b) :
    (∃ m, a.numeric? = some m) ↔ ∃ n, b.numeric? = some n := by
  rcases equal with ⟨equal, -⟩ | ⟨⟨m, hm, -⟩, ⟨n, hn, -⟩⟩
  · rw [strictEq] at equal
    cases ha : a.numeric? <;> cases hb : b.numeric? <;> simp [ha, hb] at equal ⊢
  · exact iff_of_true ⟨m, hm⟩ ⟨n, hn⟩

theorem keyEqual_objects (h : Heap) (p q : ObjectId) :
    h.KeyEqual (.object p) (.object q) ↔ p = q := by
  rw [keyEqual_of_not_number rfl]
  constructor
  · intro ⟨same, one⟩
    by_contra hne
    exact one ⟨p, q, rfl, rfl, hne, same⟩
  · intro heq
    subst heq
    exact ⟨by simp [strictEq, Value.numeric?, identical, sameIdentity], not_twoWrappers_self h _⟩

/-- What is no number has its content for a key. -/
theorem ofValue_eq_iff_of_not_number (h : Heap) (ha : a.numeric? = none) (hb : b.numeric? = none) :
    Key.ofValue a = Key.ofValue b ↔ h.KeyEqual a b := by
  by_cases objects : ∃ p q, a = .object p ∧ b = .object q
  · obtain ⟨p, q, rfl, rfl⟩ := objects
    rw [keyEqual_objects, Key.ofValue, Key.ofValue, Key.object.injEq]
  · have hone : ¬h.TwoWrappers a b := by
      intro two
      obtain ⟨p, q, hp, hq, -⟩ := two
      exact objects ⟨p, q, hp, hq⟩
    have hstrict : h.strictEq a b = h.identical a b := by rw [strictEq, ha, hb]
    have hsymbol (s t : Symbol) : (s == t) = (s.number == t.number) := rfl
    rw [keyEqual_of_not_number ha, hstrict, and_iff_left hone]
    cases a <;> cases ha <;> cases b <;> cases hb <;>
      simp [Key.ofValue, identical, hsymbol] at objects ⊢

/-- A key is shared by the values that are equal as keys. -/
theorem ofValue_eq_iff (h : Heap) (a b : Value) : Key.ofValue a = Key.ofValue b ↔ h.KeyEqual a b := by
  by_cases numbers : (∃ m, a.numeric? = some m) ↔ ∃ n, b.numeric? = some n
  · cases ha : a.numeric? with
    | some m =>
        obtain ⟨n, hb⟩ := numbers.mp ⟨m, ha⟩
        rw [keyEqual_numbers ha hb, Key.ofValue_eq_iff_number? ha hb]
    | none =>
        refine ofValue_eq_iff_of_not_number h ha (Option.eq_none_iff_forall_ne_some.mpr fun n hb => ?_)
        obtain ⟨m, hm⟩ := numbers.mpr ⟨n, hb⟩
        cases ha.symm.trans hm
  -- A number and something else share no key, and they are not equal.
  · refine iff_of_false (fun heq => numbers ?_) fun equal => numbers equal.number_iff
    rw [← Key.numeral_ofValue_iff, heq, Key.numeral_ofValue_iff]

end Heap

/-! ### What a collection goes through -/

theorem Collection.Sound.perform {c : Collection} (sound : c.Sound) (command : Command) :
    (c.perform command).2.Sound := by
  cases command with
  | insert key value => exact sound.insert key value
  | erase key => exact sound.erase key
  | clear => exact .clear c
  | openCursor => exact sound.openCursor
  | dropCursor cursor => exact sound.dropCursor cursor
  | next cursor => exact sound.next cursor
  | get | contains | size | toList => exact sound

theorem Collection.sound_ofList (entries : List (Value × Option Value)) : (ofList entries).Sound := by
  suffices filled : ∀ c : Collection, c.Sound →
      (entries.foldl (fun c e => c.insert e.1 e.2) c).Sound from filled empty sound_empty
  induction entries with
  | nil => exact fun c sound => sound
  | cons e entries ih => exact fun c sound => ih _ (sound.insert e.1 e.2)

/-- A heap in which an object is a map or a set, filled when it was made and changed by the operations
on maps and sets since. -/
inductive Collects (o : ObjectId) : Heap → Prop where
  | made {h : Heap} {entries : List (Value × Option Value)}
      (made : h.collection? o = some (.ofList entries)) : Collects o h
  | mapSet {h : Heap} (before : Collects o h) (p : ObjectId) (key v : Value) :
      Collects o (h.mapSet p key v).2
  | setAdd {h : Heap} (before : Collects o h) (p : ObjectId) (v : Value) :
      Collects o (h.setAdd p v).2
  | delete {h : Heap} (before : Collects o h) (p : ObjectId) (key : Value) :
      Collects o (h.onCollection p false (·.erase key)).2
  /-- It is cleared, or someone iterates over it. -/
  | perform {h : Heap} (before : Collects o h) (p : ObjectId) (otherwise : Answer)
      (command : Command) : Collects o (h.onCollection p otherwise (·.perform command)).2
  /-- Something else happens. -/
  | elsewhere {h h' : Heap} (before : Collects o h) (kept : h'.collection? o = h.collection? o) :
      Collects o h'

namespace Heap

variable {h h' : Heap} {o p : ObjectId} {c : Collection}

/-- The object is a map or a set with its invariant. -/
def HasSoundCollection (h : Heap) (o : ObjectId) : Prop :=
  ∃ c, h.collection? o = some c ∧ c.Sound

/-- The collection of an object is changed by what is done to that object alone. -/
theorem HasSoundCollection.updatePayload (sound : h.HasSoundCollection o) {f : Payload → Payload}
    (kept : ∀ c, h.collection? p = some c → c.Sound →
      ∃ c', (f (h.payload p)).collection? = some c' ∧ c'.Sound) :
    (h.updatePayload p f).HasSoundCollection o := by
  obtain ⟨c, hc, hsound⟩ := sound
  by_cases heq : o = p
  · subst heq
    have live : o.index < h.objects.size := by
      refine lt_size_of_payload fun plain => ?_
      rw [collection?, plain] at hc
      cases hc
    rw [HasSoundCollection, collection?, payload, Heap.updatePayload, object_updateObject_self live]
    exact kept c hc hsound
  · refine ⟨c, ?_, hsound⟩
    rw [collection?, payload, Heap.updatePayload, object_updateObject_of_ne heq]
    exact hc

theorem HasSoundCollection.onCollection {α : Type} (sound : h.HasSoundCollection o) (p : ObjectId)
    (otherwise : α) {f : Collection → α × Collection} (kept : ∀ c, c.Sound → (f c).2.Sound) :
    (h.onCollection p otherwise f).2.HasSoundCollection o := by
  unfold Heap.onCollection
  cases hp : h.collection? p with
  | none => exact sound
  | some entries =>
      refine sound.updatePayload fun c hc hsound => ⟨(f entries).2, ?_, ?_⟩
      · rw [collection?] at hp
        cases hpayload : h.payload p <;> simp [hpayload, Payload.collection?, Payload.setCollection] at hp ⊢
      · rw [Option.some.inj (hp.symm.trans hc)]
        exact kept c hsound

theorem HasSoundCollection.mapSet (sound : h.HasSoundCollection o) (p : ObjectId) (key v : Value) :
    (h.mapSet p key v).2.HasSoundCollection o := by
  unfold Heap.mapSet
  cases hp : h.payload p with
  | map entries =>
      refine sound.updatePayload fun c hc hsound => ?_
      rw [collection?, hp] at hc
      rw [hp]
      exact ⟨_, rfl, (Option.some.inj hc).symm ▸ hsound.insert key (some v)⟩
  | _ => exact sound

theorem HasSoundCollection.setAdd (sound : h.HasSoundCollection o) (p : ObjectId) (v : Value) :
    (h.setAdd p v).2.HasSoundCollection o := by
  unfold Heap.setAdd
  cases hp : h.payload p with
  | set entries =>
      refine sound.updatePayload fun c hc hsound => ?_
      rw [collection?, hp] at hc
      rw [hp]
      exact ⟨_, rfl, (Option.some.inj hc).symm ▸ hsound.insert v none⟩
  | _ => exact sound

end Heap

theorem Collects.sound {o : ObjectId} {h : Heap} (collects : Collects o h) :
    h.HasSoundCollection o := by
  induction collects with
  | made made => exact ⟨_, made, Collection.sound_ofList _⟩
  | mapSet _ p key v ih => exact ih.mapSet p key v
  | setAdd _ p v ih => exact ih.setAdd p v
  | delete _ p key ih => exact ih.onCollection p false fun c sound => sound.erase key
  | perform _ p otherwise command ih =>
      exact ih.onCollection p otherwise fun c sound => sound.perform command
  | elsewhere _ kept ih =>
      obtain ⟨c, hc, sound⟩ := ih
      exact ⟨c, kept.trans hc, sound⟩

/-! ### Entries -/

namespace Collection

variable {c : Collection} {key : Value} {x : Value × Option Value}

theorem mem_toList (sound : c.Sound) : x ∈ c.toList ↔ ∃ s, c.live? s = some x := by
  simp only [toList, List.mem_map, mem_liveSlots sound.threaded]
  constructor
  · intro ⟨s, live, hx⟩
    exact ⟨s, hx ▸ live?_entry live⟩
  · intro ⟨s, hx⟩
    have live : c.Live s := live_iff.mpr ⟨x, hx⟩
    exact ⟨s, live, Option.some.inj ((live?_entry live).symm.trans hx)⟩

/-- A key is present if an entry has it. -/
theorem contains_iff (sound : c.Sound) :
    c.contains key = true ↔ ∃ x ∈ c.toList, Key.ofValue x.1 = Key.ofValue key := by
  simp only [contains, Option.isSome_iff_exists, sound.slot?_eq_some_iff, mem_toList sound]
  constructor
  · intro ⟨s, x, hx, hkey⟩
    exact ⟨x, ⟨s, hx⟩, hkey⟩
  · intro ⟨x, ⟨s, hx⟩, hkey⟩
    exact ⟨s, x, hx, hkey⟩

/-- No two entries have one key. -/
theorem pairwise_toList (sound : c.Sound) :
    c.toList.Pairwise fun x y => Key.ofValue x.1 ≠ Key.ofValue y.1 := by
  rw [toList, List.pairwise_map]
  refine (liveSlots_sorted sound.threaded).imp_of_mem fun {s t} hs ht hlt hkey => ?_
  have hs := live?_entry ((mem_liveSlots sound.threaded).mp hs)
  have ht := live?_entry ((mem_liveSlots sound.threaded).mp ht)
  exact Nat.ne_of_lt hlt (sound.key_inj hs ht hkey)

end Collection

/-- Maps and sets go by equality of keys, two wrappers of the same data aside. Whatever has been
stored, removed and iterated over, a key is present exactly if it is equal to the key of an entry; of
two equal keys both are present or neither is, both lead to the same value, and removing one removes
the other; and no two entries have equal keys. -/
theorem membership_by_equality {o : ObjectId} {h : Heap} (collects : Collects o h) :
    ∃ c, h.collection? o = some c ∧
      (∀ a, h.collectionHas o a = true ↔ ∃ x ∈ c.toList, h.KeyEqual x.1 a) ∧
      (∀ a b, h.strictEq a b = true → ¬h.TwoWrappers a b →
        h.collectionHas o a = h.collectionHas o b ∧ h.mapGet? o a = h.mapGet? o b ∧
          h.onCollection o false (·.erase a) = h.onCollection o false (·.erase b)) ∧
      c.toList.Pairwise fun x y => h.strictEq x.1 y.1 = true → h.TwoWrappers x.1 y.1 := by
  obtain ⟨c, hc, sound⟩ := collects.sound
  refine ⟨c, hc, fun a => ?_, fun a b equal one => ?_, ?_⟩
  · rw [Heap.collectionHas, hc, Option.any_some, Collection.contains_iff sound]
    simp only [Heap.ofValue_eq_iff h]
  · have hkey : Key.ofValue a = Key.ofValue b := (h.ofValue_eq_iff a b).mpr (.inl ⟨equal, one⟩)
    have hslot (c : Collection) : c.slot? a = c.slot? b := by
      rw [Collection.slot?, Collection.slot?, hkey]
    refine ⟨?_, ?_, ?_⟩
    · simp only [Heap.collectionHas, Collection.contains, hslot]
    · simp only [Heap.mapGet?, Collection.get?, hslot]
    · simp only [Collection.erase, hslot, hkey]
  · refine (Collection.pairwise_toList sound).imp fun {x y} apart equal => ?_
    by_contra one
    exact apart ((h.ofValue_eq_iff _ _).mpr (.inl ⟨equal, one⟩))

/-! ### A map, and two objects around one map of the host -/

/-- A map without entries, behind two objects around the same data of the host. -/
def twoWrappersHeap : Heap :=
  let wrapper : Object := .new (.hostMap ⟨0⟩ .none) none
  { Heap.empty with
    hostMaps := #[∅]
    objects := #[wrapper, wrapper, .new (.map .empty) none] }

theorem collects_twoWrappersHeap : Collects ⟨2⟩ twoWrappersHeap :=
  .made (show twoWrappersHeap.collection? ⟨2⟩ = some (.ofList []) from rfl)

/-- Two keys that differ have two entries. -/
theorem toList_insert_insert {a b : Value} (apart : Key.ofValue a ≠ Key.ofValue b)
    (x y : Option Value) :
    ((Collection.empty.insert a x).insert b y).toList =
      [(Collection.storedKey a, x), (Collection.storedKey b, y)] := by
  have first : Collection.empty.slot? a = none := by simp [Collection.slot?, Collection.empty]
  have second : (Collection.empty.insert a x).slot? b = none := by
    simp [Collection.slot?, Collection.insert, Collection.empty, apart]
  rw [Collection.insert, second, Collection.insert, first]
  rfl

/-- Integers of two widths are one key, and an object is a key beside them. -/
theorem membership_by_equality_of_keys :
    let a : Value := .object ⟨0⟩
    let h := ((twoWrappersHeap.mapSet ⟨2⟩ a .null).2.mapSet ⟨2⟩ (.smi 2) .null).2
    Collects ⟨2⟩ h ∧
      (h.strictEq (.smi 2) (.uint32 2) = true ∧ ¬h.TwoWrappers (.smi 2) (.uint32 2) ∧
        h.collectionHas ⟨2⟩ (.uint32 2) = true ∧
        h.mapGet? ⟨2⟩ (.smi 2) = h.mapGet? ⟨2⟩ (.uint32 2)) ∧
      h.strictEq a a = true ∧ ¬h.TwoWrappers a a ∧ h.collectionHas ⟨2⟩ a = true := by
  intro a h
  have collects : Collects ⟨2⟩ h :=
    .mapSet (.mapSet collects_twoWrappersHeap ⟨2⟩ a .null) ⟨2⟩ (.smi 2) .null
  have widths : h.strictEq (.smi 2) (.uint32 2) = true := by decide
  have oneWidth : ¬h.TwoWrappers (.smi 2) (.uint32 2) := fun two => by cases two.not_number
  have same : h.strictEq a a = true := rfl
  have oneObject : ¬h.TwoWrappers a a := Heap.not_twoWrappers_self h a
  obtain ⟨c, hc, has, agree, -⟩ := membership_by_equality collects
  obtain rfl : (Collection.empty.insert a (some .null)).insert (.smi 2) (some .null) = c :=
    Option.some.inj hc
  have entries := toList_insert_insert (show Key.ofValue a ≠ Key.ofValue (.smi 2) by decide)
    (some .null) (some .null)
  refine ⟨collects, ⟨widths, oneWidth, ?_, (agree _ _ widths oneWidth).2.1⟩, same, oneObject, ?_⟩
  · exact (has _).mpr ⟨(.smi 2, some .null), by simp [entries, Collection.storedKey],
      .inl ⟨widths, oneWidth⟩⟩
  · exact (has _).mpr ⟨(a, some .null), by simp [entries, Collection.storedKey],
      .inl ⟨same, oneObject⟩⟩

/-- The objects are equal, and the map takes both for keys. -/
theorem wrappers_are_two_keys :
    let a : Value := .object ⟨0⟩
    let b : Value := .object ⟨1⟩
    let h := (twoWrappersHeap.mapSet ⟨2⟩ a .null).2
    let h' := (h.mapSet ⟨2⟩ b .null).2
    Collects ⟨2⟩ h ∧ h.strictEq a b = true ∧ h.collectionHas ⟨2⟩ a = true ∧
      h.collectionHas ⟨2⟩ b = false ∧
      ∃ c, h'.collection? ⟨2⟩ = some c ∧ c.toList.map Prod.fst = [a, b] := by
  intro a b h h'
  have hkeys : Key.ofValue a ≠ Key.ofValue b := by decide
  have hc : h.collection? ⟨2⟩ = some (Collection.empty.insert a (some .null)) := rfl
  have hslot : (Collection.empty.insert a (some .null)).slot? b = none := by
    simp [Collection.slot?, Collection.insert, Collection.empty, hkeys]
  refine ⟨.mapSet collects_twoWrappersHeap ⟨2⟩ a .null, rfl, ?_, ?_,
    (Collection.empty.insert a (some .null)).insert b (some .null), rfl, ?_⟩
  · rw [Heap.collectionHas, hc]
    simp [Collection.contains, Collection.slot?, Collection.insert, Collection.empty]
  · rw [Heap.collectionHas, hc, Option.any_some, Collection.contains, hslot]
    rfl
  · rw [toList_insert_insert hkeys]
    rfl

end ScriptCore
