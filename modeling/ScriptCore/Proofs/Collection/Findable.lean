import ScriptCore.Proofs.Object.Membership

/-!
# ScriptCore.Proofs.Collection.Findable

Every entry of a collection is **found under its key**, whatever the collection has been through.

Design points:

* What a collection answers depends on its entries in order and on nothing else
  (`get?_congr`). So each operation is described by what it does to that list, and rebuilding the
  arena does nothing to it (`toList_compact`).
* The key that an entry is stored with need not be the key that it was inserted with, but the two are
  told apart by nothing.
-/

namespace ScriptCore.Collection

variable {c c' : Collection} {key : Value} {value : Option Value} {x : Value × Option Value}

/-- What commands lead to. -/
inductive Reached : Collection → Prop where
  | empty : Reached .empty
  | perform {c : Collection} (before : Reached c) (command : Command) :
      Reached (c.perform command).2

theorem Reached.sound (reached : c.Reached) : c.Sound := by
  induction reached with
  | empty => exact sound_empty
  | perform _ command ih => exact ih.perform command

/-! ### Answers, read off the entries in order -/

theorem get?_of_mem (sound : c.Sound) (mem : x ∈ c.toList)
    (same : Key.ofValue x.1 = Key.ofValue key) : c.get? key = x.2 := by
  obtain ⟨s, hs⟩ := (mem_toList sound).mp mem
  have hslot : c.slot? key = some s := sound.slot?_eq_some_iff.mpr ⟨x, hs, same⟩
  have hentry := live?_entry (live_iff.mpr ⟨x, hs⟩)
  rw [hs, Option.some.injEq] at hentry
  rw [get?, hslot, hentry, Option.bind_some]

theorem get?_of_not_contains (absent : c.contains key = false) : c.get? key = none := by
  rw [contains, Option.isSome_eq_false_iff, Option.isNone_iff_eq_none] at absent
  rw [get?, absent, Option.bind_none]

theorem contains_congr (sound : c.Sound) (sound' : c'.Sound) (same : c'.toList = c.toList)
    (key : Value) : c'.contains key = c.contains key := by
  rw [Bool.eq_iff_iff, contains_iff sound, contains_iff sound', same]

/-- Collections with the same entries in order answer alike. -/
theorem get?_congr (sound : c.Sound) (sound' : c'.Sound) (same : c'.toList = c.toList)
    (key : Value) : c'.get? key = c.get? key := by
  cases present : c.contains key with
  | true =>
      obtain ⟨x, mem, hkey⟩ := (contains_iff sound).mp present
      rw [get?_of_mem sound mem hkey, get?_of_mem sound' (same ▸ mem) hkey]
  | false =>
      rw [get?_of_not_contains present,
        get?_of_not_contains ((contains_congr sound sound' same key).trans present)]

/-! ### What operations do to the entries in order -/

theorem toList_eq_filterMap (sound : c.Sound) : c.toList = c.liveSlots.filterMap c.live? := by
  rw [toList, ← List.filterMap_eq_map]
  exact List.filterMap_congr fun s hs =>
    (live?_entry ((mem_liveSlots sound.threaded).mp hs)).symm

/-- A new key goes behind all others. -/
theorem toList_insert_of_none (sound : c.Sound) (absent : c.slot? key = none)
    (value : Option Value) :
    (c.insert key value).toList = c.toList ++ [(storedKey key, value)] := by
  have old : ∀ s ∈ c.liveSlots, (c.insert key value).live? s = c.live? s := by
    intro s hs
    have hlt : s < c.arena.size := LiveAt.lt_size ((mem_liveSlots sound.threaded).mp hs)
    rw [live?_insert_of_none absent, if_neg (Nat.ne_of_lt hlt)]
  have new : (c.insert key value).live? c.arena.size = some (storedKey key, value) := by
    rw [live?_insert_of_none absent, if_pos rfl]
  rw [toList_eq_filterMap (sound.insert key value), liveSlots_insert_of_none sound.threaded absent,
    List.filterMap_append, List.filterMap_congr old, ← toList_eq_filterMap sound]
  simp [new]

/-- Rebuilding the arena leaves the entries and their order alone. -/
theorem toList_compact (sound : c.Sound) : c.compact.toList = c.toList := by
  have slots : (List.range c.liveSlots.length).map (c.liveSlots[·]?) = c.liveSlots.map some := by
    refine List.ext_getElem (by simp) fun i hi _ => ?_
    simp only [List.length_map, List.length_range] at hi
    simp [hi]
  calc c.compact.toList
      = (List.range c.liveSlots.length).filterMap fun i => c.liveSlots[i]?.bind c.live? := by
        simp only [toList_eq_filterMap sound.compact, liveSlots_compact sound.threaded,
          live?_compact sound.threaded]
    _ = (c.liveSlots.map some).filterMap (·.bind c.live?) := by
        rw [← slots, List.filterMap_map]
        rfl
    _ = c.toList := by
        rw [toList_eq_filterMap sound, List.filterMap_map]
        rfl

/-- The entry of a key leaves, and no other. -/
theorem toList_detach (sound : c.Sound) {s : Nat} (present : c.slot? key = some s) :
    (c.detach key s).toList = c.toList.filter fun x => Key.ofValue x.1 ≠ Key.ofValue key := by
  obtain ⟨x, hx, hkey⟩ := sound.slot?_eq_some_iff.mp present
  have live : c.Live s := live_iff.mpr ⟨x, hx⟩
  have slots : (c.detach key s).liveSlots = c.liveSlots.filter (· != s) := by
    have nodup : c.liveSlots.Nodup := (liveSlots_sorted sound.threaded).imp Nat.ne_of_lt
    rw [← nodup.erase_eq_filter, ← liveSlots_unlink sound.threaded live]
    exact liveSlots_congr (sound.detach present).threaded (threaded_unlink sound.threaded live).2
      fun _ => Iff.rfl
  rw [toList_eq_filterMap (sound.detach present), toList_eq_filterMap sound, slots,
    List.filterMap_filter, List.filter_filterMap]
  refine List.filterMap_congr fun t ht => ?_
  have view : (c.detach key s).live? t = if t = s then none else c.live? t :=
    live?_unlink sound.threaded live t
  have hy := live?_entry ((mem_liveSlots sound.threaded).mp ht)
  rw [view, hy]
  by_cases heq : t = s
  · subst heq
    obtain rfl := Option.some.inj (hx.symm.trans hy)
    simp [Option.filter_some, hkey]
  · have apart : Key.ofValue (c.entry t).key ≠ Key.ofValue key := fun same =>
      heq (sound.key_inj hy hx (same.trans hkey.symm))
    simp [Option.filter_some, heq, apart]

theorem toList_erase (sound : c.Sound) (key : Value) :
    (c.erase key).2.toList = c.toList.filter fun x => Key.ofValue x.1 ≠ Key.ofValue key := by
  cases present : c.slot? key with
  | none =>
      rw [erase_of_none present, eq_comm, List.filter_eq_self]
      intro x mem
      obtain ⟨s, hs⟩ := (mem_toList sound).mp mem
      simpa using sound.slot?_eq_none present hs
  | some s =>
      rcases erase_of_some present with erased | erased <;> rw [erased]
      · exact toList_detach sound present
      · rw [toList_compact (sound.detach present)]
        exact toList_detach sound present

/-! ### Equality -/

/-- Values that are not both objects have one key exactly if they are equal or both not a number. The
key that is stored with a new entry is the key that was asked for. So an entry is found under its key
in every collection that commands lead to, and a rebuild of the arena, by itself or after a removal,
loses no entry and changes no answer. -/
theorem keys_decide_equality :
    (∀ (h : Heap) (a b : Value), ¬(a.isObject = true ∧ b.isObject = true) →
        (Key.ofValue a = Key.ofValue b ↔ h.strictEq a b = true ∨ (a.IsNaN ∧ b.IsNaN))) ∧
      ∀ c : Collection, c.Reached →
        (∀ key value, c.contains key = false →
          (c.insert key value).toList = c.toList ++ [(storedKey key, value)] ∧
            Key.ofValue (storedKey key) = Key.ofValue key) ∧
        (∀ x ∈ c.toList, c.contains x.1 = true ∧ c.get? x.1 = x.2) ∧
        (c.compact.toList = c.toList ∧
          ∀ key, c.compact.contains key = c.contains key ∧ c.compact.get? key = c.get? key) ∧
        ∀ key, (c.erase key).2.Reached ∧ (c.erase key).2.toList =
          c.toList.filter fun x => Key.ofValue x.1 ≠ Key.ofValue key := by
  refine ⟨fun h a b objects => ?_, fun c reached => ⟨fun key value absent => ⟨?_, ?_⟩,
    fun x mem => ⟨?_, ?_⟩, ⟨?_, fun key => ⟨?_, ?_⟩⟩, fun key => ⟨?_, ?_⟩⟩⟩
  · have one : ¬h.TwoWrappers a b := by
      intro ⟨p, q, ha, hb, _⟩
      exact objects ⟨by rw [ha]; rfl, by rw [hb]; rfl⟩
    rw [h.ofValue_eq_iff, Heap.KeyEqual, and_iff_left one]
  · rw [contains, Option.isSome_eq_false_iff, Option.isNone_iff_eq_none] at absent
    exact toList_insert_of_none reached.sound absent value
  · exact ofValue_storedKey key
  · exact (contains_iff reached.sound).mpr ⟨x, mem, rfl⟩
  · exact get?_of_mem reached.sound mem rfl
  · exact toList_compact reached.sound
  · exact contains_congr reached.sound reached.sound.compact (toList_compact reached.sound) key
  · exact get?_congr reached.sound reached.sound.compact (toList_compact reached.sound) key
  · exact reached.perform (.erase key)
  · exact toList_erase reached.sound key

/-- The zero of negative sign shares its key with the integer that is stored for it. -/
theorem keys_decide_equality_on_zero :
    let zero : Value := .double ⟨0x8000000000000000⟩
    let c := empty.insert zero (some .null)
    (default : Heap).strictEq zero (.uint32 0) = true ∧
      Key.ofValue zero = Key.ofValue (.uint32 0) ∧ c.Reached ∧
      c.toList = [(.smi 0, some .null)] ∧ c.compact.get? (.smi 0) = some .null ∧
      (c.erase zero).2.toList = [] := by
  intro zero c
  obtain ⟨decides, keeps⟩ := keys_decide_equality
  have equal : (default : Heap).strictEq zero (.uint32 0) = true := by decide +kernel
  have stored : storedKey zero = .smi 0 := rfl
  have reached : c.Reached := .perform .empty (.insert zero (some .null))
  obtain ⟨inserted, hkey⟩ :=
    (keeps empty .empty).1 zero (some .null) (by simp [contains, slot?, empty])
  have entries : c.toList = [(.smi 0, some .null)] := inserted
  obtain ⟨-, found, ⟨-, rebuilt⟩, erased⟩ := keeps c reached
  have entry := (found (.smi 0, some .null) (by simp [entries])).2
  refine ⟨equal, (decides default _ _ (by decide)).mpr (.inl equal), reached, entries,
    (rebuilt (.smi 0)).2.trans entry, ?_⟩
  rw [(erased zero).2, entries, ← hkey, stored]
  simp

end ScriptCore.Collection
