import ScriptCore.Proofs.Collection.Threading

/-!
# ScriptCore.Proofs.Collection.Invariant

The **representation invariant** of a collection, kept by every operation, and what each operation
does to the live entries.

Design points:

* `live?` is the view that everything else is stated through: the key and the value in a slot that
  is live. Each operation gets one equation about it.
* `Sound` says that links, index and counts agree with the live slots. The index finds a slot by the
  key of a value, so it stays right across a rebuild only because the key that is stored for a value
  is found under the same key (`ofValue_storedKey`).
-/

namespace ScriptCore

namespace Binary64

/-- A zero is finite and denotes nothing. -/
theorem units_of_isZero {x : Binary64} (hx : x.isZero) : x.isFinite ∧ x.units = 0 := by
  have hm : x.magnitude = 0 := by simpa [isZero] using hx
  simp [isFinite, units, significand, hm, infiniteMagnitude]

end Binary64

namespace Collection

/-- The key that is stored for a value is found where the value is looked for. -/
theorem ofValue_storedKey (v : Value) : Key.ofValue (storedKey v) = Key.ofValue v := by
  cases v with
  | double x =>
      by_cases hx : x.isZero
      · obtain ⟨hfin, hunits⟩ := Binary64.units_of_isZero hx
        have hm : x.magnitude = 0 := by simpa [Binary64.isZero] using hx
        -- A zero of either sign is stored as the integer, which has the key of both.
        have hsigned : x.signedUnits = 0 := by
          rw [Binary64.signedUnits, hunits]
          split <;> rfl
        have htrunc : x.truncate = 0 := by rw [Binary64.truncate, hsigned, Int.zero_tdiv]
        have hnan : x.isNaN = false := by simp [Binary64.isNaN, hm]
        have hwhole : x.isWhole = true := by simp [Binary64.isWhole, hfin, hunits]
        simp only [storedKey, if_pos hx, Key.ofValue, Key.ofBinary64, hnan, hwhole, htrunc]
        rfl
      · simp only [storedKey, if_neg hx]
  | _ => rfl

/-! ### The view -/

/-- The key and the value in a slot, unless it was removed. -/
def live? (c : Collection) (s : Nat) : Option (Value × Option Value) :=
  c.arena[s]?.bind fun e => if e.removed then none else some (e.key, e.value)

variable {c : Collection}

theorem live?_eq_some_iff {s : Nat} {x : Value × Option Value} : c.live? s = some x ↔
    ∃ e, c.arena[s]? = some e ∧ e.removed = false ∧ (e.key, e.value) = x := by
  rw [live?, Option.bind_eq_some_iff]
  refine exists_congr fun e => and_congr_right fun _ => ?_
  cases e.removed <;> simp

theorem live_iff {s : Nat} : c.Live s ↔ ∃ x, c.live? s = some x := by
  simp only [live?_eq_some_iff]
  constructor
  · rintro ⟨e, he, hr⟩
    exact ⟨_, e, he, hr, rfl⟩
  · rintro ⟨x, e, he, hr, -⟩
    exact ⟨e, he, hr⟩

theorem live?_entry {s : Nat} (h : c.Live s) :
    c.live? s = some ((c.entry s).key, (c.entry s).value) := by
  obtain ⟨e, he, hr⟩ := h
  rw [live?_eq_some_iff, entry_eq he]
  exact ⟨e, he, hr, rfl⟩

/-- Links, index, counts and cursors agree with the live slots. -/
structure Sound (c : Collection) : Prop where
  /-- The links are those of the live slots. -/
  threaded : c.IsThreaded
  /-- The index holds the keys of the live entries, each with its slot. -/
  index : ∀ k s, c.index[k]? = some s ↔ ∃ x, c.live? s = some x ∧ Key.ofValue x.1 = k
  /-- The size is the number of live slots. -/
  size : c.size = c.liveSlots.length
  /-- Every other slot is a removed one. -/
  tombstones : c.size + c.tombstones = c.arena.size
  /-- Cursors stand on slots of the arena. -/
  cursors : ∀ {i s : Nat}, c.cursors[i]? = some (some (Position.past s)) → s < c.arena.size

namespace Sound

/-- Two live entries with one key are one entry. -/
theorem key_inj (h : c.Sound) {s t : Nat} {x y : Value × Option Value} (hx : c.live? s = some x)
    (hy : c.live? t = some y) (hk : Key.ofValue x.1 = Key.ofValue y.1) : s = t := by
  have hs := (h.index _ s).mpr ⟨x, hx, rfl⟩
  have ht := (h.index _ t).mpr ⟨y, hy, hk.symm⟩
  exact Option.some.inj (hs.symm.trans ht)

theorem slot?_eq_some_iff (h : c.Sound) {key : Value} {s : Nat} : c.slot? key = some s ↔
    ∃ x, c.live? s = some x ∧ Key.ofValue x.1 = Key.ofValue key :=
  h.index _ s

theorem slot?_eq_none (h : c.Sound) {key : Value} (hnone : c.slot? key = none) {s : Nat}
    {x : Value × Option Value} (hx : c.live? s = some x) : Key.ofValue x.1 ≠ Key.ofValue key := by
  intro hk
  have hs := h.slot?_eq_some_iff.mpr ⟨x, hx, hk⟩
  rw [hnone] at hs
  cases hs

end Sound

theorem sound_empty : empty.Sound where
  threaded := Threaded.empty
  index := fun k s => by simp [empty, live?]
  size := rfl
  tombstones := rfl
  cursors := fun h => by simp [empty] at h

/-! ### Insertion -/

section Insert

variable {key : Value} {value : Option Value} {s : Nat}

/-- A key that is present keeps its slot and gets the value. -/
theorem live?_insert_of_some (hs : c.slot? key = some s) (t : Nat) :
    (c.insert key value).live? t =
      if t = s then (c.live? t).map fun x => (x.1, value) else c.live? t := by
  simp only [insert, hs, live?, setEntry, Array.getElem?_modify]
  by_cases hts : t = s
  · subst hts
    cases c.arena[t]? with
    | none => simp
    | some e => cases hr : e.removed <;> simp [hr]
  · rw [if_neg hts, if_neg (Ne.symm hts)]

theorem threaded_insert_of_some (h : c.IsThreaded) (hs : c.slot? key = some s)
    (value : Option Value) :
    (c.insert key value).Live = c.Live ∧ (c.insert key value).IsThreaded := by
  have harena : (c.insert key value).arena = setEntry c.arena s fun e => { e with value } := by
    simp [insert, hs]
  have hends : (c.insert key value).head = c.head ∧ (c.insert key value).tail = c.tail := by
    simp [insert, hs]
  unfold Live IsThreaded
  rw [hends.1, hends.2, harena]
  refine Threaded.congr h (by simp [setEntry]) fun {t e'} he' => ?_
  rw [setEntry, Array.getElem?_modify] at he'
  split at he'
  · obtain ⟨e, he, rfl⟩ := Option.map_eq_some_iff.mp he'
    exact ⟨e, he, rfl, rfl, rfl⟩
  · exact ⟨e', he', rfl, rfl, rfl⟩

theorem live_keys_insert_of_some (hs : c.slot? key = some s) (t : Nat) (k : Key) :
    (∃ x, (c.insert key value).live? t = some x ∧ Key.ofValue x.1 = k) ↔
      ∃ x, c.live? t = some x ∧ Key.ofValue x.1 = k := by
  rw [live?_insert_of_some hs]
  split <;> simp

/-- The entry of a new key goes behind all others. -/
theorem getElem?_insert_of_none (hs : c.slot? key = none) (t : Nat) :
    (c.insert key value).arena[t]? =
      if t = c.arena.size then some ⟨storedKey key, value, c.tail, none, false⟩
      else c.arena[t]?.map fun e =>
        if c.tail = some t then { e with next := some c.arena.size } else e := by
  simp only [insert, hs]
  cases htail : c.tail with
  | none => simp [Array.getElem?_push]
  | some p =>
      simp only [Array.getElem?_push, setEntry, Array.size_modify, Array.getElem?_modify,
        Option.some.injEq]
      split
      · rfl
      · by_cases hpt : p = t <;> simp [hpt]

theorem live?_insert_of_none (hs : c.slot? key = none) (t : Nat) :
    (c.insert key value).live? t =
      if t = c.arena.size then some (storedKey key, value) else c.live? t := by
  rw [live?, getElem?_insert_of_none hs]
  split
  · rfl
  · rw [live?, Option.bind_map]
    congr 1
    funext e
    dsimp only [Function.comp]
    split <;> rfl

theorem size_arena_insert_of_none (hs : c.slot? key = none) :
    (c.insert key value).arena.size = c.arena.size + 1 := by
  simp only [insert, hs]
  cases c.tail <;> simp [setEntry]

theorem threaded_insert_of_none (h : c.IsThreaded) (hs : c.slot? key = none)
    (value : Option Value) :
    (c.insert key value).Live = (fun t => c.Live t ∨ t = c.arena.size) ∧
      (c.insert key value).IsThreaded := by
  have hends : (c.insert key value).head = c.head.or (some c.arena.size) ∧
      (c.insert key value).tail = some c.arena.size := by
    -- The code asks the tail whether there is a head.
    have hempty : c.tail = none → c.head = none := fun ht => by
      have hlast : LastBefore c.Live c.arena.size none := ht ▸ h.tail
      exact FirstFrom.unique h.head fun t _ hLt => hlast t (LiveAt.lt_size hLt) hLt
    have hfull : ∀ p, c.tail = some p → c.head ≠ none := fun p ht hh => by
      have hfirst : FirstFrom c.Live 0 none := hh ▸ h.head
      have hlast : LastBefore c.Live c.arena.size (some p) := ht ▸ h.tail
      exact hfirst p (Nat.zero_le p) hlast.1
    cases ht : c.tail with
    | none => simp [insert, hs, ht, hempty ht]
    | some p =>
        obtain ⟨q, hq⟩ := Option.ne_none_iff_exists'.mp (hfull p ht)
        simp [insert, hs, ht, hq]
  have hsize : (c.insert key value).arena.size = c.arena.size + 1 := size_arena_insert_of_none hs
  have hnew : (c.insert key value).arena[c.arena.size]? =
      some ⟨storedKey key, value, c.tail, none, false⟩ := by
    rw [getElem?_insert_of_none hs, if_pos rfl]
  have hold : ∀ t, t < c.arena.size → (c.insert key value).arena[t]? = c.arena[t]?.map fun e =>
      if c.tail = some t then { e with next := some c.arena.size } else e := fun t ht => by
    rw [getElem?_insert_of_none hs, if_neg (Nat.ne_of_lt ht)]
  rw [IsThreaded, hends.1, hends.2]
  exact ⟨Threaded.liveAt_push hsize hnew hold, Threaded.push h hsize hnew hold⟩

end Insert

/-- The live slots in order are determined by which slots are live. -/
theorem liveSlots_eq {l : List Nat} (h : c.IsThreaded) (hl : l.Pairwise (· < ·))
    (hmem : ∀ t, t ∈ l ↔ c.Live t) : c.liveSlots = l :=
  (liveSlots_sorted h).eq_of_mem_iff hl fun t => (mem_liveSlots h).trans (hmem t).symm

theorem liveSlots_congr {c' : Collection} (h : c.IsThreaded) (h' : c'.IsThreaded)
    (hlive : ∀ t, c'.Live t ↔ c.Live t) : c.liveSlots = c'.liveSlots :=
  liveSlots_eq h (liveSlots_sorted h') fun t => (mem_liveSlots h').trans (hlive t)

/-- The slot of a new key is the last one in order. -/
theorem liveSlots_insert_of_none {key : Value} (h : c.IsThreaded) (hs : c.slot? key = none)
    (value : Option Value) : (c.insert key value).liveSlots = c.liveSlots ++ [c.arena.size] := by
  obtain ⟨hlive, hthreaded⟩ := threaded_insert_of_none h hs value
  have hsorted : (c.liveSlots ++ [c.arena.size]).Pairwise (· < ·) := by
    refine List.pairwise_append.mpr ⟨liveSlots_sorted h, List.pairwise_singleton _ _, ?_⟩
    intro t ht n hn
    rw [List.mem_singleton.mp hn]
    exact LiveAt.lt_size ((mem_liveSlots h).mp ht)
  exact liveSlots_eq hthreaded hsorted fun t => by
    rw [hlive, List.mem_append, mem_liveSlots h, List.mem_singleton]

/-- The index finds the new entry under its key, and the others as before. -/
theorem Sound.index_insert_of_none (h : c.Sound) {key : Value} {value : Option Value}
    (hs : c.slot? key = none) (k : Key) (t : Nat) :
    (c.insert key value).index[k]? = some t ↔
      ∃ x, (c.insert key value).live? t = some x ∧ Key.ofValue x.1 = k := by
  have hindex : (c.insert key value).index = c.index.insert (Key.ofValue key) c.arena.size := by
    simp [Collection.insert, hs]
  rw [hindex, Std.HashMap.getElem?_insert, live?_insert_of_none hs]
  by_cases hk : Key.ofValue key = k
  · subst hk
    rw [if_pos (beq_self_eq_true _), Option.some.injEq]
    constructor
    · rintro rfl
      exact ⟨_, if_pos rfl, ofValue_storedKey key⟩
    · rintro ⟨x, hx, hxk⟩
      by_contra hne
      rw [if_neg (Ne.symm hne)] at hx
      exact h.slot?_eq_none hs hx hxk
  · rw [if_neg (by simpa using hk), h.index k t]
    by_cases ht : t = c.arena.size
    · subst ht
      have hnone : c.live? c.arena.size = none := by simp [live?]
      simp [hnone, ofValue_storedKey, hk]
    · rw [if_neg ht]

theorem Sound.insert (h : c.Sound) (key : Value) (value : Option Value) :
    (c.insert key value).Sound := by
  cases hs : c.slot? key with
  | some s =>
      obtain ⟨hlive, hthreaded⟩ := threaded_insert_of_some h.threaded hs value
      have hslots : (c.insert key value).liveSlots = c.liveSlots :=
        liveSlots_congr hthreaded h.threaded fun t => by rw [hlive]
      refine ⟨hthreaded, fun k t => ?_, ?_, ?_, ?_⟩
      · rw [live_keys_insert_of_some hs, ← h.index k t]
        simp [Collection.insert, hs]
      · rw [hslots, ← h.size]
        simp [Collection.insert, hs]
      · simpa [Collection.insert, hs, setEntry] using h.tombstones
      · intro i t hi
        have hc := h.cursors (i := i) (s := t) (by simpa [Collection.insert, hs] using hi)
        simpa [Collection.insert, hs, setEntry] using hc
  | none =>
      obtain ⟨-, hthreaded⟩ := threaded_insert_of_none h.threaded hs value
      have hslots := liveSlots_insert_of_none h.threaded hs value
      have hsize : (c.insert key value).size = c.size + 1 := by simp [Collection.insert, hs]
      have htombs : (c.insert key value).tombstones = c.tombstones := by
        simp [Collection.insert, hs]
      refine ⟨hthreaded, h.index_insert_of_none hs, ?_, ?_, ?_⟩
      · rw [hslots, hsize, h.size, List.length_append, List.length_singleton]
      · rw [hsize, htombs, size_arena_insert_of_none hs, ← h.tombstones]
        omega
      · intro i t hi
        have hc := h.cursors (i := i) (s := t) (by simpa [Collection.insert, hs] using hi)
        rw [size_arena_insert_of_none hs]
        exact Nat.lt_succ_of_lt hc

theorem toList_insert_empty (key : Value) (value : Option Value) :
    (empty.insert key value).toList = [(storedKey key, value)] := by
  have hs : empty.slot? key = none := by simp [slot?, empty]
  rw [insert, hs]
  rfl

/-! ### Removal -/

section Unlink

variable {s : Nat}

theorem arena_unlink (s : Nat) :
    (c.unlink s).arena = bridge c.arena s (c.entry s).prev (c.entry s).next := rfl

theorem size_arena_unlink (s : Nat) : (c.unlink s).arena.size = c.arena.size := by
  rw [arena_unlink, Threaded.size_bridge]

theorem threaded_unlink (h : c.IsThreaded) (hs : c.Live s) :
    (c.unlink s).Live = (fun t => c.Live t ∧ t ≠ s) ∧ (c.unlink s).IsThreaded := by
  obtain ⟨e, he, hr⟩ := hs
  obtain ⟨hps, hns⟩ := Threaded.links_ne_self h he hr
  unfold Live IsThreaded
  simp only [unlink, entry_eq he]
  exact ⟨Threaded.liveAt_bridge hps hns, Threaded.bridge h he hr⟩

/-- Taking a slot out of the order empties it, and no other. -/
theorem live?_unlink (h : c.IsThreaded) (hs : c.Live s) (t : Nat) :
    (c.unlink s).live? t = if t = s then none else c.live? t := by
  obtain ⟨e, he, hr⟩ := hs
  obtain ⟨hps, hns⟩ := Threaded.links_ne_self h he hr
  rw [live?, arena_unlink, entry_eq he, Threaded.getElem?_bridge c.arena hps hns, Option.bind_map,
    live?]
  by_cases hts : t = s
  · subst hts
    simp [he]
  · rw [if_neg hts]
    congr 1
    funext f
    simp only [Function.comp, if_neg hts]

/-- The live slots without `s`. -/
theorem liveSlots_unlink (h : c.IsThreaded) (hs : c.Live s) :
    (c.unlink s).liveSlots = c.liveSlots.erase s := by
  obtain ⟨hlive, hthreaded⟩ := threaded_unlink h hs
  have hnodup : c.liveSlots.Nodup := (liveSlots_sorted h).imp Nat.ne_of_lt
  refine liveSlots_eq hthreaded ((liveSlots_sorted h).sublist List.erase_sublist) fun t => ?_
  rw [hlive, hnodup.mem_erase_iff, mem_liveSlots h, and_comm]

end Unlink

/-! ### Rebuilding -/

section Compact

theorem size_arena_compact : c.compact.arena.size = c.liveSlots.length := by
  simp [compact]

theorem getElem?_compact (i : Nat) :
    c.compact.arena[i]? = c.liveSlots[i]?.map fun s =>
      ⟨(c.entry s).key, (c.entry s).value, if i = 0 then none else some (i - 1),
        if i + 1 < c.liveSlots.length then some (i + 1) else none, false⟩ := by
  simp [compact, List.getElem?_mapIdx]

/-- The live entries keep their order and lose the gaps between them. -/
theorem live?_compact (h : c.IsThreaded) (i : Nat) :
    c.compact.live? i = c.liveSlots[i]?.bind c.live? := by
  rw [live?, getElem?_compact, Option.bind_map]
  cases hs : c.liveSlots[i]? with
  | none => rfl
  | some s =>
      have hlive := (mem_liveSlots h).mp (List.mem_of_getElem? hs)
      simp [live?_entry hlive]

theorem live_compact (h : c.IsThreaded) : c.compact.Live = (· < c.liveSlots.length) := by
  funext i
  apply propext
  rw [live_iff, live?_compact h]
  constructor
  · rintro ⟨x, hx⟩
    obtain ⟨s, hs, -⟩ := Option.bind_eq_some_iff.mp hx
    exact (List.getElem?_eq_some_iff.mp hs).1
  · intro hi
    have hs := List.getElem?_eq_getElem hi
    have hlive := (mem_liveSlots h).mp (List.getElem_mem hi)
    exact ⟨_, by rw [hs, Option.bind_some, live?_entry hlive]⟩

theorem threaded_compact (h : c.IsThreaded) : c.compact.IsThreaded := by
  have hL : LiveAt c.compact.arena = (· < c.liveSlots.length) := live_compact h
  have hhead : c.compact.head = if 0 < c.liveSlots.length then some 0 else none := by
    simp only [compact, Nat.pos_iff_ne_zero]
    split <;> simp_all
  refine ⟨?_, ?_, ?_, ?_, ?_⟩
  · rw [hL, hhead]
    exact firstFrom_lt
  · rw [hL, size_arena_compact]
    exact lastBefore_lt (Nat.le_refl _)
  · intro i e he _
    rw [getElem?_compact] at he
    obtain ⟨s, -, rfl⟩ := Option.map_eq_some_iff.mp he
    rw [hL]
    exact firstFrom_lt
  · intro i e he _
    rw [getElem?_compact] at he
    obtain ⟨s, hs, rfl⟩ := Option.map_eq_some_iff.mp he
    rw [hL]
    exact lastBefore_lt (Nat.le_of_lt (List.getElem?_eq_some_iff.mp hs).1)
  · intro i e he hr
    rw [getElem?_compact] at he
    obtain ⟨s, -, rfl⟩ := Option.map_eq_some_iff.mp he
    cases hr

/-- The rebuilt index finds every live entry again, under the key it was found before. -/
theorem index_compact (h : c.IsThreaded)
    (hinj : ∀ {s t x y}, c.live? s = some x → c.live? t = some y →
      Key.ofValue x.1 = Key.ofValue y.1 → s = t) (k : Key) (i : Nat) :
    c.compact.index[k]? = some i ↔ ∃ x, c.compact.live? i = some x ∧ Key.ofValue x.1 = k := by
  have hindex : c.compact.index =
      .ofList (c.liveSlots.mapIdx fun i s => (Key.ofValue (c.entry s).key, i)) := by
    simp [compact, List.mapIdx_mapIdx, Function.comp_def]
  -- No key occurs twice in the list that the index is built from, so none is overwritten.
  have hkeys : (c.liveSlots.mapIdx fun i s => (Key.ofValue (c.entry s).key, i)).Pairwise
      fun a b => (a.1 == b.1) = false := by
    rw [List.pairwise_iff_getElem]
    intro i j hi hj hij
    simp only [List.length_mapIdx] at hi hj
    simp only [List.getElem_mapIdx, beq_eq_false_iff_ne, ne_eq]
    intro hk
    have hli := (mem_liveSlots h).mp (List.getElem_mem hi)
    have hlj := (mem_liveSlots h).mp (List.getElem_mem hj)
    have hs := hinj (live?_entry hli) (live?_entry hlj) hk
    exact Nat.ne_of_lt ((List.pairwise_iff_getElem.mp (liveSlots_sorted h)) i j hi hj hij) hs
  have hentry : (∃ x, c.compact.live? i = some x ∧ Key.ofValue x.1 = k) ↔
      (k, i) ∈ c.liveSlots.mapIdx fun i s => (Key.ofValue (c.entry s).key, i) := by
    rw [live?_compact h, List.mem_mapIdx]
    constructor
    · rintro ⟨x, hx, rfl⟩
      obtain ⟨s, hs, hsx⟩ := Option.bind_eq_some_iff.mp hx
      obtain ⟨hi, rfl⟩ := List.getElem?_eq_some_iff.mp hs
      rw [live?_entry ((mem_liveSlots h).mp (List.getElem_mem hi))] at hsx
      exact ⟨i, hi, by rw [← Option.some.inj hsx]⟩
    · rintro ⟨j, hj, hji⟩
      obtain ⟨rfl, rfl⟩ := Prod.mk.inj hji
      have hx := live?_entry ((mem_liveSlots h).mp (List.getElem_mem hj))
      exact ⟨_, by rw [List.getElem?_eq_getElem hj]; exact hx, rfl⟩
  rw [hindex, hentry]
  constructor
  · intro hk
    have hmem := Std.HashMap.mem_iff_isSome_getElem?.mpr (Option.isSome_of_mem hk)
    rw [Std.HashMap.mem_ofList, List.contains_iff_mem, List.mem_map] at hmem
    obtain ⟨⟨k', j⟩, hkj, rfl⟩ := hmem
    rw [Std.HashMap.getElem?_ofList_of_mem (beq_self_eq_true k') hkeys hkj] at hk
    rwa [← Option.some.inj hk]
  · intro hmem
    exact Std.HashMap.getElem?_ofList_of_mem (beq_self_eq_true k) hkeys hmem

theorem liveSlots_compact (h : c.IsThreaded) :
    c.compact.liveSlots = List.range c.liveSlots.length :=
  liveSlots_eq (threaded_compact h) List.pairwise_lt_range fun t => by
    rw [live_compact h, List.mem_range]

/-- How many of the live slots lie before the one that is visited next. -/
def before (live : List Nat) (next : Option Nat) : Nat := next.elim live.length live.idxOf

theorem before_le_length (live : List Nat) (next : Option Nat) :
    before live next ≤ live.length := by
  cases next with
  | none => exact Nat.le_refl _
  | some s => exact List.idxOf_le_length

theorem relocate_past (live : List Nat) (s : Nat) :
    c.relocate live (.past s) =
      if before live (c.successor s) = 0 then .start
      else .past (before live (c.successor s) - 1) := by
  rw [relocate]
  cases c.successor s <;> rfl

/-- A cursor is put on a slot of the new arena. -/
theorem relocate_lt {live : List Nat} {p : Position} {s : Nat}
    (h : c.relocate live p = .past s) : s < live.length := by
  cases p with
  | start => cases h
  | done => cases h
  | past t =>
      have hle := before_le_length live (c.successor t)
      rw [relocate_past] at h
      by_cases hzero : before live (c.successor t) = 0
      · rw [if_pos hzero] at h; cases h
      · rw [if_neg hzero] at h
        obtain rfl := Position.past.inj h
        omega

theorem Sound.compact (h : c.Sound) : c.compact.Sound where
  threaded := threaded_compact h.threaded
  index := index_compact h.threaded h.key_inj
  size := by
    rw [liveSlots_compact h.threaded, List.length_range, ← h.size]
    rfl
  tombstones := by
    rw [size_arena_compact, ← h.size]
    rfl
  cursors := by
    intro i s hi
    rw [size_arena_compact]
    simp only [Collection.compact, Array.getElem?_map, Option.map_eq_some_iff] at hi
    obtain ⟨_, -, p, rfl, hp⟩ := hi
    exact relocate_lt hp

end Compact

/-- The collection without the entry of a key in a slot, before the arena is rebuilt. -/
def detach (c : Collection) (key : Value) (s : Nat) : Collection :=
  { c.unlink s with
    index := c.index.erase (Key.ofValue key)
    size := c.size - 1
    tombstones := c.tombstones + 1 }

theorem erase_of_none {key : Value} (hs : c.slot? key = none) : c.erase key = (false, c) := by
  rw [erase, hs]

theorem erase_of_some {key : Value} {s : Nat} (hs : c.slot? key = some s) :
    c.erase key = (true, c.detach key s) ∨ c.erase key = (true, (c.detach key s).compact) := by
  rw [erase, hs]
  dsimp only
  split
  · exact Or.inr rfl
  · exact Or.inl rfl

/-- The index loses the key, and no other entry has it. -/
theorem Sound.index_detach (h : c.Sound) {key : Value} {s : Nat} (hs : c.slot? key = some s)
    (k : Key) (t : Nat) : (c.detach key s).index[k]? = some t ↔
      ∃ x, (c.detach key s).live? t = some x ∧ Key.ofValue x.1 = k := by
  obtain ⟨x, hx, hk⟩ := h.slot?_eq_some_iff.mp hs
  have hview : (c.detach key s).live? t = if t = s then none else c.live? t :=
    live?_unlink h.threaded (live_iff.mpr ⟨x, hx⟩) t
  rw [hview, Collection.detach, Std.HashMap.getElem?_erase]
  by_cases hkk : Key.ofValue key = k
  · rw [if_pos (by simpa using hkk)]
    have hnone : ¬ ∃ y, (if t = s then none else c.live? t) = some y ∧ Key.ofValue y.1 = k := by
      rintro ⟨y, hy, hyk⟩
      by_cases hts : t = s
      · rw [if_pos hts] at hy; cases hy
      · rw [if_neg hts] at hy
        exact hts (h.key_inj hy hx (hyk.trans (hkk.symm.trans hk.symm)))
    exact iff_of_false (by simp) hnone
  · rw [if_neg (by simpa using hkk), h.index k t]
    by_cases hts : t = s
    · subst hts
      rw [if_pos rfl, hx]
      constructor
      · rintro ⟨y, hy, hyk⟩
        obtain rfl := Option.some.inj hy
        exact absurd (hk.symm.trans hyk) hkk
      · rintro ⟨y, hy, -⟩
        cases hy
    · rw [if_neg hts]

theorem Sound.detach (h : c.Sound) {key : Value} {s : Nat} (hs : c.slot? key = some s) :
    (c.detach key s).Sound := by
  obtain ⟨x, hx, -⟩ := h.slot?_eq_some_iff.mp hs
  have hlive : c.Live s := live_iff.mpr ⟨x, hx⟩
  have hthreaded : (c.detach key s).IsThreaded := (threaded_unlink h.threaded hlive).2
  have hslots : (c.detach key s).liveSlots = c.liveSlots.erase s := by
    rw [← liveSlots_unlink h.threaded hlive]
    exact liveSlots_congr hthreaded (threaded_unlink h.threaded hlive).2 fun _ => Iff.rfl
  have hmem := (mem_liveSlots h.threaded).mpr hlive
  have hpos := List.length_pos_of_mem hmem
  refine ⟨hthreaded, h.index_detach hs, ?_, ?_, ?_⟩
  · rw [hslots, List.length_erase_of_mem hmem, ← h.size]
    rfl
  · have harena : (c.detach key s).arena.size = c.arena.size := size_arena_unlink s
    rw [harena, ← h.tombstones, Collection.detach]
    have := h.size
    dsimp only
    omega
  · intro i t hi
    have harena : (c.detach key s).arena.size = c.arena.size := size_arena_unlink s
    rw [harena]
    exact h.cursors hi

theorem Sound.erase (h : c.Sound) (key : Value) : (c.erase key).2.Sound := by
  cases hs : c.slot? key with
  | none => rw [erase_of_none hs]; exact h
  | some s =>
      rcases erase_of_some hs with he | he
      · rw [he]; exact h.detach hs
      · rw [he]; exact (h.detach hs).compact

theorem Sound.clear (c : Collection) : c.clear.Sound where
  threaded := Threaded.empty
  index := sound_empty.index
  size := rfl
  tombstones := rfl
  cursors := by
    intro i s hi
    simp only [Collection.clear, Array.getElem?_map, Option.map_eq_some_iff] at hi
    obtain ⟨_, -, p, rfl, hp⟩ := hi
    cases p <;> cases hp

/-! ### Cursors -/

/-- Nothing but the cursors themselves depends on where they stand. -/
theorem Sound.setCursors (h : c.Sound) {cursors : Array (Option Position)}
    (hc : ∀ {i s : Nat}, cursors[i]? = some (some (Position.past s)) → s < c.arena.size) :
    ({ c with cursors } : Collection).Sound :=
  ⟨h.threaded, h.index, h.size.trans (congrArg List.length
    (@liveSlots_congr c { c with cursors } h.threaded h.threaded fun _ => Iff.rfl)),
    h.tombstones, hc⟩

theorem Sound.openCursor (h : c.Sound) : c.openCursor.2.Sound := by
  refine h.setCursors fun {i s} hi => ?_
  rw [Array.getElem?_push] at hi
  split at hi
  · cases hi
  · exact h.cursors hi

theorem Sound.moveCursor (h : c.Sound) (i : Nat) {p : Option Position}
    (hp : ∀ s, p = some (.past s) → s < c.arena.size) :
    ({ c with cursors := c.cursors.setIfInBounds i p } : Collection).Sound := by
  refine h.setCursors fun {j s} hj => ?_
  rw [Array.getElem?_setIfInBounds] at hj
  split at hj
  · split at hj
    · exact hp s (Option.some.inj hj)
    · cases hj
  · exact h.cursors hj

theorem Sound.dropCursor (h : c.Sound) (cursor : CursorId) : (c.dropCursor cursor).Sound :=
  h.moveCursor cursor.index fun _ hp => by cases hp

theorem Sound.next (h : c.Sound) (cursor : CursorId) : (c.next cursor).2.Sound := by
  rw [Collection.next]
  dsimp only
  split
  · split
    · rename_i e he
      exact h.moveCursor cursor.index fun s hs => by
        obtain rfl := Position.past.inj (Option.some.inj hs)
        exact (Array.getElem?_eq_some_iff.mp he).1
    · exact h.moveCursor cursor.index fun s hs => by cases hs
  · exact h.moveCursor cursor.index fun s hs => by cases hs

end Collection

end ScriptCore
