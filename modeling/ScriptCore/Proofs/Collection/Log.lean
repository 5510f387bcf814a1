import ScriptCore.Proofs.Collection.Invariant

/-!
# ScriptCore.Proofs.Collection.Log

A collection behaves as an **append-only log** of entries.

Design points:

* In the log an entry never moves and never comes back: removing it clears its mark, and the same
  key inserted again makes a new entry at the end. A cursor is an index into the log, so what it
  visits next is plain to see. It also keeps the list of what it has visited, which nothing reads.
* Runs are compared through the answers to commands (`Command`, `Answer`), so a comparison covers
  any interleaving of changes, look-ups and cursors.
-/

namespace ScriptCore

/-! ### The log -/

/-- One entry of the log. -/
structure LogEntry where
  /-- The key as it is stored. -/
  key : Value
  /-- The value stored with it. -/
  value : Option Value
  /-- The entry has not been removed. -/
  live : Bool

/-- A cursor over the log. -/
structure LogCursor where
  /-- The index that the search for the next entry starts from. -/
  place : Nat
  /-- The end was reached; the cursor yields nothing more. -/
  finished : Bool
  /-- The indices of the entries that it has yielded, the latest first. -/
  visited : List Nat

/-- The entries that were ever inserted, in order, and the cursors over them. -/
structure Log where
  /-- The entries, live and removed. -/
  entries : List LogEntry
  /-- The cursors that were made; none for one that was dropped. -/
  cursors : Array (Option LogCursor)

namespace Log

/-- A log without entries. -/
def empty : Log := ⟨[], #[]⟩

/-- The key and the value of an entry, unless it was removed. -/
def live? (l : Log) (i : Nat) : Option (Value × Option Value) :=
  l.entries[i]?.bind fun e => if e.live then some (e.key, e.value) else none

/-- The live entry with the key of a value. -/
def find? (l : Log) (key : Value) : Option Nat :=
  (List.range l.entries.length).find? fun i =>
    (l.live? i).any fun x => Key.ofValue x.1 == Key.ofValue key

/-- The first live entry at or after an index. -/
def firstLive? (l : Log) (place : Nat) : Option Nat :=
  (List.range l.entries.length).find? fun i => place ≤ i && (l.live? i).isSome

/-- The value stored with a key. -/
def get? (l : Log) (key : Value) : Option Value :=
  ((l.find? key).bind l.live?).bind Prod.snd

/-- The live entries in order. -/
def toList (l : Log) : List (Value × Option Value) :=
  l.entries.filterMap fun e => if e.live then some (e.key, e.value) else none

/-- Updates the live entry with the key, or appends one. -/
def insert (l : Log) (key : Value) (value : Option Value) : Log :=
  match l.find? key with
  | some i => { l with entries := l.entries.modify i fun e => { e with value } }
  | none => { l with entries := l.entries ++ [⟨Collection.storedKey key, value, true⟩] }

/-- Kills the live entry with the key, and tells whether there was one. -/
def erase (l : Log) (key : Value) : Bool × Log :=
  match l.find? key with
  | some i => (true, { l with entries := l.entries.modify i fun e => { e with live := false } })
  | none => (false, l)

/-- Kills every entry. -/
def clear (l : Log) : Log :=
  { l with entries := l.entries.map fun e => { e with live := false } }

/-- A new cursor before the first entry. -/
def openCursor (l : Log) : CursorId × Log :=
  (⟨l.cursors.size⟩, { l with cursors := l.cursors.push (some ⟨0, false, []⟩) })

/-- Replaces a cursor. -/
def setCursor (l : Log) (cursor : CursorId) (k : Option LogCursor) : Log :=
  { l with cursors := l.cursors.setIfInBounds cursor.index k }

/-- The first live entry that the cursor has not passed, and the log with the cursor just past it; a
cursor that finds none is finished. -/
def next (l : Log) (cursor : CursorId) : Option (Value × Option Value) × Log :=
  match l.cursors[cursor.index]?.join with
  | none => (none, l)
  | some k =>
    if k.finished then (none, l)
    else match l.firstLive? k.place with
      | some i => (l.live? i, l.setCursor cursor (some ⟨i + 1, false, i :: k.visited⟩))
      | none => (none, l.setCursor cursor (some ⟨l.entries.length, true, k.visited⟩))

end Log

/-! ### Commands -/

/-- A request to a collection or a log. -/
inductive Command where
  /-- Stores a value with a key. -/
  | insert (key : Value) (value : Option Value)
  /-- Removes a key. -/
  | erase (key : Value)
  /-- Removes every key. -/
  | clear
  /-- Makes a cursor. -/
  | openCursor
  /-- Forgets a cursor. -/
  | dropCursor (cursor : CursorId)
  /-- Moves a cursor. -/
  | next (cursor : CursorId)
  /-- Asks for the value of a key. -/
  | get (key : Value)
  /-- Asks whether a key is present. -/
  | contains (key : Value)
  /-- Asks for the number of entries. -/
  | size
  /-- Asks for all entries in order. -/
  | toList

/-- The reply to a command. -/
inductive Answer where
  /-- Nothing to say. -/
  | done
  /-- Yes or no. -/
  | flag (b : Bool)
  /-- A cursor. -/
  | cursor (cursor : CursorId)
  /-- An entry, if there is one. -/
  | entry (e : Option (Value × Option Value))
  /-- A value, if there is one. -/
  | value (v : Option Value)
  /-- A number. -/
  | count (n : Nat)
  /-- Entries. -/
  | entries (es : List (Value × Option Value))

/-- A collection's answer to a command, and the collection afterwards. -/
def Collection.perform (c : Collection) : Command → Answer × Collection
  | .insert key value => (.done, c.insert key value)
  | .erase key => (.flag (c.erase key).1, (c.erase key).2)
  | .clear => (.done, c.clear)
  | .openCursor => (.cursor c.openCursor.1, c.openCursor.2)
  | .dropCursor cursor => (.done, c.dropCursor cursor)
  | .next cursor => (.entry (c.next cursor).1, (c.next cursor).2)
  | .get key => (.value (c.get? key), c)
  | .contains key => (.flag (c.contains key), c)
  | .size => (.count c.size, c)
  | .toList => (.entries c.toList, c)

/-- A log's answer to a command, and the log afterwards. -/
def Log.perform (l : Log) : Command → Answer × Log
  | .insert key value => (.done, l.insert key value)
  | .erase key => (.flag (l.erase key).1, (l.erase key).2)
  | .clear => (.done, l.clear)
  | .openCursor => (.cursor l.openCursor.1, l.openCursor.2)
  | .dropCursor cursor => (.done, l.setCursor cursor none)
  | .next cursor => (.entry (l.next cursor).1, (l.next cursor).2)
  | .get key => (.value (l.get? key), l)
  | .contains key => (.flag (l.find? key).isSome, l)
  | .size => (.count l.toList.length, l)
  | .toList => (.entries l.toList, l)

/-- The answers to a sequence of commands, and the state at the end. -/
def runCommands {σ : Type} (perform : σ → Command → Answer × σ) (s : σ) :
    List Command → List Answer × σ
  | [] => ([], s)
  | command :: commands =>
    let rest := runCommands perform (perform s command).2 commands
    ((perform s command).1 :: rest.1, rest.2)

/-! ### The live entries of the log -/

namespace Log

variable {l : Log}

theorem setCursor_self {cursor : CursorId} {k : Option LogCursor}
    (hk : l.cursors[cursor.index]?.join = k) : l.setCursor cursor k = l := by
  have hset : l.cursors.setIfInBounds cursor.index k = l.cursors := by
    refine Array.ext_getElem? fun i => ?_
    rw [Array.getElem?_setIfInBounds]
    split
    · rename_i hi
      subst hi
      split
      · rename_i hlt
        rw [← hk, Array.getElem?_eq_getElem hlt, Option.join_some]
      · rename_i hge
        rw [Array.getElem?_eq_none (Nat.le_of_not_lt hge)]
    · rfl
  rw [setCursor, hset]

/-- The entry has not been removed. -/
def Live (l : Log) (i : Nat) : Prop := ∃ x, l.live? i = some x

theorem lt_length_of_live {i : Nat} (h : l.Live i) : i < l.entries.length := by
  obtain ⟨x, hx⟩ := h
  obtain ⟨e, he, -⟩ := Option.bind_eq_some_iff.mp hx
  exact (List.getElem?_eq_some_iff.mp he).1

theorem firstLive?_firstFrom (l : Log) (place : Nat) :
    FirstFrom l.Live place (l.firstLive? place) := by
  cases h : l.firstLive? place with
  | some i =>
      rw [firstLive?, List.find?_range_eq_some] at h
      simp only [Bool.and_eq_true, decide_eq_true_eq, Option.isSome_iff_exists] at h
      obtain ⟨⟨hle, hlive⟩, -, hfirst⟩ := h
      refine ⟨hlive, hle, fun t hpt hti hLt => ?_⟩
      have ht := hfirst t hti
      simp [hpt, Option.isSome_iff_exists.mpr hLt] at ht
  | none =>
      rw [firstLive?, List.find?_range_eq_none] at h
      intro t hpt hLt
      have ht := h t (lt_length_of_live hLt)
      simp [hpt, Option.isSome_iff_exists.mpr hLt] at ht

theorem toList_eq_filterMap (l : Log) :
    l.toList = (List.range l.entries.length).filterMap l.live? := by
  rw [toList]
  unfold live?
  induction l.entries with
  | nil => rfl
  | cons e es ih =>
      rw [List.length_cons, List.range_succ_eq_map, List.filterMap_cons, List.filterMap_cons,
        List.filterMap_map]
      simp only [List.getElem?_cons_zero, Option.bind_some, Function.comp_def,
        List.getElem?_cons_succ, ← ih]

/-! ### The entries after a change -/

section Changes

variable {key : Value} {value : Option Value} {j : Nat}

theorem live?_insert_of_some (hj : l.find? key = some j) (i : Nat) :
    (l.insert key value).live? i =
      if i = j then (l.live? i).map fun x => (x.1, value) else l.live? i := by
  simp only [insert, hj, live?, List.getElem?_modify]
  by_cases hij : i = j
  · subst hij
    cases l.entries[i]? with
    | none => simp
    | some e => cases hr : e.live <;> simp [hr]
  · rw [if_neg hij]
    cases l.entries[i]? <;> simp [Ne.symm hij]

theorem live?_insert_of_none (hj : l.find? key = none) (i : Nat) :
    (l.insert key value).live? i =
      if i = l.entries.length then some (Collection.storedKey key, value) else l.live? i := by
  simp only [insert, hj, live?]
  rcases Nat.lt_trichotomy i l.entries.length with hi | rfl | hi
  · rw [if_neg (Nat.ne_of_lt hi), List.getElem?_append_left hi]
  · simp
  · rw [if_neg (Nat.ne_of_gt hi), List.getElem?_eq_none (by simp; omega),
      List.getElem?_eq_none (Nat.le_of_lt hi)]

theorem live?_erase_of_some (hj : l.find? key = some j) (i : Nat) :
    (l.erase key).2.live? i = if i = j then none else l.live? i := by
  simp only [erase, hj, live?, List.getElem?_modify]
  by_cases hij : i = j
  · subst hij
    cases l.entries[i]? <;> simp
  · rw [if_neg hij]
    cases l.entries[i]? <;> simp [Ne.symm hij]

theorem live?_clear (l : Log) (i : Nat) : l.clear.live? i = none := by
  simp only [clear, live?, List.getElem?_map]
  cases l.entries[i]? <;> simp

end Changes

end Log

/-! ### What the cursors visit -/

/-- A cursor has visited every live entry that it has passed, and none of them twice. -/
structure LogCursor.Fair (k : LogCursor) (l : Log) : Prop where
  /-- The cursor stands within the log. -/
  place_le : k.place ≤ l.entries.length
  /-- It has passed what it has visited. -/
  passed : ∀ i ∈ k.visited, i < k.place
  /-- It goes through the log in order, without a repetition. -/
  descending : k.visited.Pairwise (· > ·)
  /-- It leaves out no entry that is live. -/
  complete : ∀ i, l.Live i → i < k.place → i ∈ k.visited

namespace Log

variable {l : Log}

/-- Every cursor is fair. -/
def FairCursors (l : Log) : Prop :=
  ∀ (i : Nat) (k : LogCursor), l.cursors[i]?.join = some k → k.Fair l

/-- No change brings a removed entry back to life. -/
theorem FairCursors.congr {l' : Log} (h : l.FairCursors) (hc : l'.cursors = l.cursors)
    (hn : l.entries.length ≤ l'.entries.length)
    (hL : ∀ i, i < l.entries.length → l'.Live i → l.Live i) : l'.FairCursors := by
  intro i k hk
  rw [hc] at hk
  have hf := h i k hk
  refine ⟨Nat.le_trans hf.place_le hn, hf.passed, hf.descending, fun j hj hjk => ?_⟩
  exact hf.complete j (hL j (Nat.lt_of_lt_of_le hjk hf.place_le) hj) hjk

theorem FairCursors.setCursor (h : l.FairCursors) (cursor : CursorId) {k : Option LogCursor}
    (hk : ∀ k', k = some k' → k'.Fair l) : (l.setCursor cursor k).FairCursors := by
  have hfair : ∀ k' : LogCursor, k'.Fair l → k'.Fair (l.setCursor cursor k) := fun k' hf =>
    ⟨hf.place_le, hf.passed, hf.descending, hf.complete⟩
  intro i k' hi
  simp only [Log.setCursor, Array.getElem?_setIfInBounds] at hi
  split at hi
  · split at hi
    · exact hfair k' (hk k' hi)
    · cases hi
  · exact hfair k' (h i k' hi)

theorem FairCursors.openCursor (h : l.FairCursors) : l.openCursor.2.FairCursors := by
  intro i k hi
  simp only [Log.openCursor, Array.getElem?_push] at hi
  split at hi
  · obtain rfl := Option.some.inj hi
    exact ⟨Nat.zero_le _, by simp, List.Pairwise.nil,
      fun j _ hj => absurd hj (Nat.not_lt_zero j)⟩
  · have hf := h i k hi
    exact ⟨hf.place_le, hf.passed, hf.descending, hf.complete⟩

/-- The cursor passes the entry that it yields, and before it only removed ones. -/
theorem FairCursors.next (h : l.FairCursors) (cursor : CursorId) :
    (l.next cursor).2.FairCursors := by
  rw [Log.next]
  cases hk : l.cursors[cursor.index]?.join with
  | none => exact h
  | some k =>
      have hf := h _ k hk
      dsimp only
      split
      · exact h
      · have hfirst := l.firstLive?_firstFrom k.place
        cases hi : l.firstLive? k.place with
        | some i =>
            rw [hi] at hfirst
            obtain ⟨hlive, hle, hgap⟩ := hfirst
            refine h.setCursor cursor fun k' hk' => ?_
            obtain rfl := Option.some.inj hk'
            -- What was visited lies before the old place, so before `i`; between them nothing is live.
            refine ⟨lt_length_of_live hlive, fun j hj => ?_, ?_, fun j hj hji => ?_⟩
            · rcases List.mem_cons.mp hj with rfl | hj
              · exact Nat.lt_succ_self _
              · exact Nat.lt_succ_of_lt (Nat.lt_of_lt_of_le (hf.passed j hj) hle)
            · exact List.pairwise_cons.mpr
                ⟨fun j hj => Nat.lt_of_lt_of_le (hf.passed j hj) hle, hf.descending⟩
            · rcases Nat.lt_or_eq_of_le (Nat.le_of_lt_succ hji) with hlt | rfl
              · have hjk : j < k.place := Nat.lt_of_not_le fun hkj => hgap j hkj hlt hj
                exact List.mem_cons_of_mem _ (hf.complete j hj hjk)
              · exact List.mem_cons_self
        | none =>
            rw [hi] at hfirst
            refine h.setCursor cursor fun k' hk' => ?_
            obtain rfl := Option.some.inj hk'
            refine ⟨Nat.le_refl _, fun j hj => Nat.lt_of_lt_of_le (hf.passed j hj) hf.place_le,
              hf.descending, fun j hj _ => ?_⟩
            exact hf.complete j hj (Nat.lt_of_not_le fun hkj => hfirst j hkj hj)

theorem FairCursors.insert (h : l.FairCursors) (key : Value) (value : Option Value) :
    (l.insert key value).FairCursors := by
  cases hj : l.find? key with
  | some j =>
      refine h.congr (by simp [Log.insert, hj]) (by simp [Log.insert, hj]) fun i _ hi => ?_
      obtain ⟨x, hx⟩ := hi
      rw [live?_insert_of_some hj] at hx
      split at hx
      · obtain ⟨y, hy, -⟩ := Option.map_eq_some_iff.mp hx
        exact ⟨y, hy⟩
      · exact ⟨x, hx⟩
  | none =>
      refine h.congr (by simp [Log.insert, hj]) (by simp [Log.insert, hj]) fun i hlt hi => ?_
      obtain ⟨x, hx⟩ := hi
      rw [live?_insert_of_none hj, if_neg (Nat.ne_of_lt hlt)] at hx
      exact ⟨x, hx⟩

theorem FairCursors.erase (h : l.FairCursors) (key : Value) : (l.erase key).2.FairCursors := by
  cases hj : l.find? key with
  | some j =>
      refine h.congr (by simp [Log.erase, hj]) (by simp [Log.erase, hj]) fun i _ hi => ?_
      obtain ⟨x, hx⟩ := hi
      rw [live?_erase_of_some hj] at hx
      split at hx
      · cases hx
      · exact ⟨x, hx⟩
  | none =>
      rw [Log.erase, hj]
      exact h

theorem FairCursors.clear (h : l.FairCursors) : l.clear.FairCursors := by
  refine h.congr rfl (by simp [Log.clear]) fun i _ hi => ?_
  obtain ⟨x, hx⟩ := hi
  rw [live?_clear] at hx
  cases hx

theorem FairCursors.perform (h : l.FairCursors) (command : Command) :
    (l.perform command).2.FairCursors := by
  cases command with
  | insert key value => exact h.insert key value
  | erase key => exact h.erase key
  | clear => exact h.clear
  | openCursor => exact h.openCursor
  | dropCursor cursor => exact h.setCursor cursor (by simp)
  | next cursor => exact h.next cursor
  | get key => exact h
  | contains key => exact h
  | size => exact h
  | toList => exact h

theorem FairCursors.runCommands (h : l.FairCursors) (commands : List Command) :
    (runCommands Log.perform l commands).2.FairCursors := by
  induction commands generalizing l with
  | nil => exact h
  | cons command commands ih => exact ih (h.perform command)

theorem fairCursors_empty : Log.empty.FairCursors := fun i k hk => by
  simp [Log.empty] at hk

end Log

end ScriptCore
