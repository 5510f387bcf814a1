import ScriptCore.Proofs.Collection.Log

/-!
# ScriptCore.Proofs.Collection.Refinement

A collection and a log that are given the same commands give the **same answers**.

Design points:

* The live slots of the arena are embedded in the log, in order and with their contents
  (`Refines`). A rebuild of the arena changes the embedding and nothing else.
* Cursors are related by what lies ahead of them (`CursorRefines`). That relation says nothing about
  the removed slots that a cursor may stand on, so removal does not touch it, and it is the first
  live slot ahead (`FirstFrom`) that both sides visit next.
* There is one lemma per operation, and `Refines.perform` joins them to a step of a run.
-/

namespace ScriptCore

/-! ### The embedding -/

/-- The first slot that may lie ahead of a position. -/
def Position.reach : Position → Nat
  | .start => 0
  | .past s => s + 1
  | .done => 0

/-- A position in the arena whose live slots are `L` and a cursor over a log of `n` entries have the
same live entries ahead of them. -/
inductive CursorRefines (L : Nat → Prop) (n : Nat) (place : Nat → Nat) :
    Option Position → Option LogCursor → Prop where
  /-- Neither has anything ahead, now or later. -/
  | exhausted {p : Option Position} {k : Option LogCursor} (hp : p.getD .done = .done)
      (hk : ∀ k', k = some k' → k'.finished = true) : CursorRefines L n place p k
  /-- The same slots are ahead. -/
  | standing {p : Position} {k : LogCursor} (hp : p ≠ .done) (hk : k.finished = false)
      (hle : k.place ≤ n) (hahead : ∀ s, L s → (p.reach ≤ s ↔ k.place ≤ place s)) :
      CursorRefines L n place (some p) (some k)

/-- The live slots are embedded in the log, in order and with their contents. -/
structure Refines (c : Collection) (l : Log) (place : Nat → Nat) : Prop where
  /-- The order is the same. -/
  mono : ∀ {s t}, c.Live s → c.Live t → s < t → place s < place t
  /-- A slot and its place hold the same entry. -/
  entry : ∀ {s x}, c.live? s = some x → l.live? (place s) = some x
  /-- Every live entry of the log is the place of a slot. -/
  slot : ∀ {i x}, l.live? i = some x → ∃ s, c.live? s = some x ∧ place s = i
  /-- The same cursors were made. -/
  count : c.cursors.size = l.cursors.size
  /-- They have the same entries ahead of them. -/
  cursors : ∀ i : Nat,
    CursorRefines c.Live l.entries.length place c.cursors[i]?.join l.cursors[i]?.join

/-- A strictly monotone map keeps first members first. -/
theorem FirstFrom.map {L L' : Nat → Prop} {f : Nat → Nat} {a b : Nat} {o : Option Nat}
    (h : FirstFrom L a o) (hmono : ∀ s t, L s → L t → s < t → f s < f t)
    (hL : ∀ i, L' i ↔ ∃ s, L s ∧ f s = i) (hab : ∀ s, L s → (a ≤ s ↔ b ≤ f s)) :
    FirstFrom L' b (o.map f) := by
  cases o with
  | none =>
      intro i hbi hLi
      obtain ⟨s, hs, rfl⟩ := (hL i).mp hLi
      exact h s ((hab s hs).mpr hbi) hs
  | some s =>
      refine ⟨(hL _).mpr ⟨s, h.1, rfl⟩, (hab s h.1).mp h.2.1, fun i hbi his hLi => ?_⟩
      obtain ⟨t, ht, rfl⟩ := (hL i).mp hLi
      rcases Nat.lt_trichotomy t s with hts | rfl | hst
      · exact h.2.2 t ((hab t ht).mpr hbi) hts ht
      · exact Nat.lt_irrefl _ his
      · exact Nat.lt_asymm his (hmono s t h.1 ht hst)

namespace Refines

variable {c : Collection} {l : Log} {place : Nat → Nat}

theorem live_iff (h : Refines c l place) (i : Nat) : l.Live i ↔ ∃ s, c.Live s ∧ place s = i := by
  constructor
  · rintro ⟨x, hx⟩
    obtain ⟨s, hs, rfl⟩ := h.slot hx
    exact ⟨s, Collection.live_iff.mpr ⟨x, hs⟩, rfl⟩
  · rintro ⟨s, hs, rfl⟩
    obtain ⟨x, hx⟩ := Collection.live_iff.mp hs
    exact ⟨x, h.entry hx⟩

theorem place_lt (h : Refines c l place) {s : Nat} (hs : c.Live s) :
    place s < l.entries.length :=
  Log.lt_length_of_live ((h.live_iff _).mpr ⟨s, hs, rfl⟩)

theorem mono_le (h : Refines c l place) {s t : Nat} (hs : c.Live s) (ht : c.Live t)
    (hst : s ≤ t) : place s ≤ place t := by
  rcases Nat.lt_or_eq_of_le hst with hlt | rfl
  · exact Nat.le_of_lt (h.mono hs ht hlt)
  · exact Nat.le_refl _

theorem place_inj (h : Refines c l place) {s t : Nat} (hs : c.Live s) (ht : c.Live t)
    (heq : place s = place t) : s = t := by
  rcases Nat.lt_trichotomy s t with hst | rfl | hts
  · exact absurd heq (Nat.ne_of_lt (h.mono hs ht hst))
  · rfl
  · exact absurd heq.symm (Nat.ne_of_lt (h.mono ht hs hts))

/-- A key is found in the log at the place of its slot. -/
theorem find?_eq (h : Refines c l place) (hc : c.Sound) (key : Value) :
    l.find? key = (c.slot? key).map place := by
  cases hs : c.slot? key with
  | some s =>
      obtain ⟨x, hx, hk⟩ := hc.slot?_eq_some_iff.mp hs
      have hlive := Collection.live_iff.mpr ⟨x, hx⟩
      rw [Option.map_some, Log.find?, List.find?_range_eq_some]
      refine ⟨by simp [h.entry hx, hk], List.mem_range.mpr (h.place_lt hlive), fun j hj => ?_⟩
      cases hy : l.live? j with
      | none => rfl
      | some y =>
          obtain ⟨t, ht, rfl⟩ := h.slot hy
          have hts : t ≠ s := fun hts => Nat.lt_irrefl _ (hts ▸ hj)
          have hyk : Key.ofValue y.1 ≠ Key.ofValue key := fun hyk =>
            hts (hc.key_inj ht hx (hyk.trans hk.symm))
          simp [hyk]
  | none =>
      rw [Option.map_none, Log.find?, List.find?_range_eq_none]
      intro i _
      cases hi : l.live? i with
      | none => rfl
      | some y =>
          obtain ⟨t, ht, -⟩ := h.slot hi
          simpa using hc.slot?_eq_none hs ht

/-- What a cursor visits next is the same entry. -/
theorem firstLive?_eq (h : Refines c l place) {a b : Nat} {o : Option Nat}
    (ho : FirstFrom c.Live a o) (hab : ∀ s, c.Live s → (a ≤ s ↔ b ≤ place s)) :
    l.firstLive? b = o.map place :=
  (l.firstLive?_firstFrom b).unique (ho.map (fun _ _ => h.mono) h.live_iff hab)

theorem toList_eq (h : Refines c l place) (hc : c.Sound) : l.toList = c.toList := by
  have hsorted : (c.liveSlots.map place).Pairwise (· < ·) := by
    refine List.pairwise_map.mpr ((Collection.liveSlots_sorted hc.threaded).imp_of_mem ?_)
    intro s t hs ht hst
    exact h.mono ((Collection.mem_liveSlots hc.threaded).mp hs)
      ((Collection.mem_liveSlots hc.threaded).mp ht) hst
  have hindices : (List.range l.entries.length).filter (fun i => (l.live? i).isSome) =
      c.liveSlots.map place := by
    refine (List.pairwise_lt_range.filter _).eq_of_mem_iff hsorted fun i => ?_
    rw [List.mem_filter, List.mem_range, Option.isSome_iff_exists, List.mem_map]
    simp only [Collection.mem_liveSlots hc.threaded]
    exact ⟨fun hi => (h.live_iff i).mp hi.2, fun hi =>
      have hlive := (h.live_iff i).mpr hi
      ⟨Log.lt_length_of_live hlive, hlive⟩⟩
  have hfilter : l.toList = (c.liveSlots.map place).filterMap l.live? := by
    rw [Log.toList_eq_filterMap, ← hindices, List.filterMap_filter]
    refine List.filterMap_congr fun i _ => ?_
    cases l.live? i <;> rfl
  rw [hfilter, List.filterMap_map, Collection.toList, ← List.filterMap_eq_map]
  refine List.filterMap_congr fun s hs => ?_
  exact h.entry (Collection.live?_entry ((Collection.mem_liveSlots hc.threaded).mp hs))

theorem get?_eq (h : Refines c l place) (hc : c.Sound) (key : Value) : l.get? key = c.get? key := by
  rw [Log.get?, h.find?_eq hc, Collection.get?]
  cases hs : c.slot? key with
  | none => rfl
  | some s =>
      obtain ⟨x, hx, -⟩ := hc.slot?_eq_some_iff.mp hs
      have hentry := Collection.live?_entry (Collection.live_iff.mpr ⟨x, hx⟩)
      simp [h.entry hentry]

end Refines

/-! ### Steps -/

/-- Slots and entries that are added behind all others are ahead of every cursor, on both sides. -/
theorem CursorRefines.extend {L L' : Nat → Prop} {m n n' : Nat} {place place' : Nat → Nat}
    {p : Option Position} {k : Option LogCursor} (h : CursorRefines L n place p k)
    (hp : ∀ p', p = some p' → p'.reach ≤ m) (hn : n ≤ n')
    (hL : ∀ s, L' s → L s ∧ place' s = place s ∨ m ≤ s ∧ n ≤ place' s) :
    CursorRefines L' n' place' p k := by
  cases h with
  | exhausted hp hk => exact .exhausted hp hk
  | standing hd hk hle hahead =>
      refine .standing hd hk (Nat.le_trans hle hn) fun s hs => ?_
      rcases hL s hs with ⟨hLs, heq⟩ | ⟨hms, hns⟩
      · rw [heq]
        exact hahead s hLs
      · exact iff_of_true (Nat.le_trans (hp _ rfl) hms) (Nat.le_trans hle hns)

/-- Positions may be replaced by others that have the same places ahead of them. -/
theorem CursorRefines.map {L L' : Nat → Prop} {n n' : Nat} {place place' : Nat → Nat}
    {p : Option Position} {k : Option LogCursor} (f : Position → Position)
    (h : CursorRefines L n place p k) (hdone : f .done = .done) (hn : n ≤ n')
    (hf : ∀ q, p = some q → q ≠ .done → f q ≠ .done ∧
      ∀ s, L' s → ∃ t, L t ∧ place' s = place t ∧ ((f q).reach ≤ s ↔ q.reach ≤ t)) :
    CursorRefines L' n' place' (p.map f) k := by
  cases h with
  | exhausted hp hk =>
      refine .exhausted ?_ hk
      cases p with
      | none => rfl
      | some q =>
          obtain rfl : q = .done := hp
          exact hdone
  | standing hd hk hle hahead =>
      obtain ⟨hd', hslots⟩ := hf _ rfl hd
      refine .standing hd' hk (Nat.le_trans hle hn) fun s hs => ?_
      obtain ⟨t, ht, hplace, hreach⟩ := hslots s hs
      rw [hplace, hreach]
      exact hahead t ht

namespace Collection.Sound

variable {c : Collection}

theorem reach_le (h : c.Sound) {i : Nat} {p : Position} (hp : c.cursors[i]?.join = some p) :
    p.reach ≤ c.arena.size := by
  cases p with
  | start => exact Nat.zero_le _
  | done => exact Nat.zero_le _
  | past s => exact h.cursors (Option.join_eq_some_iff.mp hp)

/-- What a cursor visits next is the first live slot ahead of it. -/
theorem following_firstFrom (h : c.Sound) {p : Position} (hp : p ≠ .done)
    (hreach : p.reach ≤ c.arena.size) : FirstFrom c.Live p.reach (c.following p) := by
  cases p with
  | start => exact h.threaded.head
  | done => exact absurd rfl hp
  | past s => exact successor_firstFrom h.threaded hreach

end Collection.Sound

namespace Refines

variable {c : Collection} {l : Log} {place : Nat → Nat}

theorem empty : Refines .empty .empty id where
  mono := fun hs _ _ => absurd (LiveAt.lt_size hs) (Nat.not_lt_zero _)
  entry := fun hs => by cases hs
  slot := fun hi => by simp [Log.live?, Log.empty] at hi
  count := rfl
  cursors := fun i => .exhausted (by simp [Collection.empty]) fun k hk => by simp [Log.empty] at hk

/-- Replacing a cursor on both sides. -/
theorem setCursor (h : Refines c l place) (cursor : CursorId) {p : Option Position}
    {k : Option LogCursor} (hpk : CursorRefines c.Live l.entries.length place p k) :
    Refines { c with cursors := c.cursors.setIfInBounds cursor.index p } (l.setCursor cursor k)
      place where
  mono := h.mono
  entry := h.entry
  slot := h.slot
  count := by simpa [Log.setCursor] using h.count
  cursors := fun i => by
    have hi := h.cursors i
    simp only [Log.setCursor, Array.getElem?_setIfInBounds, h.count]
    split
    · split
      · exact hpk
      · exact .exhausted rfl fun k hk => by cases hk
    · exact hi

theorem openCursor (h : Refines c l place) :
    c.openCursor.1 = l.openCursor.1 ∧ Refines c.openCursor.2 l.openCursor.2 place := by
  refine ⟨by simp [Collection.openCursor, Log.openCursor, h.count], h.mono, h.entry, h.slot, ?_, ?_⟩
  · simp [Collection.openCursor, Log.openCursor, h.count]
  · intro i
    have hi := h.cursors i
    simp only [Collection.openCursor, Log.openCursor, Array.getElem?_push, h.count]
    split
    · refine .standing (by simp) rfl (Nat.zero_le _) fun s _ => ?_
      exact iff_of_true (Nat.zero_le s) (Nat.zero_le _)
    · exact hi

/-- The collection's cursor and the log's yield the same entry. -/
theorem next (h : Refines c l place) (hc : c.Sound) (cursor : CursorId) :
    (c.next cursor).1 = (l.next cursor).1 ∧ Refines (c.next cursor).2 (l.next cursor).2 place := by
  have hcursor := h.cursors cursor.index
  rw [Collection.next, Log.next]
  generalize hp : c.cursors[cursor.index]?.join = p at hcursor ⊢
  generalize hk : l.cursors[cursor.index]?.join = k at hcursor ⊢
  cases hcursor with
  | exhausted hdone hfin =>
      rw [hdone]
      -- The collection marks the cursor as done, even one that was dropped; the log leaves it alone.
      have hstill := h.setCursor (p := some .done) (k := k) cursor (.exhausted rfl hfin)
      rw [Log.setCursor_self hk] at hstill
      cases k with
      | none => exact ⟨rfl, hstill⟩
      | some k =>
          dsimp only
          rw [if_pos (hfin k rfl)]
          exact ⟨rfl, hstill⟩
  | @standing p k hd hfin hle hahead =>
      have hfirst := hc.following_firstFrom hd (hc.reach_le hp)
      rw [Option.getD_some]
      dsimp only
      rw [if_neg (by simp [hfin]), h.firstLive?_eq hfirst hahead]
      cases ho : c.following p with
      | none => exact ⟨rfl, h.setCursor cursor (.exhausted rfl fun k' hk' => by
          rw [← Option.some.inj hk'])⟩
      | some s =>
          rw [ho] at hfirst
          obtain ⟨e, he, hr⟩ := hfirst.1
          have hentry := Collection.live?_entry hfirst.1
          rw [Collection.entry_eq he] at hentry
          simp only [Option.map_some, he, h.entry hentry]
          refine ⟨trivial, h.setCursor cursor (.standing (by simp) rfl ?_ fun t ht => ?_)⟩
          · exact h.place_lt hfirst.1
          -- Both are now just past the same entry.
          · exact ⟨fun hst => h.mono hfirst.1 ht hst, fun hst => Nat.lt_of_not_le fun hts =>
              absurd hst (Nat.not_lt.mpr (h.mono_le ht hfirst.1 hts))⟩

/-! ### Changes -/

/-- A slot and its place that change alike, with all others as they were, still hold the same. -/
theorem update {c' : Collection} {l' : Log} {s i : Nat} {x : Option (Value × Option Value)}
    (h : Refines c l place) (place' : Nat → Nat)
    (hc' : ∀ t, c'.live? t = if t = s then x else c.live? t)
    (hl' : ∀ j, l'.live? j = if j = i then x else l.live? j) (hplace : place' s = i)
    (hkept : ∀ t, c.Live t → place' t = place t) (hinj : ∀ t, c.Live t → place t = i → t = s) :
    (∀ {t y}, c'.live? t = some y → l'.live? (place' t) = some y) ∧
      ∀ {j y}, l'.live? j = some y → ∃ t, c'.live? t = some y ∧ place' t = j := by
  constructor
  · intro t y hy
    rw [hc'] at hy
    rw [hl']
    by_cases hts : t = s
    · rw [if_pos hts] at hy
      rw [if_pos (hts ▸ hplace)]
      exact hy
    · rw [if_neg hts] at hy
      have ht : c.Live t := Collection.live_iff.mpr ⟨y, hy⟩
      rw [hkept t ht, if_neg fun hti => hts (hinj t ht hti)]
      exact h.entry hy
  · intro j y hy
    rw [hl'] at hy
    by_cases hji : j = i
    · rw [if_pos hji] at hy
      exact ⟨s, by rw [hc', if_pos rfl]; exact hy, hplace.trans hji.symm⟩
    · rw [if_neg hji] at hy
      obtain ⟨t, ht, rfl⟩ := h.slot hy
      have hkept := hkept t (Collection.live_iff.mpr ⟨y, ht⟩)
      have hts : t ≠ s := fun hts => hji (hkept.symm.trans (hts ▸ hplace))
      exact ⟨t, by rw [hc', if_neg hts]; exact ht, hkept⟩

/-- A key that is present gets its value in the slot and in the log. -/
theorem insert_of_some (h : Refines c l place) (hc : c.Sound) {key : Value} {s : Nat}
    (hs : c.slot? key = some s) (value : Option Value) :
    Refines (c.insert key value) (l.insert key value) place := by
  have hfind := h.find?_eq hc key
  rw [hs, Option.map_some] at hfind
  obtain ⟨x, hx, -⟩ := hc.slot?_eq_some_iff.mp hs
  have hlive := (Collection.threaded_insert_of_some hc.threaded hs value).1
  have hc' : ∀ t, (c.insert key value).live? t =
      if t = s then some (x.1, value) else c.live? t := by
    intro t
    rw [Collection.live?_insert_of_some hs]
    by_cases hts : t = s
    · rw [if_pos hts, if_pos hts, hts, hx, Option.map_some]
    · rw [if_neg hts, if_neg hts]
  have hl' : ∀ j, (l.insert key value).live? j =
      if j = place s then some (x.1, value) else l.live? j := by
    intro j
    rw [Log.live?_insert_of_some hfind]
    by_cases hj : j = place s
    · rw [if_pos hj, if_pos hj, hj, h.entry hx, Option.map_some]
    · rw [if_neg hj, if_neg hj]
  obtain ⟨hentry, hslot⟩ := h.update place hc' hl' rfl (fun _ _ => rfl) fun t ht heq =>
    h.place_inj ht (Collection.live_iff.mpr ⟨x, hx⟩) heq
  refine ⟨?_, hentry, hslot, ?_, ?_⟩
  · rw [hlive]
    exact h.mono
  · simpa [Collection.insert, Log.insert, hs, hfind] using h.count
  · rw [hlive]
    simpa [Collection.insert, Log.insert, hs, hfind] using h.cursors

/-- A new key goes behind all others in the arena and in the log. -/
theorem insert_of_none (h : Refines c l place) (hc : c.Sound) {key : Value}
    (hs : c.slot? key = none) (value : Option Value) :
    Refines (c.insert key value) (l.insert key value)
      fun t => if t = c.arena.size then l.entries.length else place t := by
  have hfind := h.find?_eq hc key
  rw [hs, Option.map_none] at hfind
  have hlive := (Collection.threaded_insert_of_none hc.threaded hs value).1
  have hold : ∀ t, c.Live t → t ≠ c.arena.size := fun t ht => Nat.ne_of_lt (LiveAt.lt_size ht)
  obtain ⟨hentry, hslot⟩ := h.update
    (fun t => if t = c.arena.size then l.entries.length else place t)
    (Collection.live?_insert_of_none hs) (Log.live?_insert_of_none hfind) (if_pos rfl)
    (fun t ht => if_neg (hold t ht)) fun t ht heq => absurd heq (Nat.ne_of_lt (h.place_lt ht))
  refine ⟨?_, hentry, hslot, ?_, ?_⟩
  · rw [hlive]
    rintro t u (ht | rfl) (hu | rfl) htu
    · rw [if_neg (hold t ht), if_neg (hold u hu)]
      exact h.mono ht hu htu
    · rw [if_neg (hold t ht), if_pos rfl]
      exact h.place_lt ht
    · exact absurd (LiveAt.lt_size hu) (Nat.lt_asymm htu)
    · exact absurd htu (Nat.lt_irrefl _)
  · simpa [Collection.insert, Log.insert, hs, hfind] using h.count
  · intro i
    have hcursors : (c.insert key value).cursors = c.cursors ∧
        (l.insert key value).cursors = l.cursors := by
      simp [Collection.insert, Log.insert, hs, hfind]
    rw [hcursors.1, hcursors.2]
    refine (h.cursors i).extend (fun p hp => hc.reach_le hp) (by simp [Log.insert, hfind]) ?_
    rw [hlive]
    rintro t (ht | rfl)
    · exact Or.inl ⟨ht, if_neg (hold t ht)⟩
    · exact Or.inr ⟨Nat.le_refl _, by rw [if_pos rfl]⟩

/-- A removed key leaves the live entries on both sides. -/
theorem detach (h : Refines c l place) (hc : c.Sound) {key : Value} {s : Nat}
    (hs : c.slot? key = some s) : Refines (c.detach key s) (l.erase key).2 place := by
  have hfind := h.find?_eq hc key
  rw [hs, Option.map_some] at hfind
  obtain ⟨x, hx, -⟩ := hc.slot?_eq_some_iff.mp hs
  have hxlive : c.Live s := Collection.live_iff.mpr ⟨x, hx⟩
  have hlive : (c.detach key s).Live = fun t => c.Live t ∧ t ≠ s :=
    (Collection.threaded_unlink hc.threaded hxlive).1
  have hview : ∀ t, (c.detach key s).live? t = if t = s then none else c.live? t :=
    Collection.live?_unlink hc.threaded hxlive
  obtain ⟨hentry, hslot⟩ := h.update place hview (Log.live?_erase_of_some hfind) rfl
    (fun _ _ => rfl) fun t ht heq => h.place_inj ht hxlive heq
  refine ⟨?_, hentry, hslot, ?_, ?_⟩
  · rw [hlive]
    exact fun ht hu htu => h.mono ht.1 hu.1 htu
  · have hcount : (c.detach key s).cursors.size = l.cursors.size := h.count
    simpa [Log.erase, hfind] using hcount
  · intro i
    have hcursors : (l.erase key).2.cursors = l.cursors := by simp [Log.erase, hfind]
    rw [hcursors, hlive]
    -- A cursor that stands on the slot has passed it, so the same slots stay ahead.
    refine (h.cursors i).extend (fun p hp => hc.reach_le hp) (by simp [Log.erase, hfind]) ?_
    exact fun t ht => Or.inl ⟨ht.1, rfl⟩

end Refines

/-! ### Rebuilding the arena -/

namespace Collection

variable {c : Collection}

/-- The live slots before the one that is visited next are those that the position has passed. -/
theorem before_le_iff (h : c.IsThreaded) {a : Nat} {o : Option Nat} (ho : FirstFrom c.Live a o)
    {j : Nat} (hj : j < c.liveSlots.length) :
    before c.liveSlots o ≤ j ↔ a ≤ c.liveSlots[j] := by
  have hlive : c.Live c.liveSlots[j] := (mem_liveSlots h).mp (List.getElem_mem hj)
  cases o with
  | none => exact iff_of_false (Nat.not_le.mpr hj) fun haj => ho _ haj hlive
  | some s =>
      have hs : c.liveSlots.idxOf s < c.liveSlots.length :=
        List.idxOf_lt_length_iff.mpr ((mem_liveSlots h).mpr ho.1)
      have hat : c.liveSlots[c.liveSlots.idxOf s] = s := List.getElem_idxOf hs
      have hsorted := List.pairwise_iff_getElem.mp (liveSlots_sorted h)
      rw [before, Option.elim_some]
      constructor
      · intro hle
        rcases Nat.lt_or_eq_of_le hle with hlt | heq
        · have := hsorted _ _ hs hj hlt
          exact Nat.le_trans ho.2.1 (Nat.le_of_lt (hat ▸ this))
        · subst heq
          exact hat.symm ▸ ho.2.1
      · intro haj
        refine Nat.le_of_not_lt fun hlt => ?_
        have hjs := hsorted _ _ hj hs hlt
        exact ho.2.2 _ haj (hat ▸ hjs) hlive

/-- A cursor keeps its place when the arena is rebuilt. -/
theorem reach_relocate (h : c.Sound) {p : Position} (hp : p.reach ≤ c.arena.size) (hd : p ≠ .done)
    {j : Nat} (hj : j < c.liveSlots.length) :
    (c.relocate c.liveSlots p).reach ≤ j ↔ p.reach ≤ c.liveSlots[j] := by
  cases p with
  | start => exact iff_of_true (Nat.zero_le _) (Nat.zero_le _)
  | done => exact absurd rfl hd
  | past s =>
      have hreach : (c.relocate c.liveSlots (.past s)).reach =
          before c.liveSlots (c.successor s) := by
        rw [relocate_past]
        split
        · rename_i hzero
          exact hzero.symm
        · rename_i hpos
          exact Nat.succ_pred hpos
      rw [hreach]
      exact before_le_iff h.threaded (successor_firstFrom h.threaded hp) hj

theorem relocate_ne_done {live : List Nat} {p : Position} (hd : p ≠ .done) :
    c.relocate live p ≠ .done := by
  cases p with
  | start => exact hd
  | done => exact absurd rfl hd
  | past s =>
      rw [relocate_past]
      split <;> simp

end Collection

namespace Refines

variable {c : Collection} {l : Log} {place : Nat → Nat}

/-- A rebuild leaves the log as it is and renumbers the embedding. -/
theorem compact (h : Refines c l place) (hc : c.Sound) :
    Refines c.compact l fun i => place (c.liveSlots[i]?.getD 0) := by
  have hlive := Collection.live_compact hc.threaded
  have hat : ∀ {i}, i < c.liveSlots.length → c.Live (c.liveSlots[i]?.getD 0) := fun {i} hi => by
    rw [List.getElem?_eq_getElem hi]
    exact (Collection.mem_liveSlots hc.threaded).mp (List.getElem_mem hi)
  refine ⟨?_, ?_, ?_, ?_, ?_⟩
  · rw [hlive]
    intro i j hi hj hij
    refine h.mono (hat hi) (hat hj) ?_
    rw [List.getElem?_eq_getElem hi, List.getElem?_eq_getElem hj]
    exact List.pairwise_iff_getElem.mp (Collection.liveSlots_sorted hc.threaded) _ _ hi hj hij
  · intro i x hx
    rw [Collection.live?_compact hc.threaded] at hx
    obtain ⟨s, hs, hsx⟩ := Option.bind_eq_some_iff.mp hx
    rw [hs]
    exact h.entry hsx
  · intro i x hx
    obtain ⟨s, hs, rfl⟩ := h.slot hx
    have hmem := (Collection.mem_liveSlots hc.threaded).mpr (Collection.live_iff.mpr ⟨x, hs⟩)
    obtain ⟨j, hj⟩ := List.mem_iff_getElem?.mp hmem
    exact ⟨j, by rw [Collection.live?_compact hc.threaded, hj, Option.bind_some, hs],
      by rw [hj, Option.getD_some]⟩
  · simpa [Collection.compact] using h.count
  · intro i
    have hmap : c.compact.cursors[i]?.join =
        c.cursors[i]?.join.map (c.relocate c.liveSlots) := by
      simp only [Collection.compact, Array.getElem?_map]
      cases c.cursors[i]? <;> rfl
    rw [hmap]
    refine (h.cursors i).map _ rfl (Nat.le_refl _) fun q hq hd =>
      ⟨Collection.relocate_ne_done hd, fun j hj => ?_⟩
    rw [hlive] at hj
    refine ⟨c.liveSlots[j], ?_, ?_, Collection.reach_relocate hc (hc.reach_le hq) hd hj⟩
    · exact (Collection.mem_liveSlots hc.threaded).mp (List.getElem_mem hj)
    · rw [List.getElem?_eq_getElem hj, Option.getD_some]

/-- With no entries on either side only the cursors are left to relate. -/
theorem clear (h : Refines c l place) : Refines c.clear l.clear place := by
  have hnone : ∀ s, ¬ c.clear.Live s := fun s hs => absurd (LiveAt.lt_size hs) (Nat.not_lt_zero s)
  refine ⟨fun hs _ _ => absurd hs (hnone _),
    fun hs => absurd (Collection.live_iff.mpr ⟨_, hs⟩) (hnone _), ?_, ?_, ?_⟩
  · intro i x hx
    rw [Log.live?_clear] at hx
    cases hx
  · simpa [Collection.clear, Log.clear] using h.count
  · intro i
    have hi := h.cursors i
    have hn : l.clear.entries.length = l.entries.length := List.length_map _
    have hk : l.clear.cursors = l.cursors := rfl
    rw [hn, hk]
    simp only [Collection.clear, Array.getElem?_map, Option.join_map_eq_map_join]
    refine hi.map _ rfl (Nat.le_refl _) fun q _ hd => ⟨?_, fun s hs => absurd hs (hnone s)⟩
    cases q with
    | start => exact hd
    | done => exact absurd rfl hd
    | past s => simp

theorem erase (h : Refines c l place) (hc : c.Sound) (key : Value) :
    (c.erase key).1 = (l.erase key).1 ∧
      ∃ place', Refines (c.erase key).2 (l.erase key).2 place' := by
  have hfind := h.find?_eq hc key
  cases hs : c.slot? key with
  | none =>
      rw [hs, Option.map_none] at hfind
      have herase : l.erase key = (false, l) := by rw [Log.erase, hfind]
      rw [Collection.erase_of_none hs, herase]
      exact ⟨rfl, place, h⟩
  | some s =>
      rw [hs, Option.map_some] at hfind
      have hflag : (l.erase key).1 = true := by rw [Log.erase, hfind]
      rcases Collection.erase_of_some hs with he | he
      · rw [he]
        exact ⟨hflag.symm, place, h.detach hc hs⟩
      · rw [he]
        exact ⟨hflag.symm, _, (h.detach hc hs).compact (hc.detach hs)⟩

theorem insert (h : Refines c l place) (hc : c.Sound) (key : Value) (value : Option Value) :
    ∃ place', Refines (c.insert key value) (l.insert key value) place' := by
  cases hs : c.slot? key with
  | none => exact ⟨_, h.insert_of_none hc hs value⟩
  | some s => exact ⟨_, h.insert_of_some hc hs value⟩

/-! ### Runs -/

/-- One command is answered alike, and the collection and the log stay related. -/
theorem perform (h : Refines c l place) (hc : c.Sound) (command : Command) :
    (c.perform command).1 = (l.perform command).1 ∧ (c.perform command).2.Sound ∧
      ∃ place', Refines (c.perform command).2 (l.perform command).2 place' := by
  cases command with
  | insert key value => exact ⟨rfl, hc.insert key value, h.insert hc key value⟩
  | erase key =>
      obtain ⟨hflag, hrefines⟩ := h.erase hc key
      exact ⟨congrArg Answer.flag hflag, hc.erase key, hrefines⟩
  | clear => exact ⟨rfl, .clear c, place, h.clear⟩
  | openCursor =>
      obtain ⟨hcursor, hrefines⟩ := h.openCursor
      exact ⟨congrArg Answer.cursor hcursor, hc.openCursor, place, hrefines⟩
  | dropCursor cursor =>
      exact ⟨rfl, hc.dropCursor cursor, place,
        h.setCursor cursor (.exhausted rfl (by simp))⟩
  | next cursor =>
      obtain ⟨hentry, hrefines⟩ := h.next hc cursor
      exact ⟨congrArg Answer.entry hentry, hc.next cursor, place, hrefines⟩
  | get key => exact ⟨congrArg Answer.value (h.get?_eq hc key).symm, hc, place, h⟩
  | contains key =>
      have hflag : c.contains key = (l.find? key).isSome := by
        rw [h.find?_eq hc, Option.isSome_map]
        rfl
      exact ⟨congrArg Answer.flag hflag, hc, place, h⟩
  | size =>
      have hcount : c.size = l.toList.length := by
        rw [h.toList_eq hc, Collection.toList, List.length_map, hc.size]
      exact ⟨congrArg Answer.count hcount, hc, place, h⟩
  | toList => exact ⟨congrArg Answer.entries (h.toList_eq hc).symm, hc, place, h⟩

/-- Runs from related states are answered alike. -/
theorem runCommands (h : Refines c l place) (hc : c.Sound) (commands : List Command) :
    (runCommands Collection.perform c commands).1 = (runCommands Log.perform l commands).1 := by
  -- The embedding is not fixed: each rebuild of the arena brings another.
  induction commands generalizing c l place with
  | nil => rfl
  | cons command commands ih =>
      obtain ⟨hanswer, hsound, place', hrefines⟩ := h.perform hc command
      rw [ScriptCore.runCommands, ScriptCore.runCommands, hanswer, ih hrefines hsound]

end Refines

/-- A collection answers every sequence of commands as the log does, and along it the cursors of the
log miss no live entry and repeat none. -/
theorem collection_answers_eq_log (commands : List Command) :
    (runCommands Collection.perform .empty commands).1 =
        (runCommands Log.perform .empty commands).1 ∧
      (runCommands Log.perform .empty commands).2.FairCursors :=
  ⟨Refines.empty.runCommands Collection.sound_empty commands,
    Log.fairCursors_empty.runCommands commands⟩

end ScriptCore
