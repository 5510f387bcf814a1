import ScriptCore.Proofs.Collection.Findable
import ScriptCore.Proofs.Collection.Refinement

/-!
# ScriptCore.Proofs.Collection.Arena

What the **arena** of a collection looks like whatever the collection has been through, and why
every walk in it stays inside and ends.

Design points:

* `Laid` says what links, index, counts and cursors are, slot by slot. All but one of its parts are
  read off `Sound`. The last one, that removed slots do not outnumber the live ones by much
  (`Tidy`), is kept by its own step lemma, since a rebuild is what restores it.
* A walk is said as a derivation that reads an entry of the arena in each of its steps (`NextChain`,
  `Resolves`, `Visits`). A derivation is finite, and it reads nothing outside the arena. So there is
  one exactly if the walk ends inside.
* A rebuild takes place in the middle of a removal. Walks are shown to end for that state too.
-/

namespace ScriptCore

/-! ### Walks -/

/-- Following `next` from a link leads through these slots of an arena, and ends. -/
inductive NextChain (arena : Array Entry) : Option Nat → List Nat → Prop where
  | stop : NextChain arena none []
  | step {s : Nat} {e : Entry} {slots : List Nat} (entry : arena[s]? = some e)
      (rest : NextChain arena e.next slots) : NextChain arena (some s) (s :: slots)

namespace Collection

/-- The walk from a slot back over removed slots, and then forward once, comes to a slot or to the
end. -/
inductive Resolves (c : Collection) : Nat → Option Nat → Prop where
  | live {s : Nat} {e : Entry} (entry : c.arena[s]? = some e) (present : e.removed = false) :
      c.Resolves s e.next
  | first {s : Nat} {e : Entry} (entry : c.arena[s]? = some e) (gone : e.removed = true)
      (start : e.prev = none) : c.Resolves s c.head
  | back {s p : Nat} {e : Entry} {o : Option Nat} (entry : c.arena[s]? = some e)
      (gone : e.removed = true) (link : e.prev = some p) (rest : c.Resolves p o) : c.Resolves s o

/-- A cursor that is moved on until it finds nothing yields these entries. -/
inductive Visits (cursor : CursorId) : Collection → List (Value × Option Value) → Prop where
  | ends {c : Collection} (nothing : (c.next cursor).1 = none) : Visits cursor c []
  | moves {c : Collection} {x : Value × Option Value} {xs : List (Value × Option Value)}
      (entry : (c.next cursor).1 = some x) (rest : Visits cursor (c.next cursor).2 xs) :
      Visits cursor c (x :: xs)

variable {c : Collection}

/-- The walk along `next` from a live slot on goes through the arena and ends. -/
theorem nextChain_slotsFrom (h : c.IsThreaded) {fuel a : Nat} {o : Option Nat}
    (ho : FirstFrom c.Live a o) (hfuel : c.arena.size ≤ fuel + a) :
    NextChain c.arena o (c.slotsFrom fuel o) := by
  induction fuel generalizing a o with
  | zero =>
      cases o with
      | none => exact .stop
      | some s =>
          have hlt := LiveAt.lt_size ho.1
          have := ho.2.1
          omega
  | succ fuel ih =>
      cases o with
      | none => exact .stop
      | some s =>
          obtain ⟨⟨e, he, hr⟩, has, -⟩ := ho
          rw [slotsFrom, entry_eq he]
          exact .step he (ih (h.next he hr) (by omega))

theorem nextChain_liveSlots (h : c.IsThreaded) : NextChain c.arena c.head c.liveSlots :=
  nextChain_slotsFrom h h.head (Nat.le_refl _)

/-- Removed slots lead back to smaller ones, so the walk back ends. -/
theorem resolves_successor (h : c.IsThreaded) {s : Nat} (hs : s < c.arena.size) :
    c.Resolves s (c.successor s) := by
  induction s using Nat.strong_induction_on with
  | _ s ih =>
    have he := Array.getElem?_eq_getElem hs
    rw [successor, he]
    dsimp only
    by_cases hr : c.arena[s].removed = true
    · rw [if_pos hr]
      have hback := h.back he hr
      cases hp : c.arena[s].prev with
      | none => exact .first he hr hp
      | some p =>
          rw [hp] at hback
          simp only [if_pos hback.1]
          exact .back he hr hp (ih p hback.1 (Nat.lt_trans hback.1 hs))
    · rw [if_neg hr]
      exact .live he (Bool.eq_false_iff.mpr hr)

theorem live_of_successor (h : c.IsThreaded) {s t : Nat} (hs : s < c.arena.size)
    (next : c.successor s = some t) : c.Live t := by
  have hfirst := successor_firstFrom h hs
  rw [next] at hfirst
  exact hfirst.1

/-! ### Cursors -/

/-- The live slots from one on are the last ones in order. -/
theorem filter_suffix {l : List Nat} (sorted : l.Pairwise (· < ·)) (a : Nat) :
    l.filter (a ≤ ·) <:+ l := by
  induction l with
  | nil => exact List.suffix_refl []
  | cons s l ih =>
      obtain ⟨hs, hl⟩ := List.pairwise_cons.mp sorted
      by_cases has : a ≤ s
      · have hall : (s :: l).filter (a ≤ ·) = s :: l := by
          refine List.filter_eq_self.mpr (List.forall_mem_cons.mpr ⟨by simpa using has, ?_⟩)
          intro t ht
          exact decide_eq_true (Nat.le_trans has (Nat.le_of_lt (hs t ht)))
        exact hall.symm ▸ List.suffix_refl _
      · rw [List.filter_cons_of_neg (by simpa using has)]
        exact (ih hl).trans (List.suffix_cons s l)

/-- The live slots ahead of a place, given the first of them. -/
theorem ahead_eq (h : c.IsThreaded) {a : Nat} {o : Option Nat} (first : FirstFrom c.Live a o) :
    c.liveSlots.filter (a ≤ ·) =
      o.elim [] fun s => s :: c.liveSlots.filter (s + 1 ≤ ·) := by
  have sorted (a : Nat) : (c.liveSlots.filter (a ≤ ·)).Pairwise (· < ·) :=
    (liveSlots_sorted h).filter _
  have member (a t : Nat) : t ∈ c.liveSlots.filter (a ≤ ·) ↔ c.Live t ∧ a ≤ t := by
    rw [List.mem_filter, mem_liveSlots h, decide_eq_true_eq]
  cases o with
  | none =>
      refine List.eq_nil_iff_forall_not_mem.mpr fun t ht => ?_
      obtain ⟨live, hat⟩ := (member a t).mp ht
      exact first t hat live
  | some s =>
      obtain ⟨live, has, gap⟩ := first
      refine (sorted a).eq_of_mem_iff (List.pairwise_cons.mpr ⟨fun t ht => ?_, sorted (s + 1)⟩) ?_
      · exact ((member (s + 1) t).mp ht).2
      · intro t
        rw [Option.elim_some, List.mem_cons, member, member]
        constructor
        · rintro ⟨ht, hat⟩
          rcases Nat.lt_trichotomy t s with hts | rfl | hst
          · exact absurd ht (gap t hat hts)
          · exact Or.inl rfl
          · exact Or.inr ⟨ht, hst⟩
        · rintro (rfl | ⟨ht, hst⟩)
          · exact ⟨live, has⟩
          · exact ⟨ht, by omega⟩

/-- A cursor that stands somewhere visits what is ahead of it. -/
theorem Sound.visits_ahead (h : c.Sound) {cursor : CursorId} {p : Position}
    (stands : c.cursors[cursor.index]?.join = some p) (waiting : p ≠ .done) {slots : List Nat}
    (ahead : c.liveSlots.filter (p.reach ≤ ·) = slots) :
    Visits cursor c (slots.map fun s => ((c.entry s).key, (c.entry s).value)) := by
  -- The slots ahead are those that are left to visit; each step takes the first of them.
  induction slots generalizing c p with
  | nil =>
      have first := h.following_firstFrom waiting (h.reach_le stands)
      cases next : c.following p with
      | none => exact .ends (by simp only [Collection.next, stands, Option.getD_some, next])
      | some s =>
          rw [next] at first
          rw [ahead_eq h.threaded first] at ahead
          cases ahead
  | cons s slots ih =>
      have first := h.following_firstFrom waiting (h.reach_le stands)
      cases next : c.following p with
      | none =>
          rw [next] at first
          rw [ahead_eq h.threaded first] at ahead
          cases ahead
      | some t =>
          rw [next] at first
          rw [ahead_eq h.threaded first] at ahead
          obtain ⟨rfl, rest⟩ := List.cons.inj ahead
          obtain ⟨e, he, hr⟩ := first.1
          have moved : c.next cursor = (some (e.key, e.value),
              { c with cursors := c.cursors.setIfInBounds cursor.index (some (.past t)) }) := by
            simp only [Collection.next, stands, Option.getD_some, next, he]
          have sound := h.next cursor
          have inside : cursor.index < c.cursors.size := by
            by_contra outside
            rw [Array.getElem?_eq_none (Nat.le_of_not_lt outside)] at stands
            cases stands
          rw [List.map_cons, entry_eq he]
          refine .moves (by rw [moved]) ?_
          rw [moved] at sound ⊢
          have slotsEq : Collection.liveSlots
              { c with cursors := c.cursors.setIfInBounds cursor.index (some (.past t)) } =
              c.liveSlots := liveSlots_congr sound.threaded h.threaded fun _ => Iff.rfl
          exact ih sound (p := .past t) (by simp [inside])
            (by simp) (by rw [slotsEq]; exact rest)

/-- Without changes in between, a cursor visits a last part of the entries, in order. -/
theorem Sound.exists_visits (h : c.Sound) (cursor : CursorId) :
    ∃ xs, Visits cursor c xs ∧ xs <:+ c.toList := by
  have finished (none : (c.cursors[cursor.index]?.join).getD .done = .done) :
      ∃ xs, Visits cursor c xs ∧ xs <:+ c.toList := by
    refine ⟨[], .ends ?_, List.nil_suffix⟩
    simp only [Collection.next, none, following]
  cases stands : c.cursors[cursor.index]?.join with
  | none => exact finished (by rw [stands]; rfl)
  | some p =>
      by_cases waiting : p = .done
      · exact finished (by rw [stands, waiting]; rfl)
      · exact ⟨_, h.visits_ahead stands waiting rfl,
          (filter_suffix (liveSlots_sorted h.threaded) _).map _⟩

/-! ### The invariant -/

/-- What every slot of the arena and everything that refers to slots is like. -/
structure Laid (c : Collection) : Prop where
  /-- From `head` on, `next` leads through the live slots in ascending order, up to `tail`. -/
  order : ∃ slots, NextChain c.arena c.head slots ∧ slots.Pairwise (· < ·) ∧
    (∀ s, s ∈ slots ↔ c.Live s) ∧ slots.getLast? = c.tail
  /-- Every slot, removed or not, leads back to a smaller one. -/
  descends : ∀ {s p : Nat} {e : Entry}, c.arena[s]? = some e → e.prev = some p → p < s
  /-- The slots that a removed slot leads back over are removed. -/
  between : ∀ {s t : Nat} {e : Entry}, c.arena[s]? = some e → e.removed = true → t < s →
    (∀ p ∈ e.prev, p < t) → ∃ f : Entry, c.arena[t]? = some f ∧ f.removed = true
  /-- The index holds the keys of the live entries, each with its slot. -/
  index : ∀ (k : Key) (s : Nat), c.index[k]? = some s ↔
    ∃ e : Entry, c.arena[s]? = some e ∧ e.removed = false ∧ Key.ofValue e.key = k
  /-- No two live entries have one key. -/
  distinct : ∀ {s t : Nat} {e f : Entry}, c.arena[s]? = some e → c.arena[t]? = some f →
    e.removed = false → f.removed = false → Key.ofValue e.key = Key.ofValue f.key → s = t
  /-- The size counts the live slots. -/
  size : c.size = c.arena.countP (!·.removed)
  /-- The others are counted too. -/
  tombstones : c.tombstones = c.arena.countP (·.removed)
  /-- A cursor that is past a slot is past one of the arena. -/
  cursors : ∀ {i s : Nat}, c.cursors[i]? = some (some (Position.past s)) → s < c.arena.size

/-- The last live slot is the last one in order. -/
theorem getLast?_liveSlots (h : c.IsThreaded) : c.liveSlots.getLast? = c.tail := by
  refine LastBefore.unique (L := c.Live) ?_ h.tail
  cases last : c.liveSlots.getLast? with
  | none =>
      rw [List.getLast?_eq_none_iff] at last
      intro t _ live
      have mem := (mem_liveSlots h).mpr live
      rw [last] at mem
      cases mem
  | some s =>
      obtain ⟨front, slots⟩ := List.getLast?_eq_some_iff.mp last
      have sorted := liveSlots_sorted h
      have live : c.Live s := (mem_liveSlots h).mp (by simp [slots])
      refine ⟨live, LiveAt.lt_size live, fun t hst _ ht => ?_⟩
      rw [slots, List.pairwise_append] at sorted
      have mem := (mem_liveSlots h).mpr ht
      rw [slots, List.mem_append, List.mem_singleton] at mem
      rcases mem with mem | rfl
      · exact Nat.lt_asymm hst (sorted.2.2 t mem s (List.mem_singleton.mpr rfl))
      · exact Nat.lt_irrefl t hst

/-- The live slots are as many as the entries that are not removed. -/
theorem length_liveSlots (h : c.IsThreaded) :
    c.liveSlots.length = c.arena.countP (!·.removed) := by
  have slots : c.liveSlots =
      (List.range c.arena.size).filter fun s => c.arena[s]?.any (!·.removed) := by
    refine liveSlots_eq h (List.pairwise_lt_range.filter _) fun s => ?_
    rw [List.mem_filter, List.mem_range, Option.any_eq_true]
    constructor
    · rintro ⟨-, e, he, hr⟩
      exact ⟨e, he, by simpa using hr⟩
    · rintro ⟨e, he, hr⟩
      exact ⟨(Array.getElem?_eq_some_iff.mp he).1, e, he, by simpa using hr⟩
  have entries : c.arena.toList.map some = (List.range c.arena.size).map (c.arena[·]?) := by
    refine List.ext_getElem (by simp) fun i hi _ => ?_
    simp only [List.length_map, Array.length_toList] at hi
    simp [hi]
  rw [slots, ← List.countP_eq_length_filter, ← Array.countP_toList]
  calc (List.range c.arena.size).countP (fun s => c.arena[s]?.any (!·.removed))
      = ((List.range c.arena.size).map (c.arena[·]?)).countP (·.any (!·.removed)) := by
        rw [List.countP_map]
        rfl
    _ = c.arena.toList.countP (!·.removed) := by
        rw [← entries, List.countP_map]
        rfl

theorem Sound.laid (h : c.Sound) : c.Laid where
  order := ⟨c.liveSlots, nextChain_liveSlots h.threaded, liveSlots_sorted h.threaded,
    fun _ => mem_liveSlots h.threaded, getLast?_liveSlots h.threaded⟩
  descends := by
    intro s p e he hp
    cases hr : e.removed with
    | true =>
        have hback := h.threaded.back he hr
        rw [hp] at hback
        exact hback.1
    | false =>
        have hprev := h.threaded.prev he hr
        rw [hp] at hprev
        exact hprev.2.1
  between := by
    intro s t e he hr hts hp
    have ht : t < c.arena.size := Nat.lt_trans hts (Array.getElem?_eq_some_iff.mp he).1
    refine ⟨c.arena[t], Array.getElem?_eq_getElem ht, ?_⟩
    by_contra live
    have live : c.Live t := ⟨_, Array.getElem?_eq_getElem ht, Bool.eq_false_iff.mpr live⟩
    have hback := h.threaded.back he hr
    cases hprev : e.prev with
    | none =>
        rw [hprev] at hback
        exact hback t hts live
    | some p =>
        rw [hprev] at hback
        exact hback.2 t (hp p hprev) hts live
  index := by
    intro k s
    simp only [h.index k s, live?_eq_some_iff]
    constructor
    · rintro ⟨-, ⟨e, he, hr, rfl⟩, hk⟩
      exact ⟨e, he, hr, hk⟩
    · rintro ⟨e, he, hr, hk⟩
      exact ⟨_, ⟨e, he, hr, rfl⟩, hk⟩
  distinct := by
    intro s t e f he hf hr hfr hk
    exact h.key_inj (live?_eq_some_iff.mpr ⟨e, he, hr, rfl⟩)
      (live?_eq_some_iff.mpr ⟨f, hf, hfr, rfl⟩) hk
  size := h.size.trans (length_liveSlots h.threaded)
  tombstones := by
    have hlive := h.size.trans (length_liveSlots h.threaded)
    have hall := h.tombstones
    have hsplit := List.length_eq_countP_add_countP (l := c.arena.toList) (·.removed)
    simp only [Array.length_toList, Array.countP_toList, Bool.not_eq_true,
      Bool.decide_eq_false] at hsplit
    omega
  cursors := h.cursors

/-! ### Rebuilding in time -/

/-- Removed slots are few, or no more than the live ones. -/
def Tidy (c : Collection) : Prop :=
  c.tombstones < compactionMinimum ∨ c.tombstones ≤ c.size

/-- A removal rebuilds the arena as soon as there are too many removed slots. -/
theorem Tidy.erase (h : c.Tidy) (key : Value) : (c.erase key).2.Tidy := by
  cases hs : c.slot? key with
  | none =>
      rw [erase_of_none hs]
      exact h
  | some s =>
      rw [Collection.erase, hs]
      dsimp only
      split
      · exact .inl (show 0 < compactionMinimum by decide)
      · rename_i few
        simp only [Bool.and_eq_true, decide_eq_true_eq, not_and_or, Nat.not_le, Nat.not_lt] at few
        exact few

theorem Tidy.perform (h : c.Tidy) (command : Command) : (c.perform command).2.Tidy := by
  cases command with
  | insert key value =>
      cases hs : c.slot? key with
      | some s => simpa [Collection.perform, Collection.insert, hs, Tidy] using h
      | none =>
          have more : c.tombstones < compactionMinimum ∨ c.tombstones ≤ c.size + 1 :=
            h.imp_right Nat.le_succ_of_le
          simpa [Collection.perform, Collection.insert, hs, Tidy] using more
  | erase key => exact h.erase key
  | clear => exact .inl (show 0 < compactionMinimum by decide)
  | openCursor | dropCursor | get | contains | size | toList => exact h
  | next cursor =>
      simp only [Collection.perform, Collection.next]
      split
      · split <;> exact h
      · exact h

theorem Reached.tidy (reached : c.Reached) : c.Tidy := by
  induction reached with
  | empty => exact .inl (show 0 < compactionMinimum by decide)
  | perform _ command ih => exact ih.perform command

theorem Reached.runCommands (reached : c.Reached) (commands : List Command) :
    (ScriptCore.runCommands Collection.perform c commands).2.Reached := by
  induction commands generalizing c with
  | nil => exact reached
  | cons command commands ih => exact ih (reached.perform command)

/-! ### Main result -/

/-- Every walk stays inside the arena and ends, and so does everything else that goes by a slot. -/
structure Walkable (c : Collection) : Prop where
  /-- The ends of the order are inside. -/
  ends : ∀ s, c.head = some s ∨ c.tail = some s → s < c.arena.size
  /-- The neighbours of a live slot are inside, and so is what a removed one leads back to. -/
  links : ∀ {s t : Nat} {e : Entry}, c.arena[s]? = some e →
    (e.removed = false ∧ e.next = some t) ∨ e.prev = some t → t < c.arena.size
  /-- What the index finds is inside. -/
  found : ∀ {k : Key} {s : Nat}, c.index[k]? = some s → s < c.arena.size
  /-- The walk through all entries ends. -/
  iteration : NextChain c.arena c.head c.liveSlots
  /-- From every slot the walk to the next live one ends, at a live one or at the end. -/
  resumption : ∀ s < c.arena.size, c.Resolves s (c.successor s) ∧
    ∀ t, c.successor s = some t → t ∈ c.liveSlots
  /-- Every cursor comes to the end, and visits a last part of the entries before. -/
  visits : ∀ cursor, ∃ xs, Visits cursor c xs ∧ xs <:+ c.toList

theorem Sound.walkable (h : c.Sound) : c.Walkable where
  ends := by
    rintro s (hs | hs)
    · have hhead := h.threaded.head
      rw [hs] at hhead
      exact LiveAt.lt_size hhead.1
    · have htail := h.threaded.tail
      rw [hs] at htail
      exact htail.2.1
  links := by
    rintro s t e he (⟨hr, hn⟩ | hp)
    · have hnext := h.threaded.next he hr
      rw [hn] at hnext
      exact LiveAt.lt_size hnext.1
    · exact Nat.lt_trans (h.laid.descends he hp) (Array.getElem?_eq_some_iff.mp he).1
  found := by
    intro k s hk
    obtain ⟨e, he, -⟩ := (h.laid.index k s).mp hk
    exact (Array.getElem?_eq_some_iff.mp he).1
  iteration := nextChain_liveSlots h.threaded
  resumption := by
    intro s hs
    refine ⟨resolves_successor h.threaded hs, fun t next => ?_⟩
    exact (mem_liveSlots h.threaded).mpr (live_of_successor h.threaded hs next)
  visits := h.exists_visits

/-- **The representation.** Whatever commands a collection is given, its arena is laid out as it
should be, removed slots are few or no more than the live ones, which bounds the arena by the number
of entries, and every walk ends inside the arena. In the middle of a removal, where the arena may be
rebuilt, it is laid out so as well and its walks end. -/
theorem arena_is_laid (commands : List Command) :
    let c := (ScriptCore.runCommands Collection.perform .empty commands).2
    c.Laid ∧ (c.tombstones < 16 ∨ c.tombstones ≤ c.size) ∧
      c.arena.size ≤ max (2 * c.size) (c.size + 15) ∧ c.Walkable ∧
      ∀ key s, c.slot? key = some s → (c.detach key s).Laid ∧ (c.detach key s).Walkable ∧
        ((c.erase key).2 = c.detach key s ∨ (c.erase key).2 = (c.detach key s).compact) := by
  intro c
  have reached : c.Reached := Reached.empty.runCommands commands
  have sound := reached.sound
  have few : c.tombstones < 16 ∨ c.tombstones ≤ c.size := reached.tidy
  refine ⟨sound.laid, few, ?_, sound.walkable, fun key s present => ?_⟩
  · have hall := sound.tombstones
    omega
  · have between := sound.detach present
    refine ⟨between.laid, between.walkable, ?_⟩
    rcases erase_of_some present with erased | erased
    · exact .inl (by rw [erased])
    · exact .inr (by rw [erased])

end Collection

end ScriptCore
