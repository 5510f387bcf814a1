import ScriptCore.Proofs.Footprint.Course

/-!
# ScriptCore.Proofs.Footprint.Ceiling

The **ceiling** on the depth, against the paths of references in a graph of objects.

Design points:

* A pass is a depth-first search. At which depth it meets an object depends on the order of references
  and on what was counted before, so neither the shortest nor the longest path decides.
* A search that returns has counted everything that can be reached, each object at the end of some
  path below the ceiling. A search that fails has come along a path without repetition that passes
  the ceiling (`Searched`).
* Within an object the search does not go deeper: what it asks for there are the pieces of that
  object, in order (`Plan.Asks`).
-/

namespace ScriptCore

open Piece

/-! ### Graphs of objects -/

/-- A path of references, from an object among some pieces to another. -/
inductive Heap.Path (h : Heap) : List Piece → List ObjectId → ObjectId → Prop where
  /-- It ends with the first object. -/
  | here {ps : List Piece} {o : ObjectId} (ho : .ref (.object o) ∈ ps) : Path h ps [o] o
  /-- It goes on from there. -/
  | step {ps : List Piece} {o x : ObjectId} {path : List ObjectId} (ho : .ref (.object o) ∈ ps)
      (rest : Path h (h.object o).pieces path x) : Path h ps (o :: path) x

/-- An object holds values and other objects only, and none of its containers is sampled. -/
structure Object.MeasuredInFull (l : Limits) (o : Object) : Prop where
  class_mem : o.toClass ∈ [.plain, .array, .map, .set, .proxy, .boxed, .date]
  properties : o.properties.toList.length ≤ l.entriesThreshold
  elements : match o.payload with
    | .array elements => elements.size ≤ l.arrayThreshold
    | .map c | .set c => c.toList.length ≤ l.entriesThreshold
    | _ => True

/-- No lazy object is measured in full. -/
theorem Object.MeasuredInFull.isInitialized {l : Limits} {o : Object} (ho : o.MeasuredInFull l) :
    o.isInitialized = true := by
  have hclass := ho.class_mem
  unfold Object.toClass at hclass
  unfold Object.isInitialized
  split
  · rename_i hlazy
    simp [hlazy, Payload.toClass] at hclass
  · rfl

namespace Heap.Path

variable {h : Heap} {ps qs : List Piece} {path : List ObjectId} {o x : ObjectId}

theorem mono (hp : h.Path ps path x) (hps : ∀ p ∈ ps, p ∈ qs) : h.Path qs path x := by
  cases hp with
  | here ho => exact .here (hps _ ho)
  | step ho rest => exact .step (hps _ ho) rest

theorem snoc (hp : h.Path ps path o) (hx : .ref (.object x) ∈ (h.object o).pieces) :
    h.Path ps (path ++ [x]) x := by
  induction hp with
  | here ho => exact .step ho (.here hx)
  | step ho _ ih => exact .step ho (ih hx)

theorem end_mem (hp : h.Path ps path x) : x ∈ path := by
  induction hp with
  | here => exact List.mem_singleton_self _
  | step _ _ ih => exact List.mem_cons_of_mem _ ih

/-- A set that has the first objects and what its members refer to has all objects on a path. -/
theorem forall_of_closed {S : ObjectId → Prop} (hp : h.Path ps path x)
    (hps : ∀ o, .ref (.object o) ∈ ps → S o)
    (hS : ∀ o, S o → ∀ y, .ref (.object y) ∈ (h.object o).pieces → S y) : ∀ y ∈ path, S y := by
  induction hp with
  | here ho => exact List.forall_mem_singleton.mpr (hps _ ho)
  | step ho _ ih => exact List.forall_mem_cons.mpr ⟨hps _ ho, ih (hS _ (hps _ ho))⟩

end Heap.Path

/-! ### What plans ask for -/

namespace Plan

mutual

/-- A plan asks for some pieces, all on the level where it is performed. -/
inductive Asks (l : Limits) : Plan → List Piece → Prop where
  | nothing : Asks l .nothing []
  | cost (k : Cost) (u : Usage) : Asks l (.cost k) [.cost u]
  | value (v : Value) : Asks l (.node (.value v)) v.pieces
  | both {p q : Plan} {ps qs : List Piece} (first : Asks l p ps) (second : Asks l q qs) :
      Asks l (.both p q) (ps ++ qs)
  | within {p q : Plan} {ps qs : List Piece} (first : Asks l p ps) (second : Asks l q qs) :
      Asks l (.within p q) (ps ++ qs)
  | container {s : Sampling} {items : List Plan} {ps : List Piece}
      (full : s.applies l items.length = false) (elements : AsksEach l items ps) :
      Asks l (.container s items) ps

/-- Several plans ask for some pieces, one after another. -/
inductive AsksEach (l : Limits) : List Plan → List Piece → Prop where
  | nil : AsksEach l [] []
  | cons {p : Plan} {items : List Plan} {ps qs : List Piece} (head : Asks l p ps)
      (tail : AsksEach l items qs) : AsksEach l (p :: items) (ps ++ qs)

end

variable {l : Limits}

theorem AsksEach.map {α : Type} {items : List α} {content : α → Plan} {pieces : α → List Piece}
    (hitems : ∀ x, (content x).Asks l (pieces x)) :
    AsksEach l (items.map content) (items.flatMap pieces) := by
  induction items with
  | nil => exact .nil
  | cons x items ih => exact .cons (hitems x) ih

theorem Asks.entries {α : Type} {items : List α} {content : α → Plan} {pieces : α → List Piece}
    (hitems : ∀ x, (content x).Asks l (pieces x)) (hle : items.length ≤ l.entriesThreshold) :
    (Plan.container .entries (items.map content)).Asks l (items.flatMap pieces) := by
  refine .container ?_ (.map hitems)
  simpa [Sampling.applies, Limits.samplesEntries] using hle

theorem asks_objects (os : List (Option ObjectId)) : (objects os).Asks l (refs os) := by
  induction os with
  | nil => exact .nothing
  | cons o os ih =>
      cases o with
      | none => exact ih
      | some o => exact .both (.value (.object o)) ih

theorem asks_named (name : Text) {p : Plan} {ps : List Piece} (hp : p.Asks l ps) :
    (named name.payloadBytes p).Asks l (namedPieces name ps) :=
  .both (.cost _ _) hp

theorem asks_slot (s : Slot) : s.plan.Asks l s.pieces := by
  cases s with
  | data v _ => exact .value v
  | accessor getter setter _ => exact .both (.cost _ _) (asks_objects _)

theorem asks_entry (e : Value × Option Value) : (entryPlan e).Asks l (entryPieces e) := by
  obtain ⟨key, _ | v⟩ := e
  · simpa [entryPlan, entryPieces] using Asks.value key
  · exact .both (.value key) (.value v)

theorem asks_payload {o : Object} (ho : o.MeasuredInFull l) :
    o.payload.plan.Asks l o.payload.pieces := by
  obtain ⟨hclass, -, helements⟩ := ho
  unfold Object.toClass at hclass
  generalize o.payload = p at hclass helements ⊢
  cases p with
  | plain => exact .nothing
  | array elements =>
      refine .container ?_ (.map fun v => .value v)
      simpa [Sampling.applies, Limits.samplesArray] using helements
  | map c => exact .entries asks_entry helements
  | set c => exact .entries asks_entry helements
  | proxy target handler => exact asks_objects _
  | boxed v => exact .value v
  | date _ => exact .cost _ _
  | _ => simp [Payload.toClass] at hclass

theorem asks_object {o : Object} (ho : o.MeasuredInFull l) : o.plan.Asks l o.pieces := by
  rw [Object.pieces, if_pos ho.isInitialized]
  exact .within (.both (.both (.cost _ _) (asks_objects _))
    (.entries (fun e => asks_named e.1 (asks_slot e.2)) ho.properties)) (asks_payload ho)

end Plan

/-! ### Searches -/

/-- What performances leave as it was, and what they add to. -/
structure Context.Passes (c c' : Context) : Prop extends c.SameLevel c', c.Grows c'

theorem Heap.Performs.passes {h : Heap} {p : Plan} {c c' : Context} {j : List Moment}
    {r : Except TooDeep Usage} (performs : h.Performs p c j r c') (hc : c.Sound) : c.Passes c' :=
  ⟨performs.sameLevel, (performs.course.grows hc).spent, (performs.course.grows hc).visits⟩

theorem Heap.PerformsEach.passes {h : Heap} {ps : List Plan} {c c' : Context} {j : List Moment}
    {r : Except TooDeep (List Usage)} (performs : h.PerformsEach ps c j r c') (hc : c.Sound) :
    c.Passes c' :=
  ⟨performs.sameLevel, (performs.course.grows hc).spent, (performs.course.grows hc).visits⟩

/-- References among the pieces of two parts. -/
theorem forall_ref_append {ps qs : List Piece} {G : ObjectId → Prop} :
    (∀ o, .ref (.object o) ∈ ps ++ qs → G o) ↔
      (∀ o, .ref (.object o) ∈ ps → G o) ∧ ∀ o, .ref (.object o) ∈ qs → G o := by
  simp only [List.mem_append, or_imp, forall_and]

/-- A search for some pieces has counted them, with everything that the objects it counted refer to.
It has met each of these at the end of a path below the ceiling. -/
structure Heap.Explored (h : Heap) (ps : List Piece) (c c' : Context) : Prop where
  met : ∀ o, .ref (.object o) ∈ ps → c'.visits.Counted (.object o)
  closed : ∀ o, c'.visits.Counted (.object o) → ¬ c.visits.Counted (.object o) →
    ∀ y, .ref (.object y) ∈ (h.object o).pieces → c'.visits.Counted (.object y)
  shallow : ∀ o, c'.visits.Counted (.object o) → ¬ c.visits.Counted (.object o) →
    ∃ path, h.Path ps path o ∧ c.depth + path.length ≤ c.limits.maxDepth

/-- A path without repetition, and with nothing on it that was counted before, passes the ceiling. -/
def Heap.Blocked (h : Heap) (ps : List Piece) (c : Context) : Prop :=
  ∃ path x, h.Path ps path x ∧ path.Nodup ∧ (∀ o ∈ path, ¬ c.visits.Counted (.object o)) ∧
    c.limits.maxDepth < c.depth + path.length

/-- How a search for some pieces ends. -/
inductive Heap.Searched {α : Type} (h : Heap) (ps : List Piece) (c : Context) :
    Except TooDeep α → Context → Prop where
  | done {a : α} {c' : Context} (explored : h.Explored ps c c') : Searched h ps c (.ok a) c'
  | blocked {e : TooDeep} {c' : Context} (blocked : h.Blocked ps c) : Searched h ps c (.error e) c'

namespace Heap

variable {α β : Type} {h : Heap} {ps qs : List Piece} {c c₁ c' : Context} {o : ObjectId}

theorem Explored.none (hps : ∀ o, .ref (.object o) ∉ ps) (hvisits : c'.visits = c.visits) :
    h.Explored ps c c' where
  met := fun o ho => absurd ho (hps o)
  closed := fun _ ho hno => absurd (hvisits ▸ ho) hno
  shallow := fun _ ho hno => absurd (hvisits ▸ ho) hno

/-- One search after another. -/
theorem Explored.append (h₁ : h.Explored ps c c₁) (h₂ : h.Explored qs c₁ c')
    (passes₁ : c.Passes c₁) (passes₂ : c₁.Passes c') : h.Explored (ps ++ qs) c c' where
  met := by
    intro o ho
    rcases List.mem_append.mp ho with hp | hq
    · exact passes₂.visits _ (h₁.met o hp)
    · exact h₂.met o hq
  closed := by
    intro o ho hno y hy
    -- Which of the two searches has counted it first.
    by_cases hmid : c₁.visits.Counted (.object o)
    · exact passes₂.visits _ (h₁.closed o hmid hno y hy)
    · exact h₂.closed o ho hmid y hy
  shallow := by
    intro o ho hno
    by_cases hmid : c₁.visits.Counted (.object o)
    · obtain ⟨path, hpath, hle⟩ := h₁.shallow o hmid hno
      exact ⟨path, hpath.mono fun p hp => List.mem_append_left _ hp, hle⟩
    · obtain ⟨path, hpath, hle⟩ := h₂.shallow o ho hmid
      rw [passes₁.depth, passes₁.limits] at hle
      exact ⟨path, hpath.mono fun p hp => List.mem_append_right _ hp, hle⟩

theorem Blocked.left (hb : h.Blocked ps c) : h.Blocked (ps ++ qs) c := by
  obtain ⟨path, x, hpath, hblocked⟩ := hb
  exact ⟨path, x, hpath.mono fun p hp => List.mem_append_left _ hp, hblocked⟩

/-- What was not counted later was not counted before. -/
theorem Blocked.right (hb : h.Blocked qs c₁) (passes : c.Passes c₁) : h.Blocked (ps ++ qs) c := by
  obtain ⟨path, x, hpath, hnodup, hfresh, hlt⟩ := hb
  rw [passes.depth, passes.limits] at hlt
  exact ⟨path, x, hpath.mono fun p hp => List.mem_append_right _ hp, hnodup,
    fun o ho hc => hfresh o ho (passes.visits _ hc), hlt⟩

namespace Searched

theorem map {f : α → β} {r : Except TooDeep α} (hs : h.Searched ps c r c') :
    h.Searched ps c (r.map f) c' := by
  cases hs with
  | done explored => exact .done explored
  | blocked blocked => exact .blocked blocked

theorem left {e : TooDeep} (hs : h.Searched ps c (.error e : Except TooDeep α) c') :
    h.Searched (ps ++ qs) c (.error e : Except TooDeep β) c' := by
  cases hs with
  | blocked blocked => exact .blocked blocked.left

theorem append {a : α} {r : Except TooDeep β} (h₁ : h.Searched ps c (.ok a) c₁)
    (h₂ : h.Searched qs c₁ r c') (passes₁ : c.Passes c₁) (passes₂ : c₁.Passes c') :
    h.Searched (ps ++ qs) c r c' := by
  cases h₁ with
  | done explored =>
      cases h₂ with
      | done explored' => exact .done (explored.append explored' passes₁ passes₂)
      | blocked blocked => exact .blocked (blocked.right passes₁)

/-- An object that was counted before. -/
theorem again {a : α} (old : c.visits.Counted (.object o)) :
    h.Searched [.ref (.object o)] c (.ok a) (c.record (.object o)) := by
  have hsame : ∀ b, (c.record (.object o)).visits.Counted b → c.visits.Counted b := by
    intro b hb
    rcases (Visits.counted_record _ b).mp hb with hb | rfl
    · exact hb
    · exact old
  refine .done ⟨fun x hx => ?_, fun x hx hnx => absurd (hsame _ hx) hnx,
    fun x hx hnx => absurd (hsame _ hx) hnx⟩
  obtain rfl : x = o := by simpa using hx
  exact (Visits.counted_record _ _).mpr (.inr rfl)

/-- There is no room for the object itself. -/
theorem tooDeep {e : TooDeep} (new : ¬ c.visits.Counted (.object o))
    (hdepth : c.depth = c.limits.maxDepth) :
    h.Searched (α := α) [.ref (.object o)] c (.error e) c' := by
  refine .blocked ⟨[o], o, .here List.mem_cons_self, by simp, by simpa using new, ?_⟩
  rw [List.length_singleton, hdepth]
  exact Nat.lt_succ_self _

/-- An object that is counted now is put in front of every path to what it refers to. -/
theorem first {r : Except TooDeep α} (new : ¬ c.visits.Counted (.object o))
    (hdepth : c.depth < c.limits.maxDepth)
    (hgrows : { c.record (.object o) with depth := c.depth + 1 }.Grows c')
    (hs : h.Searched (h.object o).pieces { c.record (.object o) with depth := c.depth + 1 } r c') :
    h.Searched [.ref (.object o)] c r c'.ascend := by
  have hself : c'.visits.Counted (.object o) :=
    hgrows.visits _ ((Visits.counted_record _ _).mpr (.inr rfl))
  -- Apart from the object itself, what is new to its content was new before.
  have hnew : ∀ x, ¬ c.visits.Counted (.object x) → x ≠ o →
      ¬ (c.record (.object o)).visits.Counted (.object x) := by
    intro x hx hne hc
    rcases (Visits.counted_record _ _).mp hc with hc | hc
    · exact hx hc
    · exact hne (Allocation.object.inj hc)
  cases hs with
  | done explored =>
      refine .done ⟨?_, ?_, ?_⟩
      · intro x hx
        obtain rfl : x = o := by simpa using hx
        exact hself
      · intro x hx hnx y hy
        -- What the object refers to is what its content was searched for.
        by_cases hxo : x = o
        · exact explored.met y (hxo ▸ hy)
        · exact explored.closed x hx (hnew x hnx hxo) y hy
      · intro x hx hnx
        by_cases hxo : x = o
        · subst hxo
          exact ⟨[x], .here List.mem_cons_self, hdepth⟩
        · obtain ⟨path, hpath, hle⟩ := explored.shallow x hx (hnew x hnx hxo)
          refine ⟨o :: path, .step List.mem_cons_self hpath, ?_⟩
          have hle : c.depth + 1 + path.length ≤ c.limits.maxDepth := hle
          rw [List.length_cons]
          omega
  | blocked blocked =>
      obtain ⟨path, x, hpath, hnodup, hfresh, hlt⟩ := blocked
      have hlt : c.limits.maxDepth < c.depth + 1 + path.length := hlt
      refine .blocked ⟨o :: path, x, .step List.mem_cons_self hpath, ?_, ?_, ?_⟩
      -- The object was recorded before its content, and the path has nothing on it that was.
      · refine List.nodup_cons.mpr ⟨fun ho => ?_, hnodup⟩
        exact hfresh o ho ((Visits.counted_record _ _).mpr (.inr rfl))
      · refine List.forall_mem_cons.mpr ⟨new, fun y hy hc => hfresh y hy ?_⟩
        exact (Visits.counted_record _ _).mpr (.inl hc)
      · rw [List.length_cons]
        omega

end Searched

/-- Some objects that refer to each other only are measured in full, without a budget. -/
structure MeasuredInFull (h : Heap) (l : Limits) (G : ObjectId → Prop) : Prop where
  object : ∀ o, G o → (h.object o).MeasuredInFull l
  closed : ∀ o, G o → ∀ y, .ref (.object y) ∈ (h.object o).pieces → G y
  budget : l.memLimit = maxBytes

end Heap

/-- A context under some limits, with room for some levels. -/
structure Context.HasRoom (c : Context) (l : Limits) (room : Nat) : Prop where
  limits : c.limits = l
  sound : c.Sound
  room : c.depth + room = l.maxDepth

section Searches

variable {h : Heap} {l : Limits} {G : ObjectId → Prop} {room : Nat}

theorem Context.HasRoom.after {c c' : Context} {p : Plan} {j : List Moment}
    {r : Except TooDeep Usage} (hc : c.HasRoom l room) (performs : h.Performs p c j r c') :
    c'.HasRoom l room where
  limits := performs.sameLevel.limits.trans hc.limits
  sound := (performs.course.sound hc.sound).2
  room := by rw [performs.sameLevel.depth, hc.room]

/-- One level down there is room for one level less. -/
theorem Context.HasRoom.below {c : Context} (hc : c.HasRoom l room) (a : Allocation)
    (hlt : c.depth < c.limits.maxDepth) :
    ∃ k, room = k + 1 ∧ { c.record a with depth := c.depth + 1 }.HasRoom l k := by
  have hmax := hc.room
  rw [hc.limits] at hlt
  obtain ⟨k, rfl⟩ : ∃ k, room = k + 1 := Nat.exists_eq_succ_of_ne_zero (by omega)
  refine ⟨k, rfl, hc.limits, ⟨hc.limits ▸ hlt, hc.sound.spent⟩, ?_⟩
  show c.depth + 1 + k = l.maxDepth
  omega

theorem Context.HasRoom.isOver {c : Context} (hc : c.HasRoom l room) (hG : h.MeasuredInFull l G) :
    c.isOver = false := by
  have hspent := hc.sound.spent
  simp [Context.isOver, Limits.isExceededBy, hc.limits, hG.budget, hspent]

/-- With some room, what plans ask for is searched for. -/
def SearchesWithin (h : Heap) (l : Limits) (G : ObjectId → Prop) (room : Nat) : Prop :=
  ∀ {p : Plan} {ps : List Piece}, p.Asks l ps → (∀ o, .ref (.object o) ∈ ps → G o) →
    ∀ {c : Context} {j : List Moment} {r : Except TooDeep Usage} {c' : Context},
      c.HasRoom l room → h.Performs p c j r c' → h.Searched ps c r c'

/-- A value is searched for if what objects refer to is searched for one level down. -/
theorem searches_value (hG : h.MeasuredInFull l G)
    (hbelow : ∀ k, room = k + 1 → SearchesWithin h l G k) (v : Value)
    (hv : ∀ o, .ref (.object o) ∈ v.pieces → G o) {c c' : Context} {j : List Moment}
    {r : Except TooDeep Usage} (hc : c.HasRoom l room)
    (performs : h.Performs (.node (.value v)) c j r c') : h.Searched v.pieces c r c' := by
  cases performs with
  | node performs =>
      cases v with
      | object o =>
          have hfit := hG.object o (hv o List.mem_cons_self)
          have performs : h.Performs (h.objectPlan o) c j r c' := performs
          rw [Heap.objectPlan, if_pos hfit.isInitialized] at performs
          cases performs with
          | again old content =>
              cases content
              exact .again old
          | first new content =>
              cases content with
              | tooDeep refused => exact .tooDeep new (Context.descend_error refused).1
              | deeper descends contents =>
                  cases contents with
                  | contents content =>
                      obtain ⟨hne, rfl⟩ := Context.descend_ok descends
                      have hlt : c.depth < c.limits.maxDepth :=
                        Nat.lt_of_le_of_ne hc.sound.depth hne
                      obtain ⟨k, rfl, hroom⟩ := hc.below (.object o) hlt
                      have hs := hbelow k rfl (Plan.asks_object hfit)
                        (hG.closed o (hv o List.mem_cons_self)) hroom content
                      exact .first new hlt (content.course.grows hroom.sound) hs
      | _ =>
          cases performs
          exact .done (.none (by simp [Value.pieces]) rfl)

mutual

/-- The search of a plan goes along what it asks for. -/
theorem searches_plan {p : Plan} {ps : List Piece} {c : Context} {j : List Moment}
    {r : Except TooDeep Usage} {c' : Context} (hG : h.MeasuredInFull l G)
    (hbelow : ∀ k, room = k + 1 → SearchesWithin h l G k)
    (hps : ∀ o, .ref (.object o) ∈ ps → G o) (hc : c.HasRoom l room)
    (performs : h.Performs p c j r c') : p.Asks l ps → h.Searched ps c r c'
  | .nothing => by
      cases performs
      exact .done (.none (by simp) rfl)
  | .cost _ _ => by
      cases performs
      exact .done (.none (by simp) rfl)
  | .value v => searches_value hG hbelow v hps hc performs
  | .both asks₁ asks₂ => by
      obtain ⟨hps₁, hps₂⟩ := forall_ref_append.mp hps
      cases performs with
      | bothFails first => exact (searches_plan hG hbelow hps₁ hc first asks₁).left
      | both first second =>
          have hc₁ := hc.after first
          have hs₁ := searches_plan hG hbelow hps₁ hc first asks₁
          have hs₂ := searches_plan hG hbelow hps₂ hc₁ second asks₂
          exact (hs₁.append hs₂ (first.passes hc.sound) (second.passes hc₁.sound)).map
  | .within asks₁ asks₂ => by
      obtain ⟨hps₁, hps₂⟩ := forall_ref_append.mp hps
      cases performs with
      | withinFails first => exact (searches_plan hG hbelow hps₁ hc first asks₁).left
      | withinStops first spent => simp [(hc.after first).isOver hG] at spent
      | within first _ second =>
          have hc₁ := hc.after first
          have hs₁ := searches_plan hG hbelow hps₁ hc first asks₁
          have hs₂ := searches_plan hG hbelow hps₂ hc₁ second asks₂
          exact (hs₁.append hs₂ (first.passes hc.sound) (second.passes hc₁.sound)).map
  | .container full asks => by
      cases performs with
      | container _ elements => exact (searches_each hG hbelow hps hc elements asks).map
      | sample long _ =>
          rw [hc.limits, full] at long
          cases long

theorem searches_each {items : List Plan} {ps : List Piece} {c : Context} {j : List Moment}
    {r : Except TooDeep (List Usage)} {c' : Context} (hG : h.MeasuredInFull l G)
    (hbelow : ∀ k, room = k + 1 → SearchesWithin h l G k)
    (hps : ∀ o, .ref (.object o) ∈ ps → G o) (hc : c.HasRoom l room)
    (performs : h.PerformsEach items c j r c') : Plan.AsksEach l items ps → h.Searched ps c r c'
  | .nil => by
      cases performs
      exact .done (.none (by simp) rfl)
  | .cons asks₁ asks₂ => by
      obtain ⟨hps₁, hps₂⟩ := forall_ref_append.mp hps
      cases performs with
      | fails head => exact (searches_plan hG hbelow hps₁ hc head asks₁).left
      | stops head spent => simp [(hc.after head).isOver hG] at spent
      | cons head _ tail =>
          have hc₁ := hc.after head
          have hs₁ := searches_plan hG hbelow hps₁ hc head asks₁
          have hs₂ := searches_each hG hbelow hps₂ hc₁ tail asks₂
          exact (hs₁.append hs₂ (head.passes hc.sound) (tail.passes hc₁.sound)).map

end

/-- Whatever the room, what plans ask for is searched for. -/
theorem searchesWithin (hG : h.MeasuredInFull l G) (room : Nat) : SearchesWithin h l G room := by
  induction room with
  | zero =>
      intro p ps asks hps c j r c' hc performs
      exact searches_plan hG (fun k hk => absurd hk (Nat.succ_ne_zero k).symm) hps hc performs asks
  | succ room ih =>
      intro p ps asks hps c j r c' hc performs
      exact searches_plan hG (fun k hk => Nat.succ.inj hk ▸ ih) hps hc performs asks

end Searches

/-! ### Main result -/

section Estimates

variable {h : Heap} {limits : Limits} {root : ObjectId}

/-- An estimate of an object is a search for it. -/
theorem searched_estimate (oracle : SizeOracle)
    (hgraph : ∀ path o, h.Path [.ref (.object root)] path o → (h.object o).MeasuredInFull limits)
    (hbudget : limits.memLimit = maxBytes) :
    ∃ c', h.Searched [.ref (.object root)] (.new limits oracle)
      (estimate h limits oracle (.node (.value (.object root)))) c' := by
  have hG : h.MeasuredInFull limits fun o => ∃ path, h.Path [.ref (.object root)] path o := by
    refine ⟨?_, ?_, hbudget⟩
    · intro o ⟨path, hpath⟩
      exact hgraph path o hpath
    · intro o ⟨path, hpath⟩ y hy
      exact ⟨path ++ [y], hpath.snoc hy⟩
  have hsound := Context.sound_new limits oracle
  obtain ⟨j, r, c', hrun, performs⟩ :=
    performs_rootUsage h (.node (.value (.object root))) hsound
  have hroom : (Context.new limits oracle).HasRoom limits limits.maxDepth :=
    ⟨rfl, hsound, Nat.zero_add _⟩
  rw [estimate, hrun]
  exact ⟨c', searchesWithin hG limits.maxDepth (.value (.object root))
    (fun o ho => ⟨[o], .here ho⟩) hroom performs⟩

/-- The only error of an estimate is the ceiling on the depth. -/
theorem error_of_estimate {oracle : SizeOracle} {root : Root} {e : TooDeep}
    (herror : estimate h limits oracle root = .error e) : e = ⟨limits.maxDepth⟩ := by
  obtain ⟨j, r, c', hrun, performs⟩ := performs_rootUsage h root (Context.sound_new limits oracle)
  rw [estimate, hrun] at herror
  exact performs.error_eq herror

/-- The ceiling on the depth, from both sides: an estimate fails with it if some object is further
away than that, by any path, and it returns if no path without repetition is longer. -/
theorem ceiling_between_paths {oracle : SizeOracle}
    (hgraph : ∀ path o, h.Path [.ref (.object root)] path o → (h.object o).MeasuredInFull limits)
    (hbudget : limits.memLimit = maxBytes) :
    (∀ x, (∃ path, h.Path [.ref (.object root)] path x) →
      (∀ path, h.Path [.ref (.object root)] path x → limits.maxDepth < path.length) →
        estimate h limits oracle (.node (.value (.object root))) = .error ⟨limits.maxDepth⟩) ∧
    ((∀ path x, h.Path [.ref (.object root)] path x → path.Nodup →
        path.length ≤ limits.maxDepth) →
      ∃ u, estimate h limits oracle (.node (.value (.object root))) = .ok u) := by
  obtain ⟨c', hs⟩ := searched_estimate oracle hgraph hbudget
  have hfresh : ∀ o, ¬ (Context.new limits oracle).visits.Counted (.object o) :=
    fun o => Visits.not_counted_none _
  cases hresult : estimate h limits oracle (.node (.value (.object root))) with
  | error e =>
      rw [hresult] at hs
      cases hs with
      | blocked blocked =>
          obtain ⟨path, x, hpath, hnodup, -, hlt⟩ := blocked
          have hlt : limits.maxDepth < 0 + path.length := hlt
          refine ⟨fun _ _ _ => congrArg Except.error (error_of_estimate hresult), fun hshort => ?_⟩
          have := hshort path x hpath hnodup
          omega
  | ok u =>
      rw [hresult] at hs
      cases hs with
      | done explored =>
          refine ⟨fun x ⟨path, hpath⟩ hfar => ?_, fun _ => ⟨u, rfl⟩⟩
          -- A search that returns has met the far object, and that on a short path.
          have hmet : c'.visits.Counted (.object x) :=
            hpath.forall_of_closed explored.met (fun o ho => explored.closed o ho (hfresh o)) x
              hpath.end_mem
          obtain ⟨short, hshort, hle⟩ := explored.shallow x hmet (hfresh x)
          have hle : 0 + short.length ≤ limits.maxDepth := hle
          have := hfar short hshort
          omega

end Estimates

/-! ### A cycle through a shared object -/

/-- An array of two others. The first of them holds the second, and that holds the whole. -/
def sharedCycle : Heap :=
  ⟨#[.new (.array #[.object ⟨1⟩, .object ⟨2⟩]) none, .new (.array #[.object ⟨2⟩]) none,
    .new (.array #[.object ⟨0⟩, .smi 7]) none], #[], #[], #[], #[], #[], 0, ∅⟩

theorem Value.ref_mem_pieces {v : Value} {y : ObjectId} :
    .ref (.object y) ∈ v.pieces ↔ v = .object y := by
  cases v <;> simp [Value.pieces, eq_comm]

/-- An array without properties refers to its elements. -/
theorem Object.ref_mem_pieces_array {elements : Array Value} {y : ObjectId} :
    .ref (.object y) ∈ (Object.new (.array elements) none).pieces ↔ .object y ∈ elements := by
  simp [Object.pieces, Object.new, Object.isInitialized, Payload.pieces, Value.ref_mem_pieces, refs,
    PropertyTable.toList, PropertyTable.empty]

namespace sharedCycle

/-- The three arrays. -/
def nodes : List ObjectId := [⟨0⟩, ⟨1⟩, ⟨2⟩]

theorem object_of_mem {o : ObjectId} (ho : o ∈ nodes) : ∃ elements, elements.size ≤ 2 ∧
    sharedCycle.object o = .new (.array elements) none ∧ ∀ p, .object p ∈ elements → p ∈ nodes := by
  simp only [nodes, List.mem_cons, List.not_mem_nil, or_false] at ho
  rcases ho with rfl | rfl | rfl
  · exact ⟨#[.object ⟨1⟩, .object ⟨2⟩], by decide, rfl, by simp [nodes]⟩
  · exact ⟨#[.object ⟨2⟩], by decide, rfl, by simp [nodes]⟩
  · exact ⟨#[.object ⟨0⟩, .smi 7], by decide, rfl, by simp [nodes]⟩

/-- Every path stays among them. -/
theorem mem_of_path {path : List ObjectId} {o : ObjectId}
    (hpath : sharedCycle.Path [.ref (.object ⟨0⟩)] path o) : ∀ x ∈ path, x ∈ nodes := by
  refine hpath.forall_of_closed (S := (· ∈ nodes)) (by simp [nodes]) fun o ho y hy => ?_
  obtain ⟨elements, -, object, inside⟩ := object_of_mem ho
  rw [object] at hy
  exact inside y (Object.ref_mem_pieces_array.mp hy)

theorem measuredInFull (d : Nat) (path : List ObjectId) (o : ObjectId)
    (hpath : sharedCycle.Path [.ref (.object ⟨0⟩)] path o) :
    (sharedCycle.object o).MeasuredInFull ⟨d, maxBytes, 10, 10, .zero false⟩ := by
  obtain ⟨elements, size, object, -⟩ := object_of_mem (mem_of_path hpath o hpath.end_mem)
  rw [object]
  exact ⟨by simp [Object.toClass, Object.new, Payload.toClass], Nat.zero_le 10,
    (show elements.size ≤ 10 by omega)⟩

end sharedCycle

/-- The last array is at the end of a path of two objects and of one of three. A ceiling of one is too
low for the shorter path, and one of three is high enough for the longer. -/
theorem ceiling_between_paths_on_shared :
    let pass (ceiling : Nat) := estimate sharedCycle ⟨ceiling, maxBytes, 10, 10, .zero false⟩
      (fun _ => none) (.node (.value (.object ⟨0⟩)))
    sharedCycle.Path [.ref (.object ⟨0⟩)] [⟨0⟩, ⟨2⟩] ⟨2⟩ ∧
      sharedCycle.Path [.ref (.object ⟨0⟩)] [⟨0⟩, ⟨1⟩, ⟨2⟩] ⟨2⟩ ∧
      pass 1 = .error ⟨1⟩ ∧ ∃ u, pass 3 = .ok u := by
  intro pass
  have first : .ref (.object ⟨1⟩) ∈ (sharedCycle.object ⟨0⟩).pieces :=
    Object.ref_mem_pieces_array.mpr (by simp)
  have second : .ref (.object ⟨2⟩) ∈ (sharedCycle.object ⟨0⟩).pieces :=
    Object.ref_mem_pieces_array.mpr (by simp)
  have inner : .ref (.object ⟨2⟩) ∈ (sharedCycle.object ⟨1⟩).pieces :=
    Object.ref_mem_pieces_array.mpr (by simp)
  have short : sharedCycle.Path [.ref (.object ⟨0⟩)] [⟨0⟩, ⟨2⟩] ⟨2⟩ :=
    .step List.mem_cons_self (.here second)
  have long : sharedCycle.Path [.ref (.object ⟨0⟩)] [⟨0⟩, ⟨1⟩, ⟨2⟩] ⟨2⟩ :=
    .step List.mem_cons_self (.step first (.here inner))
  refine ⟨short, long,
    (ceiling_between_paths (sharedCycle.measuredInFull 1) rfl).1 ⟨2⟩ ⟨_, short⟩ ?_,
    (ceiling_between_paths (sharedCycle.measuredInFull 3) rfl).2 ?_⟩
  · intro path hpath
    cases hpath with
    | here ho => simp at ho
    | step _ rest =>
        have := List.length_pos_of_mem rest.end_mem
        exact Nat.succ_lt_succ this
  · intro path x hpath hnodup
    exact (List.subperm_of_subset hnodup (sharedCycle.mem_of_path hpath)).length_le

end ScriptCore
