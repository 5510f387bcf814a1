import Mathlib.Data.Fintype.Card
import ScriptCore.Object.Assign
import ScriptCore.Proofs.Execution.Run
import ScriptCore.Proofs.Heap.Objects
import ScriptCore.Proofs.Property.Table

/-!
# ScriptCore.Proofs.Object.Ordinary

Reading and assigning properties of **ordinary objects**, those without computed properties, when
the objects that they inherit from are ordinary too.

Design points:

* `Heap.Finds` is the first slot for a key along the stored prototypes, said of the heap alone. It
  counts the links that are followed; a chain that leads back into itself and has no slot finds
  nothing.
* `readSlot` is what a read makes of the slot, and `Assigns` has one rule for each outcome of an
  assignment. Each rule that changes the heap says what has changed and that the rest has not.
* A walk that finds something never visits an object twice, so a heap bounds the number of links that
  are followed in it (`Finds.le_size`).
-/

namespace ScriptCore

/-- The payload computes no properties. -/
def Payload.isOrdinary : Payload → Bool
  | .plain | .function _ | .map _ | .set _ | .date _ => true
  | _ => false

namespace Heap

/-- The first slot for a key from an object on along the stored prototypes, or none at their end,
after a number of links. -/
inductive Finds (h : Heap) (key : Text) : Nat → ObjectId → Option Slot → Prop where
  | own {o slot} (own : (h.object o).properties.get? key = some slot) :
      Finds h key 0 o (some slot)
  | missing {o} (own : (h.object o).properties.get? key = none)
      (last : (h.object o).prototype = none) : Finds h key 0 o none
  | inherited {n o p r} (own : (h.object o).properties.get? key = none)
      (link : (h.object o).prototype = some p) (rest : Finds h key n p r) :
      Finds h key (n + 1) o r

/-- An object is another one or inherits from it, over any number of stored prototypes. -/
inductive Inherits (h : Heap) : ObjectId → ObjectId → Prop where
  | refl (o) : Inherits h o o
  | step {o p q} (link : (h.object o).prototype = some p) (rest : Inherits h p q) : Inherits h o q

/-- An object and all objects on its prototype chain are ordinary. -/
def OrdinaryFrom (h : Heap) (o : ObjectId) : Prop :=
  ∀ p, h.Inherits o p → (h.payload p).isOrdinary = true

end Heap

variable {σ : Type}

/-- What a read makes of the slot that it found. -/
def readSlot (env : Embedding σ) (receiver : ObjectId) : Option Slot → Throws σ Value
  | some (.data v _) => pure v
  | some (.accessor (some getter) _ _) => callBare env getter (.object receiver)
  | some (.accessor none _ _) | none => pure .undefined

/-- Nothing has changed but the own properties of one object. -/
structure World.OnlyProperties (w w' : World σ) (o : ObjectId) : Prop where
  object : w'.heap.object o =
    { w.heap.object o with properties := (w'.heap.object o).properties }
  others : ∀ p, p ≠ o → w'.heap.object p = w.heap.object p
  size : w'.heap.objects.size = w.heap.objects.size
  rest : w' = { w with heap := { w.heap with objects := w'.heap.objects } }

/-- Only the value under a key has changed: attributes, order and other slots are as they were. -/
structure PropertyTable.Overwritten (t t' : PropertyTable) (key : Text) (a : Attributes)
    (v : Value) : Prop where
  slot : t'.get? key = some (.data v a)
  names : t'.names = t.names
  others : ∀ k, (key == k) = false → t'.get? k = t.get? k

/-- A key has been added at the end with a slot that allows everything. -/
structure PropertyTable.Appended (t t' : PropertyTable) (key : Text) (v : Value) : Prop where
  slot : t'.get? key = some (.data v .default)
  names : t'.names = t.names.push key
  others : ∀ k, (key == k) = false → t'.get? k = t.get? k

/-- What assigning `v` does, by the slot that is found first. -/
inductive Assigns (env : Embedding σ) (w : World σ) (o : ObjectId) (key : Text) (v : Value) :
    Option Slot → Option (Except Thrown Bool × World σ) → Prop where
  | readOnly {u a} (refused : a.writable = false) :
      Assigns env w o key v (some (.data u a)) (some (.ok false, w))
  | noSetter {g a} : Assigns env w o key v (some (.accessor g none a)) (some (.ok false, w))
  | setter {g s a} : Assigns env w o key v (some (.accessor g (some s) a))
      ((callObject env s (.object o) [v] w).map fun p => (p.1.map fun _ => true, p.2))
  | overwrites {u a w'} (own : (w.heap.object o).properties.get? key = some (.data u a))
      (accepted : a.writable = true) (frame : w.OnlyProperties w' o)
      (table : (w.heap.object o).properties.Overwritten (w'.heap.object o).properties key a v)
      (read : getProperty env o key w' = some (.ok v, w')) :
      Assigns env w o key v (some (.data u a)) (some (.ok true, w'))
  | appends {r w'} (own : (w.heap.object o).properties.get? key = none)
      (found : r = none ∨ ∃ u a, r = some (.data u a) ∧ a.writable = true)
      (extensible : (w.heap.object o).extensible = true) (frame : w.OnlyProperties w' o)
      (table : (w.heap.object o).properties.Appended (w'.heap.object o).properties key v)
      (read : getProperty env o key w' = some (.ok v, w')) :
      Assigns env w o key v r (some (.ok true, w'))
  | fixed {r} (own : (w.heap.object o).properties.get? key = none)
      (found : r = none ∨ ∃ u a, r = some (.data u a) ∧ a.writable = true)
      (extensible : (w.heap.object o).extensible = false) :
      Assigns env w o key v r (some (.ok false, w))

/-! ### Chains -/

namespace Heap

variable {h : Heap} {key : Text} {o p : ObjectId} {m n : Nat} {r s : Option Slot}

theorem OrdinaryFrom.self (ho : h.OrdinaryFrom o) : (h.payload o).isOrdinary = true :=
  ho o (.refl o)

theorem OrdinaryFrom.prototype (ho : h.OrdinaryFrom o)
    (link : (h.object o).prototype = some p) : h.OrdinaryFrom p :=
  fun q hq => ho q (.step link hq)

/-- Where there is an object at each of so many distances, there are so many objects, by the pigeonhole
principle. -/
theorem le_size_of_distances {P : Nat → ObjectId → Prop}
    (found : ∀ m < n, ∃ p, p.index < h.objects.size ∧ P m p)
    (once : ∀ {m m' p}, P m p → P m' p → m = m') : n ≤ h.objects.size := by
  choose p hlive hp using fun m : Fin n => found m m.isLt
  have hinj : Function.Injective fun m => (⟨(p m).index, hlive m⟩ : Fin h.objects.size) := by
    intro i j hij
    have same : p i = p j := by
      have hindex : (p i).index = (p j).index := congrArg Fin.val hij
      cases hi : p i
      cases hj : p j
      rw [hi, hj] at hindex
      rw [ObjectId.mk.injEq]
      exact hindex
    exact Fin.ext (once (same ▸ hp i) (hp j))
  simpa using Fintype.card_le_of_injective _ hinj

namespace Finds

theorem unique (hr : h.Finds key m o r) (hs : h.Finds key n o s) : m = n ∧ r = s := by
  induction hr generalizing n with
  | own own =>
      cases hs with
      | own own' =>
          rw [own] at own'
          cases own'
          exact ⟨rfl, rfl⟩
      | missing own' => simp [own] at own'
      | inherited own' => simp [own] at own'
  | missing own last =>
      cases hs with
      | own own' => simp [own] at own'
      | missing => exact ⟨rfl, rfl⟩
      | inherited _ link => simp [last] at link
  | inherited own link _ ih =>
      cases hs with
      | own own' => simp [own] at own'
      | missing _ last => simp [link] at last
      | inherited own' link' rest' =>
          rw [link] at link'
          cases link'
          obtain ⟨rfl, rfl⟩ := ih rest'
          exact ⟨rfl, rfl⟩

/-- For every smaller number of links, some object of the heap is that far from the end. -/
theorem exists_of_lt (hr : h.Finds key n o r) (hm : m < n) :
    ∃ p, p.index < h.objects.size ∧ h.Finds key (m + 1) p r := by
  induction hr with
  | own => omega
  | missing => omega
  | inherited own link rest ih =>
      rename_i k o p r
      rcases Nat.lt_succ_iff_lt_or_eq.mp hm with hlt | rfl
      · exact ih hlt
      · exact ⟨o, lt_size_of_prototype link, .inherited own link rest⟩

/-- No object is visited twice. -/
theorem le_size (hr : h.Finds key n o r) : n ≤ h.objects.size :=
  le_size_of_distances (fun _ hm => hr.exists_of_lt hm) fun left right =>
    Nat.succ.inj (left.unique right).1

end Finds

end Heap

/-! ### Walks along prototypes -/

section Walks

variable {env : Embedding σ} {w : World σ} {key : Text} {o p : ObjectId} {n : Nat}
  {r : Option Slot}

theorem materialize_ordinary (ho : (w.heap.payload o).isOrdinary = true) :
    materialize env o w = some ((), w) := by
  rw [materialize, Exec.bind_of_eq (Exec.asks_apply _ _)]
  cases hp : w.heap.payload o <;> simp_all [Payload.isOrdinary]

theorem prototypeOf_ordinary (ho : (w.heap.payload o).isOrdinary = true) :
    prototypeOf env o w = some ((w.heap.object o).prototype, w) := by
  rw [prototypeOf, Exec.bind_of_eq (materialize_ordinary ho)]
  rfl

theorem ownSlot?_ordinary {h : Heap} (ho : (h.payload o).isOrdinary = true) (key : Text) :
    h.ownSlot? o key = ((h.object o).properties.get? key, h) := by
  have hcomputed : h.computed? o key = (none, h) := by
    unfold Heap.computed?
    cases hp : h.payload o <;> simp_all [Payload.isOrdinary]
  rw [Heap.ownSlot?, hcomputed]

theorem ownProperty_ordinary (ho : (w.heap.payload o).isOrdinary = true) :
    ownProperty env o key w = some ((w.heap.object o).properties.get? key, w) := by
  rw [ownProperty, Exec.bind_of_eq (materialize_ordinary ho), Exec.onHeap_apply,
    ownSlot?_ordinary ho]

theorem inheritedWithin_none (n : Nat) (w : World σ) :
    inheritedWithin env key n none w = some (none, w) := by
  cases n <;> rfl

theorem inheritedWithin_own (ho : (w.heap.payload o).isOrdinary = true) {slot : Slot}
    (own : (w.heap.object o).properties.get? key = some slot) :
    inheritedWithin env key (n + 1) (some o) w = some (some slot, w) := by
  rw [inheritedWithin, Exec.bind_of_eq (ownProperty_ordinary ho), own]
  rfl

theorem inheritedWithin_next (ho : (w.heap.payload o).isOrdinary = true)
    (own : (w.heap.object o).properties.get? key = none) :
    inheritedWithin env key (n + 1) (some o) w =
      inheritedWithin env key n (w.heap.object o).prototype w := by
  rw [inheritedWithin, Exec.bind_of_eq (ownProperty_ordinary ho), own]
  exact Exec.bind_of_eq (prototypeOf_ordinary ho) _

/-- The walk along prototypes gives what is found in the heap. -/
theorem inheritedWithin_of_finds (found : w.heap.Finds key n o r)
    (ho : w.heap.OrdinaryFrom o) {patience : Nat} (hn : n < patience) :
    inheritedWithin env key patience (some o) w = some (r, w) := by
  induction found generalizing patience with
  | own own =>
      obtain ⟨m, rfl⟩ := Nat.exists_eq_add_of_lt hn
      exact inheritedWithin_own ho.self own
  | missing own last =>
      obtain ⟨m, rfl⟩ := Nat.exists_eq_add_of_lt hn
      rw [inheritedWithin_next ho.self own, last, inheritedWithin_none]
  | inherited own link _ ih =>
      obtain ⟨m, rfl⟩ := Nat.exists_eq_add_of_lt hn
      rw [inheritedWithin_next ho.self own, link]
      exact ih (ho.prototype link) (by omega)

/-- Where nothing is to be found, the walk has no end. -/
theorem inheritedWithin_of_endless (ho : w.heap.OrdinaryFrom o)
    (lost : ¬∃ n r, w.heap.Finds key n o r) (patience : Nat) :
    inheritedWithin env key patience (some o) w = none := by
  induction patience generalizing o with
  | zero => rfl
  | succ patience ih =>
      cases own : (w.heap.object o).properties.get? key with
      | some slot => exact absurd ⟨0, some slot, .own own⟩ lost
      | none =>
          rw [inheritedWithin_next ho.self own]
          cases link : (w.heap.object o).prototype with
          | none => exact absurd ⟨0, none, .missing own link⟩ lost
          | some p =>
              refine ih (ho.prototype link) ?_
              rintro ⟨n, r, rest⟩
              exact lost ⟨n + 1, r, .inherited own link rest⟩

/-- At an object that is no proxy, a read takes the own slot or goes on with the prototype. -/
theorem getWithin_step (hp : ∀ target handler, w.heap.payload o ≠ .proxy target handler)
    (receiver : ObjectId) (n : Nat) :
    getWithin env receiver key (n + 1) o w = (ownProperty env o key w).bind fun p =>
      match p.1 with
      | some slot => readSlot env receiver (some slot) p.2
      | none => (prototypeOf env o p.2).bind fun q =>
        match q.1 with
        | some p => getWithin env receiver key n p q.2
        | none => readSlot env receiver none q.2 := by
  rw [getWithin, Throws.bind_of_ok (Throws.asks_apply _ _)]
  cases hpayload : w.heap.payload o with
  | proxy target handler => exact absurd hpayload (hp target handler)
  | _ =>
      dsimp only
      rw [Throws.lift_bind_eq]
      refine Option.bind_congr fun p _ => ?_
      match p.1 with
      | some (.data _ _) => rfl
      | some (.accessor (some _) _ _) => rfl
      | some (.accessor none _ _) => rfl
      | none =>
          dsimp only
          rw [Throws.lift_bind_eq]
          refine Option.bind_congr fun q _ => ?_
          match q.1 with
          | some _ => rfl
          | none => rfl

theorem ne_proxy_of_isOrdinary (ho : (w.heap.payload o).isOrdinary = true)
    (target handler : Option ObjectId) : w.heap.payload o ≠ .proxy target handler := by
  intro hp
  simp [hp, Payload.isOrdinary] at ho

/-- A read walks along prototypes and then reads the slot. -/
theorem getWithin_ordinary (ho : w.heap.OrdinaryFrom o) (receiver : ObjectId) (patience : Nat) :
    getWithin env receiver key patience o w =
      (inheritedWithin env key patience (some o) w).bind fun p => readSlot env receiver p.1 p.2 := by
  induction patience generalizing o with
  | zero => rfl
  | succ patience ih =>
      rw [getWithin_step (ne_proxy_of_isOrdinary ho.self), ownProperty_ordinary ho.self,
        Option.bind_some]
      cases own : (w.heap.object o).properties.get? key with
      | some slot => rw [inheritedWithin_own ho.self own, Option.bind_some]
      | none =>
          rw [inheritedWithin_next ho.self own, prototypeOf_ordinary ho.self, Option.bind_some]
          cases link : (w.heap.object o).prototype with
          | some p => exact ih (ho.prototype link)
          | none => rw [inheritedWithin_none, Option.bind_some]

end Walks

/-! ### Assignment -/

section Assignment

variable {env : Embedding σ} {w : World σ} {key : Text} {o : ObjectId} {v : Value}

/-- An ordinary object is assigned to by the rules of stored properties. -/
theorem setWithin_ordinary (ho : (w.heap.payload o).isOrdinary = true) (n : Nat) :
    setWithin env key v (n + 1) o w = setStored env o key v w := by
  rw [setWithin, Throws.lift_bind_eq, materialize_ordinary ho, Option.bind_some,
    Throws.bind_of_ok (Throws.asks_apply _ _)]
  cases hp : w.heap.payload o <;> simp_all [Payload.isOrdinary, assignAt]

theorem trySet_of_ok {ok : Bool} {w' : World σ}
    (run : setProperty env o key v w = some (.ok ok, w')) :
    trySet env o key v w = some (ok, w') :=
  Exec.bind_of_eq run _

theorem setStored_data {u : Value} {a : Attributes}
    (own : (w.heap.object o).properties.get? key = some (.data u a)) :
    setStored env o key v w =
      some (.ok a.writable,
        if a.writable then { w with heap := w.heap.putValue o key v } else w) := by
  rw [setStored, Throws.bind_of_ok (Throws.asks_apply _ _), own]
  cases ha : a.writable with
  | false => simp [ha]
  | true =>
      simp only [ha]
      rfl

theorem setStored_accessor {getter setter : Option ObjectId} {a : Attributes}
    (own : (w.heap.object o).properties.get? key = some (.accessor getter setter a)) :
    setStored env o key v w = callSetter env o setter v w := by
  rw [setStored, Throws.bind_of_ok (Throws.asks_apply _ _), own]

/-- Without an own property, the first inherited one decides. -/
theorem setStored_inherited (ho : (w.heap.payload o).isOrdinary = true)
    (own : (w.heap.object o).properties.get? key = none) {r : Option Slot}
    (inherited :
      inheritedWithin env key env.patience (w.heap.object o).prototype w = some (r, w)) :
    setStored env o key v w = assignInherited env o key v r w := by
  rw [setStored, Throws.bind_of_ok (Throws.asks_apply _ _), own]
  dsimp only
  rw [Throws.lift_bind_eq, prototypeOf_ordinary ho, Option.bind_some, Throws.lift_bind_eq,
    inherited, Option.bind_some]

theorem setStored_endless (ho : (w.heap.payload o).isOrdinary = true)
    (own : (w.heap.object o).properties.get? key = none)
    (inherited :
      inheritedWithin env key env.patience (w.heap.object o).prototype w = none) :
    setStored env o key v w = none := by
  rw [setStored, Throws.bind_of_ok (Throws.asks_apply _ _), own]
  dsimp only
  rw [Throws.lift_bind_eq, prototypeOf_ordinary ho, Option.bind_some, Throws.lift_bind_eq,
    inherited, Option.bind_none]

theorem callSetter_some (s : ObjectId) :
    callSetter env o (some s) v w =
      (callObject env s (.object o) [v] w).map fun p => (p.1.map fun _ => true, p.2) := by
  show (callObject env s (.object o) [v] w).bind _ = _
  cases callObject env s (.object o) [v] w with
  | none => rfl
  | some p =>
      obtain ⟨result, w'⟩ := p
      cases result <;> rfl

theorem addProperty_apply (o : ObjectId) (key : Text) (v : Value) (w : World σ) :
    addProperty o key v w = some (.ok (w.heap.object o).extensible,
      if (w.heap.object o).extensible then
        { w with heap := w.heap.putSlot o key (.data v .default) } else w) := by
  rw [addProperty, Throws.bind_of_ok (Throws.asks_apply _ _)]
  cases (w.heap.object o).extensible <;> rfl

/-! ### Changed tables -/

theorem onlyProperties_update (live : o.index < w.heap.objects.size)
    (f : PropertyTable → PropertyTable) :
    w.OnlyProperties { w with heap := w.heap.updateProperties o f } o where
  object := by
    dsimp only
    rw [Heap.updateProperties, Heap.object_updateObject_self live]
  others p hne := Heap.object_updateObject_of_ne hne _
  size := Heap.size_updateObject _ _ _
  rest := rfl

theorem overwritten_update {t : PropertyTable} {u : Value} {a : Attributes}
    (own : t.get? key = some (.data u a)) (v : Value) :
    t.Overwritten (t.update key fun
      | .data _ a => .data v a
      | slot => slot) key a v where
  slot := by simp [PropertyTable.get?_update_of_some _ own]
  names := PropertyTable.names_update t key _
  others k hk := by simp [PropertyTable.get?_update_of_some _ own, hk]

theorem appended_insert {t : PropertyTable} (own : t.get? key = none) (v : Value) :
    t.Appended (t.insert key (.data v .default)) key v where
  slot := PropertyTable.get?_insert_self t key _
  names := PropertyTable.names_insert_of_none _ own
  others k hk := by simp [PropertyTable.get?_insert, hk]

/-- An ordinary object gives back its own value. -/
theorem getProperty_own (patient : 0 < env.patience)
    (ho : (w.heap.payload o).isOrdinary = true) {a : Attributes}
    (own : (w.heap.object o).properties.get? key = some (.data v a)) :
    getProperty env o key w = some (.ok v, w) := by
  obtain ⟨n, hn⟩ := Nat.exists_eq_add_of_lt patient
  rw [getProperty, hn, getWithin_step (ne_proxy_of_isOrdinary ho), ownProperty_ordinary ho, own]
  rfl

theorem World.OnlyProperties.payload {w' : World σ} (h : w.OnlyProperties w' o) :
    w'.heap.payload o = w.heap.payload o := by
  rw [Heap.payload, h.object]
  rfl

/-! ### The rules -/

theorem assigns_data (live : o.index < w.heap.objects.size) (patient : 0 < env.patience)
    (ho : (w.heap.payload o).isOrdinary = true) {u : Value} {a : Attributes}
    (own : (w.heap.object o).properties.get? key = some (.data u a)) :
    Assigns env w o key v (some (.data u a)) (setStored env o key v w) := by
  rw [setStored_data own]
  cases ha : a.writable with
  | false => exact .readOnly ha
  | true =>
      have frame := onlyProperties_update (w := w) live fun t => t.update key fun
        | .data _ a => .data v a
        | slot => slot
      have table := overwritten_update own v
      rw [← Heap.properties_updateProperties live (fun t => t.update key _)] at table
      exact .overwrites own ha frame table
        (getProperty_own patient (frame.payload ▸ ho) table.slot)

theorem assigns_new (live : o.index < w.heap.objects.size) (patient : 0 < env.patience)
    (ho : (w.heap.payload o).isOrdinary = true)
    (own : (w.heap.object o).properties.get? key = none) {r : Option Slot}
    (found : r = none ∨ ∃ u a, r = some (.data u a) ∧ a.writable = true) :
    Assigns env w o key v r (addProperty o key v w) := by
  rw [addProperty_apply]
  cases hext : (w.heap.object o).extensible with
  | false => exact .fixed own found hext
  | true =>
      have frame := onlyProperties_update (w := w) live fun t => t.insert key (.data v .default)
      have table := appended_insert own v
      rw [← Heap.properties_updateProperties live (fun t => t.insert key _)] at table
      exact .appends own found hext frame table
        (getProperty_own patient (frame.payload ▸ ho) table.slot)

theorem assigns_accessor (getter setter : Option ObjectId) (a : Attributes) :
    Assigns env w o key v (some (.accessor getter setter a)) (callSetter env o setter v w) := by
  cases setter with
  | none => exact .noSetter
  | some s =>
      rw [callSetter_some]
      exact .setter

theorem assigns_inherited (live : o.index < w.heap.objects.size) (patient : 0 < env.patience)
    (ho : (w.heap.payload o).isOrdinary = true)
    (own : (w.heap.object o).properties.get? key = none) (r : Option Slot) :
    Assigns env w o key v r (assignInherited env o key v r w) := by
  match r with
  | none => exact assigns_new live patient ho own (.inl rfl)
  | some (.accessor getter setter a) => exact assigns_accessor getter setter a
  | some (.data u a) =>
      rw [assignInherited]
      cases ha : a.writable with
      | false => exact .readOnly ha
      | true => exact assigns_new live patient ho own (.inr ⟨u, a, rfl, ha⟩)

end Assignment

/-- Reading and assigning a property of an ordinary object with ordinary prototypes goes by the first
slot along the chain. If the chain leads back into itself without one, neither has an end. -/
theorem ordinary_access (env : Embedding σ) {w : World σ} {o : ObjectId}
    (live : o.index < w.heap.objects.size) (patient : w.heap.objects.size < env.patience)
    (ordinary : w.heap.OrdinaryFrom o) (key : Text) (v : Value) :
    (∀ n r, w.heap.Finds key n o r →
      getProperty env o key w = readSlot env o r w ∧
        Assigns env w o key v r (setProperty env o key v w)) ∧
      ((¬∃ n r, w.heap.Finds key n o r) →
        getProperty env o key w = none ∧ setProperty env o key v w = none) := by
  have hpos : 0 < env.patience := by omega
  have hset : setProperty env o key v w = setStored env o key v w := by
    obtain ⟨n, hn⟩ := Nat.exists_eq_add_of_lt hpos
    rw [setProperty, hn]
    exact setWithin_ordinary ordinary.self _
  rw [getProperty, getWithin_ordinary ordinary, hset]
  constructor
  · intro n r found
    have hn := found.le_size
    refine ⟨?_, ?_⟩
    · rw [inheritedWithin_of_finds found ordinary (by omega), Option.bind_some]
    · cases found with
      | own own =>
          rename_i slot
          cases slot with
          | data u a => exact assigns_data live hpos ordinary.self own
          | accessor getter setter a =>
              rw [setStored_accessor own]
              exact assigns_accessor getter setter a
      | missing own last =>
          rw [setStored_inherited ordinary.self own (by rw [last, inheritedWithin_none])]
          exact assigns_inherited live hpos ordinary.self own none
      | inherited own link rest =>
          rw [setStored_inherited ordinary.self own (by
            rw [link, inheritedWithin_of_finds rest (ordinary.prototype link) (by omega)])]
          exact assigns_inherited live hpos ordinary.self own r
  · intro lost
    refine ⟨by rw [inheritedWithin_of_endless ordinary lost, Option.bind_none], ?_⟩
    cases own : (w.heap.object o).properties.get? key with
    | some slot => exact absurd ⟨0, some slot, .own own⟩ lost
    | none =>
        refine setStored_endless ordinary.self own ?_
        cases link : (w.heap.object o).prototype with
        | none => exact absurd ⟨0, none, .missing own link⟩ lost
        | some p =>
            refine inheritedWithin_of_endless (ordinary.prototype link) ?_ _
            rintro ⟨n, r, rest⟩
            exact lost ⟨n + 1, r, .inherited own link rest⟩

/-- A heap with two plain objects: the second inherits a read-only `k` from the first. -/
def derivedHeap : Heap :=
  { Heap.empty with objects := #[
    { Object.new .plain none with
      properties := PropertyTable.empty.insert (.ofString "k") (.data (.smi 1) .frozen) },
    .new .plain (some ⟨0⟩)] }

theorem ordinary_access_on_derived :
    let w : World Unit := ⟨derivedHeap, .start, #[], ()⟩
    let env : Embedding Unit := { (default : Embedding Unit) with patience := 8 }
    let slot : Slot := .data (.smi 1) .frozen
    getProperty env ⟨1⟩ (.ofString "k") w = readSlot env ⟨1⟩ (some slot) w ∧
      Assigns env w ⟨1⟩ (.ofString "k") .null (some slot)
        (setProperty env ⟨1⟩ (.ofString "k") .null w) := by
  intro w env slot
  have hordinary : w.heap.OrdinaryFrom ⟨1⟩ := by
    intro p hp
    cases hp with
    | refl => rfl
    | step link rest =>
        cases link
        cases rest with
        | refl => rfl
        | step link _ => cases link
  have hown : (w.heap.object ⟨1⟩).properties.get? (.ofString "k") = none :=
    PropertyTable.get?_empty _
  have hinherited : (w.heap.object ⟨0⟩).properties.get? (.ofString "k") = some slot :=
    PropertyTable.get?_insert_self _ _ _
  exact (ordinary_access env (by decide) (by decide) hordinary _ _).1 1 _
    (.inherited hown rfl (.own hinherited))

end ScriptCore
