import ScriptCore.Proofs.Object.Access
import ScriptCore.Proofs.Object.Assignment
import ScriptCore.Proofs.Object.OwnSlot

/-!
# ScriptCore.Proofs.Object.Agreement

**Reading and assigning agree** on the slot that a key stands for, where that slot is not a plain
value: an accessor that is read is the one whose setter is called, and a read-only value that is read
is the one that refuses.

Design points:

* Reading is a search and assigning is a decision. The search is taken apart at each object into the
  own slot or the next prototype (`search_inv`), and the walk of an assignment along prototypes
  follows it.
* A computed property can be written. So the slots in question are stored ones, nothing is wrapped
  while they are looked for, and all that happens on the way is that lazy objects are made.
* The walk of an assignment takes a proxy that it meets among the prototypes for an ordinary object.
  Nothing is said where it meets one (`Direct`).
* An array takes the values under its indices itself, and so do maps and slices of the host, whatever
  their prototypes hold (`map_takes_over_read_only`).
-/

namespace ScriptCore

variable {σ : Type}

/-- Looking for a key, a walk along prototypes gets from one object to another. -/
inductive Ascends (env : Embedding σ) (key : Text) :
    World σ → ObjectId → World σ → ObjectId → Prop where
  | refl (w o) : Ascends env key w o w o
  | step {w w₁ w₂ w₃ o p q} (own : ownProperty env o key w = some (none, w₁))
      (link : prototypeOf env o w₁ = some (some p, w₂)) (rest : Ascends env key w₂ p w₃ q) :
      Ascends env key w o w₃ q

/-- No object that the walk from an object gets to is a proxy. -/
def Direct (env : Embedding σ) (key : Text) (w : World σ) (o : ObjectId) : Prop :=
  ∀ w' p, Ascends env key w o w' p → ∀ target handler, w'.heap.payload p ≠ .proxy target handler

/-- What a slot that has a say makes of an assignment. -/
def Slot.answer (env : Embedding σ) (receiver : ObjectId) (v : Value) : Slot → Throws σ Bool
  | .accessor _ setter _ => callSetter env receiver setter v
  | .data _ _ => pure false

variable {env : Embedding σ} {w w' w₁ w₂ : World σ} {o p t : ObjectId} {key : Text} {v : Value}
  {slot : Slot} {n : Nat}

theorem Direct.ne_proxy (direct : Direct env key w o) (target handler : Option ObjectId) :
    w.heap.payload o ≠ .proxy target handler :=
  direct w o (.refl w o) target handler

theorem Direct.next (direct : Direct env key w o) (own : ownProperty env o key w = some (none, w₁))
    (link : prototypeOf env o w₁ = some (some p, w₂)) : Direct env key w₂ p :=
  fun w' q ascends => direct w' q (.step own link ascends)

/-! ### One step of a search -/

/-- All that making an object does is that an initializer runs. -/
theorem initializes_of_made (made : materialize env o w = some ((), w')) :
    Relation.ReflTransGen env.Initializes w w' := by
  rcases materialize_inv made with ⟨rfl, -⟩ | ⟨number, obj, w₁, lazy, -, -⟩
  · exact .refl
  · exact .single ⟨o, number, lazy, made⟩

theorem initializes_of_prototypeOf {r : Option ObjectId}
    (link : prototypeOf env o w = some (r, w')) : Relation.ReflTransGen env.Initializes w w' := by
  obtain ⟨_, w₁, made, rest⟩ := Exec.bind_inv link
  cases rest
  exact initializes_of_made made

/-- A search that ends at a slot has found it among the own ones, or has gone on with the
prototype. -/
theorem search_inv (hp : ∀ target handler, w.heap.payload o ≠ .proxy target handler)
    (search : searchWithin env key (n + 1) o w = some (.found (some slot), w')) :
    ownProperty env o key w = some (some slot, w') ∨
      ∃ w₁ p w₂, ownProperty env o key w = some (none, w₁) ∧
        prototypeOf env o w₁ = some (some p, w₂) ∧
        searchWithin env key n p w₂ = some (.found (some slot), w') := by
  rw [searchWithin_step hp] at search
  obtain ⟨⟨own, w₁⟩, hown, search⟩ := Option.bind_eq_some_iff.mp search
  cases own with
  | some slot =>
      cases search
      exact .inl hown
  | none =>
      obtain ⟨⟨link, w₂⟩, hlink, search⟩ := Option.bind_eq_some_iff.mp search
      cases link with
      | none => cases search
      | some p => exact .inr ⟨w₁, p, w₂, hown, hlink, search⟩

/-- Where a search meets no proxy, the walk of an assignment finds the same slot, in no more steps. -/
theorem inherited_of_search (governs : slot.governs = true) (direct : Direct env key w p)
    (search : searchWithin env key n p w = some (.found (some slot), w')) {m : Nat} (hm : n ≤ m) :
    inheritedWithin env key m (some p) w = some (some slot, w') ∧
      Relation.ReflTransGen env.Initializes w w' := by
  induction n generalizing p w m with
  | zero => cases search
  | succ n ih =>
      obtain ⟨m, rfl⟩ := Nat.exists_eq_add_of_le' (Nat.le_trans (Nat.le_add_left 1 n) hm)
      rw [inheritedWithin_step]
      rcases search_inv direct.ne_proxy search with own | ⟨w₁, q, w₂, own, link, rest⟩
      · rw [own]
        exact ⟨rfl, initializes_of_made (made_of_ownProperty_governs governs own).1⟩
      · obtain ⟨inherited, later⟩ := ih (direct.next own link) rest (m := m) (by omega)
        have made := initializes_of_made (made_of_ownProperty_none own).1
        rw [own, Option.bind_some]
        dsimp only
        rw [link, Option.bind_some]
        exact ⟨inherited, (made.trans (initializes_of_prototypeOf link)).trans later⟩

/-- A slot that has a say has it wherever it was found. -/
theorem Decision.assign_of_governs (governs : slot.governs = true) {d : Decision}
    (decided : d.slot? = some slot) : d.assign env o key v = slot.answer env o v := by
  cases slot with
  | accessor getter setter a =>
      cases d with
      | own s => cases decided; rfl
      | inherited s => cases decided; rfl
  | data u a =>
      have readOnly : a.writable = false := by simpa [Slot.governs] using governs
      cases d with
      | own s =>
          cases decided
          rw [Decision.assign, readOnly]
          rfl
      | inherited s =>
          cases decided
          rw [Decision.assign, assignInherited, readOnly]
          rfl

/-- The slot that a search finds decides an assignment. -/
theorem decision_of_search (governs : slot.governs = true) (direct : Direct env key w t)
    (made : materialize env t w = some ((), w₁))
    (search : searchWithin env key n t w = some (.found (some slot), w₂)) (hn : n ≤ env.patience) :
    ∃ d, decision env t key w₁ = some (d, w₂) ∧ d.slot? = some slot ∧
      Relation.ReflTransGen env.Initializes w w₂ := by
  cases n with
  | zero => cases search
  | succ n =>
      have first := initializes_of_made made
      rcases search_inv direct.ne_proxy search with own | ⟨w', p, w'', own, link, rest⟩
      · obtain ⟨made', stored⟩ := made_of_ownProperty_governs governs own
        cases made.symm.trans made'
        exact ⟨.own slot, decision_own stored, rfl, first⟩
      · obtain ⟨made', missing⟩ := made_of_ownProperty_none own
        cases made.symm.trans made'
        obtain ⟨inherited, later⟩ :=
          inherited_of_search governs (direct.next own link) rest (m := env.patience) (by omega)
        refine ⟨.inherited (some slot), ?_, rfl,
          (first.trans (initializes_of_prototypeOf link)).trans later⟩
        rw [decision_inherited missing, link, Option.bind_some]
        dsimp only
        rw [inherited]
        rfl

/-! ### Behind proxies -/

/-- A search and an assignment go through the same proxies. -/
theorem through_proxies {k : Nat} (behind : w.heap.behindWithin k o = .object t)
    (search : searchWithin env key n o w = some (.found (some slot), w')) :
    ∃ m ≤ n, searchWithin env key m t w = some (.found (some slot), w') ∧
      recipientWithin env n o w = recipientWithin env m t w := by
  induction k generalizing o n with
  | zero => cases behind
  | succ k ih =>
      rw [Heap.behindWithin] at behind
      split at behind
      · rename_i target handler hp
        cases n with
        | zero => cases search
        | succ n =>
            have ready : ∀ number, w.heap.payload o ≠ .lazy (some number) := by simp [hp]
            rw [searchWithin_proxy hp] at search
            obtain ⟨m, hm, searched, recipient⟩ := ih behind search
            refine ⟨m, Nat.le_succ_of_le hm, searched, ?_⟩
            rw [recipientWithin_step (materialize_of_ready ready), hp]
            exact recipient
      · cases behind
      · cases behind
        exact ⟨n, Nat.le_refl n, search, rfl⟩

/-- An object that is no proxy once it has been made is its own recipient. -/
theorem recipientWithin_self (made : materialize env o w = some ((), w₁))
    (stores : (w₁.heap.payload o).stores key = true) (n : Nat) :
    recipientWithin env (n + 1) o w = some (.ok o, w₁) := by
  rw [recipientWithin_step made]
  cases hp : w₁.heap.payload o with
  | proxy target handler => simp [hp, Payload.stores] at stores
  | _ => rfl

/-- Reading and assigning agree. Take an object that, behind proxies or not, is assigned to by the
rules of stored properties, and with no proxy among the prototypes that are visited. If a search
finds an accessor or a read-only value, reading the key reads that slot, and assigning the key calls
the setter of that slot, or is refused. Both come to this after lazy objects have been made, and
nothing else. -/
theorem reading_governs_assigning (behind : w.heap.behind o = .object t)
    (direct : Direct env key w t) (made : materialize env t w = some ((), w₁))
    (stores : (w₁.heap.payload t).stores key = true)
    (search : searchWithin env key env.patience o w = some (.found (some slot), w₂))
    (governs : slot.governs = true) (v : Value) :
    getProperty env o key w = readSlot env o (some slot) w₂ ∧
      ∃ receiver, (o = t → receiver = o) ∧
        setProperty env o key v w = slot.answer env receiver v w₂ ∧
        Relation.ReflTransGen env.Initializes w w₂ := by
  obtain ⟨m, hm, searched, recipient⟩ := through_proxies behind search
  obtain ⟨d, decided, found, makes⟩ := decision_of_search governs direct made searched hm
  refine ⟨?_, t, Eq.symm, ?_, makes⟩
  · rw [getProperty, getWithin_eq_search, search]
    rfl
  · cases m with
    | zero => cases searched
    | succ m =>
        rw [setProperty, setWithin_eq_recipient, recipient, recipientWithin_self made stores]
        dsimp only [Option.bind_some]
        rw [assignAt_of_stores stores, setStored_eq_decision, decided, Option.bind_some,
          Decision.assign_of_governs governs found]

/-! ### A read-only value, inherited -/

/-- A plain object whose property `a` is read-only, and two objects more. -/
def readOnlyWorld (second third : Object) : World Unit :=
  ⟨{ Heap.empty with
    objects := #[{ Object.new .plain none with
      properties := PropertyTable.empty.insert (.ofString "a") (.data (.smi 7) .frozen) },
      second, third]
    hostMaps := #[∅] }, .start, #[], ()⟩

/-- An embedding that follows four links. -/
def fourLinks : Embedding Unit := plainMaker.withPatience 4

theorem readOnly_own (second third : Object) :
    ownProperty fourLinks ⟨0⟩ (.ofString "a") (readOnlyWorld second third) =
      some (some (.data (.smi 7) .frozen), readOnlyWorld second third) := by
  rw [ownProperty_ordinary rfl]
  exact congrArg (fun slot => some (slot, readOnlyWorld second third))
    (PropertyTable.get?_insert_self _ _ _)

theorem readOnly_found (second third : Object) (n : Nat) :
    searchWithin fourLinks (.ofString "a") (n + 1) ⟨0⟩ (readOnlyWorld second third) =
      some (.found (some (.data (.smi 7) .frozen)), readOnlyWorld second third) := by
  rw [searchWithin_step (by rintro _ _ ⟨⟩), readOnly_own]
  rfl

/-- An object that inherits the property, and a proxy of that object. -/
def inheritingWorld : World Unit :=
  readOnlyWorld (.new .plain (some ⟨0⟩)) (.new (.proxy (some ⟨1⟩) none) none)

theorem inheriting_own : ownProperty fourLinks ⟨1⟩ (.ofString "a") inheritingWorld =
    some (none, inheritingWorld) := by
  rw [ownProperty_ordinary rfl]
  exact congrArg (fun slot => some (slot, inheritingWorld)) (PropertyTable.get?_empty _)

theorem inheriting_direct : Direct fourLinks (.ofString "a") inheritingWorld ⟨1⟩ := by
  intro w p ascends
  cases ascends with
  | refl => rintro _ _ ⟨⟩
  | step own link rest =>
      cases inheriting_own.symm.trans own
      cases link
      cases rest with
      | refl => rintro _ _ ⟨⟩
      | step own => cases (readOnly_own _ _).symm.trans own

/-- Through a proxy, the value that an object inherits is read, and assigning it is refused. -/
theorem reading_governs_assigning_through_proxy :
    (inheritingWorld.heap.behind ⟨2⟩ = .object ⟨1⟩ ∧
      materialize fourLinks ⟨1⟩ inheritingWorld = some ((), inheritingWorld) ∧
      searchWithin fourLinks (.ofString "a") 4 ⟨2⟩ inheritingWorld =
        some (.found (some (.data (.smi 7) .frozen)), inheritingWorld)) ∧
      getProperty fourLinks ⟨2⟩ (.ofString "a") inheritingWorld =
        some (.ok (.smi 7), inheritingWorld) ∧
      setProperty fourLinks ⟨2⟩ (.ofString "a") (.smi 1) inheritingWorld =
        some (.ok false, inheritingWorld) := by
  have search : searchWithin fourLinks (.ofString "a") 4 ⟨2⟩ inheritingWorld =
      some (.found (some (.data (.smi 7) .frozen)), inheritingWorld) := by
    rw [searchWithin_proxy rfl, searchWithin_step (by rintro _ _ ⟨⟩), inheriting_own]
    exact readOnly_found _ _ 1
  have behind : inheritingWorld.heap.behind ⟨2⟩ = .object ⟨1⟩ := rfl
  have made : materialize fourLinks ⟨1⟩ inheritingWorld = some ((), inheritingWorld) := rfl
  obtain ⟨read, receiver, -, assigned, -⟩ :=
    reading_governs_assigning behind inheriting_direct made rfl search rfl (.smi 1)
  exact ⟨⟨behind, made, search⟩, read, assigned⟩

/-- A map of the host takes a value under a key that it inherits read-only. -/
theorem map_takes_over_read_only :
    let w := readOnlyWorld (.new (.hostMap ⟨0⟩ .none) (some ⟨0⟩)) default
    searchWithin fourLinks (.ofString "a") 4 ⟨1⟩ w =
        some (.found (some (.data (.smi 7) .frozen)), w) ∧
      (setProperty fourLinks ⟨1⟩ (.ofString "a") (.smi 1) w).map Prod.fst = some (.ok true) := by
  intro w
  have own : ownProperty fourLinks ⟨1⟩ (.ofString "a") w = some (none, w) := by
    have made : materialize fourLinks ⟨1⟩ w = some ((), w) := rfl
    have bare : (w.heap.computed? ⟨1⟩ (.ofString "a")).1 = none := rfl
    have stored : (w.heap.object ⟨1⟩).properties.get? (.ofString "a") = none :=
      PropertyTable.get?_empty _
    rw [ownProperty, Exec.bind_of_eq made, Exec.onHeap_apply, ownSlot?_of_not_computed bare, stored]
  refine ⟨?_, rfl⟩
  rw [searchWithin_step (by rintro _ _ ⟨⟩), own]
  exact readOnly_found _ _ 2

end ScriptCore
