import ScriptCore.Proofs.Object.LookupEnds

/-!
# ScriptCore.Proofs.Object.Assignment

An **assignment in its steps**: to whom it goes, what decides it, and what it then does.

Design points:

* An assignment first comes to its recipient, through proxies (`recipientWithin`). What happens there
  is up to the recipient's payload, or to the rules of stored properties (`Payload.stores`).
* By those rules one slot decides, the own one or the first inherited one (`decision`). It is
  looked for before anything is changed, and only then acted upon (`Decision.assign`).
-/

namespace ScriptCore

/-- Under the key, an object with the payload is assigned to by the rules of stored properties: its
payload neither takes values under the key itself nor passes them on. -/
def Payload.stores (p : Payload) (key : Text) : Bool :=
  match p with
  | .proxy .. | .hostMap .. => false
  | .hostSlice .. => key.arrayIndex?.isNone
  | .array _ => key.arrayIndex?.isNone && !key.isText "length"
  | _ => true

/-- The slot that decides an assignment by the rules of stored properties. -/
inductive Decision where
  /-- A slot of the object itself. -/
  | own (slot : Slot)
  /-- The first slot that it inherits, if there is one. -/
  | inherited (slot : Option Slot)

/-- The slot, if there is one. -/
def Decision.slot? : Decision → Option Slot
  | .own slot => some slot
  | .inherited slot => slot

/-- The setter that is to be called. -/
def Decision.setter? (d : Decision) : Option ObjectId :=
  match d.slot? with
  | some (.accessor _ setter _) => setter
  | _ => none

variable {σ : Type}

/-- The object that an assignment comes to, within a number of proxies. -/
def recipientWithin (env : Embedding σ) : Nat → ObjectId → Throws σ ObjectId
  | 0, _ => Exec.endless
  | n + 1, o => do
    materialize env o
    match ← Exec.asks (·.payload o) with
    | .proxy (some target) _ => recipientWithin env n target
    | .proxy none _ => throw .revokedProxy
    | _ => return o

/-- Looks for the slot that decides an assignment to an object. -/
def decision (env : Embedding σ) (o : ObjectId) (key : Text) : Exec σ Decision := do
  match ← Exec.asks (·.object o |>.properties.get? key) with
  | some slot => return .own slot
  | none => return .inherited (← inheritedWithin env key env.patience (← prototypeOf env o))

/-- What an assignment does once it is decided. -/
def Decision.assign (env : Embedding σ) (o : ObjectId) (key : Text) (v : Value) :
    Decision → Throws σ Bool
  | .own (.data _ a) => do
    if a.writable then Exec.modifyHeap (·.putValue o key v)
    return a.writable
  | .own (.accessor _ setter _) => callSetter env o setter v
  | .inherited slot => assignInherited env o key v slot

/-- Assigning the key to the object comes down to a call of a setter. -/
def CallsSetter (env : Embedding σ) (w : World σ) (o : ObjectId) (key : Text) : Prop :=
  (w.heap.payload o).stores key = true ∧
    ∃ d w' s, decision env o key w = some (d, w') ∧ d.setter? = some s

variable {env : Embedding σ} {w w' w₁ : World σ} {o t : ObjectId} {key : Text} {v : Value}

theorem size_resized (es : Array Value) (n : Nat) : (resized es n).size = n := by
  simp [resized]
  omega

/-! ### The recipient -/

theorem recipientWithin_step (made : materialize env o w = some ((), w₁)) (n : Nat) :
    recipientWithin env (n + 1) o w =
      match w₁.heap.payload o with
      | .proxy (some target) _ => recipientWithin env n target w₁
      | .proxy none _ => some (.error .revokedProxy, w₁)
      | _ => some (.ok o, w₁) := by
  rw [recipientWithin, Throws.lift_bind_eq, made, Option.bind_some,
    Throws.bind_of_ok (Throws.asks_apply _ _)]
  cases w₁.heap.payload o with
  | proxy target handler => cases target <;> rfl
  | _ => rfl

/-- The recipient is behind a proxy, or it is the object itself, once it has been made. -/
theorem recipientWithin_inv {n : Nat}
    (recipient : recipientWithin env (n + 1) o w = some (.ok t, w₁)) :
    ∃ w₂, materialize env o w = some ((), w₂) ∧
      ((∃ target handler, w₂.heap.payload o = .proxy (some target) handler ∧
        recipientWithin env n target w₂ = some (.ok t, w₁)) ∨
      (t = o ∧ w₁ = w₂ ∧ ∀ target handler, w₂.heap.payload o ≠ .proxy target handler)) := by
  cases made : materialize env o w with
  | none =>
      rw [recipientWithin, Throws.lift_bind_eq, made] at recipient
      cases recipient
  | some p =>
      refine ⟨p.2, rfl, ?_⟩
      rw [recipientWithin_step made] at recipient
      cases hp : p.2.heap.payload o with
      | proxy target handler =>
          rw [hp] at recipient
          cases target with
          | some target => exact .inl ⟨target, handler, rfl, recipient⟩
          | none => cases recipient
      | _ =>
          rw [hp] at recipient
          cases recipient
          exact .inr ⟨rfl, rfl, by simp⟩

theorem recipientWithin_along {R : Guarantee σ} (h : env.Guarantees R) (n : Nat) (o : ObjectId) :
    Exec.Along R (recipientWithin env n o).run := by
  induction n generalizing o with
  | zero => exact .endless
  | succ n ih =>
      refine .run_bind (.run_lift (h.makes o)) fun _ => .run_bind (.run_asks _) fun payload => ?_
      split
      · exact ih _
      · exact .run_throw _
      · exact .run_pure _

/-- An assignment goes to its recipient, and there by the payload. -/
theorem setWithin_eq_recipient (n : Nat) (o : ObjectId) (w : World σ) :
    setWithin env key v n o w = (recipientWithin env n o w).bind fun p =>
      match p.1 with
      | .ok t => assignAt env t key v (p.2.heap.payload t) p.2
      | .error thrown => some (.error thrown, p.2) := by
  induction n generalizing o w with
  | zero => rfl
  | succ n ih =>
      cases made : materialize env o w with
      | none => rw [setWithin, recipientWithin, Throws.lift_bind_eq, Throws.lift_bind_eq, made]; rfl
      | some p =>
          rw [setWithin_step made, recipientWithin_step made]
          cases p.2.heap.payload o with
          | proxy target handler =>
              cases target with
              | none => rfl
              | some target => exact ih target p.2
          | _ => rfl

/-! ### The decision -/

theorem assignAt_of_stores {p : Payload} (stores : p.stores key = true) :
    assignAt env o key v p = setStored env o key v := by
  cases p with
  | proxy | hostMap => cases stores
  | hostSlice s prototypes =>
      rw [Payload.stores, Option.isNone_iff_eq_none] at stores
      rw [assignAt, stores]
  | array es =>
      rw [Payload.stores, Bool.and_eq_true, Option.isNone_iff_eq_none, Bool.not_eq_true'] at stores
      rw [assignAt, stores.1]
      dsimp only
      rw [stores.2]
      rfl
  | _ => rfl

theorem decision_own {slot : Slot} (own : (w.heap.object o).properties.get? key = some slot) :
    decision env o key w = some (.own slot, w) := by
  rw [decision, Exec.bind_of_eq (Exec.asks_apply _ _), own]
  rfl

theorem decision_inherited (own : (w.heap.object o).properties.get? key = none) :
    decision env o key w = (prototypeOf env o w).bind fun p =>
      (inheritedWithin env key env.patience p.1 p.2).map fun r => (.inherited r.1, r.2) := by
  rw [decision, Exec.bind_of_eq (Exec.asks_apply _ _), own]
  dsimp only
  rw [Exec.bind_eq]
  refine Option.bind_congr fun p _ => ?_
  rw [Exec.bind_eq, Option.map_eq_bind]
  rfl

theorem decision_along {R : Guarantee σ} (h : env.Guarantees R) (o : ObjectId) (key : Text) :
    Exec.Along R (decision env o key) := by
  refine .bind (.asks _) fun own => ?_
  cases own with
  | some slot => exact .pure _
  | none => exact .bind (h.prototypeOf o) fun p => .bind (h.inheritedWithin key _ p) fun _ => .pure _

theorem decision_inv {d : Decision} (decided : decision env o key w = some (d, w')) :
    (∃ slot, (w.heap.object o).properties.get? key = some slot ∧ d = .own slot ∧ w' = w) ∨
      ∃ slot, d = .inherited slot := by
  cases own : (w.heap.object o).properties.get? key with
  | some slot =>
      rw [decision_own own] at decided
      cases decided
      exact .inl ⟨slot, rfl, rfl, rfl⟩
  | none =>
      rw [decision_inherited own] at decided
      obtain ⟨p, -, found⟩ := Option.bind_eq_some_iff.mp decided
      obtain ⟨r, -, hr⟩ := Option.map_eq_some_iff.mp found
      cases hr
      exact .inr ⟨r.1, rfl⟩

/-- The slot that decides is found first, and then acted upon. -/
theorem setStored_eq_decision (w : World σ) :
    setStored env o key v w = (decision env o key w).bind fun p => p.1.assign env o key v p.2 := by
  rw [setStored, Throws.bind_of_ok (Throws.asks_apply _ _)]
  cases own : (w.heap.object o).properties.get? key with
  | some slot =>
      rw [decision_own own]
      cases slot <;> rfl
  | none =>
      rw [decision_inherited own, Option.bind_assoc]
      dsimp only
      rw [Throws.lift_bind_eq]
      refine Option.bind_congr fun p _ => ?_
      rw [Throws.lift_bind_eq, Option.bind_map]
      rfl

/-! ### Without an own slot -/

/-- What is inherited has its setter called, or refuses, or lets the object get a property. -/
theorem assignInherited_cases (env : Embedding σ) (o : ObjectId) (key : Text) (v : Value)
    (slot : Option Slot) (w : World σ) :
    (∃ getter setter a, slot = some (.accessor getter setter a) ∧
      assignInherited env o key v slot w = callSetter env o setter v w) ∨
    assignInherited env o key v slot w = some (.ok false, w) ∨
    assignInherited env o key v slot w = addProperty o key v w := by
  cases slot with
  | none => exact .inr (.inr rfl)
  | some slot =>
      cases slot with
      | accessor getter setter a => exact .inl ⟨getter, setter, a, rfl, rfl⟩
      | data u a =>
          rw [assignInherited]
          split
          · exact .inr (.inr rfl)
          · exact .inr (.inl rfl)

/-- If there is no setter to be called, it refuses or lets the object get a property. -/
theorem assignInherited_quiet {slot : Option Slot}
    (quiet : (Decision.inherited slot).setter? = none) :
    assignInherited env o key v slot w = some (.ok false, w) ∨
      assignInherited env o key v slot w = addProperty o key v w := by
  rcases assignInherited_cases env o key v slot w with ⟨getter, setter, a, rfl, -⟩ | rest
  · cases (show setter = none from quiet)
    exact .inl rfl
  · exact rest

end ScriptCore
