import ScriptCore.Proofs.Object.Ordinary

/-!
# ScriptCore.Proofs.Object.Search

The **search** that reading a property and asking for one have in common.

Both follow proxies and prototypes alike and differ only in what they make of the end. The search
calls no getter, so its result does not depend on the embedding's patience.
-/

namespace ScriptCore

variable {σ : Type}

/-- How a search ends. -/
inductive Outcome where
  /-- At a slot, or at the end of the prototypes without one. -/
  | found (r : Option Slot)
  /-- At a revoked proxy. -/
  | revoked

/-- What has been found counts as present. -/
def Outcome.isPresent : Outcome → Bool
  | .found r => r.isSome
  | .revoked => false

/-- What a read makes of the outcome. -/
def Outcome.read (env : Embedding σ) (receiver : ObjectId) : Outcome → Throws σ Value
  | .found r => readSlot env receiver r
  | .revoked => throw .revokedProxy

/-- The search for a property within a number of links. -/
def searchWithin (env : Embedding σ) (key : Text) : Nat → ObjectId → Exec σ Outcome
  | 0, _ => Exec.endless
  | n + 1, o => do
    match ← Exec.asks (·.payload o) with
    | .proxy (some target) _ => searchWithin env key n target
    | .proxy none _ => return .revoked
    | _ => match ← ownProperty env o key with
      | some slot => return .found (some slot)
      | none => match ← prototypeOf env o with
        | some p => searchWithin env key n p
        | none => return .found none

/-- The embedding with another patience. -/
def Embedding.withPatience (env : Embedding σ) (n : Nat) : Embedding σ := { env with patience := n }

variable {env : Embedding σ} {w : World σ} {key : Text} {o : ObjectId}

section Steps

variable {target : ObjectId} {handler : Option ObjectId}

theorem searchWithin_proxy (hp : w.heap.payload o = .proxy (some target) handler) (n : Nat) :
    searchWithin env key (n + 1) o w = searchWithin env key n target w := by
  rw [searchWithin, Exec.bind_of_eq (Exec.asks_apply _ _), hp]

theorem searchWithin_revoked (hp : w.heap.payload o = .proxy none handler) (n : Nat) :
    searchWithin env key (n + 1) o w = some (.revoked, w) := by
  rw [searchWithin, Exec.bind_of_eq (Exec.asks_apply _ _), hp]
  rfl

/-- At an object that is no proxy, the search ends with its own slot or goes on with its
prototype. -/
theorem searchWithin_step (hp : ∀ target handler, w.heap.payload o ≠ .proxy target handler)
    (n : Nat) :
    searchWithin env key (n + 1) o w = (ownProperty env o key w).bind fun p =>
      match p.1 with
      | some slot => some (.found (some slot), p.2)
      | none => (prototypeOf env o p.2).bind fun q =>
        match q.1 with
        | some p => searchWithin env key n p q.2
        | none => some (.found none, q.2) := by
  rw [searchWithin, Exec.bind_of_eq (Exec.asks_apply _ _)]
  cases hpayload : w.heap.payload o with
  | proxy target handler => exact absurd hpayload (hp target handler)
  | _ =>
      dsimp only
      rw [Exec.bind_eq]
      refine Option.bind_congr fun p _ => ?_
      match p.1 with
      | some _ => rfl
      | none =>
          dsimp only
          rw [Exec.bind_eq]
          refine Option.bind_congr fun q _ => ?_
          match q.1 with
          | some _ => rfl
          | none => rfl

end Steps

theorem searchWithin_withPatience (m n : Nat) (o : ObjectId) :
    searchWithin (env.withPatience m) key n o = searchWithin env key n o := by
  induction n generalizing o with
  | zero => rfl
  | succ n ih =>
      simp only [searchWithin, ih]
      rfl

/-- Asking for a property is searching for it. -/
theorem hasWithin_eq_search (n : Nat) (o : ObjectId) (w : World σ) :
    hasWithin env key n o w =
      (searchWithin env key n o w).map fun p => (p.1.isPresent, p.2) := by
  induction n generalizing o w with
  | zero => rfl
  | succ n ih =>
      rw [hasWithin, Exec.bind_of_eq (Exec.asks_apply _ _)]
      cases hp : w.heap.payload o with
      | proxy target handler =>
          cases target with
          | none =>
              rw [searchWithin_revoked hp]
              rfl
          | some target =>
              rw [searchWithin_proxy hp]
              exact ih target w
      | _ =>
          rw [searchWithin_step (by simp [hp]), Option.map_bind]
          dsimp only
          rw [Exec.bind_eq]
          refine Option.bind_congr fun p _ => ?_
          obtain ⟨slot, w₁⟩ := p
          cases slot with
          | some slot => rfl
          | none =>
              dsimp only [Function.comp]
              rw [if_neg (by simp), Exec.bind_eq, Option.map_bind]
              refine Option.bind_congr fun q _ => ?_
              obtain ⟨next, w₂⟩ := q
              cases next with
              | some p => exact ih p w₂
              | none => rfl

/-- Reading a property is searching for it and reading what is found. -/
theorem getWithin_eq_search (receiver : ObjectId) (n : Nat) (o : ObjectId) (w : World σ) :
    getWithin env receiver key n o w =
      (searchWithin env key n o w).bind fun p => p.1.read env receiver p.2 := by
  induction n generalizing o w with
  | zero => rfl
  | succ n ih =>
      cases hp : w.heap.payload o with
      | proxy target handler =>
          rw [getWithin, Throws.bind_of_ok (Throws.asks_apply _ _), hp]
          cases target with
          | none =>
              rw [searchWithin_revoked hp]
              rfl
          | some target =>
              rw [searchWithin_proxy hp]
              exact ih target w
      | _ =>
          rw [getWithin_step (by simp [hp]), searchWithin_step (by simp [hp]), Option.bind_assoc]
          refine Option.bind_congr fun p _ => ?_
          obtain ⟨own, w₁⟩ := p
          cases own with
          | some slot => rfl
          | none =>
              dsimp only
              rw [Option.bind_assoc]
              refine Option.bind_congr fun q _ => ?_
              obtain ⟨next, w₂⟩ := q
              cases next with
              | some p => exact ih p w₂
              | none => rfl

end ScriptCore
