import ScriptCore.Proofs.Object.Access

/-!
# ScriptCore.Proofs.Object.Initializers

**An initializer runs at most once**, whatever is accessed, also from inside of it.

Design points:

* Code of the embedding may itself access objects. It is therefore given the embedding that it runs
  in, and the knot is tied at every depth of nesting (`nested`). A run that ends nests only so deep.
* Each initializer that is started leaves its number in a journal. What is conserved is the number of
  starts of an initializer together with whether it may still be started: it is taken from its object
  before it runs, and what it makes is no lazy object.
* Of code nothing is assumed but that it keeps what the operations keep that it can perform
  (`Contained`).
-/

namespace ScriptCore

variable {σ : Type}

/-- An object with the payload waits for an initializer. -/
def Payload.awaits (number : Nat) : Payload → Bool
  | .lazy (some n) => n == number
  | _ => false

theorem Payload.awaits_iff {number : Nat} {p : Payload} :
    p.awaits number = true ↔ p = .lazy (some number) := by
  cases p with
  | lazy initializer =>
      cases initializer with
      | none => simp [awaits]
      | some n => simp [awaits]
  | _ => simp [awaits]

/-- No other object waits for the initializer of an object. -/
def Heap.Owns (h : Heap) (o : ObjectId) (number : Nat) : Prop :=
  ∀ p, (h.payload p).awaits number = true → p = o

/-- How often an initializer has been started, or may still be. -/
def starts (o : ObjectId) (number : Nat) (w : World (σ × List Nat)) : Nat :=
  w.own.2.count number + ((w.heap.payload o).awaits number).toNat

/-- The journal only grows, and while no other object waits for the initializer of an object, it gets
no more chances to be started. -/
def startsOnce (o : ObjectId) (number : Nat) : Guarantee (σ × List Nat) where
  holds w w' := w.own.2 <+: w'.own.2 ∧ (w.heap.Owns o number →
    w'.heap.Owns o number ∧ starts o number w' ≤ starts o number w)
  refl w := ⟨List.prefix_refl _, fun owns => ⟨owns, Nat.le_refl _⟩⟩
  trans first second := by
    refine ⟨first.1.trans second.1, fun owns => ?_⟩
    obtain ⟨owns₁, le₁⟩ := first.2 owns
    obtain ⟨owns₂, le₂⟩ := second.2 owns₁
    exact ⟨owns₂, Nat.le_trans le₂ le₁⟩

/-! ### Nesting -/

/-- The embedding with a journal of the initializers that are started. -/
def Embedding.recorded (env : Embedding (σ × List Nat)) : Embedding (σ × List Nat) :=
  { env with makeLazy := fun number => do
      modify fun w => { w with own := (w.own.1, w.own.2 ++ [number]) }
      env.makeLazy number }

/-- Code whose own accesses to objects may run code again, up to a depth. Beyond it, code has no
end. -/
def nested (code : Embedding (σ × List Nat) → Embedding (σ × List Nat)) :
    Nat → Embedding (σ × List Nat)
  | 0 => default
  | n + 1 => (code (nested code n)).recorded

/-- Code that keeps a guarantee if all that it can perform keeps it, and whose initializers make no
lazy objects. -/
structure Contained (code : Embedding (σ × List Nat) → Embedding (σ × List Nat))
    (R : Guarantee (σ × List Nat)) : Prop where
  natives : ∀ {env}, env.WriteGuarantees R → ∀ number this args,
    Exec.Along R ((code env).callNative number this args).run
  hosts : ∀ {env}, env.WriteGuarantees R → ∀ number args,
    Exec.Along R ((code env).callHost number args).run
  makes : ∀ {env}, env.WriteGuarantees R → ∀ number, Exec.Along R ((code env).makeLazy number)
  made : ∀ env number w made w', (code env).makeLazy number w = some (made, w') →
    made.isInitialized = true

/-- Objects are accessed, one after the other, and in between anything may happen that starts no
initializer and hands none over. -/
inductive Accessed (env : Embedding (σ × List Nat)) (number : Nat) (start : World (σ × List Nat)) :
    World (σ × List Nat) → Prop where
  | start : Accessed env number start start
  | access {w w' : World (σ × List Nat)} {p : ObjectId} {a : Access} {r : a.Result}
      (before : Accessed env number start w) (run : a.run env p w = some (r, w')) :
      Accessed env number start w'
  | between {w w' : World (σ × List Nat)} (before : Accessed env number start w)
      (journal : w'.own.2 = w.own.2)
      (waiting : ∀ p, (w'.heap.payload p).awaits number = true →
        (w.heap.payload p).awaits number = true) :
      Accessed env number start w'

/-! ### What each step keeps -/

section Steps

variable {o : ObjectId} {number : Nat} {w w' : World (σ × List Nat)}

theorem toNat_le_of_imp {a b : Bool} (imp : a = true → b = true) : a.toNat ≤ b.toNat := by
  cases a with
  | false => exact Nat.zero_le _
  | true => rw [imp rfl]

/-- Where no object comes to wait for the initializer, nothing changes. -/
theorem startsOnce_of_waiting (journal : w'.own.2 = w.own.2)
    (waiting : ∀ p, (w'.heap.payload p).awaits number = true →
      (w.heap.payload p).awaits number = true) : (startsOnce o number).holds w w' := by
  refine ⟨journal ▸ List.prefix_refl _, fun owns => ⟨fun p hp => owns p (waiting p hp), ?_⟩⟩
  rw [starts, starts, journal]
  exact Nat.add_le_add_left (toNat_le_of_imp (waiting o)) _

theorem awaits_updateObject {h : Heap} {q : ObjectId} {f : Object → Object}
    (same : ∀ obj : Object, (f obj).payload.awaits number = true → obj.payload.awaits number = true)
    (p : ObjectId) (waits : ((h.updateObject q f).payload p).awaits number = true) :
    (h.payload p).awaits number = true := by
  refine Heap.forall_updateObject (P := fun p obj => obj.payload.awaits number = true →
    (h.payload p).awaits number = true) (fun _ => id) (same _) p waits

theorem awaits_of_isInitialized {obj : Object} (made : obj.isInitialized = true) :
    obj.payload.awaits number = false := by
  rw [Object.isInitialized] at made
  rw [Bool.eq_false_iff]
  intro waits
  rw [Payload.awaits_iff.mp waits] at made
  cases made

theorem awaits_addObject {h : Heap} {obj : Object} (ready : obj.payload.awaits number = false)
    (p : ObjectId) (waits : ((h.addObject obj).2.payload p).awaits number = true) :
    (h.payload p).awaits number = true := by
  refine Heap.forall_addObject (P := fun p obj => obj.payload.awaits number = true →
    (h.payload p).awaits number = true) (fun _ => id) (fun waits => ?_) p waits
  rw [ready] at waits
  cases waits

theorem awaits_wrap {h : Heap} (prototypes : HostPrototypes) (v : HostValue) (p : ObjectId)
    (waits : ((h.wrap prototypes v).2.payload p).awaits number = true) :
    (h.payload p).awaits number = true := by
  cases v with
  | map m | slice s | function f | error message | foreign d => exact awaits_addObject rfl p waits
  | _ => exact waits

theorem startsOnce_of_link (w : World (σ × List Nat)) (q : ObjectId) (prototype : Option ObjectId) :
    (startsOnce o number).holds w { w with heap := w.heap.updateObject q fun obj =>
      { obj with prototype } } :=
  startsOnce_of_waiting rfl (awaits_updateObject fun _ waits => waits)

/-- The initializer of an object is taken from it and entered into the journal. -/
theorem startsOnce_of_start {q : ObjectId} {n : Nat} (waiting : w.heap.payload q = .lazy (some n)) :
    (startsOnce o number).holds w
      { w.making q with own := (w.own.1, w.own.2 ++ [n]) } := by
  have live : q.index < w.heap.objects.size := Heap.lt_size_of_lazy waiting
  have taken : ((w.making q).heap.payload q).awaits number = false := by
    rw [Heap.payload, World.making, Heap.updatePayload, Heap.object_updateObject_self live]
    rfl
  have fewer (p : ObjectId) (waits : ((w.making q).heap.payload p).awaits number = true) :
      (w.heap.payload p).awaits number = true := by
    refine awaits_updateObject (fun obj waits => ?_) p waits
    cases waits
  refine ⟨⟨[n], rfl⟩, fun owns => ⟨fun p waits => owns p (fewer p waits), ?_⟩⟩
  rw [starts, starts]
  dsimp only
  rw [List.count_append, List.count_singleton]
  by_cases same : n = number
  · subst same
    cases owns q (Payload.awaits_iff.mpr waiting)
    rw [taken, Payload.awaits_iff.mpr waiting, beq_self_eq_true]
    rfl
  · rw [if_neg (by simpa using same)]
    exact Nat.add_le_add_left (toNat_le_of_imp (fewer o)) _

end Steps

/-! ### What code keeps -/

section Code

variable {code : Embedding (σ × List Nat) → Embedding (σ × List Nat)}
  {env : Embedding (σ × List Nat)} {R : Guarantee (σ × List Nat)} {o : ObjectId} {number : Nat}

/-- Making an object starts its initializer, lets it run, and puts what it made in place. -/
theorem along_materialize (makes : ∀ n, Exec.Along (startsOnce o number) (env.makeLazy n))
    (made : ∀ n w obj w', env.makeLazy n w = some (obj, w') → obj.isInitialized = true)
    (q : ObjectId) : Exec.Along (startsOnce o number) (materialize env.recorded q) := by
  intro w r w' run
  rcases materialize_inv run with ⟨rfl, -⟩ | ⟨n, obj, w₁, waiting, hmade, rfl⟩
  · exact Guarantee.refl _ _
  · have running : env.makeLazy n { w.making q with own := (w.own.1, w.own.2 ++ [n]) } =
        some (obj, w₁) := hmade
    refine Guarantee.trans _ (startsOnce_of_start waiting) ?_
    refine Guarantee.trans _ (makes n running) (startsOnce_of_waiting rfl ?_)
    refine awaits_updateObject fun _ waits => ?_
    rw [awaits_of_isInitialized (made n _ obj w₁ running)] at waits
    cases waits

theorem writeGuarantees_of_makes (makes : ∀ q, Exec.Along (startsOnce o number) (materialize env q))
    (natives : ∀ n this args, Exec.Along (startsOnce o number) (env.callNative n this args).run)
    (hosts : ∀ n args, Exec.Along (startsOnce o number) (env.callHost n args).run) :
    env.WriteGuarantees (startsOnce o number) where
  makes := makes
  natives := natives
  hosts := hosts
  wraps _ hw v := Guarantee.trans _ hw (startsOnce_of_waiting rfl (awaits_wrap _ v))
  properties w p f := startsOnce_of_waiting rfl (awaits_updateObject fun _ waits => waits)
  elements w p f := by
    refine startsOnce_of_waiting rfl (awaits_updateObject fun obj waits => ?_)
    obtain ⟨prototype, properties, extensible, payload⟩ := obj
    cases payload with
    | array es => cases waits
    | _ => exact waits
  hostMaps w m f := startsOnce_of_waiting rfl fun _ waits => waits
  hostSlices w s f := startsOnce_of_waiting rfl fun _ waits => waits

/-- At every depth, code and operations get the initializer no more chances to be started. -/
theorem nested_writeGuarantees (contained : Contained code (startsOnce o number)) (n : Nat) :
    (nested code n).WriteGuarantees (startsOnce o number) := by
  induction n with
  | zero =>
      refine writeGuarantees_of_makes ?_ (fun _ _ _ => .endless) (fun _ _ => .endless)
      intro q w r w' run
      rcases materialize_inv run with ⟨rfl, -⟩ | ⟨n, obj, w₁, -, hmade, -⟩
      · exact Guarantee.refl _ _
      · cases hmade
  | succ n ih =>
      exact writeGuarantees_of_makes (along_materialize (contained.makes ih) (contained.made _))
        (contained.natives ih) (contained.hosts ih)

/-- An access gets the initializer no more chances to be started. -/
theorem startsOnce_access (h : env.WriteGuarantees (startsOnce o number)) (p : ObjectId) (a : Access) :
    Exec.Along (startsOnce o number) (a.run env p) :=
  Access.along h.editGuarantees p a fun prototype _ =>
    along_setPrototype h.toGuarantees startsOnce_of_link p prototype

/-- So does any run of accesses. -/
theorem Accessed.startsOnce {w w' : World (σ × List Nat)}
    (h : env.WriteGuarantees (startsOnce o number)) (run : Accessed env number w w') :
    (ScriptCore.startsOnce o number).holds w w' := by
  induction run with
  | start => exact Guarantee.refl _ _
  | access before run ih =>
      exact Guarantee.trans _ ih (startsOnce_access h _ _ run)
  | between before journal waiting ih =>
      exact Guarantee.trans _ ih (startsOnce_of_waiting journal waiting)

end Code

/-! ### Lazy objects -/

/-- Making a lazy object is transparent. Any access gives the same, and leaves the same world, if the
object is made before it, whatever its initializer does, as long as that makes no lazy object and, for
a look-up, no proxy. What is made takes the place of the object, under the same identity. Whatever is
accessed afterwards, also by the initializer itself and by all code that runs meanwhile, the
initializer is started at most once. -/
theorem lazy_access_transparent :
    (∀ (env : Embedding σ) (w : World σ) (o : ObjectId) (a : Access), env.Makes w o a.Suits →
      a.run env o w = (materialize env o >>= fun _ => a.run env o) w) ∧
    (∀ (env : Embedding σ) (w w₁ : World σ) (o : ObjectId) (number : Nat) (made : Object),
      w.heap.payload o = .lazy (some number) →
      env.makeLazy number (w.making o) = some (made, w₁) → o.index < w₁.heap.objects.size →
      ∃ w', materialize env o w = some ((), w') ∧ w'.heap.object o = made ∧
        (∀ p, p ≠ o → w'.heap.object p = w₁.heap.object p) ∧
        w'.heap.objects.size = w₁.heap.objects.size) ∧
    ∀ (code : Embedding (σ × List Nat) → Embedding (σ × List Nat)) (o : ObjectId) (number : Nat),
      Contained code (startsOnce o number) → ∀ (depth : Nat) (w w' : World (σ × List Nat)),
        w.heap.payload o = .lazy (some number) → w.heap.Owns o number →
        Accessed (nested code depth) number w w' →
          w.own.2 <+: w'.own.2 ∧ w'.own.2.count number ≤ w.own.2.count number + 1 := by
  refine ⟨?_, ?_, ?_⟩
  · intro env w o a makes
    exact a.madeFirst makes
  · intro env w w₁ o number made waiting hmade live
    exact materialize_in_place waiting hmade live
  · intro code o number contained depth w w' waiting owns run
    obtain ⟨grows, fewer⟩ := run.startsOnce (nested_writeGuarantees contained depth)
    refine ⟨grows, ?_⟩
    have le := (fewer owns).2
    rw [starts, starts, Payload.awaits_iff.mpr waiting] at le
    exact Nat.le_trans (Nat.le_add_right _ _) le

/-! ### Code that performs accesses -/

/-- Performs accesses, one after the other. -/
def performAll (env : Embedding σ) : List (ObjectId × Access) → Exec σ Unit
  | [] => pure ()
  | (o, a) :: rest => a.run env o >>= fun _ => performAll env rest

/-- Code whose initializers perform accesses and then make an object. -/
def performing (patience : Nat) (plan : Nat → List (ObjectId × Access) × Object)
    (env : Embedding (σ × List Nat)) : Embedding (σ × List Nat) :=
  { (default : Embedding (σ × List Nat)) with
    patience
    makeLazy := fun number => performAll env (plan number).1 >>= fun _ => pure (plan number).2 }

theorem along_performAll {env : Embedding (σ × List Nat)} {o : ObjectId} {number : Nat}
    (h : env.WriteGuarantees (startsOnce o number)) (accesses : List (ObjectId × Access)) :
    Exec.Along (startsOnce o number) (performAll env accesses) := by
  induction accesses with
  | nil => exact .pure _
  | cons access rest ih => exact .bind (startsOnce_access h _ _) fun _ => ih

theorem contained_performing (patience : Nat) {plan : Nat → List (ObjectId × Access) × Object}
    (made : ∀ n, (plan n).2.isInitialized = true) (o : ObjectId) (number : Nat) :
    Contained (performing (σ := σ) patience plan) (startsOnce o number) where
  natives _ _ _ _ := .endless
  hosts _ _ _ := .endless
  makes h n := .bind (along_performAll h _) fun _ => .pure _
  made env n w obj w' run := by
    obtain ⟨_, _, -, hpure⟩ := Exec.bind_inv run
    cases hpure
    exact made n

/-- An initializer that lists the names of its own object, and makes a plain object. -/
def listing : Embedding (Unit × List Nat) → Embedding (Unit × List Nat) :=
  performing 4 fun _ => ([(⟨0⟩, .names)], .new .plain none)

/-- A world with one object. -/
def oneObject (obj : Object) (journal : List Nat) : World (Unit × List Nat) :=
  ⟨{ Heap.empty with objects := #[obj] }, .start, #[], ((), journal)⟩

theorem lazy_access_transparent_on_reentry :
    let env := nested listing 2
    let w := oneObject (.new (.lazy (some 7)) none) []
    let w' := oneObject (.new .plain none) [7]
    Access.names.run env ⟨0⟩ w = (materialize env ⟨0⟩ >>= fun _ => Access.names.run env ⟨0⟩) w ∧
      (∃ made, materialize env ⟨0⟩ w = some ((), made) ∧ made.heap.object ⟨0⟩ = .new .plain none) ∧
      Access.names.run env ⟨0⟩ w = some ([], w') ∧ w'.own.2.count 7 ≤ 1 := by
  intro env w w'
  obtain ⟨transparent, inPlace, -⟩ := lazy_access_transparent (σ := Unit × List Nat)
  obtain ⟨-, -, once⟩ := lazy_access_transparent (σ := Unit)
  have first : Access.names.run env ⟨0⟩ w = some ([], w') := rfl
  have again : Access.names.run env ⟨0⟩ w' = some ([], w') := rfl
  have running : env.makeLazy 7 (w.making ⟨0⟩) =
      some (.new .plain none, oneObject (.new (.lazy none) none) [7]) := rfl
  have owns : w.heap.Owns ⟨0⟩ 7 := by
    intro p waits
    rcases Nat.eq_zero_or_pos p.index with this | other
    · exact congrArg ObjectId.mk this
    · have beyond : w.heap.objects.size ≤ p.index := other
      rw [Heap.payload, Heap.object_of_le beyond] at waits
      cases waits
  refine ⟨?_, ?_, first, ?_⟩
  · refine transparent env w ⟨0⟩ .names fun number made w₁ waiting hmade => ?_
    cases waiting
    cases running.symm.trans hmade
    refine ⟨rfl, fun looksUp => ?_⟩
    cases looksUp
  · obtain ⟨made, run, inPlace, -⟩ := inPlace env w _ ⟨0⟩ 7 _ rfl running (by decide)
    exact ⟨made, run, inPlace⟩
  · have contained : Contained listing (startsOnce ⟨0⟩ 7) :=
      contained_performing 4 (fun _ => rfl) ⟨0⟩ 7
    exact (once listing ⟨0⟩ 7 contained 2 w w' rfl owns (.access (.access .start first) again)).2

end ScriptCore
