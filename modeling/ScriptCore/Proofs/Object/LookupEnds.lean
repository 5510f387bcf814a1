import ScriptCore.Proofs.Object.Operations
import ScriptCore.Proofs.Object.Search

/-!
# ScriptCore.Proofs.Object.LookupEnds

**Look-ups end**, in every world that operations have led to.

Design points:

* A walk makes lazy objects on its way, and that may change any link. So the induction is on two
  things (`walk_induction`): first on the initializers that can still run, then, while none does, on
  the links of one heap.
* A walk that ends does so for every patience from some number of steps on. Getters and setters run
  after the walk, under the same patience, and are left as they are.
* The check for cycles follows stored prototypes only. Where a lazy object or a proxy hides the rest
  of a chain, it accepts a prototype with which a look-up has no end.
-/

namespace ScriptCore

variable {σ : Type} {env : Embedding σ} {w w' : World σ} {o : ObjectId} {key : Text}

/-- A walk may go on from an object to another: along a link while the world stays as it is, and to
any object once initializers have run. -/
inductive GoesOn (env : Embedding σ) (w : World σ) (o : ObjectId) : World σ → ObjectId → Prop where
  | link {p} (link : w.heap.Links o p) : GoesOn env w o w p
  | made {w' p} (makes : Relation.TransGen env.Initializes w w') : GoesOn env w o w' p

/-- What holds of an object if it holds of all that a walk may go on to holds of every object. -/
theorem walk_induction (orderly : env.Orderly) {P : World σ → ObjectId → Prop}
    (step : ∀ w o, w.heap.Ordered →
      (∀ w' p, w'.heap.Ordered → GoesOn env w o w' p → P w' p) → P w o)
    (ho : w.heap.Ordered) (o : ObjectId) : P w o := by
  have acc := (orderly.runsOut w ho).transGen
  induction acc generalizing o with
  | intro w _ later =>
      refine ho.ends.induction (C := P w) o fun o links => step w o ho ?_
      rintro w' p ho' (link | makes)
      · exact links p link
      · exact later w' (Relation.transGen_swap.mpr makes) ho' p

/-! ### One step -/

theorem computed?_of_none {h : Heap} (own : (h.computed? o key).1 = none) :
    (h.computed? o key).2 = h := by
  unfold Heap.computed? at own ⊢
  split
  · split <;> rfl
  · split
    · split
      · simp_all
      · rfl
    · rfl
  · split
    · simp_all
    · rfl
  · rfl
  · split <;> rfl
  · rfl

theorem ownSlot?_of_not_computed {h : Heap} (own : (h.computed? o key).1 = none) :
    h.ownSlot? o key = ((h.object o).properties.get? key, h) := by
  have same := computed?_of_none own
  rw [Heap.ownSlot?]
  cases hc : h.computed? o key with
  | mk slot h' =>
      rw [hc] at own same
      cases own
      cases same
      rfl

/-- Without an own property, nothing has been wrapped. -/
theorem ownSlot?_of_none {h : Heap} (own : (h.ownSlot? o key).1 = none) :
    (h.ownSlot? o key).2 = h := by
  cases hc : (h.computed? o key).1 with
  | none => rw [ownSlot?_of_not_computed hc]
  | some v =>
      unfold Heap.ownSlot? at own
      split at own
      · cases own
      · rename_i hc'
        rw [hc'] at hc
        cases hc

theorem goesOn_of_made {w₁ w₂ : World σ} {p : ObjectId} (h₁ : w₁ = w ∨ env.Initializes w w₁)
    (h₂ : w₂ = w₁ ∨ env.Initializes w₁ w₂) (link : w₂.heap.Links o p) : GoesOn env w o w₂ p := by
  rcases h₁ with rfl | makes₁
  · rcases h₂ with rfl | makes₂
    · exact .link link
    · exact .made (.single makes₂)
  · rcases h₂ with rfl | makes₂
    · exact .made (.single makes₁)
    · exact .made (.tail (.single makes₁) makes₂)

/-- The prototype of an object is found, and linked to in the world that is left. -/
theorem prototypeOf_ends (orderly : env.Orderly) (ho : w.heap.Ordered) (o : ObjectId) :
    ∃ p w', prototypeOf env o w = some (p, w') ∧ w'.heap.Ordered ∧
      (w' = w ∨ env.Initializes w w') ∧ ∀ q, p = some q → w'.heap.Links o q := by
  obtain ⟨w', run, ho', -, h⟩ := materialize_ends orderly ho o
  refine ⟨_, w', ?_, ho', h, fun q hq => .prototype hq⟩
  rw [prototypeOf, Exec.bind_of_eq run, Exec.asks_apply]

/-- At an object that is no proxy, a walk has found a slot or goes on to the prototype. -/
theorem ownProperty_ends (orderly : env.Orderly) (ho : w.heap.Ordered) (o : ObjectId) (key : Text) :
    ∃ slot w₁, ownProperty env o key w = some (slot, w₁) ∧ w₁.heap.Ordered ∧ (slot = none →
      ∃ p w₂, prototypeOf env o w₁ = some (p, w₂) ∧ w₂.heap.Ordered ∧
        ∀ q, p = some q → GoesOn env w o w₂ q) := by
  obtain ⟨w₁, run₁, ho₁, -, h₁⟩ := materialize_ends orderly ho o
  have own : ownProperty env o key w = some ((w₁.heap.ownSlot? o key).1,
      { w₁ with heap := (w₁.heap.ownSlot? o key).2 }) := by
    rw [ownProperty, Exec.bind_of_eq run₁, Exec.onHeap_apply]
  refine ⟨_, _, own, (orderly.guarantees.ownSlot w₁ o key ho₁).1, fun hnone => ?_⟩
  obtain ⟨p, w₂, run₂, ho₂, h₂, links⟩ := prototypeOf_ends orderly ho₁ o
  rw [ownSlot?_of_none hnone]
  exact ⟨p, w₂, run₂, ho₂, fun q hq => goesOn_of_made h₁ h₂ (links q hq)⟩

/-- What holds of all larger numbers one step later holds of all larger numbers. -/
theorem eventually_of_succ {p : Nat → Prop} (h : ∃ N, ∀ n ≥ N, p (n + 1)) :
    ∃ N, ∀ n ≥ N, p n := by
  obtain ⟨N, hN⟩ := h
  refine ⟨N + 1, fun n hn => ?_⟩
  obtain ⟨m, rfl⟩ := Nat.exists_eq_add_of_le' (Nat.le_trans (Nat.le_add_left 1 N) hn)
  exact hN m (by omega)

/-! ### Whole walks -/

theorem search_ends (orderly : env.Orderly) (ho : w.heap.Ordered) (o : ObjectId) (key : Text) :
    ∃ r w', ∃ N, ∀ n ≥ N, searchWithin env key n o w = some (r, w') := by
  refine walk_induction orderly
    (P := fun w o => ∃ r w', ∃ N, ∀ n ≥ N, searchWithin env key n o w = some (r, w')) ?_ ho o
  intro w o ho next
  by_cases hp : ∃ target handler, w.heap.payload o = .proxy target handler
  · obtain ⟨target, handler, hp⟩ := hp
    cases target with
    | none => exact ⟨_, _, eventually_of_succ ⟨0, fun n _ => searchWithin_revoked hp n⟩⟩
    | some target =>
        obtain ⟨r, w', N, hN⟩ := next w target ho (.link (.target hp))
        refine ⟨r, w', eventually_of_succ ⟨N, fun n hn => ?_⟩⟩
        rw [searchWithin_proxy hp]
        exact hN n hn
  · have step : ∀ n, searchWithin env key (n + 1) o w = _ :=
      searchWithin_step fun target handler hproxy => hp ⟨target, handler, hproxy⟩
    obtain ⟨slot, w₁, own, -, rest⟩ := ownProperty_ends orderly ho o key
    simp only [own, Option.bind_some] at step
    cases slot with
    | some slot => exact ⟨_, w₁, eventually_of_succ ⟨0, fun n _ => step n⟩⟩
    | none =>
        obtain ⟨p, w₂, run, ho₂, goesOn⟩ := rest rfl
        simp only [run, Option.bind_some] at step
        cases p with
        | none => exact ⟨_, w₂, eventually_of_succ ⟨0, fun n _ => step n⟩⟩
        | some p =>
            obtain ⟨r, w', N, hN⟩ := next w₂ p ho₂ (goesOn p rfl)
            exact ⟨r, w', eventually_of_succ ⟨N, fun n hn => (step n).trans (hN n hn)⟩⟩

theorem inheritedWithin_step (p : ObjectId) (n : Nat) :
    inheritedWithin env key (n + 1) (some p) w = (ownProperty env p key w).bind fun s =>
      match s.1 with
      | some slot => some (some slot, s.2)
      | none => (prototypeOf env p s.2).bind fun q => inheritedWithin env key n q.1 q.2 := by
  rw [inheritedWithin, Exec.bind_eq]
  refine Option.bind_congr fun s _ => ?_
  obtain ⟨own, w₁⟩ := s
  cases own with
  | some slot => rfl
  | none => rfl

theorem inheritedWithin_withPatience (m n : Nat) (p : Option ObjectId) :
    inheritedWithin (env.withPatience m) key n p = inheritedWithin env key n p := by
  induction n generalizing p with
  | zero => cases p <;> rfl
  | succ n ih =>
      cases p with
      | none => rfl
      | some p =>
          simp only [inheritedWithin, ih]
          rfl

theorem inherited_ends (orderly : env.Orderly) (ho : w.heap.Ordered) (p : Option ObjectId)
    (key : Text) : ∃ r w', ∃ N, ∀ n ≥ N, inheritedWithin env key n p w = some (r, w') := by
  cases p with
  | none => exact ⟨none, w, 0, fun n _ => inheritedWithin_none n w⟩
  | some o =>
      refine walk_induction orderly (P := fun w o => ∃ r w', ∃ N, ∀ n ≥ N,
        inheritedWithin env key n (some o) w = some (r, w')) ?_ ho o
      intro w o ho next
      have step : ∀ n, inheritedWithin env key (n + 1) (some o) w = _ := inheritedWithin_step o
      obtain ⟨slot, w₁, own, -, rest⟩ := ownProperty_ends orderly ho o key
      simp only [own, Option.bind_some] at step
      cases slot with
      | some slot => exact ⟨_, w₁, eventually_of_succ ⟨0, fun n _ => step n⟩⟩
      | none =>
          obtain ⟨p, w₂, run, ho₂, goesOn⟩ := rest rfl
          simp only [run, Option.bind_some] at step
          cases p with
          | none =>
              refine ⟨none, w₂, eventually_of_succ ⟨0, fun n _ => (step n).trans ?_⟩⟩
              exact inheritedWithin_none n w₂
          | some p =>
              obtain ⟨r, w', N, hN⟩ := next w₂ p ho₂ (goesOn p rfl)
              exact ⟨r, w', eventually_of_succ ⟨N, fun n hn => (step n).trans (hN n hn)⟩⟩

/-- What an assignment comes to at the end of the proxies: at an object that is none, or at a revoked
one. -/
def assignedAt (env : Embedding σ) (key : Text) (v : Value) (w : World σ) :
    Option ObjectId → Option (Except Thrown Bool × World σ)
  | some target => assignAt env target key v (w.heap.payload target) w
  | none => some (.error .revokedProxy, w)

theorem setWithin_step {v : Value} {w₁ : World σ} (run : materialize env o w = some ((), w₁))
    (n : Nat) : setWithin env key v (n + 1) o w =
      match w₁.heap.payload o with
      | .proxy (some target) _ => setWithin env key v n target w₁
      | .proxy none _ => assignedAt env key v w₁ none
      | _ => assignedAt env key v w₁ (some o) := by
  rw [setWithin, Throws.lift_bind_eq, run, Option.bind_some,
    Throws.bind_of_ok (Throws.asks_apply _ _), assignedAt]
  cases w₁.heap.payload o with
  | proxy target handler => cases target <;> rfl
  | _ => rfl

theorem set_ends (orderly : env.Orderly) (ho : w.heap.Ordered) (o : ObjectId) (key : Text)
    (v : Value) : ∃ last w', w'.heap.Ordered ∧
      (∀ target p handler, last = some target → w'.heap.payload target ≠ .proxy p handler) ∧
      ∃ N, ∀ n ≥ N, ∀ m, setWithin (env.withPatience m) key v n o w =
        assignedAt (env.withPatience m) key v w' last := by
  refine walk_induction orderly (P := fun w o => ∃ last w', w'.heap.Ordered ∧
    (∀ target p handler, last = some target → w'.heap.payload target ≠ .proxy p handler) ∧
    ∃ N, ∀ n ≥ N, ∀ m, setWithin (env.withPatience m) key v n o w =
      assignedAt (env.withPatience m) key v w' last) ?_ ho o
  intro w o ho next
  obtain ⟨w₁, run, ho₁, -, h₁⟩ := materialize_ends orderly ho o
  have step : ∀ n m, setWithin (env.withPatience m) key v (n + 1) o w = _ :=
    fun n m => setWithin_step (show materialize (env.withPatience m) o w = _ from run) n
  cases hp : w₁.heap.payload o with
  | proxy target handler =>
      rw [hp] at step
      cases target with
      | none => exact ⟨none, w₁, ho₁, by simp, eventually_of_succ ⟨0, fun n _ m => step n m⟩⟩
      | some target =>
          have goesOn : GoesOn env w o w₁ target :=
            goesOn_of_made h₁ (.inl rfl) (.target hp)
          obtain ⟨last, w', ho', hlast, N, hN⟩ := next w₁ target ho₁ goesOn
          exact ⟨last, w', ho', hlast,
            eventually_of_succ ⟨N, fun n hn m => (step n m).trans (hN n hn m)⟩⟩
  | _ =>
      rw [hp] at step
      refine ⟨some o, w₁, ho₁, ?_, eventually_of_succ ⟨0, fun n _ m => step n m⟩⟩
      rintro target p handler ⟨⟩
      rw [hp]
      simp

/-- Look-ups end. In every world that operations have led to, asking for a property, reading it and
assigning it walk along finitely many links, and the walks come to the same end for every patience
from some number of steps on. Reading and asking come to one end. An assignment walks along proxies
first, and then, for an object without an own slot, along what that inherits from, whatever was run
in between. -/
theorem lookup_ends (orderly : env.Orderly) (reached : Reached env w) (o : ObjectId) (key : Text) :
    (∃ (r : Outcome) (w' : World σ), ∃ N, ∀ n ≥ N,
      hasProperty (env.withPatience n) o key w = some (r.isPresent, w') ∧
      getProperty (env.withPatience n) o key w = r.read (env.withPatience n) o w') ∧
    (∀ v, ∃ last w', w'.heap.Ordered ∧
      (∀ target p handler, last = some target → w'.heap.payload target ≠ .proxy p handler) ∧
      ∃ N, ∀ n ≥ N, setProperty (env.withPatience n) o key v w =
        assignedAt (env.withPatience n) key v w' last) ∧
    ∀ (w₁ : World σ) (target : ObjectId), w₁.heap.Ordered → ∃ slot w', ∃ N, ∀ n ≥ N,
      (prototypeOf (env.withPatience n) target >>= inheritedWithin (env.withPatience n) key n) w₁ =
        some (slot, w') := by
  have ho := reached.ordered orderly
  refine ⟨?_, fun v => ?_, fun w₁ target ho₁ => ?_⟩
  · obtain ⟨r, w', N, hN⟩ := search_ends orderly ho o key
    refine ⟨r, w', N, fun n hn => ⟨?_, ?_⟩⟩
    · rw [hasProperty, hasWithin_eq_search, searchWithin_withPatience]
      exact congrArg _ (hN n hn)
    · rw [getProperty, getWithin_eq_search, searchWithin_withPatience]
      exact congrArg (Option.bind · _) (hN n hn)
  · obtain ⟨last, w', ho', hlast, N, hN⟩ := set_ends orderly ho o key v
    exact ⟨last, w', ho', hlast, N, fun n hn => hN n hn n⟩
  · obtain ⟨p, w₂, run, ho₂, -, -⟩ := prototypeOf_ends orderly ho₁ target
    obtain ⟨slot, w', N, hN⟩ := inherited_ends orderly ho₂ p key
    refine ⟨slot, w', N, fun n hn => ?_⟩
    rw [Exec.bind_of_eq (show prototypeOf (env.withPatience n) target w₁ = _ from run),
      inheritedWithin_withPatience]
    exact hN n hn

/-! ### A look-up through a proxy and a lazy object -/

/-- A world with some objects and nothing else. -/
def worldOf (objects : Array Object) : World Unit :=
  ⟨{ Heap.empty with objects }, .start, #[], ()⟩

/-- An embedding whose initializers all make an empty object. -/
def plainMaker : Embedding Unit :=
  { (default : Embedding Unit) with makeLazy := fun _ => pure (.new .plain none) }

theorem plainMaker_orderly : plainMaker.Orderly where
  natives number this args w r w' run := by cases run
  hosts number args w r w' run := by cases run
  makes {w o number} ho hp := by
    refine ⟨.new .plain none, w.making o, rfl, ?_, ?_, ?_, ?_⟩
    · refine ho.updateObject_of_fewer o (fun p link => ?_) fun p held => ?_
      · cases link with
        | prototype link => exact .prototype link
        | target link => cases link
      · exact absurd held (HostPrototypes.not_has_none p)
    · exact Nat.le_of_eq (Heap.size_updateObject _ _ _).symm
    · exact fun p hp => absurd hp (Object.not_mentions_default p)
    · exact fun p link => absurd (.inl link) (Object.not_mentions_default p)
  runsOut w _ := runsOut_of_quiet (fun _ => ⟨_, by simp [Object.new], rfl⟩) w

/-- A lazy object, an object that inherits from it, and a proxy of that. -/
def proxiedWorld : World Unit :=
  worldOf #[.new (.lazy (some 0)) none, .new .plain (some ⟨0⟩), .new (.proxy (some ⟨1⟩) none) none]

theorem proxiedWorld_reached : Reached plainMaker proxiedWorld := by
  have first : Reached plainMaker (worldOf #[]) := .start rfl
  have lazy := first.step (.create (.new (.lazy (some 0)) none) fun p hp => by
    rcases hp with (link | link) | held
    · cases link
    · cases link
    · exact absurd held (HostPrototypes.not_has_none p))
  have plain := lazy.step (.create (.new .plain none) fun p hp =>
    absurd hp (Object.not_mentions_default p))
  have linked : Reached plainMaker
      (worldOf #[.new (.lazy (some 0)) none, .new .plain (some ⟨0⟩)]) := by
    have run : setPrototype plainMaker ⟨1⟩ (some ⟨0⟩)
        (worldOf #[.new (.lazy (some 0)) none, .new .plain none]) =
      some (true, worldOf #[.new (.lazy (some 0)) none, .new .plain (some ⟨0⟩)]) := rfl
    refine plain.step (.setPrototype (fun p hp => ?_) (fun w₁ run => ?_) run)
    · cases hp
      decide
    · cases run
      rintro p ⟨⟩ r target handler chain hr
      cases chain with
      | refl => cases hr
      | step link => cases link
  refine linked.step (.create (.new (.proxy (some ⟨1⟩) none) none) fun p hp => ?_)
  rcases hp with (link | link) | held
  · cases link
  · cases link
    decide
  · exact absurd held (HostPrototypes.not_has_none p)

theorem lookup_ends_through_proxy : plainMaker.Orderly ∧ Reached plainMaker proxiedWorld ∧
    ∃ (r : Outcome) (w' : World Unit), ∃ N, ∀ n ≥ N,
      hasProperty (plainMaker.withPatience n) ⟨2⟩ (.ofString "k") proxiedWorld =
        some (r.isPresent, w') ∧
      getProperty (plainMaker.withPatience n) ⟨2⟩ (.ofString "k") proxiedWorld =
        r.read (plainMaker.withPatience n) ⟨2⟩ w' :=
  ⟨plainMaker_orderly, proxiedWorld_reached,
    (lookup_ends plainMaker_orderly proxiedWorld_reached ⟨2⟩ (.ofString "k")).1⟩

/-! ### A prototype that hides a cycle -/

/-- A read that goes on to one without end has none. -/
theorem getWithin_of_next {receiver p : ObjectId} {w₁ w₂ : World σ}
    (hp : ∀ target handler, w.heap.payload o ≠ .proxy target handler)
    (own : ownProperty env o key w = some (none, w₁))
    (link : prototypeOf env o w₁ = some (some p, w₂)) {n : Nat}
    (rest : ∀ m < n, getWithin env receiver key m p w₂ = none) :
    getWithin env receiver key n o w = none := by
  cases n with
  | zero => rfl
  | succ n =>
      rw [getWithin_step hp, own, Option.bind_some]
      dsimp only
      rw [link, Option.bind_some]
      exact rest n (Nat.lt_succ_self n)

/-- Among objects that lead only to each other and have no slot for a key, a read has no end. -/
theorem getWithin_of_loop {S : ObjectId → Prop} (receiver : ObjectId)
    (loop : ∀ o, S o → (∃ target handler, w.heap.payload o = .proxy (some target) handler ∧
        S target) ∨
      ((w.heap.payload o).isOrdinary = true ∧ (w.heap.object o).properties.get? key = none ∧
        ∃ p, (w.heap.object o).prototype = some p ∧ S p))
    (ho : S o) (n : Nat) : getWithin env receiver key n o w = none := by
  induction n using Nat.strongRecOn generalizing o with
  | ind n ih =>
      rcases loop o ho with ⟨target, handler, hp, htarget⟩ | ⟨hp, own, p, link, hlink⟩
      · cases n with
        | zero => rfl
        | succ n =>
            rw [getWithin, Throws.bind_of_ok (Throws.asks_apply _ _), hp]
            exact ih n (Nat.lt_succ_self n) htarget
      · exact getWithin_of_next (ne_proxy_of_isOrdinary hp) (own ▸ ownProperty_ordinary hp)
          (link ▸ prototypeOf_ordinary hp) fun m hm => ih m hm hlink

/-- An embedding whose initializers make an object that inherits from the first. -/
def linkMaker : Embedding Unit :=
  { (default : Embedding Unit) with makeLazy := fun _ => pure (.new .plain (some ⟨0⟩)) }

/-- A plain object comes to inherit from another though that leads back to it, and no look-up along
the chain has an end. -/
def CycleAccepted (between : Object) : Prop :=
  setPrototype linkMaker ⟨0⟩ (some ⟨1⟩) (worldOf #[.new .plain none, between]) =
      some (true, worldOf #[.new .plain (some ⟨1⟩), between]) ∧
    ∀ n key, getProperty (linkMaker.withPatience n) ⟨0⟩ key
      (worldOf #[.new .plain (some ⟨1⟩), between]) = none

/-- The check takes a lazy object for the end of a chain, though what it becomes leads back. -/
theorem lazy_cycle_accepted : CycleAccepted (.new (.lazy (some 0)) none) := by
  refine ⟨rfl, fun n key => ?_⟩
  let linked : World Unit := worldOf #[.new .plain (some ⟨1⟩), .new (.lazy (some 0)) none]
  let made : World Unit := worldOf #[.new .plain (some ⟨1⟩), .new .plain (some ⟨0⟩)]
  have bare : (linked.heap.object ⟨0⟩).properties.get? key = none := PropertyTable.get?_empty key
  have own : ∀ o, o = ⟨0⟩ ∨ o = ⟨1⟩ → (made.heap.object o).properties.get? key = none := by
    rintro o (rfl | rfl) <;> exact PropertyTable.get?_empty key
  have makes : materialize (linkMaker.withPatience n) ⟨1⟩ linked = some ((), made) := rfl
  have first : ownProperty (linkMaker.withPatience n) ⟨0⟩ key linked = some (none, linked) := by
    rw [ownProperty_ordinary rfl, bare]
  have second : ownProperty (linkMaker.withPatience n) ⟨1⟩ key linked = some (none, made) := by
    rw [ownProperty, Exec.bind_of_eq makes, Exec.onHeap_apply, ownSlot?_ordinary rfl,
      own ⟨1⟩ (.inr rfl)]
  refine getWithin_of_next (by rintro _ _ ⟨⟩) first (prototypeOf_ordinary rfl) fun _ _ => ?_
  refine getWithin_of_next (by rintro _ _ ⟨⟩) second (prototypeOf_ordinary rfl) fun m _ => ?_
  refine getWithin_of_loop (S := fun o => o = ⟨0⟩ ∨ o = ⟨1⟩) _ ?_ (.inl rfl) m
  rintro o (rfl | rfl)
  · exact .inr ⟨rfl, own ⟨0⟩ (.inl rfl), _, rfl, .inr rfl⟩
  · exact .inr ⟨rfl, own ⟨1⟩ (.inr rfl), _, rfl, .inl rfl⟩

/-- The check looks at the prototype of a proxy, and a read at its target. -/
theorem proxy_cycle_accepted : CycleAccepted (.new (.proxy (some ⟨0⟩) none) none) := by
  refine ⟨rfl, fun n key => ?_⟩
  refine getWithin_of_loop (S := fun o => o = ⟨0⟩ ∨ o = ⟨1⟩) _ ?_ (.inl rfl) n
  rintro o (rfl | rfl)
  · exact .inr ⟨rfl, PropertyTable.get?_empty key, _, rfl, .inr rfl⟩
  · exact .inl ⟨_, _, rfl, .inl rfl⟩

/-- A chain that leads back by way of a lazy object or of a proxy is accepted. -/
theorem setPrototype_accepts_cycles :
    CycleAccepted (.new (.lazy (some 0)) none) ∧
      CycleAccepted (.new (.proxy (some ⟨0⟩) none) none) :=
  ⟨lazy_cycle_accepted, proxy_cycle_accepted⟩

end ScriptCore
