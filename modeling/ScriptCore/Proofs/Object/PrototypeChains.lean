import ScriptCore.Proofs.Object.Course
import ScriptCore.Proofs.Object.LookupEnds

/-!
# ScriptCore.Proofs.Object.PrototypeChains

**Chains of stored prototypes** end, and the check for cycles is exact.

Design points:

* The check walks along stored prototypes. That it ends is due to the check itself: it lets no object
  get a prototype that has the object on its chain. `Heap.Rooted` is this invariant, and every
  operation keeps it.
* What an initializer makes takes the place of its object without a check. A cycle may come from it
  (`made_object_closes_cycle`). So the invariant says which initializers may be waiting (`tame`), and of
  those it is assumed that they make no cycle. None of them need be allowed.
* An object has so many prototypes above it (`Heap.Ancestors`). There is an object above it for every
  smaller number, so that a heap bounds the steps of the check.
-/

namespace ScriptCore

/-- The other object is the stored prototype. -/
def Object.Derives (obj : Object) (p : ObjectId) : Prop := obj.prototype = some p

/-- If the object waits for an initializer, then for one that is allowed. -/
def Object.Awaits (tame : Nat → Prop) (obj : Object) : Prop :=
  ∀ number, obj.payload = .lazy (some number) → tame number

namespace Heap

/-- The number of stored prototypes above an object. -/
inductive Ancestors (h : Heap) : Nat → ObjectId → Prop where
  | none {o} (last : (h.object o).prototype = .none) : Ancestors h 0 o
  | some {n o p} (link : (h.object o).prototype = .some p) (rest : Ancestors h n p) :
      Ancestors h (n + 1) o

/-- Chains of stored prototypes end, and objects wait for no other initializers than are allowed. -/
structure Rooted (tame : Nat → Prop) (h : Heap) : Prop where
  complete : h.Complete
  ends : h.WalksEnd Object.Derives
  awaits : ∀ o, (h.object o).Awaits tame

/-- An object may take a place: its chain does not lead there. -/
structure Admits (tame : Nat → Prop) (h : Heap) (o : ObjectId) (obj : Object) : Prop where
  live : ∀ p, obj.Mentions p → p.index < h.objects.size
  away : ∀ p, obj.prototype = some p → ¬h.Inherits p o
  awaits : obj.Awaits tame

end Heap

variable {σ : Type}

/-- Chains go on ending, and no object is lost. -/
def staysRooted (tame : Nat → Prop) : Guarantee σ where
  holds w w' := w.heap.Rooted tame →
    w'.heap.Rooted tame ∧ w.heap.objects.size ≤ w'.heap.objects.size
  refl _ rooted := ⟨rooted, Nat.le_refl _⟩
  trans first second rooted := by
    obtain ⟨rooted₁, size₁⟩ := first rooted
    obtain ⟨rooted₂, size₂⟩ := second rooted₁
    exact ⟨rooted₂, Nat.le_trans size₁ size₂⟩

/-- The code of the embedding makes no cycles, and neither do the results of initializers that are
allowed. -/
structure Embedding.Founded (env : Embedding σ) (tame : Nat → Prop) : Prop where
  natives : ∀ number this args,
    Exec.Along (staysRooted tame) (env.callNative number this args).run
  hosts : ∀ number args, Exec.Along (staysRooted tame) (env.callHost number args).run
  makes : ∀ number, tame number → Exec.Along (staysRooted tame) (env.makeLazy number)
  made : ∀ {w w' : World σ} {o number made}, tame number → w.heap.Rooted tame →
    w.heap.payload o = .lazy (some number) →
    env.makeLazy number (w.making o) = some (made, w') → w'.heap.Admits tame o made

variable {env : Embedding σ} {tame : Nat → Prop} {w w' w₀ : World σ} {o p q : ObjectId}

namespace Heap

variable {h : Heap} {m n fuel : Nat}

/-! ### The number of prototypes -/

theorem inherits_iff : h.Inherits p q ↔ h.LeadsAlong Object.Derives p q := by
  constructor
  · intro inherits
    induction inherits with
    | refl => exact .refl
    | step link _ ih => exact .head link ih
  · intro leads
    induction leads using Relation.ReflTransGen.head_induction_on with
    | refl => exact .refl q
    | head link _ ih => exact .step link ih

/-- Along a chain that ends, the prototypes can be counted. -/
theorem WalksEnd.ancestors (ends : h.WalksEnd Object.Derives) (o : ObjectId) :
    ∃ n, h.Ancestors n o := by
  refine ends.induction (C := fun o => ∃ n, h.Ancestors n o) o fun o ih => ?_
  cases link : (h.object o).prototype with
  | none => exact ⟨0, .none link⟩
  | some p =>
      obtain ⟨n, above⟩ := ih p link
      exact ⟨n + 1, .some link above⟩

namespace Ancestors

theorem unique (above : h.Ancestors m o) (other : h.Ancestors n o) : m = n := by
  induction above generalizing n with
  | none last =>
      cases other with
      | none => rfl
      | some link => cases last.symm.trans link
  | some link _ ih =>
      cases other with
      | none last => cases last.symm.trans link
      | some link' rest =>
          cases link.symm.trans link'
          rw [ih rest]

theorem exists_of_lt (above : h.Ancestors n o) (hm : m < n) :
    ∃ p, p.index < h.objects.size ∧ h.Ancestors (m + 1) p := by
  induction above with
  | none => omega
  | some link rest ih =>
      rename_i k o p
      rcases Nat.lt_succ_iff_lt_or_eq.mp hm with hlt | rfl
      · exact ih hlt
      · exact ⟨o, lt_size_of_prototype link, .some link rest⟩

theorem le_size (above : h.Ancestors n o) : n ≤ h.objects.size :=
  le_size_of_distances (fun _ hm => above.exists_of_lt hm) fun left right =>
    Nat.succ.inj (left.unique right)

/-- With enough steps the check answers, and tells whether the object is on the chain. -/
theorem chainHas?_eq (above : h.Ancestors n p) (enough : n < fuel) :
    ∃ found, h.chainHas? o fuel (Option.some p) = Option.some found ∧
      (found = true ↔ h.Inherits p o) := by
  -- on the prototypes above: the check takes one step for each, and one more for the end
  induction above generalizing fuel with
  | none last =>
      rename_i p
      obtain ⟨fuel, rfl⟩ := Nat.exists_eq_add_of_lt enough
      rw [chainHas?]
      split
      · rename_i same
        exact ⟨true, rfl, by simp [same, Inherits.refl]⟩
      · rename_i other
        rw [last, chainHas?]
        refine ⟨false, rfl, by simp, fun inherits => ?_⟩
        cases inherits with
        | refl => exact absurd rfl other
        | step link => cases last.symm.trans link
  | some link rest ih =>
      rename_i n p q
      obtain ⟨fuel, rfl⟩ := Nat.exists_eq_add_of_lt enough
      rw [chainHas?]
      split
      · rename_i same
        exact ⟨true, rfl, by simp [same, Inherits.refl]⟩
      · rename_i other
        obtain ⟨found, answer, exact⟩ := ih (show n < n + 1 + fuel by omega)
        refine ⟨found, by rw [link, answer], exact.trans ⟨.step link, fun inherits => ?_⟩⟩
        cases inherits with
        | refl => exact absurd rfl other
        | step link' rest' =>
            cases link.symm.trans link'
            exact rest'

end Ancestors

/-- The check of a prototype is exact. -/
theorem WalksEnd.chainHas?_eq (ends : h.WalksEnd Object.Derives) (o : ObjectId)
    (prototype : Option ObjectId) :
    ∃ found, h.chainHas? o (h.objects.size + 1) prototype = some found ∧
      (found = true ↔ ∃ p, prototype = some p ∧ h.Inherits p o) := by
  cases prototype with
  | none => exact ⟨false, rfl, by simp⟩
  | some p =>
      obtain ⟨n, above⟩ := ends.ancestors p
      obtain ⟨found, answer, exact⟩ := above.chainHas?_eq (o := o) (Nat.lt_succ_of_le above.le_size)
      exact ⟨found, answer, by simpa using exact⟩

/-! ### Changes -/

theorem rooted_empty : empty.Rooted tame where
  complete := complete_empty
  ends := walksEnd_empty (by rintro p ⟨⟩)
  awaits o := by
    rw [object_of_le (Nat.zero_le _)]
    rintro number ⟨⟩

theorem Rooted.updateObject {f : Object → Object} (rooted : h.Rooted tame)
    (admits : h.Admits tame o (f (h.object o))) : (h.updateObject o f).Rooted tame where
  complete := rooted.complete.updateObject admits.live
  ends := rooted.ends.updateObject fun p link => inherits_iff.not.mp (admits.away p link)
  awaits := forall_updateObject rooted.awaits admits.awaits

theorem Rooted.addObject {obj : Object} (rooted : h.Rooted tame)
    (live : ∀ p, obj.Mentions p → p.index < h.objects.size) (awaits : obj.Awaits tame) :
    (h.addObject obj).2.Rooted tame where
  complete := rooted.complete.addObject live
  ends := rooted.ends.addObject (fun o p link => rooted.complete o p (.inl (.prototype link)))
    fun p link => live p (.inl (.prototype link))
  awaits := forall_addObject rooted.awaits awaits

/-- An object with the same prototype and no more references may stay in its place. -/
theorem Rooted.admits {obj : Object} (rooted : h.Rooted tame)
    (prototype : obj.prototype = (h.object o).prototype)
    (target : ∀ p handler, obj.payload = .proxy (some p) handler →
      h.payload o = .proxy (some p) handler)
    (held : ∀ p, obj.payload.hostPrototypes.Has p → (h.payload o).hostPrototypes.Has p)
    (lazy : ∀ number, obj.payload = .lazy (some number) → h.payload o = .lazy (some number)) :
    h.Admits tame o obj where
  live p mentions := by
    refine rooted.complete o p ?_
    rcases mentions with (link | link) | found
    · exact .inl (.prototype (prototype ▸ link))
    · exact .inl (.target (target p _ link))
    · exact .inr (held p found)
  away p link := inherits_iff.not.mpr (rooted.ends.not_leads_back (prototype.symm.trans link))
  awaits number payload := rooted.awaits o number (lazy number payload)

/-- So may one with a prototype that the check accepts: it has seen the whole chain. -/
theorem Rooted.admits_relinked (rooted : h.Rooted tame) {prototype : Option ObjectId}
    (live : ∀ p, prototype = some p → p.index < h.objects.size)
    (accepted : h.chainHas? o fuel prototype = some false) :
    h.Admits tame o { h.object o with prototype } where
  live p mentions := by
    rcases mentions with (link | link) | held
    · exact live p link
    · exact rooted.complete o p (.inl (.target link))
    · exact rooted.complete o p (.inr held)
  away p link inherits := by
    cases link
    exact ne_of_chainHas?_eq_false accepted inherits rfl
  awaits := rooted.awaits o

end Heap

theorem staysRooted_updateObject {f : Object → Object}
    (admits : w.heap.Rooted tame → w.heap.Admits tame o (f (w.heap.object o))) :
    (staysRooted tame).holds w { w with heap := w.heap.updateObject o f } := fun rooted =>
  ⟨rooted.updateObject (admits rooted), Nat.le_of_eq (Heap.size_updateObject _ _ _).symm⟩

/-- A change of properties, or of what else is no reference. -/
theorem staysRooted_of_same {f : Object → Object}
    (prototype : (f (w.heap.object o)).prototype = (w.heap.object o).prototype)
    (payload : (f (w.heap.object o)).payload = w.heap.payload o) :
    (staysRooted tame).holds w { w with heap := w.heap.updateObject o f } := by
  refine staysRooted_updateObject fun rooted => rooted.admits prototype ?_ ?_ ?_
  · exact fun p handler link => payload.symm.trans link
  · exact fun p held => payload ▸ held
  · exact fun number lazy => payload.symm.trans lazy

theorem staysRooted_addObject {obj : Object}
    (live : ∀ p, obj.Mentions p → p.index < w.heap.objects.size) (awaits : obj.Awaits tame) :
    (staysRooted tame).holds w { w with heap := (w.heap.addObject obj).2 } := fun rooted =>
  ⟨rooted.addObject live awaits,
    Nat.le_trans (Nat.le_succ _) (Nat.le_of_eq (Heap.size_addObject _ _).symm)⟩

namespace Embedding.Founded

variable (founded : env.Founded tame)

include founded

theorem along_materialize (o : ObjectId) : Exec.Along (staysRooted tame) (materialize env o) := by
  intro w r w' run
  rcases materialize_inv run with ⟨rfl, -⟩ | ⟨number, made, w₁, waiting, hmade, rfl⟩
  · exact (staysRooted tame).refl _
  · intro rooted
    have allowed : tame number := rooted.awaits o number waiting
    have begun : (staysRooted tame).holds w (w.making o) :=
      staysRooted_updateObject fun rooted => rooted.admits rfl (by rintro _ _ ⟨⟩)
        (fun _ held => absurd held (HostPrototypes.not_has_none _)) (by rintro _ ⟨⟩)
    -- that the result does not lead back is all that keeps a cycle away: there is no check
    have ended :
        (staysRooted tame).holds w₁ { w₁ with heap := w₁.heap.updateObject o fun _ => made } :=
      staysRooted_updateObject fun _ => founded.made allowed rooted waiting hmade
    have along := (staysRooted tame).trans begun (founded.makes number allowed hmade)
    exact (staysRooted tame).trans along ended rooted

theorem guarantees : env.Guarantees (staysRooted tame) where
  makes := founded.along_materialize
  natives := founded.natives
  hosts := founded.hosts
  wraps {w₀ w prototypes} held hw v rooted₀ := by
    obtain ⟨rooted, size⟩ := hw rooted₀
    obtain ⟨o, holder⟩ := held
    rcases w.heap.wrap_new prototypes v with same | ⟨payload, prototype, added, made, mentions⟩
    · dsimp only
      rw [same]
      exact ⟨rooted, size⟩
    · rw [added, Heap.size_addObject]
      refine ⟨rooted.addObject (fun p hp => ?_) fun number lazy => absurd lazy (made _),
        Nat.le_succ_of_le size⟩
      exact Nat.lt_of_lt_of_le (rooted₀.complete o p (.inr (holder ▸ mentions p hp))) size

theorem operationGuarantees :
    env.OperationGuarantees (·.Awaits tame) (staysRooted tame) where
  toGuarantees := founded.guarantees
  creates w obj awaits live := staysRooted_addObject live awaits
  wrappers payload prototype made number lazy := absurd lazy (made _)
  puts _ _ _ _ := staysRooted_of_same rfl rfl
  values _ _ _ _ := staysRooted_of_same rfl rfl
  erases _ _ _ := staysRooted_of_same rfl rfl
  contents w o f shape := by
    refine staysRooted_updateObject fun rooted =>
      rooted.admits rfl (fun p handler proxy => ?_) (fun p held => ?_) fun number lazy => ?_
    · have same := shape (w.heap.payload o)
      rw [show f (w.heap.payload o) = _ from proxy] at same
      exact Payload.eq_of_shape_proxy same.symm
    · rw [← Payload.hostPrototypes_shape, ← shape, Payload.hostPrototypes_shape]
      exact held
    · have same := shape (w.heap.payload o)
      rw [show f (w.heap.payload o) = _ from lazy] at same
      exact Payload.eq_of_shape_lazy same.symm
  closes _ _ := staysRooted_of_same rfl rfl
  links {w w' o prototype b} live run rooted := by
    obtain ⟨w₁, made, result⟩ := setPrototype_inv run
    obtain ⟨rooted₁, size⟩ := founded.guarantees.makes o made rooted
    rcases result with rfl | ⟨accepted, rfl⟩
    · exact ⟨rooted₁, size⟩
    · have live₁ (p : ObjectId) (link : prototype = some p) : p.index < w₁.heap.objects.size :=
        Nat.lt_of_lt_of_le (live p link) size
      have linked : (staysRooted tame).holds w₁ (w₁.relinked o prototype) :=
        staysRooted_updateObject fun rooted => rooted.admits_relinked live₁ accepted
      exact (staysRooted tame).trans (fun _ => ⟨rooted₁, size⟩) linked rooted
  revokes w o := by
    refine staysRooted_updateObject fun rooted =>
      rooted.admits rfl (fun p handler proxy => ?_) (fun p held => ?_) fun number lazy => ?_
    · dsimp only at proxy
      split at proxy
      · cases proxy
      · exact proxy
    · dsimp only at held
      split at held
      · exact absurd held (HostPrototypes.not_has_none p)
      · exact held
    · dsimp only at lazy
      split at lazy
      · cases lazy
      · exact lazy
  elsewhere objects rooted := by
    have same := Heap.object_of_objects objects
    exact ⟨⟨rooted.complete.of_objects objects, rooted.ends.of_object same,
      fun o => same ▸ rooted.awaits o⟩, Nat.le_of_eq (congrArg _ objects).symm⟩

end Embedding.Founded

/-! ### Replacing prototypes -/

/-- After any course from an empty heap, the chain of stored prototypes of every object ends. So the
check of a new prototype does, and it is exact: the prototype is replaced if the object, which is made
first, may be extended and is not on the chain of the new one. Then nothing but the prototype changes,
and otherwise nothing at all. -/
theorem prototype_chains_end (founded : env.Founded tame) (start : w₀.heap = .empty)
    (course : Relation.ReflTransGen (Performs env (·.Awaits tame)) w₀ w) :
    (∀ o, ∃ n ≤ w.heap.objects.size, w.heap.Ancestors n o) ∧
      ∀ o w₁, materialize env o w = some ((), w₁) → ∀ prototype, ∃ b w',
        setPrototype env o prototype w = some (b, w') ∧
          (b = true ↔ (w₁.heap.object o).extensible = true ∧
            ∀ p, prototype = some p → ¬w₁.heap.Inherits p o) ∧
          w' = if b then w₁.relinked o prototype else w₁ := by
  have operations := founded.operationGuarantees
  have rooted : w.heap.Rooted tame :=
    (guarantee_of_performed operations course (start ▸ Heap.rooted_empty)).1
  refine ⟨fun o => ?_, fun o w₁ made prototype => ?_⟩
  · obtain ⟨n, above⟩ := rooted.ends.ancestors o
    exact ⟨n, above.le_size, above⟩
  · have rooted₁ := (operations.makes o made rooted).1
    obtain ⟨found, checked, exact⟩ := rooted₁.ends.chainHas?_eq o prototype
    have accepts : (!found) = true ↔ ∀ p, prototype = some p → ¬w₁.heap.Inherits p o := by
      rw [Bool.not_eq_true', Bool.eq_false_iff, ne_eq, exact]
      simp
    have run := setPrototype_of_made made prototype
    rw [checked] at run
    cases extensible : (w₁.heap.object o).extensible with
    | false =>
        rw [extensible, if_neg Bool.false_ne_true] at run
        exact ⟨false, w₁, run, by simp, rfl⟩
    | true =>
        rw [extensible, if_pos rfl] at run
        refine ⟨!found, _, run, accepts.trans (by simp), ?_⟩
        cases found <;> rfl

theorem linkMaker_founded : linkMaker.Founded fun _ => False where
  natives number this args w r w' run := by cases run
  hosts number args w r w' run := by cases run
  makes _ none := none.elim
  made none := none.elim

/-- Of two objects of which one inherits from the other, that one is refused as the prototype of the
other, which it may be once it does not inherit from it. -/
theorem prototype_chains_end_on_two :
    let w : World Unit := worldOf #[.new .plain none, .new .plain (some ⟨0⟩)]
    let w' : World Unit := worldOf #[.new .plain none, .new .plain none]
    setPrototype linkMaker ⟨0⟩ (some ⟨1⟩) w = some (false, w) ∧
      setPrototype linkMaker ⟨1⟩ none w = some (true, w') ∧
      (∃ n ≤ 2, w.heap.Ancestors n ⟨1⟩) := by
  intro w w'
  have first : Performs linkMaker (·.Awaits fun _ => False) (worldOf #[]) _ :=
    .create (.new .plain none) (by rintro number ⟨⟩) fun p mentions =>
      absurd mentions (Object.not_mentions_default p)
  have second : Performs linkMaker (·.Awaits fun _ => False) (worldOf #[.new .plain none]) w :=
    .create (.new .plain (some ⟨0⟩)) (by rintro number ⟨⟩) fun p mentions => by
      rcases mentions with (link | link) | held
      · cases link
        decide
      · cases link
      · exact absurd held (HostPrototypes.not_has_none p)
  obtain ⟨chains, replaces⟩ := prototype_chains_end linkMaker_founded rfl (.tail (.single first) second)
  refine ⟨?_, ?_, chains ⟨1⟩⟩
  · obtain ⟨b, w₁, run, accepts, result⟩ := replaces ⟨0⟩ w rfl (some ⟨1⟩)
    have refused : b = false := by
      rw [← Bool.not_eq_true, accepts]
      exact fun clear => clear.2 ⟨1⟩ rfl (.step rfl (.refl ⟨0⟩))
    subst refused
    exact run.trans (by rw [result]; rfl)
  · obtain ⟨b, w₁, run, accepts, result⟩ := replaces ⟨1⟩ w rfl none
    have accepted : b = true := accepts.mpr ⟨rfl, by rintro p ⟨⟩⟩
    subst accepted
    exact run.trans (by rw [result]; rfl)

/-- A lazy object is accepted as a prototype. What its initializer makes then closes a cycle, of objects
that have all been made: their chains do not end, and neither does the check of a further prototype. -/
theorem made_object_closes_cycle :
    let w : World Unit := worldOf #[.new .plain (some ⟨1⟩), .new .plain (some ⟨0⟩), .new .plain none]
    Relation.ReflTransGen (Performs linkMaker fun _ => True) (worldOf #[]) w ∧
      (∀ o, (w.heap.object o).isInitialized = true) ∧ (∀ n, ¬w.heap.Ancestors n ⟨0⟩) ∧
      setPrototype linkMaker ⟨2⟩ (some ⟨0⟩) w = none := by
  intro w
  have plain (p : ObjectId) : ¬(Object.new .plain none).Mentions p := Object.not_mentions_default p
  have lazy (p : ObjectId) : ¬(Object.new (.lazy (some 0)) none).Mentions p := by
    rintro ((link | link) | held)
    · cases link
    · cases link
    · exact HostPrototypes.not_has_none p held
  have course : Relation.ReflTransGen (Performs linkMaker fun _ => True) (worldOf #[]) w :=
    Relation.ReflTransGen.refl
      |>.tail (.create (.new .plain none) trivial fun p mentions => absurd mentions (plain p))
      |>.tail (.create (.new (.lazy (some 0)) none) trivial fun p mentions =>
        absurd mentions (lazy p))
      |>.tail (.create (.new .plain none) trivial fun p mentions => absurd mentions (plain p))
      |>.tail (.access (o := ⟨0⟩) (a := .setPrototype (some ⟨1⟩)) (r := true)
        (by rintro p ⟨⟩; decide) rfl)
      |>.tail (.materialize (o := ⟨1⟩) rfl)
  refine ⟨course, ?_, fun n above => ?_, rfl⟩
  · rintro ⟨_ | _ | _ | i⟩ <;> rfl
  · have round : w.heap.Ancestors (n + 1 + 1) ⟨0⟩ := .some (p := ⟨1⟩) rfl (.some rfl above)
    have same := above.unique round
    omega

end ScriptCore
