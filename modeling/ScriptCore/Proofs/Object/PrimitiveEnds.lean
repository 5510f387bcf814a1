import ScriptCore.Proofs.Object.LookupEnds
import ScriptCore.Proofs.Object.ProxyChains

/-!
# ScriptCore.Proofs.Object.PrimitiveEnds

**Primitives for objects are found** in a bounded number of steps, if no box holds an object.

Design points:

* The form of an object is followed to a depth that goes down with every element and every proxy. It
  starts anew in one place only: where the form of an element comes out as an object. So the proof
  compares two runs (`Exec.SameEnd`), one of which has no end if it ever starts anew.
* A conversion may make lazy objects and wrap values of the host. `Embedding.Calm` says of a family of
  worlds that these stay within it, that methods can be looked up, and that none is native.
* A box around an object gives that object as its form, which is then followed from the start. A
  sequence that holds a box around itself has no text.
-/

namespace ScriptCore

variable {σ α β : Type} {env : Embedding σ} {I : World σ → Prop} {w : World σ} {o : ObjectId}

/-- From a world, two runs come to one end, in the family `I` and with a result in `Q`. -/
def Exec.SameEnd (I : World σ → Prop) (Q : α → Prop) (x y : Exec σ α) (w : World σ) : Prop :=
  ∃ a w', x w = some (a, w') ∧ y w = some (a, w') ∧ I w' ∧ Q a

namespace Exec.SameEnd

variable {Q : α → Prop} {P : β → Prop} {x y : Exec σ α} {f g : α → Exec σ β}

theorem pure {a : α} (hw : I w) (ha : Q a) : SameEnd I Q (Pure.pure a) (Pure.pure a) w :=
  ⟨a, w, rfl, rfl, hw, ha⟩

theorem of_run {a : α} {w' : World σ} (run : x w = some (a, w')) (hw : I w') (ha : Q a) :
    SameEnd I Q x x w :=
  ⟨a, w', run, run, hw, ha⟩

theorem bind (h : SameEnd I Q x y w)
    (hf : ∀ a w', I w' → Q a → SameEnd I P (f a) (g a) w') :
    SameEnd I P (x >>= f) (y >>= g) w := by
  obtain ⟨a, w₁, hx, hy, hw₁, ha⟩ := h
  obtain ⟨b, w₂, hb, hb', hw₂, hP⟩ := hf a w₁ hw₁ ha
  exact ⟨b, w₂, by rw [bind_of_eq hx, hb], by rw [bind_of_eq hy, hb'], hw₂, hP⟩

theorem asks_bind {r : Heap → α} (h : SameEnd I P (f (r w.heap)) (g (r w.heap)) w) :
    SameEnd I P (Exec.asks r >>= f) (Exec.asks r >>= g) w := h

theorem onHeap_bind {r : Heap → α × Heap}
    (h : SameEnd I P (f (r w.heap).1) (g (r w.heap).1) { w with heap := (r w.heap).2 }) :
    SameEnd I P (Exec.onHeap r >>= f) (Exec.onHeap r >>= g) w := h

end Exec.SameEnd

/-- The result of a conversion is a primitive. -/
def Value.Primitive (v : Value) : Prop := v.isObject = false

/-- Calling the object runs no code: what stands behind it, if it is a function, has no body. -/
def Heap.Bodiless (h : Heap) (o : ObjectId) : Prop :=
  ∀ f fn, h.behind o = .object f → h.payload f = .function fn → fn.code = none

/-- A family of worlds in which nothing stands in the way of a conversion: objects can be made and
elements of the host wrapped, methods for primitives can be looked up and are not native, and no box
holds an object. -/
structure Embedding.Calm (env : Embedding σ) (I : World σ → Prop) : Prop where
  makes : ∀ {w}, I w → ∀ o, ∃ w', materialize env o w = some ((), w') ∧ I w'
  looks : ∀ {w}, I w → ∀ o, ∀ name ∈ ["valueOf", "toString"], ∃ r w',
    getProperty env o (.ofString name) w = some (r, w') ∧ I w' ∧
      ∀ method, r = .ok (.object method) → w'.heap.Bodiless method
  wraps : ∀ {w}, I w → ∀ o s prototypes, w.heap.payload o = .hostSlice s prototypes →
    I { w with heap := (w.heap.wrapAll prototypes (w.heap.hostSlice s).toList).2 }
  boxes : ∀ {w}, I w → ∀ o v, w.heap.payload o = .boxed v → v.Primitive

/-! ### Methods -/

theorem callBare_of_bodiless {method : ObjectId} (callable : w.heap.isCallable method = some true)
    (bodiless : w.heap.Bodiless method) (patient : env.patience ≠ 0) (this : Value) :
    callBare env method this w = some (.ok .undefined, w) := by
  obtain ⟨n, hn⟩ := Nat.exists_eq_succ_of_ne_zero patient
  obtain ⟨f, fn, hb, hp⟩ := Heap.isCallable_eq_true_iff.mp callable
  rw [callBare, hn, invoke, Throws.bind_of_ok (Throws.asks_apply _ _), hb]
  dsimp only
  rw [Throws.bind_of_ok (Throws.asks_apply _ _), hp]
  dsimp only
  rw [bodiless f fn hb hp]
  rfl

namespace Embedding.Calm

variable (calm : env.Calm I)

include calm

theorem patient (hw : I w) : env.patience ≠ 0 := by
  intro zero
  obtain ⟨r, w', run, -⟩ := calm.looks hw ⟨0⟩ "valueOf" (by simp)
  rw [getProperty, zero] at run
  cases run

/-- Whether an object can be called is known, as methods can be looked up on it. -/
theorem callable_known (hw : I w) (o : ObjectId) : ∃ callable, w.heap.isCallable o = some callable := by
  obtain ⟨r, w', run, -⟩ := calm.looks hw o "valueOf" (by simp)
  exact Option.isSome_iff_exists.mp (Heap.isSome_isCallable_iff.mpr (proxiesEnd_of_getWithin run))

theorem askMethods_ends (hw : I w) (o : ObjectId) {names : List String}
    (known : ∀ name ∈ names, name ∈ ["valueOf", "toString"]) :
    ∃ answer w', askMethods env o names w = some (answer, w') ∧ I w' ∧
      ∀ v, answer = some v → v.Primitive := by
  induction names generalizing w with
  | nil => exact ⟨none, w, rfl, hw, by simp⟩
  | cons name names ih =>
      have rest := fun w hw => ih (w := w) hw fun n hn => known n (List.mem_cons_of_mem _ hn)
      obtain ⟨r, w₁, run, hw₁, bodiless⟩ := calm.looks hw o name (known name List.mem_cons_self)
      have step : askMethods env o (name :: names) w = _ :=
        Exec.bind_of_eq (x := (getProperty env o (.ofString name)).run) run _
      rw [step]
      split
      · rename_i method
        obtain ⟨callable, known⟩ := calm.callable_known hw₁ method
        rw [Exec.bind_of_eq (Exec.walks_of_some known)]
        cases callable with
        | true =>
            have call := callBare_of_bodiless known (bodiless method rfl) (calm.patient hw)
              (.object o)
            rw [if_pos rfl, Exec.bind_of_eq (x := (callBare env method (.object o)).run) call]
            exact ⟨some .undefined, w₁, rfl, hw₁, fun v hv => by cases hv; rfl⟩
        | false => exact rest w₁ hw₁
      · exact rest w₁ hw₁

end Embedding.Calm

/-! ### Forms -/

/-- Two ways of forming a primitive one level down come to the same ends. -/
def SameForm (I : World σ → Prop) (f g : ObjectId → Hint → Exec σ Value) : Prop :=
  ∀ o hint w, I w → Exec.SameEnd I Value.Primitive (f o hint) (g o hint) w

section Forms

variable {t u : ObjectId → Exec σ Text} {f g : Option (ObjectId → Hint → Exec σ Value)}

open Exec

theorem elementText_ends (same : Option.Rel (SameForm I) f g) (hw : I w) (self : ObjectId)
    (v : Value) :
    SameEnd I (fun _ => True) (elementText t f self v) (elementText u g self v) w := by
  cases v with
  | object e =>
      cases same with
      | none => exact .pure hw trivial
      | some same =>
          rw [elementText, elementText]
          split
          · exact .pure hw trivial
          · refine .bind (same e .string w hw) fun v w₁ hw₁ hv => ?_
            cases v with
            | object inner => cases hv
            | _ => exact .pure hw₁ trivial
  | _ => exact .pure hw trivial

theorem sequenceForm_ends (same : Option.Rel (SameForm I) f g) (hw : I w) (self : ObjectId)
    (elements : List Value) :
    SameEnd I Value.Primitive (sequenceForm t f self elements) (sequenceForm u g self elements)
      w := by
  have texts : ∀ {w}, I w → SameEnd I (fun _ => True) (elements.mapM (elementText t f self))
      (elements.mapM (elementText u g self)) w := by
    induction elements with
    | nil => exact fun hw => .pure hw trivial
    | cons v vs ih =>
        intro w hw
        rw [List.mapM_cons, List.mapM_cons]
        refine .bind (elementText_ends same hw self v) fun _ w₁ hw₁ _ => ?_
        exact .bind (ih hw₁) fun _ w₂ hw₂ _ => .pure hw₂ trivial
  exact .bind (texts hw) fun _ w₁ hw₁ _ => .pure hw₁ rfl

variable (calm : env.Calm I)

include calm

theorem ownForm_ends (same : Option.Rel (SameForm I) f g) (hw : I w) (o : ObjectId)
    (wantsString : Bool) :
    SameEnd I Value.Primitive (ownForm t f o wantsString) (ownForm u g o wantsString) w := by
  refine .asks_bind ?_
  cases hp : w.heap.payload o with
  | array es => exact sequenceForm_ends same hw o es.toList
  | hostSlice s prototypes =>
      exact .onHeap_bind (sequenceForm_ends same (calm.wraps hw o s prototypes hp) o _)
  | date t => cases wantsString <;> exact .pure hw rfl
  | hostData v => cases v <;> exact .pure hw rfl
  | proxy target handler =>
      cases target with
      | none => exact .pure hw rfl
      | some target =>
          cases same with
          | none => exact .pure hw rfl
          | some same => exact same target _ w hw
  | _ => exact .pure hw rfl

theorem primitiveForm_ends (same : Option.Rel (SameForm I) f g) (hw : I w) (o : ObjectId)
    (hint : Hint) :
    SameEnd I Value.Primitive (primitiveForm env t f o hint) (primitiveForm env u g o hint) w := by
  obtain ⟨w₁, run, hw₁⟩ := calm.makes hw o
  refine .bind (Q := fun _ => True) (.of_run run hw₁ trivial) fun _ w₁ hw₁ _ => .asks_bind ?_
  have asked : ∀ names : List String, (∀ name ∈ names, name ∈ ["valueOf", "toString"]) →
      SameEnd I (fun answer => ∀ v, answer = some v → v.Primitive) (askMethods env o names)
        (askMethods env o names) w₁ := by
    intro names known
    obtain ⟨answer, w₂, run, hw₂, hanswer⟩ := calm.askMethods_ends hw₁ o known
    exact .of_run run hw₂ hanswer
  cases hp : w₁.heap.payload o with
  | boxed v => exact .pure hw₁ (calm.boxes hw₁ o v hp)
  | _ =>
      refine .bind (asked _ ?_) fun answer w₂ hw₂ hanswer => ?_
      · split <;> simp
      · cases answer with
        | some v => exact .pure hw₂ (hanswer v rfl)
        | none => exact ownForm_ends calm same hw₂ o _

/-- To any depth, the form of an object is found, and never formed anew from the start. -/
theorem toPrimitiveWithin_ends (t u : ObjectId → Exec σ Text) (depth : Nat) :
    SameForm I (toPrimitiveWithin env t depth) (toPrimitiveWithin env u depth) := by
  induction depth with
  | zero => exact fun o hint w hw => primitiveForm_ends calm .none hw o hint
  | succ depth ih => exact fun o hint w hw => primitiveForm_ends calm (.some ih) hw o hint

end Forms

/-- Conversions end. If no box holds an object, every object has a primitive, every value a text and
a number, and the form of an object is followed no deeper than `formDepth`: the run is the one that
has no way to start anew. -/
theorem toPrimitive_ends (calm : env.Calm I) (hw : I w) :
    (∀ o hint, ∃ v w', toPrimitive env o hint w = some (v, w') ∧
      toPrimitiveWithin env (fun _ => Exec.endless) formDepth o hint w = some (v, w') ∧
      I w' ∧ v.isObject = false) ∧
    (∀ v, ∃ t w', textOf env v w = some (t, w') ∧ I w') ∧
    ∀ v, ∃ n w', numberOf env v w = some (n, w') ∧ I w' := by
  have forms := fun o hint =>
    toPrimitiveWithin_ends calm (textWithin env env.patience) (fun _ => Exec.endless) formDepth
      o hint w hw
  have primitives : ∀ hint v, ∃ p w', primitiveOf env hint v w = some (p, w') ∧ I w' := by
    intro hint v
    cases v with
    | object o =>
        obtain ⟨p, w', run, -, hw', -⟩ := forms o hint
        exact ⟨p, w', run, hw'⟩
    | _ => exact ⟨_, w, rfl, hw⟩
  refine ⟨forms, fun v => ?_, fun v => ?_⟩
  · obtain ⟨p, w', run, hw'⟩ := primitives .string v
    exact ⟨_, w', Exec.bind_of_eq run _, hw'⟩
  · obtain ⟨p, w', run, hw'⟩ := primitives .number v
    exact ⟨_, w', Exec.bind_of_eq run _, hw'⟩

/-! ### Sequences that hold each other -/

/-- An object without stored properties and prototype whose payload computes nothing under the names
of the methods. -/
def Object.Bare (obj : Object) : Prop :=
  ∃ payload, obj = .new payload none ∧
    (payload = .plain ∨ (∃ es, payload = .array es) ∨ ∃ p, payload = .boxed (.object p))

theorem getProperty_of_bare (patient : env.patience ≠ 0) (bare : (w.heap.object o).Bare)
    {name : String} (known : name ∈ ["valueOf", "toString"]) :
    getProperty env o (.ofString name) w = some (.ok .undefined, w) := by
  obtain ⟨n, hn⟩ := Nat.exists_eq_succ_of_ne_zero patient
  obtain ⟨payload, hobj, hp⟩ := bare
  have hpayload : w.heap.payload o = payload := congrArg Object.payload hobj
  have makes : materialize env o w = some ((), w) := by
    refine materialize_of_ready fun number => ?_
    rw [hpayload]
    rcases hp with rfl | ⟨es, rfl⟩ | ⟨p, rfl⟩ <;> simp
  have computed : (w.heap.computed? o (.ofString name)).1 = none := by
    rw [Heap.computed?, hpayload]
    rcases hp with rfl | ⟨es, rfl⟩ | ⟨p, rfl⟩
    · rfl
    · rcases List.mem_pair.mp known with rfl | rfl <;> rfl
    · rfl
  have own : ownProperty env o (.ofString name) w = some (none, w) := by
    rw [ownProperty, Exec.bind_of_eq makes, Exec.onHeap_apply, ownSlot?_of_not_computed computed,
      hobj]
    exact congrArg (fun slot => some (slot, w)) (PropertyTable.get?_empty _)
  have last : prototypeOf env o w = some (none, w) := by
    rw [prototypeOf, Exec.bind_of_eq makes, Exec.asks_apply, hobj]
    rfl
  rw [getProperty, hn, getWithin_step ?_, own, Option.bind_some]
  · dsimp only
    rw [last]
    rfl
  · rw [hpayload]
    rcases hp with rfl | ⟨es, rfl⟩ | ⟨p, rfl⟩ <;> simp

/-- Two sequences that hold each other. -/
def mutualWorld : World Unit :=
  worldOf #[.new (.array #[.object ⟨1⟩]) none, .new (.array #[.object ⟨0⟩]) none]

theorem mutualWorld_object (o : ObjectId) : ∃ payload,
    mutualWorld.heap.object o = .new payload none ∧ (payload = .plain ∨ ∃ es, payload = .array es) := by
  obtain ⟨i⟩ := o
  match i with
  | 0 => exact ⟨_, rfl, .inr ⟨_, rfl⟩⟩
  | 1 => exact ⟨_, rfl, .inr ⟨_, rfl⟩⟩
  | i + 2 =>
      rw [Heap.object_of_le (by simp [mutualWorld, worldOf])]
      exact ⟨_, rfl, .inl rfl⟩

theorem mutualWorld_payload (o : ObjectId) :
    mutualWorld.heap.payload o = .plain ∨ ∃ es, mutualWorld.heap.payload o = .array es := by
  obtain ⟨payload, hobj, hp⟩ := mutualWorld_object o
  rw [Heap.payload, hobj]
  exact hp

theorem mutualWorld_calm :
    ((default : Embedding Unit).withPatience 1).Calm (· = mutualWorld) where
  makes := by
    rintro w rfl o
    refine ⟨_, materialize_of_ready fun number hp => ?_, rfl⟩
    rcases mutualWorld_payload o with h | ⟨es, h⟩ <;> cases h.symm.trans hp
  looks := by
    rintro w rfl o name known
    obtain ⟨payload, hobj, hp⟩ := mutualWorld_object o
    have bare : (mutualWorld.heap.object o).Bare := ⟨payload, hobj, hp.imp_right .inl⟩
    refine ⟨_, _, getProperty_of_bare (by decide) bare known, rfl, ?_⟩
    rintro method ⟨⟩
  wraps := by
    rintro w rfl o s prototypes hp
    rcases mutualWorld_payload o with h | ⟨es, h⟩ <;> cases h.symm.trans hp
  boxes := by
    rintro w rfl o v hp
    rcases mutualWorld_payload o with h | ⟨es, h⟩ <;> cases h.symm.trans hp

theorem toPrimitive_ends_on_mutual :
    let env : Embedding Unit := (default : Embedding Unit).withPatience 1
    env.Calm (· = mutualWorld) ∧ ∃ v w', toPrimitive env ⟨0⟩ .string mutualWorld = some (v, w') ∧
      v.isObject = false := by
  intro env
  obtain ⟨v, w', run, -, -, hv⟩ := (toPrimitive_ends mutualWorld_calm rfl).1 ⟨0⟩ .string
  exact ⟨mutualWorld_calm, v, w', run, hv⟩

/-- A sequence that holds a box around itself. -/
def boxedWorld : World Unit :=
  worldOf #[.new (.array #[.object ⟨1⟩]) none, .new (.boxed (.object ⟨0⟩)) none]

theorem askMethods_of_bare (patient : env.patience ≠ 0) (bare : (w.heap.object o).Bare)
    {names : List String} (known : ∀ name ∈ names, name ∈ ["valueOf", "toString"]) :
    askMethods env o names w = some (none, w) := by
  induction names with
  | nil => rfl
  | cons name names ih =>
      have asked := getProperty_of_bare patient bare (known name List.mem_cons_self)
      have step : askMethods env o (name :: names) w = _ :=
        Exec.bind_of_eq (x := (getProperty env o (.ofString name)).run) asked _
      rw [step]
      exact ih fun n hn => known n (List.mem_cons_of_mem _ hn)

/-- A bare sequence is formed from its elements. -/
theorem primitiveForm_of_bare (patient : env.patience ≠ 0) {es : Array Value}
    (hobj : w.heap.object o = .new (.array es) none) (textOf : ObjectId → Exec σ Text)
    (deeper : Option (ObjectId → Hint → Exec σ Value)) (hint : Hint) :
    primitiveForm env textOf deeper o hint w = sequenceForm textOf deeper o es.toList w := by
  have hp : w.heap.payload o = .array es := congrArg Object.payload hobj
  have makes : materialize env o w = some ((), w) :=
    materialize_of_ready fun number => by simp [hp]
  rw [primitiveForm, Exec.bind_of_eq makes, Exec.bind_of_eq (Exec.asks_apply _ _), hp]
  dsimp only
  rw [Exec.bind_of_eq (askMethods_of_bare patient ⟨_, hobj, .inr (.inl ⟨_, rfl⟩)⟩ ?_)]
  · dsimp only
    rw [ownForm, Exec.bind_of_eq (Exec.asks_apply _ _), hp]
  · split <;> simp

/-- The text of the sequence is asked for while its text is formed. -/
theorem boxedWorld_form {env : Embedding Unit} (patient : env.patience ≠ 0)
    {textOf : ObjectId → Exec Unit Text} (endless : textOf ⟨0⟩ boxedWorld = none)
    (depth : Nat) (hint : Hint) :
    toPrimitiveWithin env textOf (depth + 1) ⟨0⟩ hint boxedWorld = none := by
  have holds : boxedWorld.heap.object ⟨0⟩ = .new (.array #[.object ⟨1⟩]) none := rfl
  have inner : toPrimitiveWithin env textOf depth ⟨1⟩ .string boxedWorld =
      some (.object ⟨0⟩, boxedWorld) := by
    cases depth <;> rfl
  have element : elementText textOf (some (toPrimitiveWithin env textOf depth)) ⟨0⟩ (.object ⟨1⟩)
      boxedWorld = none := by
    rw [elementText, if_neg (by decide), Exec.bind_of_eq inner]
    dsimp only
    rw [Exec.bind_eq, endless, Option.bind_none]
  rw [toPrimitiveWithin, primitiveForm_of_bare patient holds, sequenceForm,
    Exec.bind_eq, List.mapM_cons, Exec.bind_eq, element, Option.bind_none, Option.bind_none]

theorem boxedWorld_endless (n : Nat) (hint : Hint) :
    toPrimitive ((default : Embedding Unit).withPatience n) ⟨0⟩ hint boxedWorld = none := by
  cases n with
  | zero => cases hint <;> rfl
  | succ n =>
      have patient : ((default : Embedding Unit).withPatience (n + 1)).patience ≠ 0 :=
        Nat.succ_ne_zero n
      have endless : ∀ k, textWithin ((default : Embedding Unit).withPatience (n + 1)) k ⟨0⟩
          boxedWorld = none := by
        intro k
        induction k with
        | zero => rfl
        | succ k ih =>
            rw [textWithin, Exec.bind_eq, formDepth, boxedWorld_form patient ih, Option.bind_none]
      exact boxedWorld_form patient (endless _) 31 hint

/-- Though the look-ups of both methods end without one, no patience finds a primitive for a sequence
that holds a box around itself. -/
theorem no_primitive_of_boxed_self :
    (∀ o ∈ [(⟨0⟩ : ObjectId), ⟨1⟩], ∀ name ∈ ["valueOf", "toString"],
      getProperty ((default : Embedding Unit).withPatience 1) o (.ofString name) boxedWorld =
        some (.ok .undefined, boxedWorld)) ∧
    ¬∃ n hint r, toPrimitive ((default : Embedding Unit).withPatience n) ⟨0⟩ hint boxedWorld =
      some r := by
  refine ⟨fun o ho name known => getProperty_of_bare (by decide) ?_ known, ?_⟩
  · rcases List.mem_pair.mp ho with rfl | rfl
    · exact ⟨_, rfl, .inr (.inl ⟨_, rfl⟩)⟩
    · exact ⟨_, rfl, .inr (.inr ⟨_, rfl⟩)⟩
  · rintro ⟨n, hint, r, run⟩
    rw [boxedWorld_endless] at run
    cases run

end ScriptCore
