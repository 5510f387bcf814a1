import ScriptCore.Proofs.Object.Agreement
import ScriptCore.Proofs.Object.Deletion

/-!
# ScriptCore.Proofs.Object.Extensibility

An object that must not be extended **gets no new property**, whatever is assigned, deleted and
appended.

Design points:

* What a closed object may come to is said of the object alone (`keepsClosed`): it stays closed, and
  it has no name that it did not have. So a change to another object is none.
* Assigning runs code of the embedding, which may access objects itself. That code is given the
  embedding that it runs in, and the knot is tied at every depth (`tied`). Of code it is assumed that
  it keeps the object closed if what it is given does (`Confined`). That leaves it every access here
  (`Mutates.keepsClosed`), but no definition of a property of the object.
* Appending to an array does not ask whether the array may be extended, and neither does the
  assignment of a greater length (`closed_array_grows`). Both are left out (`Access.Spares`).
-/

namespace ScriptCore

/-- The names of the elements or characters that the payload computes properties from. -/
def Payload.indexNames (p : Payload) : List Text :=
  let indices (n : Nat) : List Text := (List.range n).map .ofIndex ++ [.ofString "length"]
  match p with
  | .array es => indices es.size
  | .boxed (.string t) => indices t.length
  | _ => []

/-- The names of the own properties of an object that wraps no data of the host. -/
def Object.ownNames (obj : Object) : List Text :=
  obj.payload.indexNames ++ obj.properties.names.toList

/-- The object has been made, has its properties itself, and must not be extended. -/
structure Object.Closed (obj : Object) : Prop where
  extensible : obj.extensible = false
  initialized : obj.toClass ≠ .lazy
  direct : obj.toClass ≠ .proxy
  own : obj.toClass ≠ .hostBacked

variable {σ : Type}

/-- A closed object stays closed, and gets no name. -/
def keepsClosed (o : ObjectId) : Guarantee σ where
  holds w w' := (w.heap.object o).Closed →
    (w'.heap.object o).Closed ∧ (w'.heap.object o).ownNames ⊆ (w.heap.object o).ownNames
  refl _ closed := ⟨closed, List.Subset.refl _⟩
  trans first second closed :=
    ⟨(second (first closed).1).1, List.Subset.trans (second (first closed).1).2 (first closed).2⟩

/-- Assigning the value as its length would make the array longer. -/
def Lengthens (env : Embedding σ) (w : World σ) (o : ObjectId) (v : Value) : Prop :=
  (∃ es, w.heap.payload o = .array es) ∧ ∃ x w' es, numericOf env v w = some (x, w') ∧
    w'.heap.payload o = .array es ∧ es.size < x.toUInt32.toNat

/-- The access neither appends to the object, if that is an array, nor assigns it a greater length. -/
def Access.Spares (env : Embedding σ) (w : World σ) (o p : ObjectId) : Access → Prop
  | .push _ => p = o → ∀ es, w.heap.payload o ≠ .array es
  | .set key v => ∀ w', recipientWithin env env.patience p w = some (.ok o, w') →
      key.isText "length" = true → ¬Lengthens env w' o v
  | _ => True

/-- Some object is accessed. A throw may be taken for a refusal. -/
inductive Mutates (env : Embedding σ) (o : ObjectId) : World σ → World σ → Prop where
  | access {w w' p a r} (spares : Access.Spares env w o p a) (run : a.run env p w = some (r, w')) :
      Mutates env o w w'
  | trySet {w w' p key v b} (spares : Access.Spares env w o p (.set key v))
      (run : trySet env p key v w = some (b, w')) : Mutates env o w w'

/-- Code that keeps an object closed if all that it is given does. -/
structure Confined (code : Embedding σ → Embedding σ) (o : ObjectId) : Prop where
  natives : ∀ {env}, env.Guarantees (keepsClosed o) → ∀ number this args,
    Exec.Along (keepsClosed o) ((code env).callNative number this args).run
  hosts : ∀ {env}, env.Guarantees (keepsClosed o) → ∀ number args,
    Exec.Along (keepsClosed o) ((code env).callHost number args).run
  makes : ∀ {env}, env.Guarantees (keepsClosed o) → ∀ number,
    Exec.Along (keepsClosed o) ((code env).makeLazy number)

/-- Code whose own accesses may run code again, up to a depth. Beyond it, code has no end. -/
def tied (code : Embedding σ → Embedding σ) : Nat → Embedding σ
  | 0 => default
  | n + 1 => code (tied code n)

/-! ### Closed objects -/

section Closed

variable {obj : Object} {h : Heap} {o p : ObjectId} {key : Text}

theorem Object.Closed.live (closed : (h.object o).Closed) : o.index < h.objects.size := by
  refine Heap.lt_size_of_object (P := Object.Closed) closed fun empty => ?_
  cases empty.extensible

theorem Object.Closed.ready (closed : (h.object o).Closed) (number : Nat) :
    h.payload o ≠ .lazy (some number) := by
  intro lazy
  exact closed.initialized (by rw [Object.toClass, show (h.object o).payload = _ from lazy]; rfl)

theorem Object.Closed.ownNames_eq (closed : (h.object o).Closed) :
    h.ownNames o = (h.object o).ownNames := by
  rw [Heap.ownNames, Object.ownNames]
  congr 1
  have own := closed.own
  rw [Heap.computedNames, Heap.payload]
  rw [Object.toClass] at own
  cases hp : (h.object o).payload with
  | hostMap | hostSlice | hostData => exact absurd (by rw [hp]; rfl) own
  | boxed v => cases v <;> rfl
  | _ => rfl

theorem indexNames_mapElements {es : Array Value} {f : Array Value → Array Value}
    (shorter : (f es).size ≤ es.size) :
    ((Payload.array es).mapElements f).indexNames ⊆ (Payload.array es).indexNames := by
  intro name hname
  simp only [Payload.mapElements, Payload.indexNames, List.mem_append, List.mem_map,
    List.mem_range] at hname ⊢
  exact hname.imp_left fun ⟨i, hi, same⟩ => ⟨i, Nat.lt_of_lt_of_le hi shorter, same⟩

end Closed

variable {env : Embedding σ} {w w' w₁ : World σ} {o p t : ObjectId} {key : Text} {v : Value}

/-! ### Changes that keep an object closed -/

theorem keepsClosed_of_object (same : w'.heap.object o = w.heap.object o) :
    (keepsClosed o).holds w w' := fun closed => by
  rw [same]
  exact ⟨closed, List.Subset.refl _⟩

theorem keepsClosed_updateObject_of_ne (hne : p ≠ o) (w : World σ) (f : Object → Object) :
    (keepsClosed o).holds w { w with heap := w.heap.updateObject p f } :=
  keepsClosed_of_object (Heap.object_updateObject_of_ne hne.symm f)

/-- A change of some object, if it keeps this object closed where it is the one that is changed. -/
theorem keepsClosed_updateObject (f : Object → Object)
    (keeps : p = o → (w.heap.object o).Closed → (f (w.heap.object o)).Closed ∧
      (f (w.heap.object o)).ownNames ⊆ (w.heap.object o).ownNames) :
    (keepsClosed o).holds w { w with heap := w.heap.updateObject p f } := by
  by_cases heq : p = o
  · intro closed
    subst heq
    rw [Heap.object_updateObject_self closed.live]
    exact keeps rfl closed
  · exact keepsClosed_updateObject_of_ne heq w f

theorem keepsClosed_updateProperties (w : World σ) (p : ObjectId) (f : PropertyTable → PropertyTable)
    (fewer : (f (w.heap.object p).properties).names.toList ⊆
      (w.heap.object p).properties.names.toList) :
    (keepsClosed o).holds w { w with heap := w.heap.updateProperties p f } := by
  refine keepsClosed_updateObject _ ?_
  rintro rfl closed
  refine ⟨⟨closed.1, closed.2, closed.3, closed.4⟩, List.append_subset.mpr ⟨?_, ?_⟩⟩
  · exact List.subset_append_left _ _
  · exact List.subset_append_of_subset_right _ fewer

/-- Elements may be changed as long as a closed array does not get longer. -/
theorem keepsClosed_mapElements (w : World σ) (p : ObjectId) (f : Array Value → Array Value)
    (shorter : p = o → ∀ es, w.heap.payload o = .array es → (f es).size ≤ es.size) :
    (keepsClosed o).holds w { w with heap := w.heap.updatePayload p (·.mapElements f) } := by
  refine keepsClosed_updateObject _ fun heq closed => ?_
  have shorter := shorter heq
  obtain ⟨extensible, initialized, direct, own⟩ := closed
  rw [Heap.payload] at shorter
  cases hp : (w.heap.object o).payload with
  | array es =>
      refine ⟨⟨extensible, by rintro ⟨⟩, by rintro ⟨⟩, by rintro ⟨⟩⟩, ?_⟩
      rw [Object.ownNames, Object.ownNames, hp]
      refine List.append_subset.mpr ⟨?_, List.subset_append_right _ _⟩
      exact List.subset_append_of_subset_left _ (indexNames_mapElements (shorter es hp))
  | _ =>
      rw [Object.toClass, hp] at initialized direct own
      refine ⟨⟨extensible, initialized, direct, own⟩, ?_⟩
      rw [Object.ownNames, Object.ownNames, hp]
      exact List.Subset.refl _

theorem keepsClosed_addObject (w : World σ) (obj : Object) :
    (keepsClosed o).holds w { w with heap := (w.heap.addObject obj).2 } := fun closed =>
  keepsClosed_of_object (Heap.object_addObject_of_lt obj closed.live) closed

/-- Making an object keeps closed ones closed, because they have been made. -/
theorem keepsClosed_materialize (makes : ∀ number, Exec.Along (keepsClosed o) (env.makeLazy number))
    (p : ObjectId) : Exec.Along (keepsClosed o) (materialize env p) :=
  along_materialize_of_others makes (fun w _ f hne => keepsClosed_updateObject_of_ne hne w f)
    (fun waiting closed => absurd waiting (closed.ready _)) p

/-! ### Assignments and deletions -/

theorem object_setHostElement (h : Heap) (s : HostSliceId) (i : Nat) (u : HostValue) (o : ObjectId) :
    (h.setHostElement s i u).2.object o = h.object o := by
  rw [Heap.setHostElement]
  split
  · rfl
  · split <;> rfl

section Steps

variable (h : env.Guarantees (keepsClosed o))

include h

omit h in
theorem keepsClosed_addProperty {r : Except Thrown Bool}
    (run : addProperty t key v w = some (r, w')) : (keepsClosed o).holds w w' := by
  rw [addProperty_apply] at run
  cases run
  cases extensible : (w.heap.object t).extensible with
  | false => exact (keepsClosed o).refl w
  | true =>
      have hne (closed : (w.heap.object o).Closed) : t ≠ o := by
        rintro rfl
        rw [closed.extensible] at extensible
        cases extensible
      exact fun closed => keepsClosed_updateObject_of_ne (hne closed) w _ closed

theorem keepsClosed_assignInherited {slot : Option Slot} {r : Except Thrown Bool}
    (run : assignInherited env t key v slot w = some (r, w')) : (keepsClosed o).holds w w' := by
  rcases assignInherited_cases env t key v slot w with ⟨-, setter, -, -, called⟩ | refused | added
  · exact h.callSetter t setter v (called.symm.trans run)
  · cases refused.symm.trans run
    exact (keepsClosed o).refl w
  · exact keepsClosed_addProperty (added.symm.trans run)

theorem keepsClosed_setStored {r : Except Thrown Bool}
    (run : setStored env t key v w = some (r, w')) : (keepsClosed o).holds w w' := by
  cases own : (w.heap.object t).properties.get? key with
  | some slot =>
      cases slot with
      | accessor getter setter a =>
          rw [setStored_accessor own] at run
          exact h.callSetter t setter v run
      | data u a =>
          rw [setStored_data own] at run
          cases run
          split
          · refine keepsClosed_updateProperties w t _ ?_
            rw [PropertyTable.names_update]
            exact List.Subset.refl _
          · exact (keepsClosed o).refl w
  | none =>
      rw [setStored_eq_decision] at run
      obtain ⟨⟨d, w₁⟩, decided, run⟩ := Option.bind_eq_some_iff.mp run
      have first := decision_along h t key decided
      rcases decision_inv decided with ⟨slot, stored, -⟩ | ⟨slot, rfl⟩
      · rw [own] at stored
        cases stored
      · exact (keepsClosed o).trans first (keepsClosed_assignInherited h run)

omit h in
theorem keepsClosed_setElement (w : World σ) (t : ObjectId) (size i : Nat) (v : Value) :
    (keepsClosed o).holds w { w with heap := (w.heap.setElement t size i v).2 } := by
  rw [Heap.setElement]
  split
  · exact keepsClosed_mapElements w t (·.setIfInBounds i v) fun _ es _ => by simp
  · split
    · exact (keepsClosed o).refl w
    · rename_i extensible
      intro closed
      have hne : t ≠ o := by
        rintro rfl
        simp [closed.extensible] at extensible
      exact keepsClosed_updateObject_of_ne hne w _ closed

theorem keepsClosed_setLength {es : Array Value} (array : w.heap.payload t = .array es)
    (spares : t = o → ¬Lengthens env w o v) {r : Except Thrown Bool}
    (run : setLength env t key v w = some (r, w')) : (keepsClosed o).holds w w' := by
  rw [setLength, Throws.lift_bind_eq] at run
  obtain ⟨⟨x, w₁⟩, number, run⟩ := Option.bind_eq_some_iff.mp run
  refine (keepsClosed o).trans (h.numericOf v number) ?_
  dsimp only at run
  rw [Throws.bind_of_ok (Throws.asks_apply _ _)] at run
  cases hp : w₁.heap.payload t with
  | array es' =>
      rw [hp] at run
      dsimp only at run
      split at run
      · cases run
        exact (keepsClosed o).refl _
      · cases run
        refine keepsClosed_mapElements w₁ t (resized · x.toUInt32.toNat) ?_
        rintro rfl es'' hes
        cases hp.symm.trans hes
        rw [size_resized]
        by_contra longer
        exact spares rfl ⟨⟨es, array⟩, x, w₁, es', number, hp, Nat.lt_of_not_le longer⟩
  | _ =>
      rw [hp] at run
      exact keepsClosed_setStored h run

theorem keepsClosed_assignAt
    (spares : t = o → key.isText "length" = true → ¬Lengthens env w o v) {r : Except Thrown Bool}
    (run : assignAt env t key v (w.heap.payload t) w = some (r, w')) :
    (keepsClosed o).holds w w' := by
  cases hp : w.heap.payload t with
  | hostMap m prototypes =>
      rw [hp] at run
      cases run
      exact keepsClosed_of_object rfl
  | hostSlice s prototypes =>
      rw [hp, assignAt] at run
      cases index : key.arrayIndex? with
      | none =>
          rw [index] at run
          exact keepsClosed_setStored h run
      | some i =>
          rw [index] at run
          cases run
          exact keepsClosed_of_object (object_setHostElement _ _ _ _ o)
  | array es =>
      rw [hp, assignAt] at run
      cases index : key.arrayIndex? with
      | some i =>
          rw [index] at run
          cases run
          exact keepsClosed_setElement w t _ i v
      | none =>
          rw [index] at run
          dsimp only at run
          split at run
          · rename_i name
            exact keepsClosed_setLength h hp (fun heq => spares heq name) run
          · exact keepsClosed_setStored h run
  | _ =>
      rw [hp] at run
      exact keepsClosed_setStored h run

theorem keepsClosed_setProperty {r : Except Thrown Bool}
    (spares : (Access.set key v).Spares env w o p)
    (run : setProperty env p key v w = some (r, w')) : (keepsClosed o).holds w w' := by
  rw [setProperty, setWithin_eq_recipient] at run
  obtain ⟨⟨found, w₁⟩, recipient, run⟩ := Option.bind_eq_some_iff.mp run
  have first := recipientWithin_along h env.patience p recipient
  cases found with
  | error thrown =>
      cases run
      exact first
  | ok t =>
      refine (keepsClosed o).trans first (keepsClosed_assignAt h ?_ run)
      rintro rfl name
      exact spares w₁ recipient name

omit h in
theorem keepsClosed_deleteKey (w : World σ) (p : ObjectId) (key : Text) :
    (keepsClosed o).holds w { w with heap := (w.heap.deleteKey p key).2 } := by
  have deletes := w.heap.deleteKey_deletes p key
  cases hr : w.heap.deleteKey p key with
  | mk b h' =>
      rw [hr] at deletes
      cases deletes with
      | element => exact keepsClosed_mapElements w p _ fun _ es _ => by simp
      | entry => exact keepsClosed_of_object rfl
      | erased => exact keepsClosed_updateProperties w p _ (PropertyTable.names_erase_subset _ _)
      | absent | refused => exact (keepsClosed o).refl w

theorem keepsClosed_deleteProperty (p : ObjectId) (key : Text) :
    Exec.Along (keepsClosed o) (deleteProperty env p key) :=
  .bind (h.makes p) fun _ => .onHeap fun w => keepsClosed_deleteKey w p key

theorem keepsClosed_pushElement {r : Option Nat} (spares : (Access.push v).Spares env w o p)
    (run : pushElement env p v w = some (r, w')) : (keepsClosed o).holds w w' := by
  intro closed
  obtain ⟨_, w₁, made, rest⟩ := Exec.bind_inv run
  have first := h.makes p made closed
  cases rest
  dsimp only
  split
  · rename_i es array
    by_cases heq : p = o
    · subst heq
      cases (materialize_of_ready closed.ready).symm.trans made
      exact absurd array (spares rfl es)
    · have second := keepsClosed_updateObject_of_ne heq w₁ fun obj =>
        { obj with payload := obj.payload.mapElements (·.push v) }
      exact ⟨(second first.1).1, List.Subset.trans (second first.1).2 first.2⟩
  · exact first

theorem keepsClosed_setPrototype (p : ObjectId) (prototype : Option ObjectId) :
    Exec.Along (keepsClosed o) (setPrototype env p prototype) := by
  refine .bind (h.makes p) fun _ => .bind (.asks _) fun extensible => ?_
  split
  · exact .pure _
  · refine .bind (.asks _) fun found => ?_
    cases found with
    | none => exact .endless
    | some found =>
        cases found with
        | true => exact .pure _
        | false =>
            refine .bind (.modifyHeap fun w => ?_) fun _ => .pure _
            exact keepsClosed_updateObject _ fun _ closed =>
              ⟨⟨closed.1, closed.2, closed.3, closed.4⟩, List.Subset.refl _⟩

/-- One access keeps the object closed, unless it makes it a longer array. -/
theorem keepsClosed_access {a : Access} {r : a.Result} (spares : a.Spares env w o p)
    (run : a.run env p w = some (r, w')) : (keepsClosed o).holds w w' := by
  cases a with
  | get key => exact h.getProperty p key run
  | has key => exact h.hasProperty p key run
  | set key v => exact keepsClosed_setProperty h spares run
  | own key => exact h.ownProperty p key run
  | names => exact (h.makes p).bind (fun _ => .asks _) run
  | delete key => exact keepsClosed_deleteProperty h p key run
  | prototype => exact h.prototypeOf p run
  | setPrototype q => exact keepsClosed_setPrototype h p q run
  | push v => exact keepsClosed_pushElement h spares run
  | primitive hint => exact h.toPrimitive p hint run

end Steps

theorem trySet_inv {b : Bool} (run : trySet env p key v w = some (b, w')) :
    ∃ r, setProperty env p key v w = some (r, w') ∧ (r = .ok false → b = false) := by
  obtain ⟨r, w₁, assigned, rest⟩ := Exec.bind_inv run
  cases rest
  refine ⟨r, assigned, ?_⟩
  rintro rfl
  rfl

theorem Mutates.keepsClosed (h : env.Guarantees (keepsClosed o)) (step : Mutates env o w w') :
    (ScriptCore.keepsClosed o).holds w w' := by
  cases step with
  | access spares run => exact keepsClosed_access h spares run
  | trySet spares run =>
      obtain ⟨r, assigned, -⟩ := trySet_inv run
      exact keepsClosed_setProperty h spares assigned

/-- Any run of accesses does, if each step does. -/
theorem keepsClosed_of_run (h : env.Guarantees (keepsClosed o))
    (run : Relation.ReflTransGen (Mutates env o) w w') : (keepsClosed o).holds w w' := by
  induction run with
  | refl => exact (keepsClosed o).refl w
  | tail _ step ih => exact (keepsClosed o).trans ih (step.keepsClosed h)

/-- At every depth, code keeps a closed object closed. -/
theorem tied_guarantees {code : Embedding σ → Embedding σ} (confined : Confined code o) (depth : Nat) :
    (tied code depth).Guarantees (keepsClosed o) := by
  induction depth with
  | zero =>
      exact ⟨keepsClosed_materialize fun _ => .endless, fun _ _ _ => .endless, fun _ _ => .endless,
        fun _ hw v => (keepsClosed o).trans hw ((keepsClosed o).wrap keepsClosed_addObject _ _ v)⟩
  | succ n ih =>
      exact ⟨keepsClosed_materialize (confined.makes ih), confined.natives ih, confined.hosts ih,
        fun _ hw v => (keepsClosed o).trans hw ((keepsClosed o).wrap keepsClosed_addObject _ _ v)⟩

/-! ### Attempts to add a property -/

/-- The assignment would give the object a property: it comes to the object, which has none under the
key, and no setter is called. -/
structure Adds (env : Embedding σ) (w : World σ) (p : ObjectId) (key : Text) (o : ObjectId)
    (w₁ : World σ) : Prop where
  recipient : recipientWithin env env.patience p w = some (.ok o, w₁)
  absent : (w₁.heap.ownSlot? o key).1 = none
  quiet : ¬CallsSetter env w₁ o key

theorem assignInherited_refused {slot : Option Slot}
    (extensible : (w.heap.object o).extensible = false)
    (quiet : (Decision.inherited slot).setter? = none) :
    assignInherited env o key v slot w = some (.ok false, w) := by
  rcases assignInherited_quiet quiet with refused | added
  · exact refused
  · rw [added, addProperty_apply, extensible]
    rfl

/-- A closed object refuses, and nothing happens after the look-up. -/
theorem assignAt_refused (h : env.Guarantees (keepsClosed o)) (closed : (w.heap.object o).Closed)
    (absent : (w.heap.ownSlot? o key).1 = none) (quiet : ¬CallsSetter env w o key)
    {r : Except Thrown Bool} (run : assignAt env o key v (w.heap.payload o) w = some (r, w')) :
    r = .ok false ∧ (w' = w ∨ ∃ d, decision env o key w = some (d, w')) := by
  rw [Heap.ownSlot?_fst] at absent
  split at absent
  · cases absent
  · rename_i bare
    by_cases stores : (w.heap.payload o).stores key = true
    · rw [assignAt_of_stores stores, setStored_eq_decision] at run
      obtain ⟨⟨d, w₂⟩, decided, run⟩ := Option.bind_eq_some_iff.mp run
      have closed₂ := (decision_along h o key decided closed).1
      rcases decision_inv decided with ⟨slot, own, -⟩ | ⟨slot, rfl⟩
      · rw [absent] at own
        cases own
      · have noSetter : (Decision.inherited slot).setter? = none := by
          rw [Option.eq_none_iff_forall_ne_some]
          exact fun s hs => quiet ⟨stores, _, w₂, s, decided, hs⟩
        cases (assignInherited_refused closed₂.extensible noSetter).symm.trans run
        exact ⟨rfl, .inr ⟨_, decided⟩⟩
    · rw [Bool.not_eq_true] at stores
      have direct := closed.direct
      have own := closed.own
      rw [Object.toClass, ← Heap.payload] at direct own
      cases hp : w.heap.payload o with
      | proxy => exact absurd (by rw [hp]; rfl) direct
      | hostMap | hostSlice => exact absurd (by rw [hp]; rfl) own
      | array es =>
          rw [hp, assignAt] at run
          rw [Heap.computed?, hp] at bare
          cases index : key.arrayIndex? with
          | some i =>
              rw [index] at run bare
              have outside : ¬i < es.size := by simpa using bare
              have refused : w.heap.setElement o es.size i v = (false, w.heap) := by
                rw [Heap.setElement, if_neg outside, closed.extensible]
                rfl
              dsimp only at run
              rw [Throws.onHeap_apply, refused] at run
              cases run
              exact ⟨rfl, .inl rfl⟩
          | none =>
              rw [index] at bare
              simp [hp, Payload.stores, index] at stores
              simp [stores] at bare
      | _ =>
          rw [hp] at stores
          cases stores

theorem setProperty_refused (h : env.Guarantees (keepsClosed o)) (closed : (w.heap.object o).Closed)
    (adds : Adds env w p key o w₁) {r : Except Thrown Bool}
    (run : setProperty env p key v w = some (r, w')) :
    r = .ok false ∧ (w' = w₁ ∨ ∃ d, decision env o key w₁ = some (d, w')) := by
  have closed₁ := (recipientWithin_along h env.patience p adds.recipient closed).1
  rw [setProperty, setWithin_eq_recipient, adds.recipient] at run
  exact assignAt_refused h closed₁ adds.absent adds.quiet run

theorem pushElement_refused (closed : (w.heap.object o).Closed)
    (other : ∀ es, w.heap.payload o ≠ .array es) (v : Value) :
    pushElement env o v w = some (none, w) := by
  rw [pushElement, Exec.bind_of_eq (materialize_of_ready closed.ready), Exec.onHeap_apply]
  cases hp : w.heap.payload o with
  | array es => exact absurd hp (other es)
  | _ => rfl

/-! ### For ever -/

/-- Forbidding new properties closes an object that has been made and has its properties itself. -/
theorem closed_of_preventExtensions (run : preventExtensions env o w = some ((), w'))
    (live : o.index < w'.heap.objects.size)
    (kind : (w'.heap.object o).toClass ∉ [.lazy, .proxy, .hostBacked]) :
    (w'.heap.object o).Closed := by
  obtain ⟨_, w₁, made, rest⟩ := Exec.bind_inv run
  cases rest
  have live₁ : o.index < w₁.heap.objects.size := by simpa using live
  simp only [List.mem_cons, List.not_mem_nil, or_false, not_or] at kind
  refine ⟨?_, kind.1, kind.2.1, kind.2.2⟩
  dsimp only
  rw [Heap.object_updateObject_self live₁]

theorem ownPropertyNames_of_closed (closed : (w.heap.object o).Closed) :
    ownPropertyNames env o w = some ((w.heap.object o).ownNames, w) := by
  rw [ownPropertyNames_of_ready closed.ready, closed.ownNames_eq]

/-- Once new properties have been forbidden, an object gets none. Whatever is accessed afterwards, at
every depth at which setters, conversions and initializers access objects themselves, it has no name
that it did not have. An assignment that would give it one is refused, and does nothing after its
look-up; an append to anything but an array gives nothing, and does nothing. All this leaves aside
that an array is made longer, by an append or by the assignment of a greater length. -/
theorem closed_for_good {code : Embedding σ → Embedding σ} (confined : Confined code o) (depth : Nat)
    {w₀ : World σ} (run : preventExtensions (tied code depth) o w₀ = some ((), w))
    (live : o.index < w.heap.objects.size)
    (kind : (w.heap.object o).toClass ∉ [.lazy, .proxy, .hostBacked])
    (later : Relation.ReflTransGen (Mutates (tied code depth) o) w w') :
    (∃ names names', ownPropertyNames (tied code depth) o w = some (names, w) ∧
      ownPropertyNames (tied code depth) o w' = some (names', w') ∧ names' ⊆ names) ∧
    (∀ p key v w₁ w'', Adds (tied code depth) w' p key o w₁ →
      (∀ r, setProperty (tied code depth) p key v w' = some (r, w'') →
        r = .ok false ∧ (w'' = w₁ ∨ ∃ d, decision (tied code depth) o key w₁ = some (d, w''))) ∧
      ∀ b, trySet (tied code depth) p key v w' = some (b, w'') → b = false) ∧
    ∀ v, (∀ es, w'.heap.payload o ≠ .array es) →
      pushElement (tied code depth) o v w' = some (none, w') := by
  have h := tied_guarantees confined depth
  have closed := closed_of_preventExtensions run live kind
  obtain ⟨closed', fewer⟩ := keepsClosed_of_run h later closed
  refine ⟨⟨_, _, ownPropertyNames_of_closed closed, ownPropertyNames_of_closed closed', fewer⟩, ?_, ?_⟩
  · refine fun p key v w₁ w'' adds => ⟨fun r assigned => ?_, fun b tried => ?_⟩
    · exact setProperty_refused h closed' adds assigned
    · obtain ⟨r, assigned, refused⟩ := trySet_inv tried
      exact refused (setProperty_refused h closed' adds assigned).1
  · exact fun v other => pushElement_refused closed' other v

/-- Code with one function, which assigns the property `b` of the first object. -/
def assigning (env : Embedding Unit) : Embedding Unit :=
  { (default : Embedding Unit) with
    patience := 4
    callNative := fun _ _ _ => do
      let _ ← setProperty env ⟨0⟩ (.ofString "b") (.smi 1)
      return .undefined }

theorem assigning_confined : Confined assigning ⟨0⟩ where
  natives h number this args := by
    refine .run_bind (fun w r w' run => keepsClosed_setProperty h ?_ run) fun _ => .run_pure _
    rintro w₁ - ⟨⟩
  hosts _ _ _ := .endless
  makes _ _ := .endless

/-- An object with an accessor `a`, and the function that is its setter. -/
def guardedWorld (extensible : Bool) : World Unit :=
  worldOf #[{ Object.new .plain none with
      properties := PropertyTable.empty.insert (.ofString "a") (.accessor none (some ⟨1⟩) .default)
      extensible },
    .new (.function ⟨.empty, some (.embedded 0), none⟩) none]

theorem guarded_names (extensible : Bool) (env : Embedding Unit) :
    ownPropertyNames env ⟨0⟩ (guardedWorld extensible) =
      some ([.ofString "a"], guardedWorld extensible) := by
  have names : ((guardedWorld extensible).heap.object ⟨0⟩).properties.names = #[.ofString "a"] :=
    PropertyTable.names_insert_of_none _ (PropertyTable.get?_empty _)
  rw [ownPropertyNames_of_ready (by rintro number ⟨⟩), Heap.ownNames, names]
  rfl

/-- The new property is refused inside of the setter. -/
theorem guarded_set :
    setProperty (tied assigning 2) ⟨0⟩ (.ofString "a") (.smi 5) (guardedWorld false) =
      some (.ok true, guardedWorld false) := by
  have own : ((guardedWorld false).heap.object ⟨0⟩).properties.get? (.ofString "a") =
      some (.accessor none (some ⟨1⟩) .default) := PropertyTable.get?_insert_self _ _ _
  have missing : ((guardedWorld false).heap.object ⟨0⟩).properties.get? (.ofString "b") = none := by
    have other : (Text.ofString "a" == .ofString "b") = false := by decide
    exact (PropertyTable.get?_insert _ _ _ _).trans (by rw [other]; exact PropertyTable.get?_empty _)
  have inner : setProperty (tied assigning 1) ⟨0⟩ (.ofString "b") (.smi 1) (guardedWorld false) =
      some (.ok false, guardedWorld false) := by
    rw [setProperty, show (tied assigning 1).patience = 3 + 1 from rfl, setWithin_ordinary rfl,
      setStored_eq_decision, decision_inherited missing]
    rfl
  have called : callObject (tied assigning 2) ⟨1⟩ (.object ⟨0⟩) [.smi 5] (guardedWorld false) =
      some (.ok .undefined, guardedWorld false) :=
    Throws.bind_of_ok inner fun _ => (pure Value.undefined : Throws Unit Value)
  rw [setProperty, show (tied assigning 2).patience = 3 + 1 from rfl, setWithin_ordinary rfl,
    setStored_accessor own, callSetter_some, called]
  rfl

/-- A setter that assigns a new property of its object, once that is closed, does not succeed. -/
theorem closed_for_good_against_setter :
    Confined assigning ⟨0⟩ ∧
      preventExtensions (tied assigning 2) ⟨0⟩ (guardedWorld true) = some ((), guardedWorld false) ∧
      setProperty (tied assigning 2) ⟨0⟩ (.ofString "a") (.smi 5) (guardedWorld false) =
        some (.ok true, guardedWorld false) ∧
      ∃ names, ownPropertyNames (tied assigning 2) ⟨0⟩ (guardedWorld false) =
        some (names, guardedWorld false) ∧ names ⊆ [.ofString "a"] := by
  have closing : preventExtensions (tied assigning 2) ⟨0⟩ (guardedWorld true) =
      some ((), guardedWorld false) := rfl
  have spares : (Access.set (.ofString "a") (.smi 5)).Spares (tied assigning 2) (guardedWorld false)
      ⟨0⟩ ⟨0⟩ := by
    rintro w₁ - ⟨⟩
  obtain ⟨⟨names, names', before, after, fewer⟩, -⟩ := closed_for_good assigning_confined 2 closing
    (by decide) (by decide) (.single (.access spares guarded_set))
  cases (guarded_names false _).symm.trans before
  exact ⟨assigning_confined, closing, guarded_set, names', after, fewer⟩

/-- An array of one element, which may be extended or not. -/
def singletonWorld (extensible : Bool) : World Unit :=
  worldOf #[{ Object.new (.array #[.smi 1]) none with extensible }]

/-- Appending makes a closed array longer, and so does assigning its length. -/
theorem closed_array_grows :
    preventExtensions fourLinks ⟨0⟩ (singletonWorld true) = some ((), singletonWorld false) ∧
      (ownPropertyNames fourLinks ⟨0⟩ (singletonWorld false)).map Prod.fst =
        some [.ofIndex 0, .ofString "length"] ∧
      (∃ w', pushElement fourLinks ⟨0⟩ (.smi 2) (singletonWorld false) = some (some 2, w') ∧
        (ownPropertyNames fourLinks ⟨0⟩ w').map Prod.fst =
          some [.ofIndex 0, .ofIndex 1, .ofString "length"]) ∧
      ∃ w', setProperty fourLinks ⟨0⟩ (.ofString "length") (.smi 2) (singletonWorld false) =
          some (.ok true, w') ∧
        (ownPropertyNames fourLinks ⟨0⟩ w').map Prod.fst =
          some [.ofIndex 0, .ofIndex 1, .ofString "length"] :=
  ⟨rfl, rfl, ⟨_, rfl, rfl⟩, ⟨_, rfl, rfl⟩⟩

end ScriptCore
