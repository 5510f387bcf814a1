import ScriptCore.Proofs.Binary64.Exact
import ScriptCore.Proofs.Text.Forms
import ScriptCore.Value.Equality

/-!
# ScriptCore.Proofs.Value.LooseEquality

Loose equality follows its **rules**, in either order of the two sides.

Design points:

* `LooselyEqual` has one rule per clause, and each says only what its clause says: a truth value is
  replaced by an integer, a string by the number that it reads as, an object by a primitive. What
  comes of it is left to the other rules.
* Numbers are compared as what they denote exactly, whatever their width.
* The world is part of the relation, since the methods of an object may change it. One side being
  the same as the other in a swapped comparison therefore covers the calls that are made.
-/

namespace ScriptCore

namespace Value

/-- Two numbers of any width denote the same. -/
def Numeric.SameNumber (m n : Numeric) : Prop := ∃ e, m.number? = some e ∧ n.number? = some e

/-- Strings, numbers and symbols: what an object is converted for. -/
inductive Converts : Value → Prop where
  | number {v : Value} {n : Numeric} (h : v.numeric? = some n) : Converts v
  | string (t : Text) : Converts (.string t)
  | symbol (s : Symbol) : Converts (.symbol s)

/-- The integer that a truth value counts as. -/
def ofBool (b : Bool) : Value := .smi (if b then 1 else 0)

end Value

variable {σ : Type}

/-- The rules of loose equality: in a world, two values compare with a result and leave a world. -/
inductive LooselyEqual (env : Embedding σ) :
    Value → Value → World σ → Bool → World σ → Prop where
  | nullish {a b w} (ha : a.isNullish = true) (hb : b.isNullish = true) :
      LooselyEqual env a b w true w
  | nullishLeft {a b w} (ha : a.isNullish = true) (hb : b.isNullish = false) :
      LooselyEqual env a b w false w
  | nullishRight {a b w} (ha : a.isNullish = false) (hb : b.isNullish = true) :
      LooselyEqual env a b w false w
  | truthLeft {x b w r w'} (h : LooselyEqual env (.ofBool x) b w r w') :
      LooselyEqual env (.boolean x) b w r w'
  | truthRight {a x w r w'} (h : LooselyEqual env a (.ofBool x) w r w') :
      LooselyEqual env a (.boolean x) w r w'
  | numbers {a b m n w r} (ha : a.numeric? = some m) (hb : b.numeric? = some n)
      (hr : r = true ↔ m.SameNumber n) : LooselyEqual env a b w r w
  | strings {s t w r} (hr : r = true ↔ s.units = t.units) :
      LooselyEqual env (.string s) (.string t) w r w
  | symbols {s t w r} (hr : r = true ↔ s.number = t.number) :
      LooselyEqual env (.symbol s) (.symbol t) w r w
  | stringNumber {s b n w r w'} (hb : b.numeric? = some n)
      (h : LooselyEqual env (.double s.toNumber) b w r w') :
      LooselyEqual env (.string s) b w r w'
  | numberString {a m t w r w'} (ha : a.numeric? = some m)
      (h : LooselyEqual env a (.double t.toNumber) w r w') :
      LooselyEqual env a (.string t) w r w'
  | symbolOther {s b w} (hb : b.numeric?.isSome ∨ ∃ t, b = .string t) :
      LooselyEqual env (.symbol s) b w false w
  | otherSymbol {a t w} (ha : a.numeric?.isSome ∨ ∃ s, a = .string s) :
      LooselyEqual env a (.symbol t) w false w
  | objects {x y w} : LooselyEqual env (.object x) (.object y) w (w.heap.sameIdentity x y) w
  | objectLeft {x b p w w₁ r w'} (hb : b.Converts)
      (hp : toPrimitive env x .any w = some (p, w₁)) (hprimitive : p.isObject = false)
      (h : LooselyEqual env p b w₁ r w') : LooselyEqual env (.object x) b w r w'
  | objectRight {a y p w w₁ r w'} (ha : a.Converts)
      (hp : toPrimitive env y .any w = some (p, w₁)) (hprimitive : p.isObject = false)
      (h : LooselyEqual env a p w₁ r w') : LooselyEqual env a (.object y) w r w'
  | objectLeftFails {x b p w w₁} (hb : b.Converts)
      (hp : toPrimitive env x .any w = some (p, w₁)) (hobject : p.isObject = true) :
      LooselyEqual env (.object x) b w false w₁
  | objectRightFails {a y p w w₁} (ha : a.Converts)
      (hp : toPrimitive env y .any w = some (p, w₁)) (hobject : p.isObject = true) :
      LooselyEqual env a (.object y) w false w₁

/-! ### Primitives -/

namespace Value

/-- A value of one of the kinds that comparisons tell apart, truth values and objects left out. -/
inductive Kind : Value → Prop where
  | nullish {v : Value} (h : v.isNullish = true) : Kind v
  | number {v : Value} {n : Numeric} (h : v.numeric? = some n) : Kind v
  | string (t : Text) : Kind (.string t)
  | symbol (s : Symbol) : Kind (.symbol s)

theorem kind_ofTruth {v : Value} (h : v.isObject = false) : v.ofTruth.Kind := by
  cases v with
  | undefined => exact .nullish rfl
  | null => exact .nullish rfl
  | string t => exact .string t
  | symbol s => exact .symbol s
  | object o => cases h
  | _ => exact .number rfl

theorem isNullish_iff {v : Value} : v.isNullish = true ↔ v = .undefined ∨ v = .null := by
  cases v <;> simp [isNullish]

theorem isNullish_of_numeric? {v : Value} {n : Numeric} (h : v.numeric? = some n) :
    v.isNullish = false := by
  cases v <;> simp [numeric?] at h <;> rfl

theorem isObject_of_isNullish {v : Value} (h : v.isNullish = true) : v.isObject = false := by
  rcases isNullish_iff.mp h with rfl | rfl <;> rfl

theorem isObject_of_numeric? {v : Value} {n : Numeric} (h : v.numeric? = some n) :
    v.isObject = false := by
  cases v <;> simp [numeric?] at h <;> rfl

theorem eq_object_of_isObject {v : Value} (h : v.isObject = true) : ∃ o, v = .object o := by
  cases v with
  | object o => exact ⟨o, rfl⟩
  | _ => cases h

theorem Kind.converts {v : Value} (h : v.Kind) (hn : v.isNullish = false) : v.Converts := by
  cases h with
  | nullish h => simp [hn] at h
  | number h => exact .number h
  | string t => exact .string t
  | symbol s => exact .symbol s

theorem Converts.isObject {v : Value} (h : v.Converts) : v.isObject = false := by
  cases h with
  | number h => exact isObject_of_numeric? h
  | string t => rfl
  | symbol s => rfl

theorem Converts.isNullish {v : Value} (h : v.Converts) : v.isNullish = false := by
  cases h with
  | number h => exact isNullish_of_numeric? h
  | string t => rfl
  | symbol s => rfl

theorem ofTruth_ofTruth (v : Value) : v.ofTruth.ofTruth = v.ofTruth := by cases v <;> rfl

theorem isNullish_ofTruth (v : Value) : v.ofTruth.isNullish = v.isNullish := by cases v <;> rfl

theorem primitiveLooseEq_ofTruth (a b : Value) :
    a.ofTruth.primitiveLooseEq b.ofTruth = a.primitiveLooseEq b := by
  simp only [primitiveLooseEq, ofTruth_ofTruth]

theorem primitiveLooseEq_ofTruth_right (a b : Value) :
    a.primitiveLooseEq b.ofTruth = a.primitiveLooseEq b := by
  simp only [primitiveLooseEq, ofTruth_ofTruth]

theorem primitiveLooseEq_object (o : ObjectId) (b : Value) :
    (Value.object o).primitiveLooseEq b = false := by
  unfold primitiveLooseEq
  generalize b.ofTruth = b
  cases b <;> rfl

theorem Numeric.eq_comm (m n : Numeric) : m.eq n = n.eq m := by
  rw [Bool.eq_iff_iff, eq_iff, eq_iff]
  exact exists_congr fun _ => and_comm

theorem symbol_beq_comm (s t : Symbol) : (s == t) = (t == s) := by
  show (s.number == t.number) = (t.number == s.number)
  exact BEq.comm

theorem primitiveLooseEq_comm (a b : Value) : a.primitiveLooseEq b = b.primitiveLooseEq a := by
  unfold primitiveLooseEq
  generalize a.ofTruth = a
  generalize b.ofTruth = b
  dsimp only
  cases hm : a.numeric? with
  | some m =>
      cases hn : b.numeric? with
      | some n => exact Numeric.eq_comm m n
      | none => rfl
  | none =>
      cases hn : b.numeric? with
      | some n => rfl
      | none =>
          cases a with
          | string s =>
              cases b with
              | string t => exact BEq.comm
              | _ => rfl
          | symbol s =>
              cases b with
              | symbol t => exact symbol_beq_comm s t
              | _ => rfl
          | _ => cases b <;> rfl

/-! ### Primitives of each kind -/

theorem ofTruth_of_numeric? {v : Value} {n : Numeric} (h : v.numeric? = some n) :
    v.ofTruth = v := by
  cases v <;> simp [numeric?] at h <;> rfl

theorem primitiveLooseEq_of_isNullish {a : Value} (ha : a.isNullish = true) (b : Value) :
    a.primitiveLooseEq b = b.isNullish := by
  unfold primitiveLooseEq
  rw [← isNullish_ofTruth b]
  generalize b.ofTruth = b
  rcases isNullish_iff.mp ha with rfl | rfl <;> cases b <;> rfl

theorem primitiveLooseEq_numbers {a b : Value} {m n : Numeric} (ha : a.numeric? = some m)
    (hb : b.numeric? = some n) : a.primitiveLooseEq b = m.eq n := by
  simp only [primitiveLooseEq, ofTruth_of_numeric? ha, ofTruth_of_numeric? hb, ha, hb]

theorem primitiveLooseEq_string {b : Value} {n : Numeric} (hb : b.numeric? = some n) (s : Text) :
    (Value.string s).primitiveLooseEq b = (Numeric.float s.toNumber).eq n := by
  simp only [primitiveLooseEq, ofTruth_of_numeric? hb, hb]
  rfl

theorem primitiveLooseEq_symbol {b : Value} {n : Numeric} (hb : b.numeric? = some n) (s : Symbol) :
    (Value.symbol s).primitiveLooseEq b = false := by
  simp only [primitiveLooseEq, ofTruth_of_numeric? hb, hb]
  rfl

end Value

theorem Heap.sameIdentity_comm (h : Heap) (x y : ObjectId) :
    h.sameIdentity x y = h.sameIdentity y x := by
  unfold sameIdentity
  congr 1
  · exact BEq.comm
  · cases (h.payload x).shared? <;> cases (h.payload y).shared? <;> first | rfl | exact BEq.comm

namespace LooselyEqual

variable {env : Embedding σ} {a b : Value} {w w' : World σ} {r : Bool}

theorem ofTruth (h : LooselyEqual env a.ofTruth b.ofTruth w r w') :
    LooselyEqual env a b w r w' := by
  have hright : ∀ {a}, LooselyEqual env a b.ofTruth w r w' → LooselyEqual env a b w r w' := by
    intro a h
    cases b with
    | boolean x => exact .truthRight h
    | _ => exact h
  cases a with
  | boolean x => exact .truthLeft (hright h)
  | _ => exact hright h

/-- The rules give the same for strings, numbers and symbols as the comparison does. -/
theorem converts (env : Embedding σ) (w : World σ) (ha : a.Converts) (hb : b.Converts) :
    LooselyEqual env a b w (a.primitiveLooseEq b) w := by
  cases ha with
  | number hm =>
      cases hb with
      | number hn =>
          rw [Value.primitiveLooseEq_numbers hm hn]
          exact .numbers hm hn Value.Numeric.eq_iff
      | string t =>
          rw [Value.primitiveLooseEq_comm, Value.primitiveLooseEq_string hm, Value.Numeric.eq_comm]
          exact .numberString hm (.numbers hm rfl Value.Numeric.eq_iff)
      | symbol t =>
          rw [Value.primitiveLooseEq_comm, Value.primitiveLooseEq_symbol hm]
          exact .otherSymbol (.inl (by rw [hm]; rfl))
  | string s =>
      cases hb with
      | number hn =>
          rw [Value.primitiveLooseEq_string hn]
          exact .stringNumber hn (.numbers rfl hn Value.Numeric.eq_iff)
      | string t => exact .strings Text.beq_iff_units
      | symbol t => exact .otherSymbol (.inr ⟨s, rfl⟩)
  | symbol s =>
      cases hb with
      | number hn =>
          rw [Value.primitiveLooseEq_symbol hn]
          exact .symbolOther (.inl (by rw [hn]; rfl))
      | string t => exact .symbolOther (.inr ⟨t, rfl⟩)
      | symbol t =>
          have hbeq : (s.number == t.number) = true ↔ s.number = t.number := beq_iff_eq
          exact .symbols hbeq

theorem primitives (env : Embedding σ) (w : World σ) (ha : a.isObject = false)
    (hb : b.isObject = false) : LooselyEqual env a b w (a.primitiveLooseEq b) w := by
  refine ofTruth ?_
  rw [← Value.primitiveLooseEq_ofTruth]
  have hka := Value.kind_ofTruth ha
  have hkb := Value.kind_ofTruth hb
  generalize a.ofTruth = a at hka ⊢
  generalize b.ofTruth = b at hkb ⊢
  cases hna : a.isNullish with
  | true =>
      rw [Value.primitiveLooseEq_of_isNullish hna]
      cases hnb : b.isNullish with
      | true => exact .nullish hna hnb
      | false => exact .nullishLeft hna hnb
  | false =>
      cases hnb : b.isNullish with
      | true =>
          rw [Value.primitiveLooseEq_comm, Value.primitiveLooseEq_of_isNullish hnb, hna]
          exact .nullishRight hna hnb
      | false => exact converts env w (hka.converts hna) (hkb.converts hnb)

end LooselyEqual

/-! ### Objects -/

section Objects

variable {env : Embedding σ} {a b : Value} {w w' : World σ} {r : Bool} {x y : ObjectId}

theorem looseEq_primitives (ha : a.isObject = false) (hb : b.isObject = false) (w : World σ) :
    looseEq env a b w = some (a.primitiveLooseEq b, w) := by
  cases a with
  | object x => cases ha
  | _ =>
      cases b with
      | object y => cases hb
      | _ => rfl

theorem looseEq_objectLeft (hb : b.isObject = false) :
    looseEq env (.object x) b = objectLooseEq env x b := by
  cases b with
  | object y => cases hb
  | _ => rfl

theorem looseEq_objectRight (ha : a.isObject = false) :
    looseEq env a (.object y) = objectLooseEq env y a := by
  cases a with
  | object x => cases ha
  | _ => rfl

theorem objectLooseEq_of_isNullish (hb : b.isNullish = true) (w : World σ) :
    objectLooseEq env x b w = some (false, w) := by
  rw [objectLooseEq, if_pos hb]
  rfl

theorem objectLooseEq_eq (hb : b.isNullish = false) (w : World σ) :
    objectLooseEq env x b w =
      (toPrimitive env x .any w).map fun p => (p.1.primitiveLooseEq b, p.2) := by
  rw [objectLooseEq, if_neg (by simp [hb])]
  show (toPrimitive env x .any w).bind _ = _
  cases toPrimitive env x .any w <;> rfl

/-- The side that an operand stands on plays no part. -/
theorem looseEq_comm (env : Embedding σ) (a b : Value) : looseEq env a b = looseEq env b a := by
  cases ha : a.isObject with
  | false =>
      cases hb : b.isObject with
      | false =>
          funext w
          rw [looseEq_primitives ha hb, looseEq_primitives hb ha, Value.primitiveLooseEq_comm]
      | true =>
          obtain ⟨y, rfl⟩ := Value.eq_object_of_isObject hb
          rw [looseEq_objectRight ha, looseEq_objectLeft ha]
  | true =>
      obtain ⟨x, rfl⟩ := Value.eq_object_of_isObject ha
      cases hb : b.isObject with
      | false => rw [looseEq_objectLeft hb, looseEq_objectRight hb]
      | true =>
          obtain ⟨y, rfl⟩ := Value.eq_object_of_isObject hb
          funext w
          show some (w.heap.sameIdentity x y, w) = some (w.heap.sameIdentity y x, w)
          rw [Heap.sameIdentity_comm]

/-- A truth value compares as the integer that it counts as. -/
theorem looseEq_truthLeft (env : Embedding σ) (z : Bool) (b : Value) :
    looseEq env (.boolean z) b = looseEq env (.ofBool z) b := by
  cases b <;> rfl

theorem looseEq_nullish (ha : a.isNullish = true) (hb : b.isNullish = false) (w : World σ) :
    looseEq env a b w = some (false, w) := by
  have hao := Value.isObject_of_isNullish ha
  cases hbo : b.isObject with
  | false => rw [looseEq_primitives hao hbo, Value.primitiveLooseEq_of_isNullish ha, hb]
  | true =>
      obtain ⟨y, rfl⟩ := Value.eq_object_of_isObject hbo
      rw [looseEq_objectRight hao, objectLooseEq_of_isNullish ha]

theorem looseEq_symbol {s : Symbol} (hb : b.numeric?.isSome ∨ ∃ t, b = .string t) (w : World σ) :
    looseEq env (.symbol s) b w = some (false, w) := by
  rcases hb with hb | ⟨t, rfl⟩
  · obtain ⟨n, hn⟩ := Option.isSome_iff_exists.mp hb
    rw [looseEq_primitives rfl (Value.isObject_of_numeric? hn), Value.primitiveLooseEq_symbol hn]
  · rfl

/-- Values that are strictly equal are loosely equal, and nothing is run to find out. -/
theorem looseEq_of_strictEq (env : Embedding σ) (h : w.heap.strictEq a b = true) :
    looseEq env a b w = some (true, w) := by
  unfold Heap.strictEq at h
  split at h
  · rename_i m n ha hb
    rw [looseEq_primitives (Value.isObject_of_numeric? ha) (Value.isObject_of_numeric? hb),
      Value.primitiveLooseEq_numbers ha hb, h]
  · unfold Heap.identical at h
    split at h
    · rfl
    · rfl
    · rename_i x y _ _
      obtain rfl : x = y := by simpa using h
      cases x <;> rfl
    · exact congrArg (fun r => some (r, w)) h
    · exact congrArg (fun r => some (r, w)) h
    · exact congrArg (fun r => some (r, w)) h
    · cases h
  · cases h

/-! ### The rules and the algorithm -/

namespace LooselyEqual

theorem symm (h : LooselyEqual env a b w r w') : LooselyEqual env b a w r w' := by
  induction h with
  | nullish ha hb => exact .nullish hb ha
  | nullishLeft ha hb => exact .nullishRight hb ha
  | nullishRight ha hb => exact .nullishLeft hb ha
  | truthLeft _ ih => exact .truthRight ih
  | truthRight _ ih => exact .truthLeft ih
  | numbers ha hb hr => exact .numbers hb ha (hr.trans (exists_congr fun _ => and_comm))
  | strings hr => exact .strings (hr.trans eq_comm)
  | symbols hr => exact .symbols (hr.trans eq_comm)
  | stringNumber hb _ ih => exact .numberString hb ih
  | numberString ha _ ih => exact .stringNumber ha ih
  | symbolOther hb => exact .otherSymbol hb
  | otherSymbol ha => exact .symbolOther ha
  | objects =>
      rw [Heap.sameIdentity_comm]
      exact .objects
  | objectLeft hb hp hprimitive _ ih => exact .objectRight hb hp hprimitive ih
  | objectRight ha hp hprimitive _ ih => exact .objectLeft ha hp hprimitive ih
  | objectLeftFails hb hp hobject => exact .objectRightFails hb hp hobject
  | objectRightFails ha hp hobject => exact .objectLeftFails ha hp hobject

theorem of_objectLooseEq (hb : b.isObject = false)
    (h : objectLooseEq env x b w = some (r, w')) : LooselyEqual env (.object x) b w r w' := by
  cases hn : b.isNullish with
  | true =>
      rw [objectLooseEq_of_isNullish hn] at h
      cases h
      exact .nullishRight rfl hn
  | false =>
      rw [objectLooseEq_eq hn] at h
      obtain ⟨⟨p, w₁⟩, hp, heq⟩ := Option.map_eq_some_iff.mp h
      cases heq
      -- The rules replace a truth value before they convert the object, the algorithm after that.
      have hconverts : b.ofTruth.Converts :=
        (Value.kind_ofTruth hb).converts (by rw [Value.isNullish_ofTruth, hn])
      refine ofTruth (a := .object x) ?_
      cases hpo : p.isObject with
      | true =>
          obtain ⟨o, rfl⟩ := Value.eq_object_of_isObject hpo
          rw [Value.primitiveLooseEq_object]
          exact .objectLeftFails hconverts hp rfl
      | false =>
          rw [← Value.primitiveLooseEq_ofTruth_right]
          exact .objectLeft hconverts hp hpo (primitives env w₁ hpo hconverts.isObject)

/-- Every result of the algorithm follows from the rules. -/
theorem of_looseEq (h : looseEq env a b w = some (r, w')) : LooselyEqual env a b w r w' := by
  cases ha : a.isObject with
  | false =>
      cases hb : b.isObject with
      | false =>
          rw [looseEq_primitives ha hb] at h
          cases h
          exact primitives env w ha hb
      | true =>
          obtain ⟨y, rfl⟩ := Value.eq_object_of_isObject hb
          rw [looseEq_objectRight ha] at h
          exact (of_objectLooseEq ha h).symm
  | true =>
      obtain ⟨x, rfl⟩ := Value.eq_object_of_isObject ha
      cases hb : b.isObject with
      | false =>
          rw [looseEq_objectLeft hb] at h
          exact of_objectLooseEq hb h
      | true =>
          obtain ⟨y, rfl⟩ := Value.eq_object_of_isObject hb
          cases h
          exact .objects

/-- Every result that follows from the rules is that of the algorithm. -/
theorem looseEq_eq (h : LooselyEqual env a b w r w') : looseEq env a b w = some (r, w') := by
  -- Rules about the right side follow from those about the left, as the algorithm is symmetric.
  induction h with
  | nullish ha hb =>
      rw [looseEq_primitives (Value.isObject_of_isNullish ha) (Value.isObject_of_isNullish hb),
        Value.primitiveLooseEq_of_isNullish ha, hb]
  | nullishLeft ha hb => exact looseEq_nullish ha hb _
  | nullishRight ha hb =>
      rw [looseEq_comm]
      exact looseEq_nullish hb ha _
  | truthLeft _ ih =>
      rw [looseEq_truthLeft]
      exact ih
  | truthRight _ ih =>
      rw [looseEq_comm] at ih ⊢
      rw [looseEq_truthLeft]
      exact ih
  | numbers ha hb hr =>
      rw [looseEq_primitives (Value.isObject_of_numeric? ha) (Value.isObject_of_numeric? hb),
        Value.primitiveLooseEq_numbers ha hb,
        Bool.eq_iff_iff.mpr (Value.Numeric.eq_iff.trans hr.symm)]
  | @strings s t w r hr =>
      rw [Bool.eq_iff_iff.mpr (hr.trans Text.beq_iff_units.symm)]
      rfl
  | @symbols s t w r hr =>
      have hbeq : (s.number == t.number) = true ↔ s.number = t.number := beq_iff_eq
      rw [Bool.eq_iff_iff.mpr (hr.trans hbeq.symm)]
      rfl
  | stringNumber hb _ ih =>
      have hbo := Value.isObject_of_numeric? hb
      rw [looseEq_primitives rfl hbo, Value.primitiveLooseEq_numbers rfl hb] at ih
      rw [looseEq_primitives rfl hbo, Value.primitiveLooseEq_string hb]
      exact ih
  | numberString ha _ ih =>
      have hao := Value.isObject_of_numeric? ha
      rw [looseEq_comm, looseEq_primitives rfl hao, Value.primitiveLooseEq_numbers rfl ha] at ih
      rw [looseEq_comm, looseEq_primitives rfl hao, Value.primitiveLooseEq_string ha]
      exact ih
  | symbolOther hb => exact looseEq_symbol hb _
  | otherSymbol ha =>
      rw [looseEq_comm]
      exact looseEq_symbol ha _
  | objects => rfl
  | objectLeft hb hp hprimitive _ ih =>
      rw [looseEq_primitives hprimitive hb.isObject] at ih
      rw [looseEq_objectLeft hb.isObject, objectLooseEq_eq hb.isNullish, hp]
      exact ih
  | objectRight ha hp hprimitive _ ih =>
      rw [looseEq_comm, looseEq_primitives hprimitive ha.isObject] at ih
      rw [looseEq_objectRight ha.isObject, objectLooseEq_eq ha.isNullish, hp]
      exact ih
  | objectLeftFails hb hp hobject =>
      obtain ⟨o, rfl⟩ := Value.eq_object_of_isObject hobject
      rw [looseEq_objectLeft hb.isObject, objectLooseEq_eq hb.isNullish, hp, Option.map_some,
        Value.primitiveLooseEq_object]
  | objectRightFails ha hp hobject =>
      obtain ⟨o, rfl⟩ := Value.eq_object_of_isObject hobject
      rw [looseEq_objectRight ha.isObject, objectLooseEq_eq ha.isNullish, hp, Option.map_some,
        Value.primitiveLooseEq_object]

end LooselyEqual

end Objects

/-- Loose equality gives what its rules give. Swapping the sides changes neither the result nor what
is run on the way, and strict equality implies it. -/
theorem looseEq_follows_rules (env : Embedding σ) (a b : Value) :
    (∀ w r w', looseEq env a b w = some (r, w') ↔ LooselyEqual env a b w r w') ∧
      looseEq env a b = looseEq env b a ∧
      ∀ w : World σ, w.heap.strictEq a b = true → looseEq env a b w = some (true, w) :=
  ⟨fun _ _ _ => ⟨.of_looseEq, LooselyEqual.looseEq_eq⟩, looseEq_comm env a b,
    fun _ h => looseEq_of_strictEq env h⟩

/-- A world with a box around the text of an integer. -/
def boxWorld : World Unit :=
  ⟨{ Heap.empty with objects := #[.new (.boxed (.string (.ofString "1"))) none] }, .start, #[], ()⟩

/-- Two widths of an integer are equal since they are strictly equal. A truth value and a box are
equal by rules: the one becomes an integer, the other a text and that a number. -/
theorem looseEq_follows_rules_on_box :
    looseEq default (.int32 1) (.uint32 1) boxWorld = some (true, boxWorld) ∧
      LooselyEqual default (.boolean true) (.object ⟨0⟩) boxWorld true boxWorld ∧
      looseEq default (.boolean true) (.object ⟨0⟩) boxWorld = some (true, boxWorld) ∧
      looseEq default (.object ⟨0⟩) (.boolean true) boxWorld = some (true, boxWorld) := by
  have converted : toPrimitive default ⟨0⟩ .any boxWorld =
      some (.string (.ofString "1"), boxWorld) := rfl
  have same : true = true ↔ (Value.Numeric.int 1).SameNumber (.float (Text.ofString "1").toNumber) :=
    iff_of_true rfl (Value.Numeric.eq_iff.mp (by decide +kernel))
  have rules : LooselyEqual default (.boolean true) (.object ⟨0⟩) boxWorld true boxWorld :=
    .truthLeft (.objectRight (.number rfl) converted rfl (.numberString rfl (.numbers rfl rfl same)))
  obtain ⟨follows, commutes, -⟩ := looseEq_follows_rules default (.boolean true) (.object ⟨0⟩)
  have equal := (follows boxWorld true boxWorld).mpr rules
  refine ⟨(looseEq_follows_rules default (.int32 1) (.uint32 1)).2.2 _ rfl, rules, equal, ?_⟩
  rw [← commutes]
  exact equal

end ScriptCore
