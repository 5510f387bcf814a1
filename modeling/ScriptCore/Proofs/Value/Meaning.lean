import ScriptCore.Proofs.Binary64.Fields
import ScriptCore.Proofs.Host.Identity
import ScriptCore.Proofs.Object.Membership

/-!
# ScriptCore.Proofs.Value.Meaning

Strict equality and sameness as equality of what values **denote**.

Design points:

* A meaning keeps what the equalities look at and drops the rest: the width of a number, the form
  of a string, the description of a symbol, the object around data of the host.
* The two equalities then differ in two places only. What is not a number denotes something that
  strict equality refuses (`strictEq_iff`), and sameness looks at the sign of a zero besides
  (`same_iff`). That both are as transitive as equality is follows, whatever widths are mixed.
-/

namespace ScriptCore

/-! ### Numbers -/

namespace Binary64

/-- The word is the zero of negative sign. -/
def isNegativeZero (x : Binary64) : Bool := x.isZero && x.isNegative

theorem number?_eq_none_iff {x : Binary64} : x.number? = none ↔ x.isNaN = true := by
  refine ⟨fun none => ?_, number?_of_isNaN⟩
  by_contra number
  obtain ⟨e, he⟩ := exists_number? (Bool.eq_false_iff.mpr number)
  cases none.symm.trans he

theorem isZero_of_isNaN {x : Binary64} (nan : x.isNaN = true) : x.isZero = false := by
  rw [← Bool.not_eq_true, isZero_iff, number?_of_isNaN nan]
  exact nofun

/-- Away from the zeros the sign is part of what a word denotes. -/
theorem isNegative_eq_iff {x y : Binary64} {e : ExactNumber} (hx : x.number? = some e)
    (hy : y.number? = some e) :
    x.isNegative = y.isNegative ↔ x.isNegativeZero = y.isNegativeZero := by
  by_cases zero : e = .finite 0
  · subst zero
    simp [isNegativeZero, isZero_iff.mpr hx, isZero_iff.mpr hy]
  · simp [eq_of_number? hx hy zero]

end Binary64

namespace Value.Numeric

/-- The number is the zero of negative sign. -/
def isNegativeZero : Numeric → Bool
  | .int _ => false
  | .float x => x.isNegativeZero

theorem number?_of_isNegativeZero {m : Numeric} (zero : m.isNegativeZero = true) :
    m.number? = some (.finite 0) := by
  cases m with
  | int n => cases zero
  | float x => exact Binary64.isZero_iff.mp (Bool.and_eq_true_iff.mp zero).1

theorem isZero_of_intEqFloat {n : Int} {x : Binary64} (equal : intEqFloat n x = true) :
    x.isZero = (n == 0) := by
  rw [Bool.eq_iff_iff, Binary64.isZero_iff, intEqFloat_iff.mp equal]
  simp

/-- An integer is never the zero of negative sign. -/
theorem same_int_float {n : Int} {x : Binary64} :
    (intEqFloat n x && !(n == 0 && x.isNegative)) = true ↔
      x.number? = some (.finite n) ∧ x.isNegativeZero = false := by
  rw [Bool.and_eq_true, Bool.not_eq_true', intEqFloat_iff]
  refine and_congr_right fun denotes => ?_
  rw [Binary64.isNegativeZero, isZero_of_intEqFloat (intEqFloat_iff.mpr denotes)]

theorem same_floats {x y : Binary64} :
    same (.float x) (.float y) = true ↔
      x.number? = y.number? ∧ x.isNegativeZero = y.isNegativeZero := by
  cases hx : x.isNaN with
  | true =>
      have hy : x.number? = y.number? ↔ y.isNaN = true := by
        rw [Binary64.number?_of_isNaN hx, Eq.comm, Binary64.number?_eq_none_iff]
      rw [hy]
      refine ⟨fun equal => ?_, fun nan => ?_⟩
      · have nan : y.isNaN = true := by simpa [same, hx, Binary64.numEq] using equal
        simp [nan, Binary64.isNegativeZero, Binary64.isZero_of_isNaN, hx]
      · simp [same, hx, nan]
  | false =>
      obtain ⟨e, he⟩ := Binary64.exists_number? hx
      have hequal : x.numEq y = true ↔ y.number? = some e := by
        rw [Binary64.numEq_iff, he]
        simp [Eq.comm]
      simp only [same, hx, Bool.false_and, Bool.false_or, Bool.and_eq_true, beq_iff_eq, hequal, he,
        Eq.comm (a := some e)]
      exact and_congr_right fun hy => Binary64.isNegative_eq_iff he hy

/-- Sameness is equality of what numbers denote and of the sign of a zero. -/
theorem same_iff {m n : Numeric} :
    m.same n = true ↔ m.number? = n.number? ∧ m.isNegativeZero = n.isNegativeZero := by
  cases m with
  | int m =>
      cases n with
      | int n => simp [same, number?, isNegativeZero]
      | float y =>
          rw [Eq.comm (a := number? _), Eq.comm (a := isNegativeZero _)]
          exact same_int_float
  | float x =>
      cases n with
      | int n => exact same_int_float
      | float y => exact same_floats

end Value.Numeric

/-! ### Meanings -/

/-- What a value is to the equalities. -/
inductive Meaning where
  | undefined
  | null
  | boolean (b : Bool)
  | number (e : ExactNumber)
  | nan
  | string (units : List UInt16)
  | symbol (number : Nat)
  | allocation (a : Allocation)
deriving DecidableEq

/-- The meaning is that of a number. -/
def Meaning.isNumeric : Meaning → Bool
  | .number _ | .nan => true
  | _ => false

/-- What a number denotes. -/
def Value.Numeric.meaning (m : Numeric) : Meaning := m.number?.elim .nan .number

/-- The value is the zero of negative sign. -/
def Value.isNegativeZero (v : Value) : Bool := v.numeric.isNegativeZero

/-- The exact value of a number: an integer itself, or what the fields of a word spell. -/
def Value.exactNumber? : Value → Option ExactNumber
  | .smi n | .int64 n => some (.finite n.toInt)
  | .int32 n => some (.finite n.toInt)
  | .uint32 n => some (.finite n.toNat)
  | .double x => x.ofFields?
  | _ => none

namespace Value

variable {v : Value} {m n : Numeric}

theorem not_isNaN (notNumber : v.numeric? = none) : ¬v.IsNaN := by
  intro ⟨m, hm, _⟩
  cases notNumber.symm.trans hm

theorem isNegativeZero_of_number (number : v.numeric? = some m) :
    v.isNegativeZero = m.isNegativeZero := by
  rw [isNegativeZero, numeric, number, Option.getD_some]

theorem isNegativeZero_of_not_number (notNumber : v.numeric? = none) :
    v.isNegativeZero = false := by
  rw [isNegativeZero, numeric, notNumber, Option.getD_none]
  rfl

theorem exactNumber?_of_number (number : v.numeric? = some m) : v.exactNumber? = m.number? := by
  cases v with
  | double x =>
      cases number
      exact (Binary64.number?_eq_ofFields? x).symm
  | _ => cases number <;> rfl

namespace Numeric

theorem meaning_eq_iff : m.meaning = n.meaning ↔ m.number? = n.number? := by
  rw [meaning, meaning]
  cases m.number? <;> cases n.number? <;> simp

theorem meaning_eq_number_iff {e : ExactNumber} :
    m.meaning = .number e ↔ m.number? = some e := by
  rw [meaning]
  cases m.number? <;> simp

theorem meaning_eq_nan_iff : m.meaning = .nan ↔ m.number? = none := by
  rw [meaning]
  cases m.number? <;> simp

/-- Equality of numbers is equality of meanings, refused to what is not a number. -/
theorem eq_iff_meaning :
    m.eq n = true ↔ m.meaning = n.meaning ∧ m.meaning ≠ .nan := by
  rw [eq_iff, Ne, meaning_eq_nan_iff, meaning_eq_iff]
  cases m.number? <;> simp [Eq.comm]

theorem isNumeric_meaning (m : Numeric) : m.meaning.isNumeric = true := by
  rw [meaning]
  cases m.number? <;> rfl

end Numeric

end Value

theorem Payload.shared?_ne_object (p : Payload) (o : ObjectId) : p.shared? ≠ some (.object o) := by
  rw [shared?_eq]
  cases p.hostValue? with
  | none => exact nofun
  | some v => cases v <;> exact nofun

namespace Heap

variable {h : Heap} {a b c : Value} {m n : Value.Numeric}

/-- What an object counts as: the data of the host that it wraps, or itself. -/
def identity (h : Heap) (o : ObjectId) : Allocation := (h.payload o).shared?.getD (.object o)

theorem sameIdentity_iff_identity (h : Heap) (o p : ObjectId) :
    h.sameIdentity o p = true ↔ h.identity o = h.identity p := by
  rw [sameIdentity_iff]
  constructor
  · intro one
    rcases one with rfl | ⟨a, ho, hp⟩
    · rfl
    · simp [identity, ho, hp]
  · intro one
    have notObject := (h.payload p).shared?_ne_object o
    have notObject' := (h.payload o).shared?_ne_object p
    cases ho : (h.payload o).shared? <;> cases hp : (h.payload p).shared? <;>
      simp_all [identity]

/-- What a value denotes in a heap. -/
def meaning (h : Heap) : Value → Meaning
  | .undefined => .undefined
  | .null => .null
  | .boolean b => .boolean b
  | .string t => .string t.units
  | .symbol s => .symbol s.number
  | .object o => .allocation (h.identity o)
  | v => v.numeric.meaning

theorem meaning_of_number (number : a.numeric? = some m) : h.meaning a = m.meaning := by
  cases a <;> cases number <;> rfl

theorem isNumeric_meaning (h : Heap) (a : Value) :
    (h.meaning a).isNumeric = a.numeric?.isSome := by
  cases ha : a.numeric? with
  | some m => rw [meaning_of_number ha, m.isNumeric_meaning, Option.isSome_some]
  | none => cases a <;> cases ha <;> rfl

/-- A number denotes what nothing else does. -/
theorem meaning_ne (ha : a.numeric? = some m) (hb : b.numeric? = none) :
    h.meaning a ≠ h.meaning b := by
  intro equal
  have number := h.isNumeric_meaning b
  rw [← equal, isNumeric_meaning, ha, hb] at number
  cases number

theorem isNaN_iff_meaning : a.IsNaN ↔ h.meaning a = .nan := by
  cases ha : a.numeric? with
  | some m => rw [Value.isNaN_iff ha, meaning_of_number ha, Value.Numeric.meaning_eq_nan_iff]
  | none =>
      have numeric := h.isNumeric_meaning a
      rw [ha] at numeric
      refine iff_of_false (Value.not_isNaN ha) fun nan => ?_
      rw [nan] at numeric
      cases numeric

theorem exactNumber?_eq_some_iff {e : ExactNumber} :
    h.meaning a = .number e ↔ a.exactNumber? = some e := by
  cases ha : a.numeric? with
  | some m =>
      rw [meaning_of_number ha, Value.exactNumber?_of_number ha,
        Value.Numeric.meaning_eq_number_iff]
  | none => cases a <;> cases ha <;> exact iff_of_false nofun nofun

theorem meaning_of_isNegativeZero (zero : a.isNegativeZero = true) :
    h.meaning a = .number (.finite 0) := by
  cases ha : a.numeric? with
  | some m =>
      rw [Value.isNegativeZero_of_number ha] at zero
      rw [meaning_of_number ha, Value.Numeric.meaning_eq_number_iff]
      exact Value.Numeric.number?_of_isNegativeZero zero
  | none =>
      rw [Value.isNegativeZero_of_not_number ha] at zero
      cases zero

theorem identical_iff (ha : a.numeric? = none) (hb : b.numeric? = none) :
    h.identical a b = true ↔ h.meaning a = h.meaning b := by
  have hsymbol (s t : Symbol) : (s == t) = (s.number == t.number) := rfl
  cases a <;> cases ha <;> cases b <;> cases hb <;>
    simp [identical, meaning, hsymbol, sameIdentity_iff_identity]

/-- Strict equality is equality of meanings, refused to what is not a number. -/
theorem strictEq_iff :
    h.strictEq a b = true ↔ h.meaning a = h.meaning b ∧ h.meaning a ≠ .nan := by
  cases ha : a.numeric? with
  | some m =>
      cases hb : b.numeric? with
      | some n =>
          rw [strictEq, ha, hb, meaning_of_number ha, meaning_of_number hb]
          exact Value.Numeric.eq_iff_meaning
      | none =>
          exact iff_of_false (by simp [strictEq, ha, hb]) fun equal => meaning_ne ha hb equal.1
  | none =>
      cases hb : b.numeric? with
      | some n =>
          exact iff_of_false (by simp [strictEq, ha, hb]) fun equal =>
            meaning_ne hb ha equal.1.symm
      | none =>
          rw [strictEq, ha, hb, and_iff_left (mt isNaN_iff_meaning.mpr (Value.not_isNaN ha))]
          exact identical_iff ha hb

/-- Sameness is equality of meanings and of the sign of a zero. -/
theorem same_iff : h.same a b = true ↔
    h.meaning a = h.meaning b ∧ a.isNegativeZero = b.isNegativeZero := by
  cases ha : a.numeric? with
  | some m =>
      cases hb : b.numeric? with
      | some n =>
          rw [same, ha, hb, meaning_of_number ha, meaning_of_number hb,
            Value.Numeric.meaning_eq_iff, Value.isNegativeZero_of_number ha,
            Value.isNegativeZero_of_number hb]
          exact Value.Numeric.same_iff
      | none =>
          exact iff_of_false (by simp [same, ha, hb]) fun equal => meaning_ne ha hb equal.1
  | none =>
      cases hb : b.numeric? with
      | some n =>
          exact iff_of_false (by simp [same, ha, hb]) fun equal =>
            meaning_ne hb ha equal.1.symm
      | none =>
          rw [same, ha, hb, Value.isNegativeZero_of_not_number ha,
            Value.isNegativeZero_of_not_number hb, and_iff_left rfl]
          exact identical_iff ha hb

/-! ### The relations -/

theorem same_equivalence (h : Heap) : Equivalence fun a b => h.same a b = true where
  refl a := same_iff.mpr ⟨rfl, rfl⟩
  symm hab := by
    rw [same_iff] at hab ⊢
    exact ⟨hab.1.symm, hab.2.symm⟩
  trans hab hbc := by
    rw [same_iff] at hab hbc ⊢
    exact ⟨hab.1.trans hbc.1, hab.2.trans hbc.2⟩

theorem strictEq_symm (hab : h.strictEq a b = true) : h.strictEq b a = true := by
  rw [strictEq_iff] at hab ⊢
  exact ⟨hab.1.symm, hab.1 ▸ hab.2⟩

theorem strictEq_trans (hab : h.strictEq a b = true) (hbc : h.strictEq b c = true) :
    h.strictEq a c = true := by
  rw [strictEq_iff] at hab hbc ⊢
  exact ⟨hab.1.trans hbc.1, hab.2⟩

theorem strictEq_self_iff : h.strictEq a a = true ↔ ¬a.IsNaN := by
  rw [strictEq_iff, isNaN_iff_meaning (h := h), and_iff_right rfl]

theorem strictEq_or_isNaN_of_same (hab : h.same a b = true) :
    h.strictEq a b = true ∨ (a.IsNaN ∧ b.IsNaN) := by
  rw [same_iff] at hab
  rw [strictEq_iff, isNaN_iff_meaning (h := h), isNaN_iff_meaning (h := h), ← hab.1]
  by_cases nan : h.meaning a = .nan <;> simp [nan]

/-- Sameness sees no more than strict equality does but the sign of a zero. -/
theorem same_or_zero_of_strictEq (hab : h.strictEq a b = true) :
    h.same a b = true ∨
      (a.exactNumber? = some (.finite 0) ∧ b.exactNumber? = some (.finite 0)) := by
  rw [strictEq_iff] at hab
  rw [same_iff, ← exactNumber?_eq_some_iff (h := h), ← exactNumber?_eq_some_iff (h := h), ← hab.1,
    and_self]
  cases ha : a.isNegativeZero with
  | true => exact .inr (meaning_of_isNegativeZero ha)
  | false =>
      cases hb : b.isNegativeZero with
      | true => exact .inr (hab.1.trans (meaning_of_isNegativeZero hb))
      | false => exact .inl ⟨rfl, rfl⟩

theorem strictEq_numbers_iff (ha : a.isNumber = true) (hb : b.isNumber = true) :
    h.strictEq a b = true ↔ ∃ e, a.exactNumber? = some e ∧ b.exactNumber? = some e := by
  obtain ⟨m, ha⟩ := Option.isSome_iff_exists.mp ha
  obtain ⟨n, hb⟩ := Option.isSome_iff_exists.mp hb
  rw [strictEq, ha, hb, Value.exactNumber?_of_number ha, Value.exactNumber?_of_number hb]
  exact Value.Numeric.eq_iff

/-- Sameness is an equivalence, and strict equality is one on all but what is not a number, which it
refuses. They differ there and in the sign of a zero, and nowhere else. Numbers of any two widths are
strictly equal exactly if they have one exact value. -/
theorem equalities_are_equivalences (h : Heap) :
    (Equivalence fun a b => h.same a b = true) ∧
      ((∀ a b, h.strictEq a b = true → h.strictEq b a = true) ∧
        (∀ a b c, h.strictEq a b = true → h.strictEq b c = true → h.strictEq a c = true) ∧
        ∀ a, h.strictEq a a = true ↔ ¬a.IsNaN) ∧
      (∀ a b, h.same a b = true → h.strictEq a b = true ∨ (a.IsNaN ∧ b.IsNaN)) ∧
      (∀ a b, h.strictEq a b = true → h.same a b = true ∨
        (a.exactNumber? = some (.finite 0) ∧ b.exactNumber? = some (.finite 0))) ∧
      ∀ a b, a.isNumber = true → b.isNumber = true →
        (h.strictEq a b = true ↔ ∃ e, a.exactNumber? = some e ∧ b.exactNumber? = some e) :=
  ⟨h.same_equivalence,
    ⟨fun _ _ => strictEq_symm, fun _ _ _ => strictEq_trans, fun _ => strictEq_self_iff⟩,
    fun _ _ => strictEq_or_isNaN_of_same, fun _ _ => same_or_zero_of_strictEq,
    fun _ _ => strictEq_numbers_iff⟩

/-- Of the integers next to `2⁵³` one equals the word for `2⁵³`, and the other does not. -/
theorem equalities_are_equivalences_at_safe_integers :
    let h : Heap := default
    let double : Value := .double ⟨0x4340000000000000⟩
    let negativeZero : Value := .double ⟨0x8000000000000000⟩
    (h.strictEq (.int64 9007199254740992) double = true ∧
        h.strictEq double (.smi 9007199254740992) = true ∧
        h.strictEq (.int64 9007199254740992) (.smi 9007199254740992) = true ∧
        ∃ e, double.exactNumber? = some e ∧ (Value.smi 9007199254740992).exactNumber? = some e) ∧
      h.strictEq (.int64 9007199254740993) double = false ∧
      (h.strictEq negativeZero (.smi 0) = true ∧ h.same negativeZero (.smi 0) = false ∧
        negativeZero.exactNumber? = some (.finite 0)) := by
  intro h double negativeZero
  have left : h.strictEq (.int64 9007199254740992) double = true := by decide +kernel
  have right : h.strictEq double (.smi 9007199254740992) = true := by decide +kernel
  have zeros : h.strictEq negativeZero (.smi 0) = true := by decide +kernel
  have signs : h.same negativeZero (.smi 0) = false := by decide +kernel
  obtain ⟨-, ⟨-, trans, -⟩, -, differ, numbers⟩ := equalities_are_equivalences h
  refine ⟨⟨left, right, trans _ _ _ left right, (numbers _ _ rfl rfl).mp right⟩,
    by decide +kernel, zeros, signs, ?_⟩
  rcases differ _ _ zeros with same | zero
  · cases signs.symm.trans same
  · exact zero.1

end Heap

end ScriptCore
