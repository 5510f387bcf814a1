import ScriptCore.Object.Call
import ScriptCore.Proofs.Numeral.Digits
import ScriptCore.Proofs.Value.Meaning
import ScriptCore.Proofs.Value.LooseEquality

/-!
# ScriptCore.Proofs.Value.Widths

What the **width** of a number shows, and what it does not.

Design points:

* Truth, type, integers, keys and equality are functions of the exact number (`Numeric.number?`), so
  numbers that are equal cannot be told apart by them.
* Texts are not. An integer is written with all its digits, a word with the digits of its shortest
  decimal and zeros behind them. They differ where those digits are not all that the number has
  (`PrintsExactly`), which takes an integer beyond `2⁵³`.
-/

namespace ScriptCore

namespace Value

variable {v a b c : Value} {m n k : Numeric}

/-! ### Functions of the exact number -/

namespace Numeric

theorem eq_congr (same : m.number? = n.number?) (k : Numeric) : m.eq k = n.eq k := by
  rw [Bool.eq_iff_iff, eq_iff, eq_iff, same]

/-- The number is a word, not an integer. -/
def isFloat : Numeric → Bool
  | .int _ => false
  | .float _ => true

/-- The text of a number. -/
def text : Numeric → String
  | .int n => toString n
  | .float x => Layout.script.write x

/-- The digits that are printed are all the digits that the number has. Integers leave none out. -/
def PrintsExactly : Numeric → Prop
  | .int _ => True
  | .float x => x.PrintsExactly

end Numeric

theorem toBool_of_number (number : v.numeric? = some m) :
    v.toBool = true ↔ ∃ e, m.number? = some e ∧ e ≠ .finite 0 := by
  cases v with
  | smi i | int64 i =>
      cases number
      simp [toBool, Numeric.number?, ← Int64.toInt_inj]
  | int32 i =>
      cases number
      simp [toBool, Numeric.number?, ← Int32.toInt_inj]
  | uint32 i =>
      cases number
      simp [toBool, Numeric.number?, ← UInt32.toNat_inj]
  | double x =>
      cases number
      rw [toBool, Bool.and_eq_true, Bool.not_eq_true', Bool.not_eq_true', ← Bool.not_eq_true,
        ← Bool.not_eq_true, ← Binary64.number?_eq_none_iff, Binary64.isZero_iff]
      cases hx : x.number? <;> simp [Numeric.number?, hx]
  | _ => cases number

theorem typeOf_of_number (h : Heap) (number : v.numeric? = some m) :
    h.typeOf v = some "number" := by
  cases v <;> cases number <;> rfl

/-- Integers of every width are in the range of the widest. -/
theorem range_of_number {n : Int} (number : v.numeric? = some (.int n)) :
    -2 ^ 63 ≤ n ∧ n < 2 ^ 63 := by
  cases v with
  | smi i | int64 i =>
      cases number
      exact ⟨i.le_toInt, i.toInt_lt⟩
  | int32 i =>
      cases number
      have := i.le_toInt
      have := i.toInt_lt
      omega
  | uint32 i =>
      cases number
      have := i.toNat_lt
      omega
  | _ => cases number

theorem primitiveLooseEq_congr (ha : a.numeric? = some m) (hb : b.numeric? = some n)
    (same : m.number? = n.number?) (c : Value) : a.primitiveLooseEq c = b.primitiveLooseEq c := by
  have flipped (k : Numeric) : k.eq m = k.eq n := by
    rw [Numeric.eq_comm, Numeric.eq_congr same, Numeric.eq_comm]
  simp only [primitiveLooseEq, ofTruth_of_numeric? ha, ofTruth_of_numeric? hb, ha, hb]
  cases c.ofTruth.numeric? with
  | some k => exact Numeric.eq_congr same k
  | none => simp only [flipped]

/-! ### Integers and texts -/

/-- A whole number in range is converted into itself. -/
theorem Numeric.toInt64_of_whole {i : Int} (whole : m.number? = some (.finite i))
    (range : -2 ^ 63 ≤ i ∧ i < 2 ^ 63) : m.toInt64 = .ofInt i := by
  cases m with
  | int j =>
      have hij : j = i := by simpa [number?] using whole
      rw [hij, toInt64]
  | float x =>
      have equal := intEqFloat_iff.mpr whole
      simp only [intEqFloat, Bool.and_eq_true, beq_iff_eq] at equal
      obtain ⟨hnan, hinf, -⟩ := Binary64.finite_of_number? whole
      have inside : max (-2 ^ 63) (min (2 ^ 63 - 1) i) = i := by omega
      rw [toInt64, Binary64.clamp, hnan, hinf, equal.2]
      exact congrArg Int64.ofInt inside

variable {e : ExactNumber}

theorem toInt64_congr (ha : a.numeric? = some m) (hb : b.numeric? = some n)
    (hm : m.number? = some e) (hn : n.number? = some e) : m.toInt64 = n.toInt64 := by
  have whole {i : Int} (heq : e = .finite i) (range : -2 ^ 63 ≤ i ∧ i < 2 ^ 63) :
      m.toInt64 = n.toInt64 := by
    subst heq
    rw [Numeric.toInt64_of_whole hm range, Numeric.toInt64_of_whole hn range]
  cases m with
  | int i => exact whole (Option.some.inj hm).symm (range_of_number ha)
  | float x =>
      cases n with
      | int j => exact whole (Option.some.inj hn).symm (range_of_number hb)
      | float y =>
          by_cases zero : e = .finite 0
          · exact whole (i := 0) (by simpa using zero) (by decide)
          · rw [Binary64.eq_of_number? hm hn zero]

theorem text_of_isZero {x : Binary64} (zero : x.isZero = true) :
    (Numeric.float x).text = "0" := by
  have whole : x.number? = some (.finite (0 : Int)) := by simpa using Binary64.isZero_iff.mp zero
  exact (Binary64.write_eq_toString_iff whole (by decide)).mpr
    (Binary64.printsExactly_of_isZero zero)

/-- Equal words print the same digits, the two zeros included. -/
theorem text_of_words {x y : Binary64} (hx : x.number? = some e) (hy : y.number? = some e) :
    (Numeric.float x).text = (Numeric.float y).text ∧ (x.PrintsExactly ↔ y.PrintsExactly) := by
  by_cases zero : e = .finite 0
  · subst zero
    have zeroX := Binary64.isZero_iff.mpr hx
    have zeroY := Binary64.isZero_iff.mpr hy
    rw [text_of_isZero zeroX, text_of_isZero zeroY]
    exact ⟨rfl, iff_of_true (Binary64.printsExactly_of_isZero zeroX)
      (Binary64.printsExactly_of_isZero zeroY)⟩
  · rw [Binary64.eq_of_number? hx hy zero]
    exact ⟨rfl, Iff.rfl⟩

/-- Equal numbers have one text exactly if both print all their digits or neither does. -/
theorem text_eq_iff (ha : a.numeric? = some m) (hb : b.numeric? = some n)
    (hm : m.number? = some e) (hn : n.number? = some e) :
    m.text = n.text ↔ (m.PrintsExactly ↔ n.PrintsExactly) := by
  have mixed {v : Value} {i : Int} {x : Binary64} (number : v.numeric? = some (.int i))
      (whole : x.number? = some (.finite i)) : toString i = Layout.script.write x ↔
        x.PrintsExactly := by
    have range := range_of_number number
    rw [eq_comm]
    exact Binary64.write_eq_toString_iff whole (by omega)
  cases m with
  | int i =>
      cases hm
      cases n with
      | int j =>
          have hij : j = i := by simpa [Numeric.number?] using hn
          simp [Numeric.text, Numeric.PrintsExactly, hij]
      | float y => simpa [Numeric.text, Numeric.PrintsExactly] using mixed ha hn
  | float x =>
      cases n with
      | int j =>
          cases hn
          have := mixed hb hm
          rw [eq_comm] at this
          simpa [Numeric.text, Numeric.PrintsExactly] using this
      | float y =>
          obtain ⟨text, exact⟩ := text_of_words hm hn
          exact iff_of_true text exact

theorem printsExactly_of_le {i : Int} (whole : m.number? = some (.finite i))
    (small : i.natAbs ≤ 2 ^ 53) : m.PrintsExactly := by
  cases m with
  | int j => trivial
  | float x => exact Binary64.printsExactly_of_le whole small

/-- The digits that are printed for a number are all that it has. -/
def PrintsExactly (v : Value) : Prop := v.numeric.PrintsExactly

theorem printsExactly_of_number (number : v.numeric? = some m) :
    v.PrintsExactly ↔ m.PrintsExactly := by
  rw [PrintsExactly, numeric, number, Option.getD_some]

/-- The value is a word, not an integer. -/
def isDouble : Value → Bool
  | .double _ => true
  | _ => false

theorem isDouble_of_number (number : v.numeric? = some m) : v.isDouble = m.isFloat := by
  cases v <;> cases number <;> rfl

/-- Equal numbers have one text if both are integers or both are words. -/
theorem text_eq_of_width (ha : a.numeric? = some m) (hb : b.numeric? = some n)
    (hm : m.number? = some e) (hn : n.number? = some e) (width : a.isDouble = b.isDouble) :
    m.text = n.text := by
  rw [isDouble_of_number ha, isDouble_of_number hb] at width
  refine (text_eq_iff ha hb hm hn).mpr ?_
  cases m with
  | int i =>
      cases n with
      | int j => exact Iff.rfl
      | float y => cases width
  | float x =>
      cases n with
      | int j => cases width
      | float y => exact (text_of_words hm hn).2

end Value

/-! ### Equal numbers -/

variable {σ : Type} {a b : Value} {m n : Value.Numeric}

theorem numericOf_of_number (env : Embedding σ) (number : a.numeric? = some m) (w : World σ) :
    numericOf env a w = some (m, w) := by
  cases a <;> cases number <;> rfl

theorem textOf_of_number (env : Embedding σ) (number : a.numeric? = some m) (w : World σ) :
    textOf env a w = some (.ofString m.text, w) := by
  cases a <;> cases number <;> rfl

theorem Text.ofString_beq_iff (s t : String) : (ofString s == ofString t) = true ↔ s = t := by
  rw [beq_iff_units, units_ofString, units_ofString, Utf16.encode_injective.eq_iff,
    String.toList_inj]

theorem looseEq_congr (env : Embedding σ) (ha : a.numeric? = some m) (hb : b.numeric? = some n)
    (same : m.number? = n.number?) (c : Value) : looseEq env a c = looseEq env b c := by
  have objectA := Value.isObject_of_numeric? ha
  have objectB := Value.isObject_of_numeric? hb
  have agree := Value.primitiveLooseEq_congr ha hb same
  cases hc : c.isObject with
  | false =>
      funext w
      rw [looseEq_primitives objectA hc, looseEq_primitives objectB hc, agree]
  | true =>
      obtain ⟨o, rfl⟩ := Value.eq_object_of_isObject hc
      funext w
      rw [looseEq_objectRight objectA, looseEq_objectRight objectB,
        objectLooseEq_eq (Value.isNullish_of_numeric? ha),
        objectLooseEq_eq (Value.isNullish_of_numeric? hb)]
      simp only [Value.primitiveLooseEq_comm _ a, Value.primitiveLooseEq_comm _ b, agree]

theorem exists_of_strictEq {h : Heap} (ha : a.isNumber = true) (hb : b.isNumber = true)
    (equal : h.strictEq a b = true) : ∃ m n e, a.numeric? = some m ∧ b.numeric? = some n ∧
      m.number? = some e ∧ n.number? = some e := by
  obtain ⟨m, ha⟩ := Option.isSome_iff_exists.mp ha
  obtain ⟨n, hb⟩ := Option.isSome_iff_exists.mp hb
  rw [Heap.strictEq, ha, hb] at equal
  obtain ⟨e, hm, hn⟩ := Value.Numeric.eq_iff.mp equal
  exact ⟨m, n, e, ha, hb, hm, hn⟩

theorem toInt64_of_number (env : Embedding σ) (number : a.numeric? = some m) (w : World σ) :
    ((·.toInt64) <$> numericOf env a) w = some (m.toInt64, w) := by
  show (numericOf env a w).bind _ = _
  rw [numericOf_of_number env number]
  rfl

/-- Numbers that are strictly equal agree in truth, type, key, integer and equality with every value.
Their texts agree too if both are integers, both are words, or they are no larger than `2⁵³`; and
whatever they are, the texts agree exactly if the digits printed for both are all that they have, or
for neither. -/
theorem equal_numbers_interchangeable (env : Embedding σ) (h : Heap) (a b : Value)
    (ha : a.isNumber = true) (hb : b.isNumber = true) (equal : h.strictEq a b = true) :
    a.toBool = b.toBool ∧ (h.typeOf a = some "number" ∧ h.typeOf b = some "number") ∧
      Key.ofValue a = Key.ofValue b ∧
      (∃ i : Int64, ∀ w, ((·.toInt64) <$> numericOf env a) w = some (i, w) ∧
        ((·.toInt64) <$> numericOf env b) w = some (i, w)) ∧
      (∀ c, looseEq env a c = looseEq env b c ∧ h.strictEq a c = h.strictEq b c) ∧
      ∃ s t : Text, (∀ w, textOf env a w = some (s, w) ∧ textOf env b w = some (t, w)) ∧
        ((s == t) = true ↔ (a.PrintsExactly ↔ b.PrintsExactly)) ∧
        (a.isDouble = b.isDouble → (s == t) = true) ∧
        ∀ i : Int, a.exactNumber? = some (.finite i) → i.natAbs ≤ 2 ^ 53 → (s == t) = true := by
  obtain ⟨m, n, e, hma, hnb, hm, hn⟩ := exists_of_strictEq ha hb equal
  have same : m.number? = n.number? := hm.trans hn.symm
  have integers : m.toInt64 = n.toInt64 := Value.toInt64_congr hma hnb hm hn
  have texts := Value.text_eq_iff hma hnb hm hn
  rw [Value.printsExactly_of_number hma, Value.printsExactly_of_number hnb]
  refine ⟨?_, ?_, ?_, ⟨m.toInt64, fun w => ⟨toInt64_of_number env hma w, ?_⟩⟩, fun c => ⟨?_, ?_⟩,
    .ofString m.text, .ofString n.text,
    fun w => ⟨textOf_of_number env hma w, textOf_of_number env hnb w⟩, ?_, fun width => ?_,
    fun i exact small => ?_⟩
  · rw [Bool.eq_iff_iff, Value.toBool_of_number hma, Value.toBool_of_number hnb, same]
  · exact ⟨Value.typeOf_of_number h hma, Value.typeOf_of_number h hnb⟩
  · exact (Key.ofValue_eq_iff_number? hma hnb).mpr same
  · rw [integers]
    exact toInt64_of_number env hnb w
  · exact looseEq_congr env hma hnb same c
  · rw [Heap.strictEq, Heap.strictEq, hma, hnb]
    cases c.numeric? with
    | some k => exact Value.Numeric.eq_congr same k
    | none => rfl
  · rw [Text.ofString_beq_iff]
    exact texts
  · rw [Text.ofString_beq_iff]
    exact Value.text_eq_of_width hma hnb hm hn width
  · rw [Value.exactNumber?_of_number hma] at exact
    rw [Text.ofString_beq_iff, texts]
    exact iff_of_true (Value.printsExactly_of_le exact small)
      (Value.printsExactly_of_le (same.symm.trans exact) small)

/-- The largest integer up to which widths print alike. -/
theorem equal_numbers_interchangeable_at_largest :
    let h : Heap := default
    let a : Value := .int64 9007199254740992
    let b : Value := .double ⟨0x4340000000000000⟩
    h.strictEq a b = true ∧ a.toBool = b.toBool ∧ Key.ofValue a = Key.ofValue b ∧
      ∃ s t : Text, (∀ w, textOf (default : Embedding Unit) a w = some (s, w) ∧
        textOf (default : Embedding Unit) b w = some (t, w)) ∧ (s == t) = true := by
  intro h a b
  have equal : h.strictEq a b = true := by decide +kernel
  obtain ⟨truth, -, key, -, -, s, t, texts, -, -, small⟩ :=
    equal_numbers_interchangeable (default : Embedding Unit) h a b rfl rfl equal
  exact ⟨equal, truth, key, s, t, texts, small 9007199254740992 rfl (by decide)⟩

/-- The text of a number beyond `2⁵³` tells an integer from a word. -/
theorem text_shows_width :
    let w : World Unit := ⟨default, default, #[], ()⟩
    let a : Value := .smi 36028797018963968
    let b : Value := .double ⟨0x4360000000000000⟩
    w.heap.strictEq a b = true ∧
      textOf default a w = some (.ofString "36028797018963968", w) ∧
      textOf default b w = some (.ofString "36028797018963970", w) ∧
      (Text.ofString "36028797018963968" == Text.ofString "36028797018963970") = false := by
  intro w a b
  have integer : (Value.Numeric.int 36028797018963968).text = "36028797018963968" := by
    decide +kernel
  have word : (Value.Numeric.float ⟨0x4360000000000000⟩).text = "36028797018963970" := by
    decide +kernel
  refine ⟨by decide +kernel, ?_, ?_, ?_⟩
  · rw [← integer]
    exact textOf_of_number default rfl w
  · rw [← word]
    exact textOf_of_number default rfl w
  · rw [← Bool.not_eq_true, Text.ofString_beq_iff]
    decide

end ScriptCore
