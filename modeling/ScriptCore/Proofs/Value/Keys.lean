import ScriptCore.Proofs.Binary64.Exact
import ScriptCore.Value.Key

/-!
# ScriptCore.Proofs.Value.Keys

Numbers share a **key** exactly if they denote the same, whatever their widths.

A key denotes what the number denotes that it is taken from (`number?_ofValue`), and the keys of numbers
are a normal form: no two of them denote the same (`Numeral.eq_of_number?`).
-/

namespace ScriptCore

namespace Key

/-- What the key of a number denotes. -/
def number? : Key → Option ExactNumber
  | .int n => some (.finite n.toInt)
  | .float x => x.number?
  | _ => none

/-- The keys that numbers have. -/
inductive Numeral : Key → Prop where
  | int (n : Int64) : Numeral (.int n)
  | float {x : Binary64} (number : x.isNaN = false)
      (fractional : ∀ n : Int64, x.number? ≠ some (.finite n.toInt)) : Numeral (.float x)
  | nan : Numeral .nan

/-- The key of a number is a normal form. -/
theorem Numeral.eq_of_number? {k l : Key} (hk : k.Numeral) (hl : l.Numeral)
    (same : k.number? = l.number?) : k = l := by
  cases hk with
  | int m =>
      cases hl with
      | int n =>
          have hmn : m.toInt = n.toInt := by simpa [number?] using same
          rw [Int64.toInt_inj.mp hmn]
      | float number fractional => exact absurd same.symm (fractional m)
      | nan => cases same
  | float number fractional =>
      obtain ⟨e, he⟩ := Binary64.exists_number? number
      cases hl with
      | int n => exact absurd same (fractional n)
      | @float y _ _ =>
          have nonzero : e ≠ .finite 0 := fun hzero => fractional 0 (hzero ▸ he)
          have hy : y.number? = some e := same.symm.trans he
          rw [Binary64.eq_of_number? he hy nonzero]
      | nan => cases he.symm.trans same
  | nan =>
      cases hl with
      | int n => cases same
      | float number fractional =>
          obtain ⟨e, he⟩ := Binary64.exists_number? number
          cases he.symm.trans same.symm
      | nan => rfl

theorem ofBinary64_spec (x : Binary64) :
    (ofBinary64 x).Numeral ∧ (ofBinary64 x).number? = x.number? := by
  unfold ofBinary64
  cases hnan : x.isNaN with
  | true => exact ⟨.nan, (Binary64.number?_of_isNaN hnan).symm⟩
  | false =>
      rw [if_neg Bool.false_ne_true]
      by_cases hint : (x.isWhole && (-Nat.pow 2 63 ≤ x.truncate : Bool) &&
          (x.truncate < Nat.pow 2 63 : Bool)) = true
      · rw [if_pos hint]
        simp only [Bool.and_eq_true, decide_eq_true_eq] at hint
        obtain ⟨⟨hwhole, hlow⟩, hhigh⟩ := hint
        refine ⟨.int _, ?_⟩
        have hround : (Int64.ofInt x.truncate).toInt = x.truncate :=
          Int64.toInt_ofInt_of_le hlow hhigh
        rw [number?, hround]
        exact (Value.Numeric.intEqFloat_iff.mp (by simp [Value.Numeric.intEqFloat, hwhole])).symm
      · rw [if_neg hint]
        refine ⟨.float hnan fun n hn => hint ?_, rfl⟩
        have hwhole := Value.Numeric.intEqFloat_iff.mpr hn
        simp only [Value.Numeric.intEqFloat, Bool.and_eq_true, beq_iff_eq] at hwhole
        obtain ⟨hwhole, htruncate⟩ := hwhole
        have hlow := n.le_toInt
        have hhigh := n.toInt_lt
        simp only [Bool.and_eq_true, decide_eq_true_eq, htruncate]
        exact ⟨⟨hwhole, hlow⟩, hhigh⟩

theorem ofValue_spec {v : Value} {m : Value.Numeric} (h : v.numeric? = some m) :
    (ofValue v).Numeral ∧ (ofValue v).number? = m.number? := by
  cases v with
  | smi n | int64 n =>
      cases h
      exact ⟨.int n, rfl⟩
  | int32 n =>
      cases h
      refine ⟨.int _, ?_⟩
      rw [ofValue, number?, Int32.toInt_toInt64, Value.Numeric.number?]
  | uint32 n =>
      cases h
      refine ⟨.int _, ?_⟩
      have hround : (Int64.ofNat n.toNat).toInt = n.toNat :=
        Int64.toInt_ofNat_of_lt (Nat.lt_trans n.toNat_lt (by decide))
      rw [ofValue, number?, hround, Value.Numeric.number?]
  | double x =>
      cases h
      exact ofBinary64_spec x
  | _ => cases h

/-- Nothing but a number has the key of a number. -/
theorem numeral_ofValue_iff {v : Value} : (ofValue v).Numeral ↔ ∃ m, v.numeric? = some m := by
  refine ⟨fun numeral => ?_, fun ⟨m, hm⟩ => (ofValue_spec hm).1⟩
  cases v with
  | undefined | null | boolean | string | symbol | object => cases numeral
  | _ => exact ⟨_, rfl⟩

/-- Numbers have one key exactly if they denote the same. -/
theorem ofValue_eq_iff_number? {a b : Value} {m n : Value.Numeric} (ha : a.numeric? = some m)
    (hb : b.numeric? = some n) : ofValue a = ofValue b ↔ m.number? = n.number? := by
  obtain ⟨hna, hma⟩ := ofValue_spec ha
  obtain ⟨hnb, hmb⟩ := ofValue_spec hb
  rw [← hma, ← hmb]
  exact ⟨congrArg number?, hna.eq_of_number? hnb⟩

end Key

end ScriptCore
