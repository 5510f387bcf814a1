import Mathlib.Tactic.Ring
import ScriptCore.Proofs.Binary64.Exact

/-!
# ScriptCore.Proofs.Binary64.Fields

What a word denotes, read off its **fields**: a sign, an exponent of eleven bits and a fraction of
fifty-two.

The library counts in units of the smallest number, so that it never needs a negative power. This is
the formula that it stands for.
-/

namespace ScriptCore.Binary64

/-- The exponent bits. -/
def exponentField (x : Binary64) : Nat := x.bits.toNat / 2 ^ 52 % 2 ^ 11

/-- The fraction bits. -/
def fractionField (x : Binary64) : Nat := x.bits.toNat % 2 ^ 52

/-- The sign as a factor. -/
def sign (x : Binary64) : ℚ := if x.isNegative then -1 else 1

/-- The number with the given sign, exponent and fraction. The largest exponent is kept for the
infinities and for what is not a number, and zero for the numbers without a leading one. -/
def ofFields? (x : Binary64) : Option ExactNumber :=
  if x.exponentField = 2047 then
    if x.fractionField = 0 then some (.infinite x.isNegative) else none
  else if x.exponentField = 0 then some (.finite (x.sign * x.fractionField * 2 ^ (-1074 : ℤ)))
  else some (.finite
    (x.sign * (1 + x.fractionField / 2 ^ 52) * 2 ^ ((x.exponentField : ℤ) - 1023)))

theorem exponentField_lt (x : Binary64) : x.exponentField < 2 ^ 11 := Nat.mod_lt _ (by decide)

theorem fractionField_lt (x : Binary64) : x.fractionField < 2 ^ 52 := Nat.mod_lt _ (by decide)

theorem magnitude_eq (x : Binary64) :
    x.magnitude = x.exponentField * 2 ^ 52 + x.fractionField := by
  show x.bits.toNat % 2 ^ 63 = _
  unfold exponentField fractionField
  omega

theorem significand_magnitude (x : Binary64) :
    significand x.magnitude = if x.exponentField = 0 then x.fractionField
      else 2 ^ 52 + x.fractionField := by
  have hlt := x.fractionField_lt
  rw [significand_eq, magnitude_eq]
  split <;> split <;> omega

theorem scale_magnitude (x : Binary64) : scale x.magnitude = x.exponentField - 1 := by
  have hlt := x.fractionField_lt
  rw [scale_eq, magnitude_eq]
  omega

theorem isNaN_iff (x : Binary64) :
    x.isNaN = true ↔ x.exponentField = 2047 ∧ x.fractionField ≠ 0 := by
  have he := x.exponentField_lt
  have hf := x.fractionField_lt
  have hinf : infiniteMagnitude = 2047 * 2 ^ 52 := rfl
  simp only [isNaN, decide_eq_true_eq, magnitude_eq, hinf]
  omega

theorem isInfinite_iff (x : Binary64) :
    x.isInfinite = true ↔ x.exponentField = 2047 ∧ x.fractionField = 0 := by
  have he := x.exponentField_lt
  have hf := x.fractionField_lt
  have hinf : infiniteMagnitude = 2047 * 2 ^ 52 := rfl
  simp only [isInfinite, beq_iff_eq, magnitude_eq, hinf]
  omega

theorem cast_two_pow (k : Nat) : ((Nat.pow 2 k : Nat) : ℚ) = 2 ^ (k : ℤ) := by
  rw [zpow_natCast]
  exact Nat.cast_pow 2 k

theorem unitsPerOne_eq : (unitsPerOne : ℚ) = 2 ^ (1074 : ℤ) := by
  have hcast : (1074 : ℤ) = (1074 : ℕ) := rfl
  rw [hcast]
  unfold unitsPerOne
  generalize 1074 = k
  exact cast_two_pow k

theorem signedUnits_eq (x : Binary64) : (x.signedUnits : ℚ) = x.sign * x.units := by
  unfold signedUnits sign
  split <;> simp

/-- The units of one cancel against the spacing. -/
theorem finite_eq (x : Binary64) : (x.signedUnits / unitsPerOne : ℚ) =
    if x.exponentField = 0 then x.sign * x.fractionField * 2 ^ (-1074 : ℤ)
    else x.sign * (1 + x.fractionField / 2 ^ 52) * 2 ^ ((x.exponentField : ℤ) - 1023) := by
  rw [signedUnits_eq, units_eq, significand_magnitude, scale_magnitude, unitsPerOne_eq]
  by_cases he : x.exponentField = 0
  · rw [if_pos he, if_pos he, he, zpow_neg]
    simp [div_eq_mul_inv]
  · obtain ⟨k, hk⟩ := Nat.exists_eq_succ_of_ne_zero he
    have hpower : (2 : ℚ) ^ ((k + 1 : ℤ) - 1023) = 2 ^ k * 2 ^ (52 : ℤ) * (2 ^ (1074 : ℤ))⁻¹ := by
      rw [← zpow_natCast, ← zpow_add₀ two_ne_zero, ← zpow_neg, ← zpow_add₀ two_ne_zero]
      congr 1
      omega
    rw [if_neg he, if_neg he, hk, Nat.succ_eq_add_one, Nat.add_sub_cancel, div_eq_mul_inv,
      Nat.cast_succ, hpower]
    -- The unit is far too small to be computed.
    generalize ((2 : ℚ) ^ (1074 : ℤ))⁻¹ = unit
    push_cast
    ring

/-- The exact number of a word is the one that its fields spell. -/
theorem number?_eq_ofFields? (x : Binary64) : x.number? = x.ofFields? := by
  unfold number? ofFields?
  rw [finite_eq]
  by_cases he : x.exponentField = 2047
  · by_cases hf : x.fractionField = 0 <;> simp [isNaN_iff, isInfinite_iff, he, hf]
  · by_cases hz : x.exponentField = 0 <;> simp [isNaN_iff, isInfinite_iff, he, hz]

theorem isZero_iff_signedUnits {x : Binary64} : x.isZero = true ↔ x.signedUnits = 0 := by
  rw [isZero, beq_iff_eq, ← units_eq_zero_iff, ← natAbs_signedUnits, Int.natAbs_eq_zero]

theorem isZero_iff {x : Binary64} : x.isZero = true ↔ x.number? = some (.finite 0) := by
  constructor
  · intro zero
    have hfinite : x.isFinite = true := by
      rw [isZero, beq_iff_eq] at zero
      simp [isFinite, zero, infiniteMagnitude]
    obtain ⟨hnan, hinf⟩ := isFinite_iff.mp hfinite
    rw [number?_of_finite hnan hinf, isZero_iff_signedUnits.mp zero, Int.cast_zero, zero_div]
  · intro denotes
    have whole := Value.Numeric.intEqFloat_iff (n := 0) |>.mpr denotes
    simp only [Value.Numeric.intEqFloat, isWhole, Bool.and_eq_true, beq_iff_eq] at whole
    rw [isZero_iff_signedUnits, whole_iff.mp ⟨whole.1.2, whole.2⟩, Int.zero_mul]

end ScriptCore.Binary64
