import Mathlib.Tactic.NormNum
import Mathlib.Tactic.Positivity
import ScriptCore.Proofs.Binary64.Fields
import ScriptCore.Proofs.Binary64.Nearest
import ScriptCore.Proofs.Numeral.Spelling

/-!
# ScriptCore.Proofs.Numeral.Value

The word that a decimal literal is read as depends on **nothing but the number** that it denotes.

Design points:

* Rounding is a function of the number (`Proofs.Binary64.Nearest`). What is left to show is that the
  two cutoffs for exponents, which avoid large powers, decide as rounding would (`ofDecimal_eq`).
-/

namespace ScriptCore

namespace Binary64

variable {num den : Nat}

/-! ### Far out of range -/

/-- What is at least `2¹⁰²⁴` is rounded to infinity. -/
theorem nearestMagnitude_of_large {k : Nat} (hk : 2098 ≤ k) (pos : 0 < den)
    (large : den * 2 ^ k ≤ num) : nearestMagnitude num den = infiniteMagnitude := by
  have hq : 2 ^ k ≤ num / den := (Nat.le_div_iff_mul_le pos).mpr (by rwa [Nat.mul_comm])
  have hne : num / den ≠ 0 := Nat.ne_of_gt (Nat.lt_of_lt_of_le (Nat.two_pow_pos k) hq)
  have hlog := Nat.le_trans hk ((Nat.le_log2 hne).mpr hq)
  have hsig : 2 ^ 52 ≤ num / (den * 2 ^ ((num / den).log2 - 52)) := by
    rw [← Nat.div_div_eq_div_mul, Nat.le_div_iff_mul_le (Nat.two_pow_pos _), ← Nat.pow_add,
      Nat.add_sub_of_le (by omega)]
    exact Nat.log2_self_le hne
  have hround := div_le_divNearestEven num (den * 2 ^ ((num / den).log2 - 52))
  rw [nearestMagnitude_eq, infiniteMagnitude_eq]
  omega

/-- What is less than half a unit is rounded to zero. -/
theorem nearestMagnitude_of_small (small : 2 * num < den) : nearestMagnitude num den = 0 := by
  have hq : num / den = 0 := Nat.div_eq_of_lt (by omega)
  rw [nearestMagnitude_eq, hq, Nat.log2_zero, Nat.zero_sub, Nat.pow_zero, Nat.mul_one,
    divNearestEven_eq (q := 0) (by omega) (by omega) (by omega) (by omega)]
  simp

theorem two_pow_le_ten_pow (k : Nat) : (2 : ℚ) ^ (3 * k) ≤ 10 ^ k := by
  rw [pow_mul]
  exact pow_le_pow_left₀ (by norm_num) (by norm_num) k

/-! ### Decimals -/

variable {digits : Nat} {e : Int}

theorem ofDecimal_of_large (negative : Bool) (pos : 0 < den) (hdigits : 0 < digits)
    (large : 400 < e) (same : (num : ℚ) / den = digits * 10 ^ e) :
    ofRatio negative num den = infinity negative := by
  have hden : (0 : ℚ) < den := Nat.cast_pos.mpr pos
  obtain ⟨n, hn⟩ : ∃ n, n = 1024 := ⟨1024, rfl⟩
  have hnumber : (2 : ℚ) ^ n ≤ num / den :=
    calc (2 : ℚ) ^ n ≤ 2 ^ (3 * 401) := pow_le_pow_right₀ (by norm_num) (by omega)
      _ ≤ 10 ^ 401 := two_pow_le_ten_pow 401
      _ ≤ 10 ^ e := by
        rw [← zpow_natCast]
        exact zpow_le_zpow_right₀ (by norm_num) (by exact large)
      _ ≤ digits * 10 ^ e := le_mul_of_one_le_left (by positivity) (by exact_mod_cast hdigits)
      _ = num / den := same.symm
  have hlarge : den * 2 ^ n ≤ num := by
    rw [le_div_iff₀ hden, mul_comm] at hnumber
    exact_mod_cast hnumber
  rw [ofRatio, ofUnits, infinity]
  unfold unitsPerOne
  generalize hk : 1074 = k
  rw [nearestMagnitude_of_large (k := n + k) (by omega) pos]
  rw [Nat.pow_add, ← Nat.mul_assoc]
  exact Nat.mul_le_mul_right _ hlarge

theorem ofDecimal_of_small (negative : Bool) (pos : 0 < den)
    (small : e + digits.log2 < -400) (same : (num : ℚ) / den = digits * 10 ^ e) :
    ofRatio negative num den = zero negative := by
  have hden : (0 : ℚ) < den := Nat.cast_pos.mpr pos
  have hlead : (digits : ℚ) < 2 * 10 ^ digits.log2 :=
    calc (digits : ℚ) < 2 ^ (digits.log2 + 1) := by exact_mod_cast Nat.lt_log2_self
      _ = 2 * 2 ^ digits.log2 := pow_succ' 2 _
      _ ≤ 2 * 10 ^ digits.log2 := by gcongr; norm_num
  have hnumber : (num : ℚ) / den < 2 * 2 ^ (-1203 : ℤ) :=
    calc (num : ℚ) / den = digits * 10 ^ e := same
      _ < 2 * 10 ^ digits.log2 * 10 ^ e := by gcongr
      _ = 2 * 10 ^ (e + digits.log2) := by
        rw [zpow_add₀ (by norm_num), zpow_natCast]
        ring
      _ ≤ 2 * 10 ^ (-(401 : ℕ) : ℤ) := by
        gcongr
        · norm_num
        · exact Int.le_of_lt_add_one small
      _ ≤ 2 * 2 ^ (-(1203 : ℕ) : ℤ) := by
        rw [zpow_neg, zpow_neg, zpow_natCast, zpow_natCast]
        gcongr
        exact two_pow_le_ten_pow 401
  have hunits : (2 * (num * unitsPerOne : ℕ) : ℚ) < den := by
    rw [div_lt_iff₀ hden] at hnumber
    rw [Nat.cast_mul, unitsPerOne_eq]
    calc (2 * (num * 2 ^ (1074 : ℤ)) : ℚ)
        < 2 * (2 * 2 ^ (-1203 : ℤ) * den * 2 ^ (1074 : ℤ)) := by gcongr
      _ = 2 ^ (1 + 1 + -1203 + 1074 : ℤ) * den := by
        simp only [zpow_add₀ (two_ne_zero' ℚ), zpow_one]
        ring
      _ ≤ 1 * den := by
        gcongr
        exact zpow_le_one_of_nonpos₀ (by norm_num) (by norm_num)
      _ = den := one_mul _
  rw [ofRatio, ofUnits, nearestMagnitude_of_small (by exact_mod_cast hunits), zero]

/-- A decimal is rounded as any fraction that denotes the same number. -/
theorem ofDecimal_eq (negative : Bool) (pos : 0 < den)
    (same : (num : ℚ) / den = digits * 10 ^ e) :
    ofDecimal negative digits e = ofRatio negative num den := by
  have hten : 0 < 10 ^ (-e).toNat := Nat.pow_pos (by decide)
  unfold ofDecimal
  split
  · rename_i hzero
    have hnum : num = 0 := by
      have hden : (den : ℚ) ≠ 0 := Nat.cast_ne_zero.mpr pos.ne'
      simpa [hzero, hden] using same
    rw [hnum, ofRatio, Nat.zero_mul, ofUnits_zero]
  · rename_i hdigits
    have hdigits := Nat.pos_of_ne_zero hdigits
    split
    · rename_i large
      exact (ofDecimal_of_large negative pos hdigits large same).symm
    · split
      · rename_i small
        exact (ofDecimal_of_small negative pos small same).symm
      · split
        · rename_i whole
          obtain ⟨k, rfl⟩ := Int.eq_ofNat_of_zero_le whole
          refine ofRatio_congr negative Nat.one_pos pos ?_
          rw [same]
          simp
        · rename_i negativeExponent
          obtain ⟨k, rfl⟩ : ∃ k : Nat, e = -k := ⟨(-e).toNat, by omega⟩
          refine ofRatio_congr negative hten pos ?_
          rw [same]
          simp [div_eq_mul_inv]

/-- Decimals that denote the same number are rounded to the same word. -/
theorem ofDecimal_congr (negative : Bool) {digits' : Nat} {e' : Int}
    (same : (digits : ℚ) * 10 ^ e = digits' * 10 ^ e') :
    ofDecimal negative digits e = ofDecimal negative digits' e' := by
  obtain ⟨q, hq⟩ : ∃ q : ℚ, q = digits * 10 ^ e := ⟨_, rfl⟩
  have hfraction : (q.num.natAbs : ℚ) / q.den = q := by
    have hnonneg : 0 ≤ q := hq ▸ by positivity
    rw [Nat.cast_natAbs, abs_of_nonneg (Rat.num_nonneg.mpr hnonneg), Rat.num_div_den]
  rw [ofDecimal_eq negative q.den_pos (hfraction.trans hq),
    ofDecimal_eq negative q.den_pos (hfraction.trans (hq.trans same))]

/-! ### Signs -/

variable {x : Binary64}

theorem ofMagnitude_self (finite : x.isFinite = true) : ofMagnitude x.isNegative x.magnitude = x := by
  have hlt := magnitude_lt_of_isFinite finite
  rw [infiniteMagnitude_eq] at hlt
  have hsmall : x.magnitude < 2 ^ 63 := by omega
  exact eq_of_magnitude (magnitude_ofMagnitude _ hsmall) (isNegative_ofMagnitude _ hsmall)

/-- The sign of a decimal plays no part in its rounding. -/
theorem exists_ofDecimal_eq (digits : Nat) (e : Int) :
    ∃ m ≤ infiniteMagnitude, ∀ negative, ofDecimal negative digits e = ofMagnitude negative m := by
  unfold ofDecimal
  split_ifs
  · exact ⟨0, Nat.zero_le _, fun _ => rfl⟩
  · exact ⟨infiniteMagnitude, Nat.le_refl _, fun _ => rfl⟩
  · exact ⟨0, Nat.zero_le _, fun _ => rfl⟩
  · exact ⟨_, Nat.min_le_left _ _, fun _ => rfl⟩
  · exact ⟨_, Nat.min_le_left _ _, fun _ => rfl⟩

/-- A decimal that is read as the absolute value of a word is read as the word if it has its sign. -/
theorem ofDecimal_of_abs (finite : x.isFinite = true) (absolute : ofDecimal false digits e = x.abs) :
    ofDecimal x.isNegative digits e = x := by
  obtain ⟨m, le, decimal⟩ := exists_ofDecimal_eq digits e
  have hlt := magnitude_lt_of_isFinite finite
  rw [infiniteMagnitude_eq] at le hlt
  have magnitude : m = x.magnitude := by
    have same := congrArg Binary64.magnitude ((decimal false).symm.trans absolute)
    rwa [abs, magnitude_ofMagnitude false (by omega), magnitude_ofMagnitude false (by omega)] at same
  rw [decimal, magnitude, ofMagnitude_self finite]

/-! ### What is never produced -/

theorem isNaN_ofMagnitude (negative : Bool) {m : Nat} (le : m ≤ infiniteMagnitude) :
    (ofMagnitude negative m).isNaN = false := by
  have hlt : m < 2 ^ 63 := by
    rw [infiniteMagnitude_eq] at le
    omega
  rw [isNaN, magnitude_ofMagnitude negative hlt]
  exact decide_eq_false (Nat.not_lt.mpr le)

/-- Rounding gives a number. -/
theorem isNaN_ofUnits (negative : Bool) (num den : Nat) :
    (ofUnits negative num den).isNaN = false :=
  isNaN_ofMagnitude negative (Nat.min_le_left _ _)

theorem isNaN_zero (negative : Bool) : (zero negative).isNaN = false :=
  isNaN_ofMagnitude negative (Nat.zero_le _)

theorem isNaN_infinity (negative : Bool) : (infinity negative).isNaN = false :=
  isNaN_ofMagnitude negative (Nat.le_refl _)

theorem isNaN_ofDecimal (negative : Bool) (digits : Nat) (e : Int) :
    (ofDecimal negative digits e).isNaN = false := by
  unfold ofDecimal
  split
  · exact isNaN_zero negative
  · split
    · exact isNaN_infinity negative
    · split
      · exact isNaN_zero negative
      · split <;> exact isNaN_ofUnits negative _ _

variable {y : Binary64}

/-- Only an infinity times zero is not a number. -/
theorem isNaN_mul (hx : x.isNaN = false) (hy : y.isNaN = false) (finite : y.isInfinite = false)
    (nonzero : y.isZero = false) : (x * y).isNaN = false := by
  show (x.mul y).isNaN = false
  simp only [mul, hx, hy, finite, nonzero, Bool.or_false, Bool.false_eq_true, if_false]
  split
  · rename_i infinite
    have hzero : x.isZero = false := by
      rw [isInfinite, beq_iff_eq] at infinite
      rw [isZero, infinite]
      rfl
    rw [hzero]
    exact isNaN_infinity _
  · exact isNaN_ofUnits _ _ _

/-- Only infinities of opposite signs have a sum that is not a number. -/
theorem isNaN_add (hx : x.isNaN = false) (hy : y.isNaN = false) (finite : y.isInfinite = false) :
    (x + y).isNaN = false := by
  show (x.add y).isNaN = false
  simp only [add, hx, hy, finite, Bool.or_false, Bool.false_and, Bool.false_eq_true, if_false]
  split
  · exact hx
  · split
    · exact isNaN_zero _
    · exact isNaN_ofUnits _ _ _

end Binary64

namespace DecimalLiteral

/-- The number that a literal denotes, without its sign. -/
def number (l : DecimalLiteral) : ℚ := l.digits * 10 ^ l.exponent

/-- The word of a literal is that of the number which it denotes. -/
theorem value_congr {l l' : DecimalLiteral} (sign : l.negative = l'.negative)
    (same : l.number = l'.number) : l.value = l'.value := by
  rw [value, value, sign]
  exact Binary64.ofDecimal_congr l'.negative same

theorem isNaN_value (l : DecimalLiteral) : l.value.isNaN = false := Binary64.isNaN_ofDecimal _ _ _

end DecimalLiteral

end ScriptCore
