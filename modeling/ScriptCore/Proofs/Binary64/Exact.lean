import Mathlib.Algebra.Order.Field.Rat
import Mathlib.Order.Monotone.Basic
import ScriptCore.Value.Basic

/-!
# ScriptCore.Proofs.Binary64.Exact

The **exact number** that a word denotes, and equality as equality of those.

The spacing of the words is a power of two that only grows, so the number of units is strictly
monotone in the magnitude (`units_strictMono`). That is what lets words be compared by rank.
-/

namespace ScriptCore

/-- A number on the extended line. -/
inductive ExactNumber where
  | finite (q : ℚ)
  | infinite (negative : Bool)
deriving DecidableEq

namespace Binary64

/-- What the word denotes, unless it is not a number. -/
def number? (x : Binary64) : Option ExactNumber :=
  if x.isNaN then none
  else if x.isInfinite then some (.infinite x.isNegative)
  else some (.finite (x.signedUnits / unitsPerOne))

/-! ### Units -/

theorem significand_eq (m : Nat) :
    significand m = if m < 2 ^ 52 then m else 2 ^ 52 + m % 2 ^ 52 := rfl

theorem scale_eq (m : Nat) : scale m = m / 2 ^ 52 - 1 := rfl

theorem units_eq (x : Binary64) : x.units = significand x.magnitude * 2 ^ scale x.magnitude := rfl

theorem units_succ (m : Nat) :
    significand (m + 1) * 2 ^ scale (m + 1) = significand m * 2 ^ scale m + 2 ^ scale m := by
  rw [significand_eq, significand_eq, scale_eq, scale_eq]
  rcases Nat.lt_trichotomy (m + 1) (2 ^ 52) with hlt | heq | hgt
  · have h₀ : m / 2 ^ 52 = 0 := Nat.div_eq_of_lt (by omega)
    have h₁ : (m + 1) / 2 ^ 52 = 0 := Nat.div_eq_of_lt hlt
    rw [if_pos hlt, if_pos (by omega), h₀, h₁]
    omega
  · have h₀ : m / 2 ^ 52 = 0 := Nat.div_eq_of_lt (by omega)
    rw [heq, if_neg (Nat.lt_irrefl _), if_pos (by omega), h₀]
    omega
  · rw [if_neg (by omega), if_neg (by omega)]
    obtain ⟨q, hq⟩ : ∃ q, m / 2 ^ 52 = q + 1 := ⟨m / 2 ^ 52 - 1, by omega⟩
    by_cases hcarry : m % 2 ^ 52 + 1 = 2 ^ 52
    -- The last significand of a binade: the next word starts one with twice the spacing.
    · have h₁ : (m + 1) / 2 ^ 52 = q + 2 := by omega
      have h₂ : (m + 1) % 2 ^ 52 = 0 := by omega
      have h₃ : m % 2 ^ 52 = 2 ^ 52 - 1 := by omega
      rw [hq, h₁, h₂, h₃, show q + 2 - 1 = q + 1 by omega, show q + 1 - 1 = q by omega,
        Nat.pow_succ]
      omega
    -- Any other word is followed by the next significand at the same spacing.
    · have h₁ : (m + 1) / 2 ^ 52 = q + 1 := by omega
      have h₂ : (m + 1) % 2 ^ 52 = m % 2 ^ 52 + 1 := by omega
      rw [hq, h₁, h₂, ← Nat.add_assoc, Nat.succ_mul]

theorem units_strictMono : StrictMono fun m => significand m * 2 ^ scale m :=
  strictMono_nat_of_lt_succ fun m => by
    simp only [units_succ]
    exact Nat.lt_add_of_pos_right (Nat.two_pow_pos _)

theorem units_eq_iff {x y : Binary64} : x.units = y.units ↔ x.magnitude = y.magnitude := by
  rw [units_eq, units_eq]
  exact units_strictMono.injective.eq_iff

theorem units_eq_zero_iff {x : Binary64} : x.units = 0 ↔ x.magnitude = 0 :=
  units_strictMono.injective.eq_iff' rfl

theorem rank_eq_iff {x y : Binary64} : x.rank = y.rank ↔ x.signedUnits = y.signedUnits := by
  have heq := @units_eq_iff x y
  have hx := @units_eq_zero_iff x
  have hy := @units_eq_zero_iff y
  -- Both are odd in the sign, and the zeros are the only words where the signs do not matter.
  unfold rank signedUnits
  cases x.isNegative <;> cases y.isNegative <;>
    simp only [if_true, if_false, Bool.false_eq_true] <;> omega

theorem unitsPerOne_pos : 0 < unitsPerOne := by
  unfold unitsPerOne
  -- The power is far too large to be computed.
  generalize 1074 = k
  exact Nat.pow_pos Nat.two_pos

theorem unitsPerOne_ne_zero : (unitsPerOne : ℚ) ≠ 0 :=
  Nat.cast_ne_zero.mpr (Nat.ne_of_gt unitsPerOne_pos)

theorem natAbs_signedUnits (x : Binary64) : x.signedUnits.natAbs = x.units := by
  unfold signedUnits
  split <;> simp

/-- A whole number is as many times the units of one. -/
theorem whole_iff {x : Binary64} {n : Int} :
    (x.units % unitsPerOne = 0 ∧ x.truncate = n) ↔ x.signedUnits = n * unitsPerOne := by
  rw [← natAbs_signedUnits, truncate]
  constructor
  · rintro ⟨hmod, rfl⟩
    have hdvd : (unitsPerOne : Int) ∣ x.signedUnits :=
      Int.natCast_dvd.mpr (Nat.dvd_of_mod_eq_zero hmod)
    exact (Int.tdiv_mul_cancel hdvd).symm
  · intro h
    have hpos : (unitsPerOne : Int) ≠ 0 := Int.natCast_ne_zero.mpr (Nat.ne_of_gt unitsPerOne_pos)
    rw [h, Int.natAbs_mul, Int.natAbs_natCast]
    exact ⟨Nat.mul_mod_left _ _, Int.mul_tdiv_cancel _ hpos⟩

/-! ### Equality -/

theorem number?_of_isNaN {x : Binary64} (h : x.isNaN = true) : x.number? = none := if_pos h

theorem number?_of_isInfinite {x : Binary64} (hnan : ¬ x.isNaN = true)
    (h : x.isInfinite = true) : x.number? = some (.infinite x.isNegative) := by
  rw [number?, if_neg hnan, if_pos h]

theorem number?_of_finite {x : Binary64} (hnan : ¬ x.isNaN = true)
    (h : ¬ x.isInfinite = true) : x.number? = some (.finite (x.signedUnits / unitsPerOne)) := by
  rw [number?, if_neg hnan, if_neg h]

theorem exists_some_iff {α : Type} {a b : α} :
    (∃ e, some a = some e ∧ some b = some e) ↔ a = b := by
  simp [eq_comm]

/-- Numeric equality holds of the words that denote the same number. -/
theorem numEq_iff {x y : Binary64} :
    x.numEq y = true ↔ ∃ e, x.number? = some e ∧ y.number? = some e := by
  by_cases hx : x.isNaN = true
  · rw [number?_of_isNaN hx]
    simp [numEq, hx]
  by_cases hy : y.isNaN = true
  · rw [number?_of_isNaN hy]
    simp [numEq, hy]
  have hnum : x.numEq y = true ↔ x.rank = y.rank := by simp [numEq, hx, hy]
  have hlex : x.magnitude ≤ infiniteMagnitude := by simpa [isNaN] using hx
  have hley : y.magnitude ≤ infiniteMagnitude := by simpa [isNaN] using hy
  have hpos : 0 < infiniteMagnitude := by decide
  rw [hnum]
  -- An infinity has the same rank as itself and a larger magnitude than all that is finite.
  by_cases hix : x.isInfinite = true <;> by_cases hiy : y.isInfinite = true
  · have h₁ : x.magnitude = infiniteMagnitude := by simpa [isInfinite] using hix
    have h₂ : y.magnitude = infiniteMagnitude := by simpa [isInfinite] using hiy
    rw [number?_of_isInfinite hx hix, number?_of_isInfinite hy hiy, exists_some_iff,
      ExactNumber.infinite.injEq]
    unfold rank
    rw [h₁, h₂]
    cases x.isNegative <;> cases y.isNegative <;> simp <;> omega
  · have h₁ : x.magnitude = infiniteMagnitude := by simpa [isInfinite] using hix
    have h₂ : y.magnitude ≠ infiniteMagnitude := by simpa [isInfinite] using hiy
    rw [number?_of_isInfinite hx hix, number?_of_finite hy hiy, exists_some_iff]
    refine iff_of_false ?_ (by rintro ⟨⟩)
    unfold rank
    split <;> split <;> omega
  · have h₁ : x.magnitude ≠ infiniteMagnitude := by simpa [isInfinite] using hix
    have h₂ : y.magnitude = infiniteMagnitude := by simpa [isInfinite] using hiy
    rw [number?_of_finite hx hix, number?_of_isInfinite hy hiy, exists_some_iff]
    refine iff_of_false ?_ (by rintro ⟨⟩)
    unfold rank
    split <;> split <;> omega
  · rw [number?_of_finite hx hix, number?_of_finite hy hiy, exists_some_iff,
      ExactNumber.finite.injEq, div_left_inj' unitsPerOne_ne_zero, Rat.intCast_inj, rank_eq_iff]

theorem isFinite_iff {x : Binary64} :
    x.isFinite = true ↔ ¬ x.isNaN = true ∧ ¬ x.isInfinite = true := by
  simp only [isFinite, isNaN, isInfinite, decide_eq_true_eq, beq_iff_eq]
  omega

/-! ### What determines a word -/

/-- A word is its sign and its magnitude. -/
theorem eq_of_magnitude {x y : Binary64} (magnitude : x.magnitude = y.magnitude)
    (sign : x.isNegative = y.isNegative) : x = y := by
  have hm : x.bits.toNat % 2 ^ 63 = y.bits.toNat % 2 ^ 63 := magnitude
  have hs : 2 ^ 63 ≤ x.bits.toNat ↔ 2 ^ 63 ≤ y.bits.toNat := by
    rw [← decide_eq_decide]
    exact sign
  have hx := x.bits.toNat_lt
  have hy := y.bits.toNat_lt
  have hbits : x.bits = y.bits := UInt64.toNat_inj.mp (by omega)
  cases x
  cases y
  rw [mk.injEq]
  exact hbits

theorem exists_number? {x : Binary64} (number : x.isNaN = false) : ∃ e, x.number? = some e := by
  rw [Binary64.number?, number, if_neg Bool.false_ne_true]
  split <;> exact ⟨_, rfl⟩

/-- Words that denote the same are the same word, unless that is zero. -/
theorem eq_of_number? {x y : Binary64} {e : ExactNumber} (hx : x.number? = some e)
    (hy : y.number? = some e) (nonzero : e ≠ .finite 0) : x = y := by
  have hrank : x.rank = y.rank := by
    have heq := numEq_iff.mpr ⟨e, hx, hy⟩
    simp only [numEq, Bool.and_eq_true, beq_iff_eq] at heq
    exact heq.2
  have hmagnitude : x.magnitude ≠ 0 := by
    intro hm
    have hunits : x.signedUnits = 0 := by
      have hzero : x.units = 0 := units_eq_zero_iff.mpr hm
      simp [signedUnits, hzero]
    have hfinite : x.isFinite = true := by simp [isFinite, hm, infiniteMagnitude]
    obtain ⟨hnan, hinf⟩ := isFinite_iff.mp hfinite
    rw [number?_of_finite hnan hinf, hunits] at hx
    have zero := (Option.some.inj hx).symm
    rw [Int.cast_zero, zero_div] at zero
    exact nonzero zero
  -- Away from zero the sign of the rank is the sign of the word.
  unfold rank at hrank
  refine eq_of_magnitude ?_ ?_ <;>
    cases hsx : x.isNegative <;> cases hsy : y.isNegative <;>
    simp only [hsx, hsy, if_true, if_false, Bool.false_eq_true] at hrank ⊢ <;> omega

end Binary64

namespace Value.Numeric

/-- What the number denotes, unless it is not a number. -/
def number? : Numeric → Option ExactNumber
  | .int n => some (.finite n)
  | .float x => x.number?

theorem intEqFloat_iff {n : Int} {x : Binary64} :
    intEqFloat n x = true ↔ x.number? = some (.finite n) := by
  have hwhole : intEqFloat n x = true ↔
      x.isFinite = true ∧ x.signedUnits = n * Binary64.unitsPerOne := by
    rw [← Binary64.whole_iff]
    simp only [intEqFloat, Binary64.isWhole, Bool.and_eq_true, beq_iff_eq, and_assoc]
  rw [hwhole, Binary64.isFinite_iff]
  by_cases hnan : x.isNaN = true
  · rw [Binary64.number?_of_isNaN hnan]
    exact iff_of_false (fun h => h.1.1 hnan) (by simp)
  by_cases hinf : x.isInfinite = true
  · rw [Binary64.number?_of_isInfinite hnan hinf]
    exact iff_of_false (fun h => h.1.2 hinf) (by simp)
  rw [Binary64.number?_of_finite hnan hinf, Option.some.injEq, ExactNumber.finite.injEq,
    div_eq_iff Binary64.unitsPerOne_ne_zero, and_iff_right ⟨hnan, hinf⟩]
  exact_mod_cast Iff.rfl

/-- Equality of numbers of any width is equality of what they denote. -/
theorem eq_iff {m n : Numeric} :
    m.eq n = true ↔ ∃ e, m.number? = some e ∧ n.number? = some e := by
  cases m with
  | int m =>
      cases n with
      | int n => simp [eq, number?, @eq_comm _ n m]
      | float y => simp [eq, number?, intEqFloat_iff]
  | float x =>
      cases n with
      | int n => simp [eq, number?, intEqFloat_iff]
      | float y => exact Binary64.numEq_iff

end Value.Numeric

end ScriptCore
