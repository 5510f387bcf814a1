import ScriptCore.Binary64.Rounding
import ScriptCore.Proofs.Binary64.Exact

/-!
# ScriptCore.Proofs.Binary64.Whole

Whole numbers up to `2⁵³` are **added and subtracted exactly**.

Rounding gives back what needs no rounding. A number of units needs none if it is not too large and
its lowest bits, those beyond fifty-three from the top, are zero (`Fits`).
-/

namespace ScriptCore.Binary64

/-! ### Words by sign and magnitude -/

theorem infiniteMagnitude_eq : infiniteMagnitude = 2047 * 2 ^ 52 := rfl

section OfMagnitude

variable (negative : Bool) {m : Nat}

theorem toNat_ofMagnitude (h : m < 2 ^ 63) :
    (ofMagnitude negative m).bits.toNat = if negative then 2 ^ 63 + m else m := by
  show (UInt64.ofNat (if negative then 2 ^ 63 + m else m)).toNat = _
  rw [UInt64.toNat_ofNat']
  refine Nat.mod_eq_of_lt ?_
  split <;> omega

theorem magnitude_ofMagnitude (h : m < 2 ^ 63) : (ofMagnitude negative m).magnitude = m := by
  show (ofMagnitude negative m).bits.toNat % 2 ^ 63 = m
  rw [toNat_ofMagnitude negative h]
  split <;> omega

theorem isNegative_ofMagnitude (h : m < 2 ^ 63) : (ofMagnitude negative m).isNegative = negative := by
  show decide (2 ^ 63 ≤ (ofMagnitude negative m).bits.toNat) = negative
  rw [toNat_ofMagnitude negative h]
  cases negative with
  | false => simp; omega
  | true => simp

end OfMagnitude

/-! ### Rounding -/

theorem nearestMagnitude_eq (num den : Nat) :
    nearestMagnitude num den = min infiniteMagnitude (((num / den).log2 - 52) * 2 ^ 52 +
      divNearestEven num (den * 2 ^ ((num / den).log2 - 52))) := rfl

theorem divNearestEven_le (num den : Nat) : divNearestEven num den ≤ num / den + 1 := by
  unfold divNearestEven
  dsimp only
  split
  · omega
  · split <;> omega

theorem divNearestEven_of_dvd {num den : Nat} (pos : 0 < den) (h : den ∣ num) :
    divNearestEven num den = num / den := by
  have hmod : num % den = 0 := Nat.mod_eq_zero_of_dvd h
  unfold divNearestEven
  dsimp only
  rw [hmod, if_pos (by omega)]

/-- What is far below the limit does not become infinite. -/
theorem nearestMagnitude_lt {num den : Nat} (small : (num / den).log2 ≤ 2090) :
    nearestMagnitude num den < infiniteMagnitude := by
  have hq : num / (den * 2 ^ ((num / den).log2 - 52)) < 2 ^ 53 := by
    rw [← Nat.div_div_eq_div_mul]
    refine Nat.div_lt_of_lt_mul ?_
    rw [← Nat.pow_add]
    refine Nat.lt_of_lt_of_le Nat.lt_log2_self (Nat.pow_le_pow_right Nat.two_pos ?_)
    omega
  have hle := divNearestEven_le num (den * 2 ^ ((num / den).log2 - 52))
  rw [nearestMagnitude_eq, infiniteMagnitude_eq]
  omega

/-- A number of units that needs no rounding. -/
structure Fits (n : Nat) : Prop where
  lowest : 2 ^ (n.log2 - 52) ∣ n
  small : n.log2 ≤ 2090

/-- Rounding changes nothing where nothing needs rounding. -/
theorem units_nearestMagnitude {n : Nat} (h : Fits n) :
    significand (nearestMagnitude n 1) * 2 ^ scale (nearestMagnitude n 1) = n := by
  have hlt : nearestMagnitude n 1 < infiniteMagnitude := nearestMagnitude_lt (by simpa using h.small)
  obtain ⟨q, hq⟩ := h.lowest
  have hpos : 0 < 2 ^ (n.log2 - 52) := Nat.two_pow_pos _
  have hdiv : n / 2 ^ (n.log2 - 52) = q := by
    rw [Nat.div_eq_of_eq_mul_right hpos hq]
  have hm : nearestMagnitude n 1 = (n.log2 - 52) * 2 ^ 52 + q := by
    rw [nearestMagnitude_eq, Nat.div_one, Nat.one_mul, divNearestEven_of_dvd hpos h.lowest, hdiv] at hlt ⊢
    omega
  rw [hm, significand_eq, scale_eq]
  rcases Nat.lt_or_ge n (2 ^ 52) with hn | hn
  -- A subnormal number or one of the first binade is its own magnitude.
  · have hlog : n.log2 - 52 = 0 := by
      rcases Nat.eq_zero_or_pos n with rfl | hn₀
      · rfl
      · have := (Nat.log2_lt hn₀.ne').mpr hn
        omega
    rw [hlog] at hq ⊢
    have hnq : n = q := by omega
    rw [if_pos (by omega), show (0 * 2 ^ 52 + q) / 2 ^ 52 - 1 = 0 by omega]
    omega
  -- Any other one has its leading bit at the place that the word leaves out.
  · have hn₀ : n ≠ 0 := by omega
    have hlog : 52 ≤ n.log2 := (Nat.le_log2 hn₀).mpr hn
    have hupper : q < 2 ^ 53 := by
      have : 2 ^ (n.log2 - 52) * q < 2 ^ (n.log2 - 52) * 2 ^ 53 := by
        rw [← hq, ← Nat.pow_add, show n.log2 - 52 + 53 = n.log2 + 1 by omega]
        exact Nat.lt_log2_self
      exact Nat.lt_of_mul_lt_mul_left this
    have hlower : 2 ^ 52 ≤ q := by
      have : 2 ^ (n.log2 - 52) * 2 ^ 52 ≤ 2 ^ (n.log2 - 52) * q := by
        rw [← hq, ← Nat.pow_add, show n.log2 - 52 + 52 = n.log2 by omega]
        exact Nat.log2_self_le hn₀
      exact Nat.le_of_mul_le_mul_left this hpos
    rw [if_neg (by omega), show 2 ^ 52 + ((n.log2 - 52) * 2 ^ 52 + q) % 2 ^ 52 = q by omega,
      show ((n.log2 - 52) * 2 ^ 52 + q) / 2 ^ 52 - 1 = n.log2 - 52 by omega, Nat.mul_comm]
    exact hq.symm

/-! ### Rounded results -/

/-- A finite number of a sign and a number of units. -/
structure Denotes (x : Binary64) (negative : Bool) (n : Nat) : Prop where
  notNaN : x.isNaN = false
  notInfinite : x.isInfinite = false
  sign : x.isNegative = negative
  units : x.units = n

theorem denotes_ofMagnitude (negative : Bool) {m : Nat} (finite : m < infiniteMagnitude) :
    Denotes (ofMagnitude negative m) negative (significand m * 2 ^ scale m) := by
  have hm : m < 2 ^ 63 := by
    rw [infiniteMagnitude_eq] at finite
    omega
  have hmagnitude := magnitude_ofMagnitude negative hm
  refine ⟨?_, ?_, isNegative_ofMagnitude negative hm, ?_⟩
  · simp [isNaN, hmagnitude, Nat.le_of_lt finite]
  · simp [isInfinite, hmagnitude, Nat.ne_of_lt finite]
  · rw [units_eq, hmagnitude]

theorem denotes_ofUnits (negative : Bool) {n : Nat} (h : Fits n) :
    Denotes (ofUnits negative n 1) negative n := by
  have finite : nearestMagnitude n 1 < infiniteMagnitude :=
    nearestMagnitude_lt (by simpa using h.small)
  have hd := denotes_ofMagnitude negative finite
  rwa [units_nearestMagnitude h] at hd

theorem Denotes.signedUnits {x : Binary64} {negative : Bool} {n : Nat} (h : x.Denotes negative n) :
    x.signedUnits = if negative then -(n : Int) else n := by
  rw [Binary64.signedUnits, h.sign, h.units]

theorem Denotes.neg {x : Binary64} {negative : Bool} {n : Nat} (h : x.Denotes negative n) :
    x.neg.Denotes (!negative) n := by
  have finite : x.magnitude < infiniteMagnitude := by
    have hnan : x.magnitude ≤ infiniteMagnitude := by simpa [isNaN] using h.notNaN
    have hinf : x.magnitude ≠ infiniteMagnitude := by simpa [isInfinite] using h.notInfinite
    omega
  have hd := denotes_ofMagnitude (!x.isNegative) finite
  rw [← units_eq, h.units, h.sign] at hd
  rw [Binary64.neg, h.sign]
  exact hd

theorem denotes_zero : Denotes (zero false) false 0 :=
  denotes_ofMagnitude false (m := 0) (by decide)

/-! ### Whole numbers -/

theorem log2_mul_two_pow {m : Nat} (pos : m ≠ 0) (k : Nat) : (m * 2 ^ k).log2 = m.log2 + k := by
  have hk : 0 < 2 ^ k := Nat.two_pow_pos k
  rw [Nat.log2_eq_iff (Nat.mul_ne_zero pos hk.ne')]
  constructor
  · rw [Nat.pow_add]
    exact Nat.mul_le_mul_right _ (Nat.log2_self_le pos)
  · rw [show m.log2 + k + 1 = m.log2 + 1 + k by omega, Nat.pow_add]
    exact Nat.mul_lt_mul_of_pos_right Nat.lt_log2_self hk

theorem fits_mul_two_pow {m k : Nat} (h : m ≤ 2 ^ 53) (hk : 52 ≤ k ∧ k ≤ 2037) :
    Fits (m * 2 ^ k) := by
  rcases Nat.eq_zero_or_pos m with rfl | pos
  · rw [Nat.zero_mul]
    exact ⟨⟨0, rfl⟩, by simp⟩
  have hlog := log2_mul_two_pow pos.ne' k
  have hle : m.log2 < 54 := (Nat.log2_lt pos.ne').mpr (by omega)
  refine ⟨?_, by omega⟩
  rw [hlog]
  -- Only the largest of these numbers has its leading bit one place higher.
  rcases Nat.lt_or_ge m.log2 53 with hlt | hge
  · exact Dvd.dvd.mul_left (Nat.pow_dvd_pow 2 (by omega)) m
  · have hm : m = 2 ^ 53 := Nat.le_antisymm h ((Nat.le_log2 pos.ne').mp hge)
    rw [hm, ← Nat.pow_add, Nat.log2_two_pow]
    exact Nat.pow_dvd_pow 2 (by omega)

theorem fits_whole {m : Nat} (h : m ≤ 2 ^ 53) : Fits (m * unitsPerOne) := by
  unfold unitsPerOne
  generalize hk : 1074 = k
  exact fits_mul_two_pow h (by omega)

theorem denotes_ofNat {m : Nat} (h : m ≤ 2 ^ 53) : Denotes (ofNat m) false (m * unitsPerOne) :=
  denotes_ofUnits false (fits_whole h)

theorem ofUnits_zero (negative : Bool) (den : Nat) : ofUnits negative 0 den = zero negative := by
  have hzero : nearestMagnitude 0 den = 0 := by
    have hlog : (0 / den).log2 = 0 := by rw [Nat.zero_div, Nat.log2_zero]
    rw [nearestMagnitude_eq, hlog]
    simp [divNearestEven]
  rw [ofUnits, hzero, zero]

theorem ofNat_zero : ofNat 0 = zero false := by
  rw [ofNat, ofRatio, Nat.zero_mul, ofUnits_zero]

theorem add_of_denotes {x y : Binary64} {a b : Bool} {m n : Nat} (hx : x.Denotes a m)
    (hy : y.Denotes b n) :
    x + y = if x.signedUnits + y.signedUnits = 0 then zero (a && b)
      else ofUnits (x.signedUnits + y.signedUnits < 0) (x.signedUnits + y.signedUnits).natAbs 1 := by
  show x.add y = _
  simp [add, hx.notNaN, hx.notInfinite, hy.notNaN, hy.notInfinite, hx.sign, hy.sign]

/-- A difference that is not negative. -/
theorem ofNat_sub_ofNat {m n : Nat} (hle : n ≤ m) (hm : m ≤ 2 ^ 53) :
    ofNat m - ofNat n = ofNat (m - n) := by
  have hx := denotes_ofNat hm
  have hy := (denotes_ofNat (Nat.le_trans hle hm)).neg
  have hsum : (ofNat m).signedUnits + (ofNat n).neg.signedUnits = ((m - n) * unitsPerOne : Nat) := by
    rw [hx.signedUnits, hy.signedUnits, Nat.sub_mul]
    have := Nat.mul_le_mul_right unitsPerOne hle
    simp only [Bool.not_false, Bool.false_eq_true, if_true, if_false]
    omega
  show ofNat m + (ofNat n).neg = _
  rw [add_of_denotes hx hy, hsum]
  by_cases hzero : (m - n) * unitsPerOne = 0
  · have : m - n = 0 := by
      rcases Nat.mul_eq_zero.mp hzero with h | h
      · exact h
      · exact absurd h unitsPerOne_pos.ne'
    rw [this, Nat.zero_mul, ofNat_zero]
    rfl
  · rw [if_neg (by exact_mod_cast hzero), Int.natAbs_natCast, decide_eq_false (by omega)]
    rfl

/-- A negative difference. -/
theorem denotes_ofNat_sub {m n : Nat} (hlt : m < n) (hn : n ≤ 2 ^ 53) :
    Denotes (ofNat m - ofNat n) true ((n - m) * unitsPerOne) := by
  have hx := denotes_ofNat (Nat.le_trans (Nat.le_of_lt hlt) hn)
  have hy := (denotes_ofNat hn).neg
  have hpos : 0 < (n - m) * unitsPerOne := Nat.mul_pos (by omega) unitsPerOne_pos
  have hsum : (ofNat m).signedUnits + (ofNat n).neg.signedUnits =
      -((n - m) * unitsPerOne : Nat) := by
    rw [hx.signedUnits, hy.signedUnits, Nat.sub_mul]
    have := Nat.mul_le_mul_right unitsPerOne (Nat.le_of_lt hlt)
    simp only [Bool.not_false, Bool.false_eq_true, if_true, if_false]
    omega
  show Denotes (ofNat m + (ofNat n).neg) _ _
  rw [add_of_denotes hx hy, hsum, if_neg (by omega), Int.natAbs_neg, Int.natAbs_natCast,
    decide_eq_true (by omega)]
  exact denotes_ofUnits true (fits_whole (by omega))

theorem ofNat_add_zero {m : Nat} (hm : m ≤ 2 ^ 53) : ofNat m + zero false = ofNat m := by
  have hx := denotes_ofNat hm
  have hsum : (ofNat m).signedUnits + (zero false).signedUnits = (m * unitsPerOne : Nat) := by
    rw [hx.signedUnits, denotes_zero.signedUnits]
    simp only [Bool.false_eq_true, if_false, Int.natCast_zero, Int.add_zero]
  rw [add_of_denotes hx denotes_zero, hsum]
  by_cases hzero : m = 0
  · rw [hzero, Nat.zero_mul, ofNat_zero]
    rfl
  · have hpos : 0 < m * unitsPerOne := Nat.mul_pos (by omega) unitsPerOne_pos
    rw [if_neg (by omega), Int.natAbs_natCast, decide_eq_false (by omega)]
    rfl

/-! ### Comparison, and zero as a factor and a divisor -/

theorem Denotes.isZero {x : Binary64} {negative : Bool} {n : Nat} (h : x.Denotes negative n) :
    x.isZero = (n == 0) := by
  have hiff := units_eq_zero_iff (x := x)
  rw [h.units] at hiff
  rw [Binary64.isZero, Bool.eq_iff_iff, beq_iff_eq, beq_iff_eq]
  exact hiff.symm

theorem Denotes.lt_iff {x y : Binary64} {m n : Nat} (hx : x.Denotes false m)
    (hy : y.Denotes false n) : x.lt y = true ↔ m < n := by
  have hmono := units_strictMono.lt_iff_lt (a := x.magnitude) (b := y.magnitude)
  rw [← units_eq, ← units_eq, hx.units, hy.units] at hmono
  simp [lt, rank, hx.notNaN, hy.notNaN, hx.sign, hy.sign, hmono]

/-- Nothing below zero is at least zero. -/
theorem Denotes.zero_le_iff {x : Binary64} {negative : Bool} {n : Nat} (h : x.Denotes negative n) :
    (zero false).le x = true ↔ negative = false ∨ n = 0 := by
  have hzero : (zero false).rank = 0 := rfl
  have hn := units_eq_zero_iff (x := x)
  rw [h.units] at hn
  rw [le, hzero, rank, h.sign, h.notNaN, denotes_zero.notNaN]
  cases negative with
  | false => simp
  | true => simp [hn]

theorem Denotes.div_zero {x : Binary64} {n : Nat} (h : x.Denotes false n) (pos : 0 < n) :
    x / zero false = infinity false := by
  have hx : x.isZero = false := by
    rw [h.isZero]
    simp
    omega
  have hzero : (zero false).isZero = true := rfl
  show x.div (zero false) = _
  simp [div, h.notNaN, h.notInfinite, h.sign, hx, hzero, denotes_zero.notNaN,
    denotes_zero.notInfinite, denotes_zero.sign]

theorem Denotes.mul_zero {x : Binary64} {n : Nat} (h : x.Denotes false n) :
    x * zero false = zero false := by
  show x.mul (zero false) = _
  simp [mul, h.notNaN, h.notInfinite, h.sign, denotes_zero.notNaN, denotes_zero.notInfinite,
    denotes_zero.sign, denotes_zero.units, ofUnits_zero]

/-- A quotient of which the numerator is not huge is a finite number. -/
theorem ofRatio_denotes {num : Nat} (small : num < 2 ^ 200) (den : Nat) :
    ∃ n, Denotes (ofRatio false num den) false n := by
  refine ⟨_, denotes_ofMagnitude _ (nearestMagnitude_lt ?_)⟩
  have hle : num * unitsPerOne / den ≤ num * unitsPerOne := Nat.div_le_self _ _
  have hlt : num * unitsPerOne < 2 ^ 200 * unitsPerOne :=
    Nat.mul_lt_mul_of_pos_right small unitsPerOne_pos
  unfold unitsPerOne at hle hlt ⊢
  generalize hk : 1074 = k at hle hlt ⊢
  rcases Nat.eq_zero_or_pos (num * Nat.pow 2 k / den) with hzero | hpos
  · rw [hzero, Nat.log2_zero]
    omega
  · have hbound : num * Nat.pow 2 k / den < 2 ^ (200 + k) := by
      rw [Nat.pow_add]
      exact Nat.lt_of_le_of_lt hle hlt
    have := (Nat.log2_lt hpos.ne').mpr hbound
    omega

end ScriptCore.Binary64
