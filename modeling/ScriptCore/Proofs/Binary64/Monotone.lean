import ScriptCore.Proofs.Binary64.Rounded

/-!
# ScriptCore.Proofs.Binary64.Monotone

Arithmetic **keeps the order** of numbers that are not negative.

Design points:

* Rounding is monotone: within a binade because it is there rounding to a whole number, and from one
  binade to the next because a carry does not go beyond the first number of the next one.
* `AtMost` is the order on what is not negative, infinity included. Quotients and products by a common
  number keep it, except that infinity over infinity and infinity times zero are no numbers. These are
  clamped to zero, so the order survives in the clamped results (`AtMost.clamp_mul`).
-/

namespace ScriptCore.Binary64

/-! ### Rounding -/

variable {num num' den : Nat}

theorem divNearestEven_mono (pos : 0 < den) (le : num ≤ num') :
    divNearestEven num den ≤ divNearestEven num' den := by
  obtain ⟨lower, -, tie⟩ :=
    (divNearestEven_eq_iff pos).mp (rfl : divNearestEven num den = divNearestEven num den)
  obtain ⟨-, upper, tie'⟩ :=
    (divNearestEven_eq_iff pos).mp (rfl : divNearestEven num' den = divNearestEven num' den)
  by_contra hlt
  -- The results are one apart, and both are ties. One of them is not even.
  have step : (divNearestEven num' den + 1) * den ≤ divNearestEven num den * den :=
    Nat.mul_le_mul_right den (by omega)
  rw [Nat.succ_mul] at step
  have even := tie (.inl (by omega))
  have even' := tie' (.inr (by omega))
  have apart : divNearestEven num den * den = (divNearestEven num' den + 1) * den := by
    rw [Nat.succ_mul]
    omega
  have := Nat.eq_of_mul_eq_mul_right pos apart
  omega

/-- The significand that a fraction is rounded to has fifty-three bits, or is that of the smallest
numbers. -/
theorem significand_bounds (num den : Nat) :
    divNearestEven num (den * 2 ^ ((num / den).log2 - 52)) ≤ 2 ^ 53 ∧
      ((num / den).log2 - 52 = 0 ∨
        2 ^ 52 ≤ divNearestEven num (den * 2 ^ ((num / den).log2 - 52))) := by
  have hdiv : num / (den * 2 ^ ((num / den).log2 - 52)) = num / den / 2 ^ ((num / den).log2 - 52) :=
    (Nat.div_div_eq_div_mul ..).symm
  constructor
  · refine Nat.le_trans (divNearestEven_le _ _) ?_
    rw [hdiv]
    refine Nat.div_lt_of_lt_mul ?_
    rw [← Nat.pow_add]
    exact Nat.lt_of_lt_of_le Nat.lt_log2_self (Nat.pow_le_pow_right Nat.two_pos (by omega))
  · rcases Nat.eq_zero_or_pos ((num / den).log2 - 52) with hzero | hlarge
    · exact .inl hzero
    · refine .inr (Nat.le_trans ?_ (div_le_divNearestEven _ _))
      rw [hdiv, Nat.le_div_iff_mul_le (Nat.two_pow_pos _), ← Nat.pow_add,
        show 52 + ((num / den).log2 - 52) = (num / den).log2 by omega]
      refine Nat.log2_self_le fun hzero => ?_
      rw [hzero, Nat.log2_zero] at hlarge
      omega

theorem nearestMagnitude_mono (pos : 0 < den) (le : num ≤ num') :
    nearestMagnitude num den ≤ nearestMagnitude num' den := by
  have hspacing : (num / den).log2 ≤ (num' / den).log2 := by
    rcases Nat.eq_zero_or_pos (num / den) with hzero | hpos
    · rw [hzero, Nat.log2_zero]
      exact Nat.zero_le _
    · have hle := Nat.div_le_div_right (c := den) le
      exact (Nat.le_log2 (by omega)).mpr (Nat.le_trans (Nat.log2_self_le hpos.ne') hle)
  obtain ⟨hupper, -⟩ := significand_bounds num den
  obtain ⟨-, hlower⟩ := significand_bounds num' den
  rw [nearestMagnitude_eq, nearestMagnitude_eq]
  refine min_le_min_left _ ?_
  rcases Nat.eq_or_lt_of_le (Nat.sub_le_sub_right hspacing 52) with same | apart
  · rw [same] at hupper ⊢
    exact Nat.add_le_add_left (divNearestEven_mono (Nat.mul_pos pos (Nat.two_pow_pos _)) le) _
  · have hnext : 2 ^ 52 ≤ divNearestEven num' (den * 2 ^ ((num' / den).log2 - 52)) :=
      hlower.resolve_left (by omega)
    omega

/-! ### Numbers that are not negative -/

/-- Neither number is negative, and the first is at most the second. -/
structure AtMost (x y : Binary64) : Prop where
  positive : x.isNegative = false
  positive' : y.isNegative = false
  notNaN : y.isNaN = false
  le : x.magnitude ≤ y.magnitude

variable {x y z : Binary64} {hi : Int}

theorem atMost_ofMagnitude {m n : Nat} (le : m ≤ n) (number : n ≤ infiniteMagnitude) :
    AtMost (ofMagnitude false m) (ofMagnitude false n) := by
  have hn : n < 2 ^ 63 := by
    rw [infiniteMagnitude_eq] at number
    omega
  have hm : m < 2 ^ 63 := Nat.lt_of_le_of_lt le hn
  refine ⟨isNegative_ofMagnitude _ hm, isNegative_ofMagnitude _ hn, ?_, ?_⟩
  · simpa [isNaN, magnitude_ofMagnitude _ hn] using number
  · rwa [magnitude_ofMagnitude _ hm, magnitude_ofMagnitude _ hn]

theorem atMost_ofUnits (pos : 0 < den) (le : num ≤ num') :
    AtMost (ofUnits false num den) (ofUnits false num' den) :=
  atMost_ofMagnitude (nearestMagnitude_mono pos le) (Nat.min_le_left _ _)

theorem atMost_ofRatio (pos : 0 < den) (le : num ≤ num') :
    AtMost (ofRatio false num den) (ofRatio false num' den) :=
  atMost_ofUnits pos (Nat.mul_le_mul_right _ le)

theorem atMost_ofNat {m n : Nat} (le : m ≤ n) : AtMost (ofNat m) (ofNat n) :=
  atMost_ofRatio Nat.one_pos le

namespace AtMost

theorem number (h : AtMost x y) : x.isNaN = false := by
  have hy := h.notNaN
  simp only [isNaN, decide_eq_false_iff_not, not_lt] at hy ⊢
  exact Nat.le_trans h.le hy

theorem units (h : AtMost x y) : x.units ≤ y.units :=
  units_strictMono.monotone h.le

theorem notInfinite (h : AtMost x y) (finite : y.isInfinite = false) : x.isInfinite = false := by
  have hy := h.notNaN
  simp only [isNaN, isInfinite, decide_eq_false_iff_not, not_lt, beq_eq_false_iff_ne] at hy finite ⊢
  have := h.le
  omega

theorem notZero (h : AtMost x y) (nonzero : x.isZero = false) : y.isZero = false := by
  simp only [isZero, beq_eq_false_iff_ne] at nonzero ⊢
  have := h.le
  omega

/-- A finite number and a smaller one, divided by the same number that is not zero. -/
theorem div (h : AtMost x y) (hz : AtMost z z) (finite : y.isInfinite = false)
    (nonzero : z.isZero = false) : AtMost (x / z) (y / z) := by
  have hx := h.notInfinite finite
  show AtMost (x.div z) (y.div z)
  simp only [Binary64.div, h.number, h.notNaN, hz.notNaN, hx, finite, h.positive, h.positive',
    hz.positive, nonzero, Bool.or_self, bne_self_eq_false, Bool.false_eq_true, if_false]
  split
  · exact atMost_ofMagnitude (Nat.le_refl _) (Nat.zero_le _)
  · have hunits : 0 < z.units :=
      Nat.pos_of_ne_zero fun hzero => by simp [isZero, units_eq_zero_iff.mp hzero] at nonzero
    exact atMost_ofRatio hunits h.units

theorem zero_div (hz : AtMost z z) (nonzero : z.isZero = false) : zero false / z = zero false := by
  show (zero false).div z = _
  simp only [Binary64.div, denotes_zero.notNaN, denotes_zero.notInfinite, denotes_zero.sign,
    hz.notNaN, hz.positive, nonzero, Bool.or_self, bne_self_eq_false, Bool.false_eq_true, if_false,
    denotes_zero.units, ofRatio, Nat.zero_mul, ofUnits_zero, ite_self]

/-! ### Clamped results -/

theorem truncate (h : AtMost x y) : x.truncate ≤ y.truncate := by
  rw [Binary64.truncate, Binary64.truncate, signedUnits, signedUnits, h.positive, h.positive']
  simp only [Bool.false_eq_true, if_false, ← Int.ofNat_tdiv]
  exact_mod_cast Nat.div_le_div_right h.units

theorem clamp (h : AtMost x y) (upper : 0 ≤ hi) : x.clamp 0 hi ≤ y.clamp 0 hi := by
  have hbound : max 0 (min hi x.truncate) ≤ hi := max_le upper (min_le_left _ _)
  simp only [Binary64.clamp, h.number, h.notNaN, h.positive, h.positive', Bool.false_eq_true,
    if_false]
  by_cases infinite : y.isInfinite = true
  · rw [if_pos infinite]
    split
    · exact Int.le_refl _
    · exact hbound
  · rw [if_neg infinite, if_neg (by simp [h.notInfinite (by simpa using infinite)])]
    exact max_le_max_left _ (min_le_min_left _ h.truncate)

end AtMost

theorem clamp_nonneg (x : Binary64) (upper : 0 ≤ hi) : 0 ≤ x.clamp 0 hi := by
  unfold clamp
  split
  · exact Int.le_refl _
  · split
    · split
      · exact Int.le_refl _
      · exact upper
    · exact le_max_left _ _

theorem clamp_zero (hi : Int) : (zero false).clamp 0 hi = 0 := by
  rw [clamp, denotes_zero.notNaN, denotes_zero.notInfinite, if_neg Bool.false_ne_true,
    if_neg Bool.false_ne_true, truncate, denotes_zero.signedUnits, if_neg Bool.false_ne_true,
    Int.natCast_zero, Int.zero_tdiv, max_eq_left (min_le_right hi 0)]

theorem Whole.clamp {n : Nat} (hx : Whole x n) (upper : (n : Int) ≤ hi) : x.clamp 0 hi = n := by
  have htruncate : x.truncate = n := by
    rw [truncate, hx.signedUnits, if_neg Bool.false_ne_true, ← Int.ofNat_tdiv,
      Nat.mul_div_cancel _ unitsPerOne_pos]
  rw [Binary64.clamp, hx.notNaN, hx.notInfinite, if_neg Bool.false_ne_true,
    if_neg Bool.false_ne_true, htruncate, min_eq_right upper, max_eq_right (Int.natCast_nonneg n)]

/-- A product of numbers that are not negative. -/
theorem AtMost.mul_eq (hx : AtMost x x) (hz : AtMost z z) : x * z =
    if x.isInfinite || z.isInfinite then (if x.isZero || z.isZero then nan else infinity false)
    else ofUnits false (x.units * z.units) unitsPerOne := by
  show x.mul z = _
  simp only [mul, hx.notNaN, hz.notNaN, hx.positive, hz.positive, Bool.or_self,
    bne_self_eq_false, Bool.false_eq_true, if_false]

/-- A product with zero is zero or no number. -/
theorem AtMost.clamp_mul_of_zero (hx : AtMost x x) (hz : AtMost z z)
    (isZero : (x.isZero || z.isZero) = true) : (x * z).clamp 0 hi = 0 := by
  have hunits : x.units * z.units = 0 := by
    rw [Nat.mul_eq_zero, units_eq_zero_iff, units_eq_zero_iff]
    simpa [Binary64.isZero] using isZero
  rw [hx.mul_eq hz, isZero, if_pos rfl, hunits, ofUnits_zero]
  split
  · rfl
  · exact clamp_zero hi

/-- Multiplied by the same number, and clamped. -/
theorem AtMost.clamp_mul (h : AtMost x y) (hz : AtMost z z) (upper : 0 ≤ hi) :
    (x * z).clamp 0 hi ≤ (y * z).clamp 0 hi := by
  have hx : AtMost x x := ⟨h.positive, h.positive, h.number, Nat.le_refl _⟩
  have hy : AtMost y y := ⟨h.positive', h.positive', h.notNaN, Nat.le_refl _⟩
  cases xzero : (x.isZero || z.isZero) with
  | true =>
      rw [hx.clamp_mul_of_zero hz xzero]
      exact clamp_nonneg _ upper
  | false =>
      obtain ⟨hxzero, hzzero⟩ := Bool.or_eq_false_iff.mp xzero
      rw [hx.mul_eq hz, hy.mul_eq hz, xzero, h.notZero hxzero, hzzero, Bool.or_false,
        if_neg Bool.false_ne_true]
      cases yinfinite : (y.isInfinite || z.isInfinite) with
      | true =>
          -- The larger product is infinite, and nothing is clamped to more than that.
          rw [if_pos rfl]
          split
          · exact Int.le_refl _
          · exact (atMost_ofMagnitude (Nat.min_le_left _ _) (Nat.le_refl _)).clamp upper
      | false =>
          obtain ⟨hyfinite, hzfinite⟩ := Bool.or_eq_false_iff.mp yinfinite
          rw [h.notInfinite hyfinite, hzfinite, Bool.or_false, if_neg Bool.false_ne_true]
          exact (atMost_ofUnits unitsPerOne_pos (Nat.mul_le_mul_right _ h.units)).clamp upper

end ScriptCore.Binary64
