import ScriptCore.Proofs.Binary64.Nearest

/-!
# ScriptCore.Proofs.Binary64.Rounded

Arithmetic on **whole numbers of any size**: the exact result, rounded to fifty-three bits.

Design points:

* `roundBits` is the rounding rule on natural numbers. It commutes with powers of two, so it is the
  same for a number and for its units.
* `Whole x n` says that a word is the number `n`. There is one rule for each operation, as long as
  the result is far enough from the end of the range.
-/

namespace ScriptCore.Binary64

/-! ### The rounding rule -/

/-- The nearest multiple is no farther than half a step, and at that distance it is the even one. -/
theorem divNearestEven_eq_iff {num den q : Nat} (pos : 0 < den) :
    divNearestEven num den = q ↔ 2 * (q * den) ≤ 2 * num + den ∧ 2 * num ≤ 2 * (q * den) + den ∧
      (2 * (q * den) = 2 * num + den ∨ 2 * num = 2 * (q * den) + den → q % 2 = 0) := by
  refine ⟨?_, fun ⟨lower, upper, tie⟩ => divNearestEven_eq pos lower upper tie⟩
  rintro rfl
  have hnum := Nat.div_add_mod' num den
  have hmod := Nat.mod_lt num pos
  have hsucc : (num / den + 1) * den = num / den * den + den := Nat.succ_mul _ _
  simp only [divNearestEven]
  split
  · omega
  · split
    · omega
    · rcases Nat.mod_two_eq_zero_or_one (num / den) with hparity | hparity
      · rw [hparity, Nat.add_zero]
        omega
      · rw [hparity]
        omega

/-- A whole number rounded to fifty-three bits. -/
def roundBits (n : Nat) : Nat := divNearestEven n (2 ^ (n.log2 - 52)) * 2 ^ (n.log2 - 52)

variable {n k q : Nat}

theorem spaced_whole (lower : k = 0 ∨ 2 ^ 52 * 2 ^ k ≤ n) (upper : n < 2 ^ 53 * 2 ^ k) :
    Spaced n 1 k := by
  rw [← Nat.pow_add] at lower upper
  exact ⟨by rwa [Nat.one_mul], by rwa [Nat.one_mul]⟩

/-- Which multiple of the spacing a number is rounded to. -/
theorem Spaced.roundBits_eq_iff (h : Spaced n 1 k) : roundBits n = q * 2 ^ k ↔
    2 * (q * 2 ^ k) ≤ 2 * n + 2 ^ k ∧ 2 * n ≤ 2 * (q * 2 ^ k) + 2 ^ k ∧
      (2 * (q * 2 ^ k) = 2 * n + 2 ^ k ∨ 2 * n = 2 * (q * 2 ^ k) + 2 ^ k → q % 2 = 0) := by
  have hlog := h.log2_eq Nat.one_pos
  rw [Nat.div_one] at hlog
  rw [roundBits, hlog, Nat.mul_left_inj (Nat.two_pow_pos k).ne',
    divNearestEven_eq_iff (Nat.two_pow_pos k)]

theorem roundBits_of_dvd (h : 2 ^ (n.log2 - 52) ∣ n) : roundBits n = n := by
  rw [roundBits, divNearestEven_of_dvd (Nat.two_pow_pos _) h, Nat.div_mul_cancel h]

/-- Rounding commutes with powers of two. -/
theorem roundBits_mul_two_pow (n k : Nat) : roundBits (n * 2 ^ k) = roundBits n * 2 ^ k := by
  rcases Nat.eq_zero_or_pos n with rfl | pos
  · simp [roundBits, divNearestEven]
  have hlog := log2_mul_two_pow pos.ne' k
  rcases Nat.lt_or_ge n.log2 52 with hlt | hge
  · have hdvd : 2 ^ ((n * 2 ^ k).log2 - 52) ∣ n * 2 ^ k := by
      rw [hlog]
      exact Dvd.dvd.mul_left (Nat.pow_dvd_pow 2 (by omega)) n
    have hself : roundBits n = n := by
      refine roundBits_of_dvd ?_
      rw [Nat.sub_eq_zero_of_le (Nat.le_of_lt hlt), Nat.pow_zero]
      exact Nat.one_dvd n
    rw [roundBits_of_dvd hdvd, hself]
  · rw [roundBits, roundBits, hlog, show n.log2 + k - 52 = n.log2 - 52 + k by omega, Nat.pow_add,
      divNearestEven_mul_right _ _ (Nat.two_pow_pos k), Nat.mul_assoc]

theorem roundBits_of_le (h : n ≤ 2 ^ 53) : roundBits n = n := by
  refine roundBits_of_dvd ?_
  rcases Nat.lt_or_eq_of_le h with hlt | rfl
  · have hlog : n.log2 < 53 := by
      rcases Nat.eq_zero_or_pos n with rfl | pos
      · decide
      · exact (Nat.log2_lt pos.ne').mpr hlt
    rw [Nat.sub_eq_zero_of_le (by omega), Nat.pow_zero]
    exact Nat.one_dvd n
  · rw [Nat.log2_two_pow]
    decide

/-- Rounding is off by little. -/
theorem roundBits_bounds (n : Nat) : 15 * n ≤ 16 * roundBits n ∧ 16 * roundBits n ≤ 17 * n := by
  by_cases hlog : 52 ≤ n.log2
  · have hne : n ≠ 0 := by
      rintro rfl
      exact absurd hlog (by decide)
    have hle : 2 ^ 52 * 2 ^ (n.log2 - 52) ≤ n := by
      rw [← Nat.pow_add, Nat.add_sub_of_le hlog]
      exact Nat.log2_self_le hne
    obtain ⟨hlower, hupper, -⟩ := (divNearestEven_eq_iff (Nat.two_pow_pos (n.log2 - 52))).mp
      (Eq.refl (divNearestEven n (2 ^ (n.log2 - 52))))
    rw [roundBits]
    omega
  · have hlt : n < 2 ^ 53 := by
      refine Nat.lt_of_lt_of_le Nat.lt_log2_self (Nat.pow_le_pow_right Nat.two_pos ?_)
      omega
    rw [roundBits_of_le (Nat.le_of_lt hlt)]
    omega

/-- A number of at least fifty-three bits that needs no rounding is a significand at a spacing. -/
theorem exists_parts (large : 2 ^ 53 ≤ n) (exact : roundBits n = n) :
    ∃ q k, n = q * 2 ^ k ∧ 2 ^ 52 ≤ q ∧ q < 2 ^ 53 ∧ 1 ≤ k := by
  have hne : n ≠ 0 := by omega
  have hlog := (Nat.le_log2 hne).mpr large
  obtain ⟨k, hk⟩ : ∃ k, n.log2 = 52 + k := ⟨n.log2 - 52, by omega⟩
  refine ⟨divNearestEven n (2 ^ k), k, ?_, ?_, ?_, by omega⟩
  · rw [roundBits, hk, Nat.add_sub_cancel_left] at exact
    exact exact.symm
  all_goals
    rw [roundBits, hk, Nat.add_sub_cancel_left] at exact
    have hlower := Nat.log2_self_le hne
    have hupper := @Nat.lt_log2_self n
    rw [hk, Nat.pow_add] at hlower
    rw [hk, show 52 + k + 1 = 53 + k by omega, Nat.pow_add] at hupper
  · exact Nat.le_of_mul_le_mul_right (exact.symm ▸ hlower) (Nat.two_pow_pos k)
  · exact Nat.lt_of_mul_lt_mul_right (exact.symm ▸ hupper)

/-- Where adding a number and rounding is undone by subtracting it and rounding: unless the sum lies
halfway and the first number is odd in the last place, or unless that is a power of two, below which
the spacing is half as large, and the sum is rounded down. -/
theorem undoes_iff {d : Nat} (hk : 1 ≤ k) (lower : 2 ^ 52 ≤ q)
    (upper : q * 2 ^ k + d < 2 ^ 53 * 2 ^ k) :
    roundBits (roundBits (q * 2 ^ k + d) - d) = q * 2 ^ k ↔
      ¬(2 * (d % 2 ^ k) = 2 ^ k ∧ q % 2 = 1) ∧
      ¬(q = 2 ^ 52 ∧ 2 ^ k < 4 * (d % 2 ^ k) ∧
        roundBits (q * 2 ^ k + d) < q * 2 ^ k + d) := by
  obtain ⟨s, hs⟩ : ∃ s, s = 2 ^ k := ⟨_, rfl⟩
  have hpos : 0 < s := hs ▸ Nat.two_pow_pos k
  have hplace : 2 ^ 52 * s ≤ q * s := Nat.mul_le_mul_right s lower
  have hd := Nat.div_add_mod' d s
  have hrest := Nat.mod_lt d hpos
  -- What numbers of this size are rounded to.
  have rounds {m : Nat} (Q : Nat) (lower : 2 ^ 52 * s ≤ m) (upper : m < 2 ^ 53 * s) :
      roundBits m = Q * s ↔ 2 * (Q * s) ≤ 2 * m + s ∧ 2 * m ≤ 2 * (Q * s) + s ∧
        (2 * (Q * s) = 2 * m + s ∨ 2 * m = 2 * (Q * s) + s → Q % 2 = 0) := by
    rw [hs] at lower upper ⊢
    exact (spaced_whole (.inr lower) upper).roundBits_eq_iff
  rw [← hs] at upper ⊢
  generalize d / s = e at hd
  generalize d % s = ρ at hd hrest ⊢
  have hfloor : (q + e) * s = q * s + e * s := Nat.add_mul q e s
  have hceil : (q + e + 1) * s = q * s + e * s + s := by rw [Nat.succ_mul, hfloor]
  by_cases down : 2 * ρ < s ∨ 2 * ρ = s ∧ (q + e) % 2 = 0
  · have hsum : roundBits (q * s + d) = q * s + e * s := by
      rw [← hfloor, rounds (q + e) (by omega) upper]
      omega
    rw [hsum, show q * s + e * s - d = q * s - ρ by omega]
    rcases Nat.lt_or_eq_of_le lower with hwide | hnarrow
    · have hplace : (2 ^ 52 + 1) * s ≤ q * s := Nat.mul_le_mul_right s hwide
      rw [rounds q (by omega) (by omega)]
      omega
    · subst hnarrow
      rcases Nat.eq_zero_or_pos ρ with hzero | hsome
      · rw [rounds (2 ^ 52) (by omega) (by omega)]
        omega
      · -- Below a power of two the spacing is half as large.
        obtain ⟨j, rfl⟩ : ∃ j, k = j + 1 := ⟨k - 1, by omega⟩
        have hhalf : s = 2 * 2 ^ j := by rw [hs, Nat.pow_succ']
        have hspaced : Spaced (2 ^ 52 * s - ρ) 1 j :=
          spaced_whole (.inr (by omega)) (by omega)
        rw [show 2 ^ 52 * s = 2 ^ 53 * 2 ^ j by omega] at hspaced ⊢
        rw [hspaced.roundBits_eq_iff]
        omega
  · have hsum : roundBits (q * s + d) = q * s + e * s + s := by
      rw [← hceil, rounds (q + e + 1) (by omega) upper]
      omega
    have hlast : q * s + s ≤ 2 ^ 53 * s := by
      rw [← Nat.succ_mul]
      refine Nat.mul_le_mul_right s (Nat.lt_of_mul_lt_mul_right (a := s) ?_)
      omega
    rw [hsum, show q * s + e * s + s - d = q * s + (s - ρ) by omega,
      rounds q (by omega) (by omega)]
    omega

/-! ### Rounded words -/

/-- A significand at a spacing, of which the last one is the first of the next binade. -/
theorem units_of_parts (le : q ≤ 2 ^ 53) (normal : k = 0 ∨ 2 ^ 52 ≤ q) :
    significand (k * 2 ^ 52 + q) * 2 ^ scale (k * 2 ^ 52 + q) = q * 2 ^ k := by
  rcases Nat.lt_or_eq_of_le le with hlt | rfl
  · rw [significand_eq, scale_eq]
    split
    · have hk : k = 0 := by omega
      subst hk
      rw [show (0 * 2 ^ 52 + q) / 2 ^ 52 - 1 = 0 by omega, Nat.zero_mul, Nat.zero_add]
    · rw [show 2 ^ 52 + (k * 2 ^ 52 + q) % 2 ^ 52 = q by omega,
        show (k * 2 ^ 52 + q) / 2 ^ 52 - 1 = k by omega]
  · have hcarry : 2 ^ (k + 1) = 2 * 2 ^ k := Nat.pow_succ'
    rw [significand_eq, scale_eq, if_neg (by omega),
      show 2 ^ 52 + (k * 2 ^ 52 + 2 ^ 53) % 2 ^ 52 = 2 ^ 52 by omega,
      show (k * 2 ^ 52 + 2 ^ 53) / 2 ^ 52 - 1 = k + 1 by omega, hcarry]
    omega

/-- A number rounded to the spacing of its size has at most fifty-three bits, and as many unless it
is small. -/
theorem divNearestEven_bounds (n : Nat) :
    divNearestEven n (2 ^ (n.log2 - 52)) ≤ 2 ^ 53 ∧
      (n.log2 - 52 = 0 ∨ 2 ^ 52 ≤ divNearestEven n (2 ^ (n.log2 - 52))) := by
  rcases Nat.eq_zero_or_pos n with rfl | pos
  · exact ⟨by decide, .inl rfl⟩
  constructor
  · have hlt : n / 2 ^ (n.log2 - 52) < 2 ^ 53 := by
      refine Nat.div_lt_of_lt_mul ?_
      rw [← Nat.pow_add]
      exact Nat.lt_of_lt_of_le Nat.lt_log2_self (Nat.pow_le_pow_right Nat.two_pos (by omega))
    have := divNearestEven_le n (2 ^ (n.log2 - 52))
    omega
  · by_cases hlog : 52 ≤ n.log2
    · right
      refine Nat.le_trans ?_ (div_le_divNearestEven _ _)
      rw [Nat.le_div_iff_mul_le (Nat.two_pow_pos _), ← Nat.pow_add, Nat.add_sub_of_le hlog]
      exact Nat.log2_self_le pos.ne'
    · left
      omega

theorem le_roundBits (large : 2 ^ 53 ≤ n) : 2 ^ 53 ≤ roundBits n := by
  have hlog := (Nat.le_log2 (by omega)).mpr large
  obtain ⟨-, hnormal⟩ := divNearestEven_bounds n
  calc 2 ^ 53 = 2 ^ 52 * 2 ^ 1 := rfl
    _ ≤ divNearestEven n (2 ^ (n.log2 - 52)) * 2 ^ (n.log2 - 52) :=
      Nat.mul_le_mul (hnormal.resolve_left (by omega)) (Nat.pow_le_pow_right Nat.two_pos (by omega))

theorem roundBits_roundBits (n : Nat) : roundBits (roundBits n) = roundBits n := by
  obtain ⟨hle, -⟩ := divNearestEven_bounds n
  generalize hq : divNearestEven n (2 ^ (n.log2 - 52)) = q at hle
  have hround : roundBits n = q * 2 ^ (n.log2 - 52) := by rw [roundBits, hq]
  rw [hround, roundBits_mul_two_pow, roundBits_of_le hle]

/-- The word of a number of units has the rounded number. -/
theorem denotes_roundBits (negative : Bool) (finite : nearestMagnitude n 1 < infiniteMagnitude) :
    Denotes (ofUnits negative n 1) negative (roundBits n) := by
  have hd := denotes_ofMagnitude negative finite
  obtain ⟨hle, hnormal⟩ := divNearestEven_bounds n
  have hm : nearestMagnitude n 1 =
      (n.log2 - 52) * 2 ^ 52 + divNearestEven n (2 ^ (n.log2 - 52)) := by
    rw [nearestMagnitude_eq, Nat.div_one, Nat.one_mul] at finite ⊢
    exact Nat.min_eq_right (Nat.le_of_lt (by omega))
  rw [hm, units_of_parts hle hnormal, ← hm] at hd
  exact hd

/-- What stays well below `2¹⁰²⁴` does not become infinite. -/
theorem nearestMagnitude_lt_of_lt (hk : k ≤ 2096) (small : n < 3 * 2 ^ k) :
    nearestMagnitude n 1 < infiniteMagnitude := by
  rcases Nat.eq_zero_or_pos n with rfl | pos
  · exact nearestMagnitude_lt (by decide)
  have hlog : n.log2 < k + 2 :=
    (Nat.log2_lt pos.ne').mpr (Nat.lt_of_lt_of_le small (by rw [Nat.pow_add]; omega))
  obtain ⟨hle, -⟩ := divNearestEven_bounds n
  rw [nearestMagnitude_eq, infiniteMagnitude_eq, Nat.div_one, Nat.one_mul]
  by_cases hlast : n.log2 ≤ 2096
  · omega
  · -- In the last binade only the numbers of its lower half are left.
    obtain ⟨j, hj⟩ : ∃ j, n.log2 = 52 + j := ⟨n.log2 - 52, by omega⟩
    have hkj : k = 51 + j := by omega
    have hq : n / 2 ^ j < 3 * 2 ^ 51 := by
      refine Nat.div_lt_of_lt_mul ?_
      rw [Nat.mul_comm, Nat.mul_assoc, ← Nat.pow_add, ← hkj]
      exact small
    have hround := divNearestEven_le n (2 ^ j)
    rw [hj, Nat.add_sub_cancel_left]
    omega

/-! ### Whole numbers -/

/-- The word is a natural number. -/
def Whole (x : Binary64) (n : Nat) : Prop := Denotes x false (n * unitsPerOne)

variable {x y z : Binary64} {m : Nat}

theorem roundBits_units (n : Nat) : roundBits (n * unitsPerOne) = roundBits n * unitsPerOne := by
  unfold unitsPerOne
  generalize 1074 = k
  exact roundBits_mul_two_pow n k

theorem units_lt (hk : k ≤ 1022) (small : n < 3 * 2 ^ k) :
    nearestMagnitude (n * unitsPerOne) 1 < infiniteMagnitude := by
  unfold unitsPerOne
  generalize hw : 1074 = w
  refine nearestMagnitude_lt_of_lt (k := k + w) (by omega) ?_
  rw [Nat.pow_add, ← Nat.mul_assoc]
  exact Nat.mul_lt_mul_of_pos_right small (Nat.two_pow_pos w)

theorem whole_ofUnits (hk : k ≤ 1022) (small : n < 3 * 2 ^ k) :
    Whole (ofUnits false (n * unitsPerOne) 1) (roundBits n) := by
  rw [Whole, ← roundBits_units]
  exact denotes_roundBits false (units_lt hk small)

theorem whole_ofNat (h : n ≤ 2 ^ 53) : Whole (ofNat n) n := denotes_ofNat h

theorem whole_zero : Whole (zero false) 0 := by
  rw [Whole, Nat.zero_mul]
  exact denotes_zero

theorem Whole.isFinite (hx : Whole x n) : x.isFinite = true := by
  rw [isFinite_iff, hx.notNaN, hx.notInfinite]
  exact ⟨Bool.false_ne_true, Bool.false_ne_true⟩

theorem Whole.number? (hx : Whole x n) : x.number? = some (.finite n) := by
  obtain ⟨hnan, hinf⟩ := isFinite_iff.mp hx.isFinite
  have hunits : ((n * unitsPerOne : Nat) : ℚ) / unitsPerOne = n := by
    rw [Nat.cast_mul, mul_div_cancel_right₀ _ unitsPerOne_ne_zero]
  rw [number?_of_finite hnan hinf, hx.signedUnits, if_neg Bool.false_ne_true, Int.cast_natCast,
    hunits]

theorem Whole.unique (hx : Whole x n) (hy : Whole y n) : x = y :=
  eq_of_magnitude (units_eq_iff.mp (hx.units.trans hy.units.symm)) (hx.sign.trans hy.sign.symm)

theorem Whole.add (hx : Whole x m) (hy : Whole y n) (hk : k ≤ 1022) (small : m + n < 3 * 2 ^ k) :
    Whole (x + y) (roundBits (m + n)) := by
  have hsum : x.signedUnits + y.signedUnits = ((m + n) * unitsPerOne : Nat) := by
    rw [hx.signedUnits, hy.signedUnits, Nat.add_mul]
    rfl
  rw [add_of_denotes hx hy, hsum]
  rcases Nat.eq_zero_or_pos (m + n) with hzero | hpos
  · rw [hzero, Nat.zero_mul]
    exact whole_zero
  · have hunits : 0 < (m + n) * unitsPerOne := Nat.mul_pos hpos unitsPerOne_pos
    rw [if_neg (by omega), Int.natAbs_natCast, decide_eq_false (by omega)]
    exact whole_ofUnits hk small

theorem Whole.sub (hx : Whole x m) (hy : Whole y n) (le : n ≤ m) (hk : k ≤ 1022)
    (small : m < 3 * 2 ^ k) : Whole (x - y) (roundBits (m - n)) := by
  have hsum : x.signedUnits + y.neg.signedUnits = ((m - n) * unitsPerOne : Nat) := by
    rw [hx.signedUnits, hy.neg.signedUnits, Nat.sub_mul]
    have := Nat.mul_le_mul_right unitsPerOne le
    simp only [Bool.not_false, Bool.false_eq_true, if_true, if_false]
    omega
  show Whole (x + y.neg) _
  rw [add_of_denotes hx hy.neg, hsum]
  rcases Nat.eq_zero_or_pos (m - n) with hzero | hpos
  · rw [hzero, Nat.zero_mul]
    exact whole_zero
  · have hunits : 0 < (m - n) * unitsPerOne := Nat.mul_pos hpos unitsPerOne_pos
    rw [if_neg (by omega), Int.natAbs_natCast, decide_eq_false (by omega)]
    exact whole_ofUnits hk (by omega)

theorem Whole.mul (hx : Whole x m) (hy : Whole y n) (hk : k ≤ 1022) (small : m * n < 3 * 2 ^ k) :
    Whole (x * y) (roundBits (m * n)) := by
  have hproduct : x * y = ofUnits false (m * n * unitsPerOne) 1 := by
    show x.mul y = _
    have hcongr : nearestMagnitude (m * unitsPerOne * (n * unitsPerOne)) unitsPerOne =
        nearestMagnitude (m * n * unitsPerOne) 1 :=
      nearestMagnitude_congr unitsPerOne_pos Nat.one_pos (by ring)
    simp only [Binary64.mul, hx.notNaN, hy.notNaN, hx.notInfinite, hy.notInfinite, hx.sign, hy.sign,
      hx.units, hy.units, Bool.or_self, Bool.false_eq_true, if_false, bne_self_eq_false, ofUnits,
      hcongr]
  rw [hproduct]
  exact whole_ofUnits hk small

/-- A quotient that comes out even. -/
theorem Whole.div (hx : Whole x (m * n)) (hy : Whole y n) (pos : 0 < n) (hk : k ≤ 1022)
    (small : m < 3 * 2 ^ k) : Whole (x / y) (roundBits m) := by
  have hyzero : y.isZero = false := by
    rw [Denotes.isZero hy, beq_eq_false_iff_ne]
    exact (Nat.mul_pos pos unitsPerOne_pos).ne'
  have hquotient : x / y = ofUnits false (m * unitsPerOne) 1 := by
    show x.div y = _
    have hcongr : nearestMagnitude (m * n * unitsPerOne * unitsPerOne) (n * unitsPerOne) =
        nearestMagnitude (m * unitsPerOne) 1 :=
      nearestMagnitude_congr (Nat.mul_pos pos unitsPerOne_pos) Nat.one_pos (by ring)
    simp only [Binary64.div, hx.notNaN, hy.notNaN, hx.notInfinite, hy.notInfinite, hx.sign, hy.sign,
      hx.units, hy.units, hyzero, Bool.or_self, Bool.false_eq_true, if_false, bne_self_eq_false,
      ofRatio, ofUnits, hcongr]
  rw [hquotient]
  exact whole_ofUnits hk small

/-! ### Comparison -/

theorem Denotes.numEq_iff (hx : x.Denotes false m) (hy : y.Denotes false n) :
    x.numEq y = true ↔ m = n := by
  have hrank := rank_eq_iff (x := x) (y := y)
  rw [hx.signedUnits, hy.signedUnits] at hrank
  simp only [numEq, hx.notNaN, hy.notNaN, Bool.not_false, Bool.true_and, beq_iff_eq, hrank]
  simp

theorem Denotes.le_iff (hx : x.Denotes false m) (hy : y.Denotes false n) :
    x.le y = true ↔ m ≤ n := by
  have hmono := units_strictMono.le_iff_le (a := x.magnitude) (b := y.magnitude)
  rw [← units_eq, ← units_eq, hx.units, hy.units] at hmono
  simp [le, rank, hx.notNaN, hy.notNaN, hx.sign, hy.sign, hmono]

theorem Whole.le_iff (hx : Whole x m) (hy : Whole y n) : x.le y = true ↔ m ≤ n := by
  rw [Denotes.le_iff hx hy, Nat.mul_le_mul_right_iff unitsPerOne_pos]

theorem Whole.isZero (hx : Whole x n) : x.isZero = (n == 0) := by
  rw [Denotes.isZero hx, Bool.eq_iff_iff, beq_iff_eq, beq_iff_eq, Nat.mul_eq_zero,
    or_iff_left unitsPerOne_pos.ne']

/-- Division by a power of two is exact. -/
theorem Whole.numEq_div_iff {b : Nat} (hx : Whole x m) (hz : Whole z n) (hy : Whole y (2 ^ b))
    (exact : roundBits n = n) (hb : b ≤ 1074) (hk : k ≤ 1022) (small : n < 3 * 2 ^ k) :
    x.numEq (z / y) = true ↔ n = m * 2 ^ b := by
  obtain ⟨w, hle, hw⟩ : ∃ w ≤ 1074, unitsPerOne = 2 ^ w * 2 ^ b := by
    unfold unitsPerOne
    generalize 1074 = u at hb
    refine ⟨u - b, Nat.sub_le u b, ?_⟩
    rw [← Nat.pow_add, Nat.sub_add_cancel hb]
    rfl
  have hyzero : y.isZero = false := by
    rw [hy.isZero]
    simp
  have hquotient : z / y = ofUnits false (n * 2 ^ w) 1 := by
    show z.div y = _
    have hcongr : nearestMagnitude (n * unitsPerOne * unitsPerOne) (2 ^ b * unitsPerOne) =
        nearestMagnitude (n * 2 ^ w) 1 :=
      nearestMagnitude_congr (Nat.mul_pos (Nat.two_pow_pos b) unitsPerOne_pos) Nat.one_pos
        (by rw [hw]; ring)
    simp only [Binary64.div, hz.notNaN, hy.notNaN, hz.notInfinite, hy.notInfinite, hz.sign, hy.sign,
      hz.units, hy.units, hyzero, Bool.or_self, Bool.false_eq_true, if_false, bne_self_eq_false,
      ofRatio, ofUnits, hcongr]
  have hfinite : nearestMagnitude (n * 2 ^ w) 1 < infiniteMagnitude := by
    refine nearestMagnitude_lt_of_lt (k := k + w) (by omega) ?_
    rw [Nat.pow_add, ← Nat.mul_assoc]
    exact Nat.mul_lt_mul_of_pos_right small (Nat.two_pow_pos w)
  have hdenotes := denotes_roundBits false hfinite
  rw [roundBits_mul_two_pow, exact, ← hquotient] at hdenotes
  rw [Denotes.numEq_iff hx hdenotes, hw, Nat.mul_comm (2 ^ w), ← Nat.mul_assoc,
    Nat.mul_left_inj (Nat.two_pow_pos w).ne', eq_comm]

end ScriptCore.Binary64
