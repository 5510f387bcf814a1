import Mathlib.Data.Rat.Floor
import ScriptCore.Proofs.Numeral.Digits
import ScriptCore.Proofs.Numeral.Value

/-!
# ScriptCore.Proofs.Numeral.Shortest

The **shortest decimal** of a number reads back as the number, and its last digit is no zero.

Design points:

* All that is computed in quarters of units is said of rational numbers: a catchment is an interval of
  them, and the grid of a length consists of the multiples of a power of ten.
* The two grid points next to a number decide whether any point of the grid is in its catchment, since
  that is an interval around it (`catches_of_none`). So a grid point whose last digit is zero
  has been found with one digit less.
* Seventeen digits suffice because the catchment is wider than a step of that grid
  (`exists_catches_seventeen`).
-/

namespace ScriptCore

namespace Binary64

variable {x : Binary64} {num den : Nat}

/-! ### Catchments as intervals -/

/-- The absolute value of a finite number. -/
def absolute (x : Binary64) : ℚ := x.units / unitsPerOne

/-- The catchment of a word has a number in it. -/
def Catches (x : Binary64) (q : ℚ) : Prop :=
  if x.catchment.closed then
    x.catchment.lower ≤ q * quartersPerOne ∧ q * quartersPerOne ≤ x.catchment.upper
  else x.catchment.lower < q * quartersPerOne ∧ q * quartersPerOne < x.catchment.upper

theorem holds_iff {q : ℚ} (pos : 0 < den) (same : (num : ℚ) = q * quartersPerOne * den) :
    x.catchment.holds num den = true ↔ x.Catches q := by
  have hden : (0 : ℚ) < den := Nat.cast_pos.mpr pos
  have hle (n : Nat) : n * den ≤ num ↔ (n : ℚ) ≤ q * quartersPerOne := by
    rw [← mul_le_mul_iff_left₀ hden, ← same]
    exact_mod_cast Iff.rfl
  have hge (n : Nat) : num ≤ n * den ↔ q * quartersPerOne ≤ (n : ℚ) := by
    rw [← mul_le_mul_iff_left₀ hden, ← same]
    exact_mod_cast Iff.rfl
  rw [Catchment.holds, Catches]
  split
  · rw [Bool.and_eq_true, decide_eq_true_eq, decide_eq_true_eq, hle, hge]
  · rw [Bool.and_eq_true, decide_eq_true_eq, decide_eq_true_eq, ← not_le, ← not_le, hle, hge, not_le,
      not_le]

/-- What lies between two numbers of a catchment is in it. -/
theorem Catches.between {a b q : ℚ} (ha : x.Catches a) (hb : x.Catches b) (lower : a ≤ q)
    (upper : q ≤ b) : x.Catches q := by
  have hpos : (0 : ℚ) ≤ quartersPerOne := Nat.cast_nonneg _
  have hlower := mul_le_mul_of_nonneg_right lower hpos
  have hupper := mul_le_mul_of_nonneg_right upper hpos
  unfold Catches at *
  split_ifs at * with closed
  · exact ⟨ha.1.trans hlower, hupper.trans hb.2⟩
  · exact ⟨ha.1.trans_le hlower, hupper.trans_lt hb.2⟩

/-- What is strictly between the ends of a catchment is in it. -/
theorem catches_of_lt {q : ℚ} (lower : (x.catchment.lower : ℚ) < q * quartersPerOne)
    (upper : q * quartersPerOne < x.catchment.upper) : x.Catches q := by
  rw [Catches]
  split
  · exact ⟨lower.le, upper.le⟩
  · exact ⟨lower, upper⟩

theorem units_pos (nonzero : x.isZero = false) : 0 < x.units := by
  refine Nat.pos_of_ne_zero fun hzero => ?_
  rw [isZero, beq_eq_false_iff_ne] at nonzero
  exact nonzero (units_eq_zero_iff.mp hzero)

theorem absolute_mul_quartersPerOne (x : Binary64) :
    x.absolute * quartersPerOne = ((4 * x.units : Nat) : ℚ) := by
  rw [absolute, quartersPerOne, Nat.cast_mul, Nat.cast_mul, mul_comm (4 : ℕ).cast, ← mul_assoc,
    div_mul_cancel₀ _ unitsPerOne_ne_zero, mul_comm]

/-- How far a catchment reaches to either side, in quarters of units. -/
theorem catchment_reach (nonzero : x.isZero = false) : ∃ below,
    0 < below ∧ x.catchment.lower + below = 4 * x.units ∧
    x.catchment.upper = 4 * x.units + 2 * 2 ^ scale x.magnitude ∧
    (significand x.magnitude = 2 ^ 52 ∧ below = 2 ^ scale x.magnitude ∨
      below = 2 * 2 ^ scale x.magnitude) := by
  obtain ⟨below, heq, hbelow⟩ := x.catchment_below
  have hspacing := Nat.two_pow_pos (scale x.magnitude)
  have hunits := units_pos nonzero
  have hone : 2 ^ scale x.magnitude ≤ x.units := by
    rw [units_eq] at hunits ⊢
    exact Nat.le_mul_of_pos_left _ (Nat.pos_of_mul_pos_right hunits)
  have hfirst := (magnitude_parts x.magnitude).2.2.2
  refine ⟨below, by omega, ?_, by rw [heq], ?_⟩
  · rw [heq]
    dsimp only
    omega
  · rcases hbelow with ⟨h, hlarge, rfl⟩ | ⟨-, rfl⟩
    · exact .inl ⟨hfirst.mpr ⟨h, by omega⟩, rfl⟩
    · exact .inr rfl

/-- A number is in its own catchment. -/
theorem catches_absolute (nonzero : x.isZero = false) : x.Catches x.absolute := by
  obtain ⟨below, hbelow, hlower, hupper, -⟩ := catchment_reach nonzero
  have hspacing := Nat.two_pow_pos (scale x.magnitude)
  apply catches_of_lt <;> rw [absolute_mul_quartersPerOne] <;> exact Nat.cast_lt.mpr (by omega)

/-! ### Powers of ten -/

/-- A power of ten as a fraction of which one part is one. -/
theorem ten_zpow_mul (e : Int) :
    (10 : ℚ) ^ e * ((10 ^ (-e).toNat : Nat) : ℚ) = ((10 ^ e.toNat : Nat) : ℚ) := by
  rw [Nat.cast_pow, Nat.cast_pow, Nat.cast_ofNat, ← zpow_natCast, ← zpow_natCast,
    ← zpow_add₀ (by norm_num)]
  congr 1
  omega

theorem ten_zpow_pos (e : Int) : (0 : ℚ) < 10 ^ e := zpow_pos (by norm_num) e

/-- What a catchment has in it is read back as the word. -/
theorem ofDecimal_of_catches {digits : Nat} {e : Int} (finite : x.isFinite = true)
    (catches : x.Catches (digits * 10 ^ e)) : ofDecimal x.isNegative digits e = x := by
  have hten : 0 < 10 ^ (-e).toNat := Nat.pow_pos (by decide)
  have hden : ((10 ^ (-e).toNat : Nat) : ℚ) ≠ 0 := Nat.cast_ne_zero.mpr hten.ne'
  have hpower := ten_zpow_mul e
  generalize 10 ^ (-e).toNat = n at hten hden hpower
  generalize 10 ^ e.toNat = p at hpower
  have same : ((digits * p : Nat) : ℚ) / n = digits * 10 ^ e := by
    rw [div_eq_iff hden, mul_assoc, hpower, Nat.cast_mul]
  have holds : x.catchment.holds (digits * p * quartersPerOne) n = true := by
    refine (holds_iff hten ?_).mpr catches
    push_cast
    rw [← hpower]
    ring
  have units : digits * p * unitsPerOne * (4 * n) = digits * p * quartersPerOne * n := by
    rw [quartersPerOne]
    ring
  rw [ofDecimal_eq _ hten same, ofRatio, ofUnits,
    nearestMagnitude_congr hten (Nat.mul_pos (by decide) hten) units,
    nearestMagnitude_of_holds finite hten holds, ofMagnitude_self finite]

/-! ### The decimal order -/

theorem digitCount_bounds {n : Nat} (pos : 0 < n) :
    10 ^ (digitCount n - 1) ≤ n ∧ n < 10 ^ digitCount n := by
  have hcount := digitCount_pos n
  exact ⟨ten_pow_le_of_lt_digitCount pos (by omega), lt_ten_pow_digitCount n⟩

/-- One unit is more than `10⁻⁴⁰⁰`. -/
theorem unitsPerOne_le : unitsPerOne ≤ 10 ^ 400 := by
  unfold unitsPerOne
  -- Neither power is to be computed.
  generalize hj : 1074 = j
  obtain ⟨k, hk⟩ : ∃ k, k = 400 := ⟨400, rfl⟩
  have hten : (2 : ℚ) ^ (3 * k) ≤ 10 ^ k := two_pow_le_ten_pow k
  have hnat : 2 ^ (3 * k) ≤ 10 ^ k := by exact_mod_cast hten
  rw [← hk]
  exact Nat.le_trans (Nat.pow_le_pow_right (by decide) (by omega)) hnat

/-- A number other than zero lies between two powers of ten, which its order tells. -/
theorem decimalOrder_bounds (nonzero : x.isZero = false) :
    (10 : ℚ) ^ (x.decimalOrder - 1) ≤ x.absolute ∧ x.absolute < 10 ^ x.decimalOrder := by
  have hscale := unitsPerOne_le
  have hunits := units_pos nonzero
  have hone := unitsPerOne_pos
  have hone' : (0 : ℚ) < unitsPerOne := Nat.cast_pos.mpr hone
  unfold decimalOrder absolute
  -- The power is too large to be computed.
  generalize hk : 400 = k at *
  have hlift : (400 : Int) = k := congrArg Nat.cast hk
  rw [hlift]
  have hpow : Nat.pow 10 k = 10 ^ k := rfl
  rw [hpow]
  have hten : (0 : ℚ) < 10 ^ k := by positivity
  have hpos : 0 < x.units * 10 ^ k / unitsPerOne :=
    Nat.div_pos (Nat.le_trans hscale (Nat.le_mul_of_pos_left _ hunits)) hone
  obtain ⟨hlower, hupper⟩ := digitCount_bounds hpos
  have hcount := digitCount_pos (x.units * 10 ^ k / unitsPerOne)
  generalize digitCount (x.units * 10 ^ k / unitsPerOne) = c at *
  have hshift (e : Nat) : (10 : ℚ) ^ ((e : Int) - k) * 10 ^ k = ((10 ^ e : Nat) : ℚ) := by
    rw [zpow_sub₀ (by norm_num), zpow_natCast, zpow_natCast, div_mul_cancel₀ _ hten.ne']
    push_cast
    rfl
  have hlast : (c : Int) - k - 1 = (c - 1 : Nat) - k := by omega
  constructor
  · rw [hlast, ← mul_le_mul_iff_left₀ hten, hshift, div_mul_eq_mul_div, le_div_iff₀ hone']
    exact_mod_cast (Nat.le_div_iff_mul_le hone).mp hlower
  · rw [← mul_lt_mul_iff_left₀ hten, hshift, div_mul_eq_mul_div, div_lt_iff₀ hone']
    exact_mod_cast (Nat.div_lt_iff_lt_mul hone).mp hupper

/-! ### One grid -/

/-- What is found on the grid of a length: nothing, if neither of the two grid points next to the number
is in its catchment; otherwise one of them that is. -/
theorem decimalOfLength?_grid (tie : Tie) (x : Binary64) (count : Nat) : ∃ b : Nat,
    (b : ℚ) * 10 ^ (x.decimalOrder - count) ≤ x.absolute ∧
    x.absolute < (b + 1 : Nat) * 10 ^ (x.decimalOrder - count) ∧
    (x.decimalOfLength? tie count = none → ∀ s, s = b ∨ s = b + 1 →
      ¬x.Catches (s * 10 ^ (x.decimalOrder - count))) ∧
    ∀ d, x.decimalOfLength? tie count = some d → ∃ s : Nat, (s = b ∨ s = b + 1) ∧
      x.Catches (s * 10 ^ (x.decimalOrder - count)) ∧
      d = if s = 10 ^ count then ⟨1, x.decimalOrder⟩ else ⟨s, x.decimalOrder - count⟩ := by
  have hpower := ten_zpow_mul (x.decimalOrder - count)
  have hn : 0 < 10 ^ (-(x.decimalOrder - count)).toNat := Nat.pow_pos (by decide)
  have hp : 0 < 10 ^ (x.decimalOrder - count).toNat := Nat.pow_pos (by decide)
  have hpow (e : Nat) : Nat.pow 10 e = 10 ^ e := rfl
  simp only [decimalOfLength?, hpow]
  generalize 10 ^ (-(x.decimalOrder - count)).toNat = n at *
  generalize 10 ^ (x.decimalOrder - count).toNat = p at *
  have hden : 0 < quartersPerOne * p := Nat.mul_pos quartersPerOne_pos hp
  have hread (s : Nat) : x.catchment.holds (s * (quartersPerOne * p)) n = true ↔
      x.Catches (s * 10 ^ (x.decimalOrder - count)) := by
    refine holds_iff hn ?_
    push_cast
    rw [← hpower]
    ring
  -- Both sides of a comparison with the number are measured in quarters of units, and enlarged.
  have hunit : (0 : ℚ) < quartersPerOne * n :=
    mul_pos (Nat.cast_pos.mpr quartersPerOne_pos) (Nat.cast_pos.mpr hn)
  have hstep (s : Nat) : (s : ℚ) * 10 ^ (x.decimalOrder - count) * (quartersPerOne * n) =
      ((s * (quartersPerOne * p) : Nat) : ℚ) := by
    push_cast
    rw [← hpower]
    ring
  have hnumber : x.absolute * (quartersPerOne * n) = ((4 * x.units * n : Nat) : ℚ) := by
    rw [← mul_assoc, absolute_mul_quartersPerOne, ← Nat.cast_mul]
  have hlower := Nat.div_mul_le_self (4 * x.units * n) (quartersPerOne * p)
  have hupper := (Nat.div_lt_iff_lt_mul hden).mp
    (Nat.lt_succ_self (4 * x.units * n / (quartersPerOne * p)))
  generalize 4 * x.units * n / (quartersPerOne * p) = b at *
  refine ⟨b, ?_, ?_, ?_⟩
  · rw [← mul_le_mul_iff_left₀ hunit, hstep, hnumber]
    exact_mod_cast hlower
  · rw [← mul_lt_mul_iff_left₀ hunit, hstep, hnumber]
    exact_mod_cast hupper
  · split
    · rename_i here there
      refine ⟨fun _ s hs catches => ?_, fun d found => absurd found (Option.some_ne_none d).symm⟩
      rw [← hread] at catches
      rcases hs with rfl | rfl
      · cases here.symm.trans catches
      · cases there.symm.trans catches
    · rename_i here there
      refine ⟨fun missed => absurd missed (Option.some_ne_none _),
        fun d found => ⟨_, .inl rfl, (hread _).mp here, ?_⟩⟩
      exact (Option.some.inj found).symm
    · rename_i here there
      refine ⟨fun missed => absurd missed (Option.some_ne_none _),
        fun d found => ⟨_, .inr rfl, (hread _).mp there, ?_⟩⟩
      exact (Option.some.inj found).symm
    · rename_i here there
      refine ⟨fun missed => absurd missed (Option.some_ne_none _), fun d found => ?_⟩
      obtain ⟨up, rfl⟩ : ∃ up : Bool, d =
          if (if up then b + 1 else b) = 10 ^ count then ⟨1, x.decimalOrder⟩
          else ⟨if up then b + 1 else b, x.decimalOrder - count⟩ := ⟨_, (Option.some.inj found).symm⟩
      cases up with
      | false => exact ⟨b, .inl rfl, (hread b).mp here, by rw [if_neg Bool.false_ne_true]⟩
      | true => exact ⟨b + 1, .inr rfl, (hread (b + 1)).mp there, by rw [if_pos rfl]⟩

/-- If nothing is found on the grid of a length, the catchment has no point of it. -/
theorem not_catches_of_none {tie : Tie} {count : Nat} (nonzero : x.isZero = false)
    (none : x.decimalOfLength? tie count = none) (s : Nat) :
    ¬x.Catches (s * 10 ^ (x.decimalOrder - count)) := by
  obtain ⟨b, lower, upper, missed, -⟩ := decimalOfLength?_grid tie x count
  have hten := ten_zpow_pos (x.decimalOrder - count)
  have self := catches_absolute nonzero
  intro catches
  rcases Nat.lt_or_ge b s with above | below
  · refine missed none (b + 1) (.inr rfl) (self.between catches upper.le ?_)
    exact mul_le_mul_of_nonneg_right (Nat.cast_le.mpr above) hten.le
  · refine missed none b (.inl rfl) (catches.between self ?_ lower)
    exact mul_le_mul_of_nonneg_right (Nat.cast_le.mpr below) hten.le

/-- What is found on the grid of a length is in the catchment, and a point of the grid with at least one
digit and at most as many as the length. -/
theorem decimalOfLength?_found {tie : Tie} {count : Nat} {d : Decimal} (nonzero : x.isZero = false)
    (pos : 0 < count) (found : x.decimalOfLength? tie count = some d) :
    ∃ s : Nat, 0 < s ∧ x.Catches (s * 10 ^ (x.decimalOrder - count)) ∧
      (s = 10 ^ count ∧ d = ⟨1, x.decimalOrder⟩ ∨
        s < 10 ^ count ∧ d = ⟨s, x.decimalOrder - count⟩) := by
  obtain ⟨b, lower, upper, -, some⟩ := decimalOfLength?_grid tie x count
  obtain ⟨s, next, catches, rfl⟩ := some d found
  obtain ⟨hlower, hupper⟩ := decimalOrder_bounds nonzero
  have hten := ten_zpow_pos (x.decimalOrder - count)
  have hgrid : ((10 ^ count : Nat) : ℚ) * 10 ^ (x.decimalOrder - count) = 10 ^ x.decimalOrder := by
    rw [Nat.cast_pow, Nat.cast_ofNat, ← zpow_natCast, ← zpow_add₀ (by norm_num)]
    congr 1
    omega
  have hfew : b < 10 ^ count := by
    have hlt := lower.trans_lt hupper
    rw [← hgrid, mul_lt_mul_iff_left₀ hten] at hlt
    exact_mod_cast hlt
  have hmany : b ≠ 0 := by
    rintro rfl
    rw [Nat.zero_add, Nat.cast_one, one_mul] at upper
    refine absurd (hlower.trans_lt upper) (not_lt.mpr ?_)
    exact zpow_le_zpow_right₀ (by norm_num) (by omega)
  refine ⟨s, by omega, catches, ?_⟩
  by_cases full : s = 10 ^ count
  · exact .inl ⟨full, if_pos full⟩
  · exact .inr ⟨by omega, if_neg full⟩

/-! ### Seventeen digits -/

/-- An interval that is longer than a step has a multiple of the step inside. -/
theorem exists_multiple_between {lower upper step : ℚ} (nonneg : 0 ≤ lower) (pos : 0 < step)
    (wide : step < upper - lower) : ∃ s : Nat, lower < s * step ∧ s * step < upper := by
  refine ⟨⌊lower / step⌋₊ + 1, ?_, ?_⟩
  · rw [← div_lt_iff₀ pos, Nat.cast_add, Nat.cast_one]
    exact Nat.lt_floor_add_one _
  · have hfloor : (⌊lower / step⌋₊ : ℚ) * step ≤ lower :=
      (le_div_iff₀ pos).mp (Nat.floor_le (div_nonneg nonneg pos.le))
    calc ((⌊lower / step⌋₊ + 1 : Nat) : ℚ) * step = ⌊lower / step⌋₊ * step + step := by push_cast; ring
      _ ≤ lower + step := by gcongr
      _ < upper := by linarith

/-- A catchment is wider than a step of the grid of seventeen digits. -/
theorem catchment_wide (nonzero : x.isZero = false) :
    10 ^ (x.decimalOrder - 17) * quartersPerOne < (x.catchment.upper - x.catchment.lower : ℚ) := by
  obtain ⟨below, hbelow, hlower, hupper, hreach⟩ := catchment_reach nonzero
  have hsignificand := (magnitude_parts x.magnitude).2.1
  have hspacing := Nat.two_pow_pos (scale x.magnitude)
  have hwide : 4 * x.units < (below + 2 * 2 ^ scale x.magnitude) * 10 ^ 16 := by
    have hunits := units_eq x
    generalize 2 ^ scale x.magnitude = spacing at *
    rcases hreach with ⟨first, rfl⟩ | rfl
    · rw [first] at hunits
      omega
    · have hlt := Nat.mul_lt_mul_of_pos_right hsignificand hspacing
      omega
  have hten : (10 : ℚ) ^ (x.decimalOrder - 17) * 10 ^ 16 = 10 ^ (x.decimalOrder - 1) := by
    rw [← zpow_natCast, ← zpow_add₀ (by norm_num)]
    congr 1
    omega
  have hends : (x.catchment.upper - x.catchment.lower : ℚ) =
      ((below + 2 * 2 ^ scale x.magnitude : Nat) : ℚ) := by
    rw [sub_eq_iff_eq_add, ← Nat.cast_add]
    exact congrArg Nat.cast (by omega)
  rw [hends, ← mul_lt_mul_iff_left₀ (show (0 : ℚ) < 10 ^ 16 by norm_num), mul_right_comm, hten]
  calc (10 : ℚ) ^ (x.decimalOrder - 1) * quartersPerOne
      ≤ x.absolute * quartersPerOne :=
        mul_le_mul_of_nonneg_right (decimalOrder_bounds nonzero).1 (Nat.cast_nonneg _)
    _ = ((4 * x.units : Nat) : ℚ) := absolute_mul_quartersPerOne x
    _ < ((below + 2 * 2 ^ scale x.magnitude : Nat) : ℚ) * 10 ^ 16 := by exact_mod_cast hwide

theorem exists_catches_seventeen (nonzero : x.isZero = false) :
    ∃ s : Nat, x.Catches (s * 10 ^ (x.decimalOrder - 17)) := by
  have hpos : (0 : ℚ) < 10 ^ (x.decimalOrder - 17) * quartersPerOne :=
    mul_pos (ten_zpow_pos _) (Nat.cast_pos.mpr quartersPerOne_pos)
  obtain ⟨s, lower, upper⟩ :=
    exists_multiple_between (Nat.cast_nonneg x.catchment.lower) hpos (catchment_wide nonzero)
  refine ⟨s, catches_of_lt ?_ ?_⟩ <;> rwa [mul_assoc]

/-! ### The shortest decimal -/

/-- A point of a grid that is one of a coarser grid. -/
theorem mul_ten_mul_zpow (t : Nat) (e : Int) : ((10 * t : Nat) : ℚ) * 10 ^ (e - 1) = t * 10 ^ e := by
  rw [zpow_sub_one₀ (by norm_num)]
  push_cast
  ring

/-- The shortest decimal is in the catchment of its number, and does not end in a zero. -/
theorem shortest_catches (tie : Tie) (nonzero : x.isZero = false) :
    x.Catches (x.shortest tie).number ∧ (x.shortest tie).digits % 10 ≠ 0 := by
  rw [shortest]
  cases found : (List.range 17).findSome? fun n => x.decimalOfLength? tie (n + 1) with
  | none =>
      have none := List.findSome?_eq_none_iff.mp found 16 (by decide)
      obtain ⟨s, catches⟩ := exists_catches_seventeen nonzero
      exact absurd catches (not_catches_of_none nonzero none s)
  | some d =>
      obtain ⟨k, -, hit, before⟩ := findSome?_range found
      obtain ⟨s, pos, catches, ⟨hs, rfl⟩ | ⟨hs, rfl⟩⟩ :=
        decimalOfLength?_found nonzero (Nat.succ_pos k) hit
      · refine ⟨?_, Nat.one_ne_zero⟩
        have number : (⟨1, x.decimalOrder⟩ : Decimal).number =
            s * 10 ^ (x.decimalOrder - (k + 1 : Nat)) := by
          rw [Decimal.number, hs, Nat.cast_pow, Nat.cast_one, one_mul, Nat.cast_ofNat, ← zpow_natCast,
            ← zpow_add₀ (by norm_num), add_sub_cancel]
        rw [Option.getD_some, number]
        exact catches
      · refine ⟨catches, fun last => ?_⟩
        -- With a zero at its end, the point would have been found on the grid before.
        obtain ⟨t, rfl⟩ : ∃ t, s = 10 * t := exists_eq_mul_right_of_dvd (Nat.dvd_of_mod_eq_zero last)
        cases k with
        | zero => omega
        | succ k =>
            have coarser : x.decimalOrder - ((k + 1 + 1 : Nat) : Int) =
                x.decimalOrder - ((k + 1 : Nat) : Int) - 1 := by omega
            rw [coarser, mul_ten_mul_zpow] at catches
            exact not_catches_of_none nonzero (before k (Nat.lt_succ_self k)) t catches

/-- The shortest decimal reads back. -/
theorem ofDecimal_shortest (tie : Tie) (finite : x.isFinite = true) (nonzero : x.isZero = false) :
    ofDecimal x.isNegative (x.shortest tie).digits (x.shortest tie).exponent = x :=
  ofDecimal_of_catches finite (shortest_catches tie nonzero).1

end Binary64

end ScriptCore
