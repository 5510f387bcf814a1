import Mathlib.Tactic.Ring
import ScriptCore.Binary64.Shortest
import ScriptCore.Proofs.Binary64.Whole

/-!
# ScriptCore.Proofs.Binary64.Nearest

**Rounding** is a function of the number alone, and the catchment of a word is what rounds to it.

Design points:

* A fraction is rounded the same in every representation (`nearestMagnitude_congr`), so what is
  rounded is the number that it denotes.
* Within a catchment the spacing of the words is known, except that right below the first word of a
  binade it is half of that above. There the rounded significand carries into the exponent.
* The cutoffs for huge and tiny decimals change nothing: what they decide is what rounding gives.
-/

namespace ScriptCore.Binary64

/-! ### Rounding a quotient -/

theorem divNearestEven_mul_right (num den : Nat) {c : Nat} (pos : 0 < c) :
    divNearestEven (num * c) (den * c) = divNearestEven num den := by
  have hlt : 2 * (num % den * c) < den * c ↔ 2 * (num % den) < den := by
    rw [← Nat.mul_assoc]
    exact Nat.mul_lt_mul_right pos
  have hgt : den * c < 2 * (num % den * c) ↔ den < 2 * (num % den) := by
    rw [← Nat.mul_assoc]
    exact Nat.mul_lt_mul_right pos
  simp only [divNearestEven, Nat.mul_div_mul_right _ _ pos, Nat.mul_mod_mul_right, hlt, hgt]

theorem div_le_divNearestEven (num den : Nat) : num / den ≤ divNearestEven num den := by
  simp only [divNearestEven]
  split
  · exact Nat.le_refl _
  · split <;> omega

/-- What is no farther than half a step from a whole number, and even if it is that far, is rounded
to it. -/
theorem divNearestEven_eq {num den q : Nat} (pos : 0 < den) (lower : 2 * (q * den) ≤ 2 * num + den)
    (upper : 2 * num ≤ 2 * (q * den) + den)
    (tie : 2 * (q * den) = 2 * num + den ∨ 2 * num = 2 * (q * den) + den → q % 2 = 0) :
    divNearestEven num den = q := by
  have hnum := Nat.div_add_mod' num den
  have hmod := Nat.mod_lt num pos
  generalize hq : num / den = a at hnum
  generalize hr : num % den = r at hnum hmod
  have hle : a ≤ q := by
    by_contra hlt
    have := Nat.mul_le_mul_right den (show q + 1 ≤ a by omega)
    rw [Nat.succ_mul] at this
    omega
  have hge : q ≤ a + 1 := by
    by_contra hlt
    have := Nat.mul_le_mul_right den (show a + 2 ≤ q by omega)
    rw [Nat.add_mul] at this
    omega
  have hsucc : (a + 1) * den = a * den + den := Nat.succ_mul a den
  simp only [divNearestEven, hq, hr]
  obtain rfl | rfl : q = a ∨ q = a + 1 := by omega
  · split <;> (try split) <;> omega
  · split <;> (try split) <;> omega

/-- Equal fractions are rounded to the same word. -/
theorem nearestMagnitude_congr {num den num' den' : Nat} (pos : 0 < den) (pos' : 0 < den')
    (same : num * den' = num' * den) : nearestMagnitude num den = nearestMagnitude num' den' := by
  have scaled (a b : Nat) {c : Nat} (hc : 0 < c) :
      nearestMagnitude (a * c) (b * c) = nearestMagnitude a b := by
    rw [nearestMagnitude_eq, nearestMagnitude_eq, Nat.mul_div_mul_right _ _ hc, Nat.mul_right_comm b,
      divNearestEven_mul_right _ _ hc]
  rw [← scaled num den pos', same, Nat.mul_comm den, scaled num' den' pos]

theorem ofRatio_congr (negative : Bool) {num den num' den' : Nat} (pos : 0 < den) (pos' : 0 < den')
    (same : (num : ℚ) / den = num' / den') :
    ofRatio negative num den = ofRatio negative num' den' := by
  have hcross : num * den' = num' * den := by
    rw [div_eq_div_iff (Nat.cast_ne_zero.mpr pos.ne') (Nat.cast_ne_zero.mpr pos'.ne')] at same
    exact_mod_cast same
  have hunits : num * unitsPerOne * den' = num' * unitsPerOne * den := by
    rw [Nat.mul_right_comm, hcross, Nat.mul_right_comm]
  rw [ofRatio, ofRatio, ofUnits, ofUnits, nearestMagnitude_congr pos pos' hunits]

/-! ### The spacing at a place -/

/-- A quotient of a size at which the words are `2 ^ k` units apart. -/
structure Spaced (num den k : Nat) : Prop where
  lower : k = 0 ∨ den * 2 ^ (52 + k) ≤ num
  upper : num < den * 2 ^ (53 + k)

variable {num den k q : Nat}

theorem Spaced.log2_eq (h : Spaced num den k) (pos : 0 < den) : (num / den).log2 - 52 = k := by
  have hupper : num / den < 2 ^ (53 + k) := Nat.div_lt_of_lt_mul h.upper
  have hlower : k = 0 ∨ 2 ^ (52 + k) ≤ num / den :=
    h.lower.imp_right fun le => (Nat.le_div_iff_mul_le pos).mpr (by rwa [Nat.mul_comm])
  rcases Nat.eq_zero_or_pos (num / den) with hzero | hpos
  · rcases hlower with rfl | hle
    · rw [hzero, Nat.log2_zero]
    · have := Nat.two_pow_pos (52 + k)
      omega
  · have hlt := (Nat.log2_lt hpos.ne').mpr hupper
    rcases hlower with rfl | hle
    · omega
    · have := (Nat.le_log2 hpos.ne').mpr hle
      omega

/-- Rounding to a significand where the spacing is known. -/
theorem Spaced.nearestMagnitude_eq (h : Spaced num den k) (pos : 0 < den)
    (lower : 2 * (q * (den * 2 ^ k)) ≤ 2 * num + den * 2 ^ k)
    (upper : 2 * num ≤ 2 * (q * (den * 2 ^ k)) + den * 2 ^ k)
    (tie : 2 * (q * (den * 2 ^ k)) = 2 * num + den * 2 ^ k ∨
      2 * num = 2 * (q * (den * 2 ^ k)) + den * 2 ^ k → q % 2 = 0) :
    nearestMagnitude num den = min infiniteMagnitude (k * 2 ^ 52 + q) := by
  rw [Binary64.nearestMagnitude_eq, h.log2_eq pos,
    divNearestEven_eq (Nat.mul_pos pos (Nat.two_pow_pos k)) lower upper tie]

/-! ### The catchment of a word -/

variable {x : Binary64}

theorem magnitude_lt_of_isFinite (finite : x.isFinite = true) :
    x.magnitude < infiniteMagnitude := of_decide_eq_true finite

/-- What a catchment holds, as bounds without a case for the ends. -/
theorem holds_bounds {c : Catchment} (holds : c.holds num den = true) :
    c.lower * den ≤ num ∧ num ≤ c.upper * den ∧
      (c.lower * den = num ∨ num = c.upper * den → c.closed = true) := by
  unfold Catchment.holds at holds
  cases hc : c.closed <;> simp [hc] at holds ⊢ <;> omega

/-- The catchment reaches half a spacing down, or a quarter of one at the start of a binade. -/
theorem catchment_below (x : Binary64) : ∃ below,
    x.catchment = ⟨4 * x.units - below, 4 * x.units + 2 * 2 ^ scale x.magnitude,
      x.magnitude % 2 == 0⟩ ∧
    (x.magnitude % 2 ^ 52 = 0 ∧ 2 ^ 53 ≤ x.magnitude ∧ below = 2 ^ scale x.magnitude ∨
      ¬(x.magnitude % 2 ^ 52 = 0 ∧ 2 ^ 53 ≤ x.magnitude) ∧ below = 2 * 2 ^ scale x.magnitude) := by
  by_cases narrow : x.magnitude % Nat.pow 2 52 = 0 ∧ Nat.pow 2 53 ≤ x.magnitude
  · refine ⟨2 ^ scale x.magnitude, ?_, .inl ⟨narrow.1, narrow.2, rfl⟩⟩
    simp only [catchment, if_pos narrow]
    rfl
  · refine ⟨2 * 2 ^ scale x.magnitude, ?_, .inr ⟨narrow, rfl⟩⟩
    simp only [catchment, if_neg narrow]
    rfl

/-- The significand and the spacing of a word. -/
theorem magnitude_parts (m : Nat) : m = scale m * 2 ^ 52 + significand m ∧
    significand m < 2 ^ 53 ∧ (scale m = 0 ∨ 2 ^ 52 ≤ significand m) ∧
    (significand m = 2 ^ 52 ↔ m % 2 ^ 52 = 0 ∧ 2 ^ 52 ≤ m) := by
  rw [scale_eq, significand_eq]
  split <;> omega

/-- What a catchment holds is no more than half a spacing away, and below the first word of a binade
no more than a quarter; at the very ends the significand is even. -/
theorem holds_quarters (holds : x.catchment.holds num den = true) {quarter word : Nat}
    (hquarter : quarter = 2 ^ scale x.magnitude * den)
    (hword : word = significand x.magnitude * quarter) :
    num ≤ 4 * word + 2 * quarter ∧ 4 * word ≤ num + 2 * quarter ∧
      (x.magnitude % 2 ^ 52 = 0 ∧ 2 ^ 53 ≤ x.magnitude → 4 * word ≤ num + quarter) ∧
      (num = 4 * word + 2 * quarter ∨ 4 * word = num + 2 * quarter →
        significand x.magnitude % 2 = 0) := by
  obtain ⟨below, heq, hbelow⟩ := catchment_below x
  obtain ⟨hlower, hupper, htie⟩ := holds_bounds holds
  have hparts := (magnitude_parts x.magnitude).1
  have hunits : x.units * den = word := by rw [units_eq, hword, hquarter, Nat.mul_assoc]
  have heven : (x.magnitude % 2 == 0) = true ↔ significand x.magnitude % 2 = 0 := by
    rw [beq_iff_eq]
    omega
  simp only [heq, Nat.sub_mul, Nat.add_mul, Nat.mul_assoc, hunits, ← hquarter, heven]
    at hlower hupper htie
  rcases hbelow with ⟨-, -, rfl⟩ | ⟨wide, rfl⟩
  · rw [← hquarter] at hlower htie
    omega
  · rw [Nat.mul_assoc, ← hquarter] at hlower htie
    omega

/-- What the catchment of a word holds is rounded to that word. -/
theorem nearestMagnitude_of_holds (finite : x.isFinite = true) (pos : 0 < den)
    (holds : x.catchment.holds num den = true) : nearestMagnitude num (4 * den) = x.magnitude := by
  obtain ⟨quarter, hquarter⟩ : ∃ quarter, quarter = 2 ^ scale x.magnitude * den := ⟨_, rfl⟩
  obtain ⟨word, hword⟩ : ∃ word, word = significand x.magnitude * quarter := ⟨_, rfl⟩
  obtain ⟨hupper, hlower, hnarrow, htie⟩ := holds_quarters holds hquarter hword
  obtain ⟨hparts, hsig, hnormal, hfirst⟩ := magnitude_parts x.magnitude
  have hlt := magnitude_lt_of_isFinite finite
  generalize scale x.magnitude = k at *
  generalize significand x.magnitude = q at *
  generalize x.magnitude = m at *
  have hden : 0 < 4 * den := Nat.mul_pos (by decide) pos
  have hpos : 0 < quarter := hquarter ▸ Nat.mul_pos (Nat.two_pow_pos k) pos
  have hsmall : word + quarter ≤ 2 ^ 53 * quarter := by
    rw [hword, ← Nat.succ_mul]
    exact Nat.mul_le_mul_right _ hsig
  have hfar (c : Nat) : 4 * den * 2 ^ (c + k) = 2 ^ c * (4 * quarter) := by
    rw [hquarter, Nat.pow_add]
    ring
  by_cases inside : k = 0 ∨ 2 ^ 52 * (4 * quarter) ≤ num
  · -- At the spacing of the word itself.
    have hstep : 4 * den * 2 ^ k = 4 * quarter := by simpa using hfar 0
    have hplace : q * (4 * den * 2 ^ k) = 4 * word := by rw [hstep, hword, Nat.mul_left_comm]
    have spaced : Spaced num (4 * den) k :=
      ⟨inside.imp_right fun le => (hfar 52).trans_le le, by rw [hfar]; omega⟩
    rw [spaced.nearestMagnitude_eq (q := q) hden (by omega) (by omega) (by omega), ← hparts]
    exact Nat.min_eq_right (Nat.le_of_lt hlt)
  · -- Below the first word of a binade, where the spacing is half of that above.
    obtain ⟨j, rfl⟩ : ∃ j, k = j + 1 := ⟨k - 1, by omega⟩
    have hq : q = 2 ^ 52 := by
      by_contra hne
      have : (2 ^ 52 + 1) * quarter ≤ word := hword ▸ Nat.mul_le_mul_right _ (by omega)
      omega
    rw [hq] at hword
    have hstep : 4 * den * 2 ^ j = 2 * quarter := by rw [hquarter, Nat.pow_succ]; ring
    have spaced : Spaced num (4 * den) j := by
      have hlow := hfar 51
      have hhigh := hfar 52
      rw [show 51 + (j + 1) = 52 + j by omega] at hlow
      rw [show 52 + (j + 1) = 53 + j by omega] at hhigh
      exact ⟨.inr (by omega), by omega⟩
    have hcarry : j * 2 ^ 52 + 2 ^ 53 = m := by rw [hparts, hq]; ring
    rw [spaced.nearestMagnitude_eq (q := 2 ^ 53) hden (by omega) (by omega) (by omega), hcarry]
    exact Nat.min_eq_right (Nat.le_of_lt hlt)

end ScriptCore.Binary64
