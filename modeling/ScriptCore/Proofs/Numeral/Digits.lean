import Mathlib.Algebra.Order.Field.Power
import ScriptCore.Numeral.Layout
import ScriptCore.Proofs.Binary64.Fields

/-!
# ScriptCore.Proofs.Numeral.Digits

How a **whole number** is written: as an integer, with the digits of the shortest decimal and zeros
behind them.

Design points:

* The order of a whole number is its number of digits, so no grid that is tried is finer than one
  (`exponent_nonneg`). That leaves natural numbers to be compared.
* Up to `2⁵³` the catchment of a number reaches no other multiple of ten, so the shortest decimal is
  the number itself. Beyond, it need not be.
-/

namespace ScriptCore

/-! ### Decimal digits -/

theorem toDigits_mul_ten_pow {m : Nat} (pos : 0 < m) (k : Nat) :
    Nat.toDigits 10 (m * 10 ^ k) = Nat.toDigits 10 m ++ List.replicate k '0' := by
  induction k with
  | zero => simp
  | succ k ih =>
      have hpos : 0 < m * 10 ^ k := Nat.mul_pos pos (Nat.pow_pos (by decide))
      have hlast := Nat.toDigits_append_toDigits (b := 10) (by decide) hpos (d := 0) (by decide)
      rw [Nat.pow_succ, ← Nat.mul_assoc, Nat.mul_comm, ← Nat.add_zero (10 * _), ← hlast, ih,
        List.append_assoc, List.replicate_succ']
      rfl

theorem toDigits_injective : Function.Injective (Nat.toDigits 10) :=
  Function.LeftInverse.injective (g := fun l => Nat.ofDigitChars 10 l 0) fun _ =>
    Nat.ofDigitChars_ten_toDigits

namespace Binary64

theorem digitCount_mul_ten_pow {m : Nat} (pos : 0 < m) (k : Nat) :
    digitCount (m * 10 ^ k) = digitCount m + k := by
  simp [digitCount, toDigits_mul_ten_pow pos]

theorem digitCount_pos (n : Nat) : 0 < digitCount n := Nat.length_toDigits_pos

theorem digitCount_le_iff {n k : Nat} (pos : 0 < k) : digitCount n ≤ k ↔ n < 10 ^ k :=
  Nat.length_toDigits_le_iff (by decide) pos

theorem lt_ten_pow_digitCount (n : Nat) : n < 10 ^ digitCount n :=
  (digitCount_le_iff (digitCount_pos n)).mp (Nat.le_refl _)

theorem ten_pow_le_of_lt_digitCount {n k : Nat} (pos : 0 < n) (lt : k < digitCount n) :
    10 ^ k ≤ n := by
  by_contra hlt
  rcases Nat.eq_zero_or_pos k with rfl | hk
  · omega
  · exact Nat.not_le.mpr lt ((digitCount_le_iff hk).mpr (Nat.lt_of_not_le hlt))

end Binary64

/-- The number that a decimal stands for. -/
def Decimal.number (d : Decimal) : ℚ := d.digits * 10 ^ d.exponent

namespace Layout

open Binary64 (digitCount)

/-- A decimal that ends before the point is written as the integer that it stands for. -/
theorem decimal_script {digits e : Nat} (pos : 0 < digits ∨ e = 0)
    (small : e + digitCount digits ≤ 21) :
    script.decimal ⟨digits, e⟩ = Nat.toDigits 10 (digits * 10 ^ e) := by
  have positional : script.isPositional (e + digitCount digits : Int) = true := by
    simp [isPositional, script]
    omega
  have written : script.decimal ⟨digits, e⟩ = Nat.toDigits 10 digits ++ List.replicate e '0' := by
    rw [digitCount] at positional
    simp [decimal, positional, Layout.positional]
    rfl
  rw [written]
  rcases pos with pos | rfl
  · rw [toDigits_mul_ten_pow pos]
  · simp

end Layout

namespace Binary64

/-! ### The shortest decimal of a whole number -/

section Whole

variable {x : Binary64} {m count s : Nat} {tie : Tie} {d : Decimal}

/-- So many steps of a power of ten read back as the number. -/
def readsBack (x : Binary64) (g s : Nat) : Bool :=
  x.catchment.holds (s * (quartersPerOne * 10 ^ g)) 1

/-- So many steps of a power of ten as a decimal of a length. -/
def gridDecimal (count g s : Nat) : Decimal :=
  if s = 10 ^ count then ⟨1, (count + g : Nat)⟩ else ⟨s, g⟩

theorem decimalOrder_of_units (units : x.units = m * unitsPerOne) (pos : 0 < m) :
    x.decimalOrder = digitCount m := by
  unfold decimalOrder
  -- The power is too large to be computed.
  generalize hk : 400 = k
  have hlift : (400 : Int) = k := congrArg Nat.cast hk
  have hdiv : m * unitsPerOne * Nat.pow 10 k / unitsPerOne = m * 10 ^ k := by
    rw [Nat.mul_right_comm, Nat.mul_div_cancel _ unitsPerOne_pos]
    rfl
  rw [hlift, units, hdiv, digitCount_mul_ten_pow pos]
  omega

theorem quartersPerOne_pos : 0 < quartersPerOne := Nat.mul_pos (by decide) unitsPerOne_pos

/-- The number is in units as many steps of a grid as it is itself. -/
theorem four_units_eq (units : x.units = m * unitsPerOne) :
    4 * x.units * Nat.pow 10 0 = quartersPerOne * m := by
  show 4 * x.units * 1 = _
  rw [units, quartersPerOne, Nat.mul_one, Nat.mul_assoc, Nat.mul_comm m]

/-- What is found on a grid that is not finer than one: nothing, unless the quotient does not read
back; else one of the two steps next to the number, and a quotient without remainder if it reads
back. -/
theorem decimalOfLength?_spec (tie : Tie) (units : x.units = m * unitsPerOne) (pos : 0 < m)
    {g : Nat} (order : digitCount m = count + g) :
    (x.decimalOfLength? tie count = none → x.readsBack g (m / 10 ^ g) = false) ∧
      ∀ d, x.decimalOfLength? tie count = some d →
        ∃ s, d = gridDecimal count g s ∧ x.readsBack g s = true ∧
          (s = m / 10 ^ g ∨ s = m / 10 ^ g + 1) ∧
          (m % 10 ^ g = 0 → x.readsBack g (m / 10 ^ g) = true → s = m / 10 ^ g) := by
  have grid : ((digitCount m : Int) - count) = g := by omega
  have hpick (s : Nat) : (if s = Nat.pow 10 count then (⟨1, digitCount m⟩ : Decimal)
      else ⟨s, g⟩) = gridDecimal count g s := by
    rw [gridDecimal, order]
    rfl
  have hdiv : quartersPerOne * m / (quartersPerOne * Nat.pow 10 g) = m / 10 ^ g :=
    Nat.mul_div_mul_left _ _ quartersPerOne_pos
  have hread (s : Nat) : x.catchment.holds (s * (quartersPerOne * Nat.pow 10 g)) (Nat.pow 10 0) =
      x.readsBack g s := rfl
  simp only [decimalOfLength?, decimalOrder_of_units units pos, grid, Int.toNat_natCast,
    Int.toNat_neg_natCast, hpick, four_units_eq units, hdiv, hread]
  split
  · rename_i here _
    exact ⟨fun _ => here, nofun⟩
  · rename_i here _
    refine ⟨nofun, fun d found => ?_⟩
    exact ⟨_, (Option.some.inj found).symm, here, .inl rfl, fun _ _ => rfl⟩
  · rename_i here there
    refine ⟨nofun, fun d found => ?_⟩
    refine ⟨_, (Option.some.inj found).symm, there, .inr rfl, fun _ exact => ?_⟩
    cases here.symm.trans exact
  · rename_i here there
    refine ⟨nofun, fun d found => ?_⟩
    obtain ⟨up, rfl, hup⟩ : ∃ up : Bool,
        d = gridDecimal count g (if up then m / 10 ^ g + 1 else m / 10 ^ g) ∧
          (m % 10 ^ g = 0 → up = false) := by
      refine ⟨_, (Option.some.inj found).symm, fun whole => ?_⟩
      have hmod : quartersPerOne * m % (quartersPerOne * Nat.pow 10 g) = 0 := by
        have hpow : Nat.pow 10 g = 10 ^ g := rfl
        rw [hpow, Nat.mul_mod_mul_left, whole, Nat.mul_zero]
      have hden : 0 < quartersPerOne * Nat.pow 10 g :=
        Nat.mul_pos quartersPerOne_pos (Nat.pow_pos (by decide))
      generalize quartersPerOne * Nat.pow 10 g = den at hmod hden ⊢
      simp [hmod, Nat.ne_of_lt hden]
    cases up with
    | false => exact ⟨_, rfl, here, .inl rfl, fun _ _ => rfl⟩
    | true => exact ⟨_, rfl, there, .inr rfl, fun whole _ => nomatch hup whole⟩

theorem catchment_eq (x : Binary64) : ∃ below, 0 < below ∧ below ≤ 2 * 2 ^ scale x.magnitude ∧
    x.catchment = ⟨4 * x.units - below, 4 * x.units + 2 * 2 ^ scale x.magnitude,
      x.magnitude % 2 == 0⟩ := by
  have hpos : 0 < 2 ^ scale x.magnitude := Nat.two_pow_pos _
  by_cases narrow : x.magnitude % Nat.pow 2 52 = 0 ∧ Nat.pow 2 53 ≤ x.magnitude
  · refine ⟨2 ^ scale x.magnitude, hpos, by omega, ?_⟩
    simp only [catchment, if_pos narrow]
    rfl
  · refine ⟨2 * 2 ^ scale x.magnitude, by omega, Nat.le_refl _, ?_⟩
    simp only [catchment, if_neg narrow]
    rfl

/-- A number is in its own catchment. -/
theorem readsBack_self (units : x.units = m * unitsPerOne) (pos : 0 < m) :
    x.readsBack 0 m = true := by
  obtain ⟨below, hbelow, -, hcatchment⟩ := catchment_eq x
  have hself : m * (quartersPerOne * 10 ^ 0) = 4 * x.units := by
    rw [units, quartersPerOne, Nat.pow_zero, Nat.mul_one, Nat.mul_left_comm]
  have hunits : 0 < x.units := units ▸ Nat.mul_pos pos unitsPerOne_pos
  have hspacing : 0 < 2 ^ scale x.magnitude := Nat.two_pow_pos _
  rw [readsBack, hself, hcatchment, Catchment.holds]
  split
  · simp
  · simp
    omega

/-- Up to `2⁵³` the spacing is at most one, except for the last number, where it is two. -/
theorem spacing_le (units : x.units = m * unitsPerOne) (small : m ≤ 2 ^ 53) :
    2 ^ scale x.magnitude ≤ unitsPerOne ∨
      (m = 2 ^ 53 ∧ 2 ^ scale x.magnitude ≤ 2 * unitsPerOne) := by
  rcases Nat.eq_zero_or_pos (scale x.magnitude) with hzero | hscale
  · rw [hzero]
    exact .inl unitsPerOne_pos
  have hleading : 2 ^ 52 ≤ significand x.magnitude := by
    rw [scale_eq] at hscale
    rw [significand_eq, if_neg (by omega)]
    omega
  have hlower : 2 ^ 52 * 2 ^ scale x.magnitude ≤ m * unitsPerOne := by
    rw [← units, units_eq]
    exact Nat.mul_le_mul_right _ hleading
  unfold unitsPerOne at hlower ⊢
  generalize 1074 = k at hlower ⊢
  have hpow : Nat.pow 2 k = 2 ^ k := rfl
  rw [hpow] at hlower ⊢
  rcases Nat.lt_or_eq_of_le small with hlt | heq
  · left
    have : 2 ^ (52 + scale x.magnitude) < 2 ^ (53 + k) := by
      rw [Nat.pow_add, Nat.pow_add]
      exact Nat.lt_of_le_of_lt hlower (Nat.mul_lt_mul_of_pos_right hlt (Nat.two_pow_pos k))
    have := (Nat.pow_lt_pow_iff_right (by decide)).mp this
    exact Nat.pow_le_pow_right (by decide) (by omega)
  · rw [heq] at hlower
    exact .inr ⟨heq, by omega⟩

/-- What reads back as a number up to `2⁵³` is next to it, and the number itself unless that is the
last. -/
theorem eq_of_readsBack (units : x.units = m * unitsPerOne) (small : m ≤ 2 ^ 53)
    {g : Nat} (reads : x.readsBack g s = true) :
    s * 10 ^ g = m ∨ (m = 2 ^ 53 ∧ (s * 10 ^ g + 1 = m ∨ s * 10 ^ g = m + 1)) := by
  obtain ⟨below, -, hbelow, hcatchment⟩ := catchment_eq x
  have hbounds : 4 * x.units ≤ s * (quartersPerOne * 10 ^ g) + below ∧
      s * (quartersPerOne * 10 ^ g) ≤ 4 * x.units + 2 * 2 ^ scale x.magnitude := by
    rw [readsBack, hcatchment, Catchment.holds] at reads
    split at reads <;> (simp at reads; omega)
  have hstep : s * (quartersPerOne * 10 ^ g) = 4 * unitsPerOne * (s * 10 ^ g) := by
    rw [quartersPerOne, Nat.mul_left_comm]
  have hunits : 4 * x.units = 4 * unitsPerOne * m := by rw [units, Nat.mul_comm m, Nat.mul_assoc]
  have hpos := unitsPerOne_pos
  rw [hstep, hunits] at hbounds
  generalize s * 10 ^ g = t at hbounds ⊢
  -- Being off by one costs four quarters, and half a spacing has two of them, or four at the end.
  rcases spacing_le units small with hle | ⟨hm, hle⟩
  · left
    have hless : 4 * unitsPerOne * t < 4 * unitsPerOne * (m + 1) := by rw [Nat.mul_succ]; omega
    have hmore : 4 * unitsPerOne * m < 4 * unitsPerOne * (t + 1) := by rw [Nat.mul_succ]; omega
    have := Nat.lt_of_mul_lt_mul_left hless
    have := Nat.lt_of_mul_lt_mul_left hmore
    omega
  · have hless : 4 * unitsPerOne * t ≤ 4 * unitsPerOne * (m + 1) := by rw [Nat.mul_succ]; omega
    have hmore : 4 * unitsPerOne * m ≤ 4 * unitsPerOne * (t + 1) := by rw [Nat.mul_succ]; omega
    have := Nat.le_of_mul_le_mul_left hless (by omega)
    have := Nat.le_of_mul_le_mul_left hmore (by omega)
    omega

theorem gridDecimal_eq (count g : Nat) (le : s ≤ 10 ^ count) (pos : 0 < s) :
    ∃ digits e : Nat, gridDecimal count g s = ⟨digits, e⟩ ∧ 0 < digits ∧
      e + digitCount digits ≤ count + g + 1 ∧ digits * 10 ^ e = s * 10 ^ g := by
  by_cases heq : s = 10 ^ count
  · refine ⟨1, count + g, if_pos heq, Nat.one_pos, ?_, ?_⟩
    · exact Nat.le_refl _
    · rw [heq, Nat.one_mul, Nat.pow_add]
  · refine ⟨s, g, if_neg heq, pos, ?_, rfl⟩
    have hlt : s < 10 ^ (count + 1) :=
      Nat.lt_of_le_of_lt le (Nat.pow_lt_pow_right (by decide) (Nat.lt_succ_self _))
    have := (digitCount_le_iff (Nat.succ_pos count)).mpr hlt
    omega

/-- What is found at a length no greater than that of the number. -/
theorem decimalOfLength?_some (units : x.units = m * unitsPerOne) (pos : 0 < m) {g : Nat}
    (order : digitCount m = count + g) (hcount : 0 < count)
    (found : x.decimalOfLength? tie count = some d) :
    ∃ digits e : Nat, d = ⟨digits, e⟩ ∧ 0 < digits ∧
      e + digitCount digits ≤ digitCount m + 1 ∧ (m ≤ 2 ^ 53 → digits * 10 ^ e = m) := by
  obtain ⟨s, rfl, reads, next, whole⟩ := (decimalOfLength?_spec tie units pos order).2 d found
  have hlower : 10 ^ g ≤ m := ten_pow_le_of_lt_digitCount pos (by omega)
  have hupper : m / 10 ^ g < 10 ^ count := by
    refine Nat.div_lt_of_lt_mul ?_
    rw [← Nat.pow_add, Nat.add_comm, ← order]
    exact lt_ten_pow_digitCount m
  have hquotient : 0 < m / 10 ^ g := Nat.div_pos hlower (Nat.pow_pos (by decide))
  obtain ⟨digits, e, heq, hdigits, hlength, hvalue⟩ :=
    gridDecimal_eq (s := s) count g (by omega) (by omega)
  refine ⟨digits, e, heq, hdigits, by omega, fun small => hvalue.trans ?_⟩
  rcases eq_of_readsBack units small reads with hexact | ⟨hlast, off⟩
  · exact hexact
  -- The two neighbours of the last number are odd multiples of one, and it stands between them.
  · cases g with
    | zero =>
        have hs := whole (Nat.mod_one m) (by simpa using readsBack_self units pos)
        simpa using hs
    | succ g =>
        rw [Nat.pow_succ, ← Nat.mul_assoc] at off
        omega

/-- The first hit among the numbers below a bound. -/
theorem findSome?_range {α : Type} {f : Nat → Option α} {n : Nat} {a : α}
    (found : (List.range n).findSome? f = some a) :
    ∃ k < n, f k = some a ∧ ∀ j < k, f j = none := by
  induction n with
  | zero => cases found
  | succ n ih =>
      rw [List.range_succ, List.findSome?_append] at found
      cases earlier : (List.range n).findSome? f with
      | some b =>
          rw [earlier] at found
          obtain ⟨k, hk, hit⟩ := ih (earlier.trans found)
          exact ⟨k, Nat.lt_succ_of_lt hk, hit⟩
      | none =>
          rw [earlier] at found
          refine ⟨n, Nat.lt_succ_self n, by simpa using found, fun j hj => ?_⟩
          exact List.findSome?_eq_none_iff.mp earlier j (List.mem_range.mpr hj)

/-- The shortest decimal of a whole number ends before the point. -/
theorem shortest_spec (tie : Tie) (units : x.units = m * unitsPerOne) (pos : 0 < m) :
    ∃ digits e : Nat, x.shortest tie = ⟨digits, e⟩ ∧ (0 < digits ∨ e = 0) ∧
      e + digitCount digits ≤ digitCount m + 1 ∧ (m ≤ 2 ^ 53 → digits * 10 ^ e = m) := by
  have hcount := digitCount_pos m
  -- With all digits of the number there is a hit.
  have hfull : x.decimalOfLength? tie (digitCount m - 1 + 1) ≠ none := by
    intro none
    have order : digitCount m = digitCount m - 1 + 1 + 0 := by omega
    have missed := (decimalOfLength?_spec tie units pos order).1 none
    rw [Nat.pow_zero, Nat.div_one, readsBack_self units pos] at missed
    cases missed
  rw [shortest]
  cases found : (List.range 17).findSome? fun n => x.decimalOfLength? tie (n + 1) with
  | some d =>
      obtain ⟨k, -, hit, before⟩ := findSome?_range found
      have hk : k ≤ digitCount m - 1 := by
        by_contra hlt
        exact hfull (before _ (by omega))
      obtain ⟨digits, e, heq, hdigits, rest⟩ := decimalOfLength?_some units pos
        (g := digitCount m - (k + 1)) (by omega) (Nat.succ_pos k) hit
      exact ⟨digits, e, heq, .inl hdigits, rest⟩
  | none =>
      have hlong : 17 < digitCount m := by
        by_contra hle
        refine hfull (List.findSome?_eq_none_iff.mp found (digitCount m - 1) ?_)
        exact List.mem_range.mpr (by omega)
      refine ⟨0, 0, rfl, .inr rfl, ?_, fun small => ?_⟩
      · have hzero : digitCount 0 = 1 := rfl
        omega
      · have := (digitCount_le_iff (n := m) (k := 16) (by decide)).mpr (by omega)
        omega

end Whole

end Binary64

/-! ### Writing -/

theorem toString_int (n : Int) : toString n =
    String.ofList ((if n < 0 then ['-'] else []) ++ Nat.toDigits 10 n.natAbs) := by
  cases n with
  | ofNat m =>
      have hsign : ¬(Int.ofNat m < 0) := by simp
      rw [if_neg hsign, List.nil_append]
      exact Nat.toString_eq_ofList_toDigits
  | negSucc m =>
      rw [if_pos (Int.negSucc_lt_zero m), String.ofList_append, ← Nat.toString_eq_ofList_toDigits]
      rfl

namespace Binary64

variable {x : Binary64} {n : Int}

/-- The digits that are printed for a word are all the digits that it has. -/
def PrintsExactly (x : Binary64) : Prop :=
  ∀ q, x.number? = some (.finite q) → q ≠ 0 → (x.shortest .toEven).number = |q|

theorem finite_of_number? (whole : x.number? = some (.finite n)) :
    x.isNaN = false ∧ x.isInfinite = false ∧ x.signedUnits = n * unitsPerOne := by
  have equal := Value.Numeric.intEqFloat_iff.mpr whole
  simp only [Value.Numeric.intEqFloat, isWhole, Bool.and_eq_true, beq_iff_eq] at equal
  obtain ⟨⟨finite, divides⟩, truncated⟩ := equal
  obtain ⟨hnan, hinf⟩ := isFinite_iff.mp finite
  exact ⟨Bool.eq_false_iff.mpr hnan, Bool.eq_false_iff.mpr hinf,
    whole_iff.mp ⟨divides, truncated⟩⟩

theorem units_of_number? (whole : x.number? = some (.finite n)) :
    x.units = n.natAbs * unitsPerOne := by
  rw [← natAbs_signedUnits, (finite_of_number? whole).2.2, Int.natAbs_mul, Int.natAbs_natCast]

theorem isNegative_of_number? (whole : x.number? = some (.finite n)) (nonzero : n ≠ 0) :
    x.isNegative = decide (n < 0) := by
  have hsigned := (finite_of_number? whole).2.2
  have hpos : (0 : Int) < unitsPerOne := Int.natCast_pos.mpr unitsPerOne_pos
  rw [signedUnits] at hsigned
  generalize (unitsPerOne : Int) = scale at hsigned hpos
  rcases Int.lt_or_gt_of_ne nonzero with hn | hn
  · have := Int.mul_neg_of_neg_of_pos hn hpos
    cases hs : x.isNegative <;> simp [hs] at hsigned ⊢ <;> omega
  · have := Int.mul_pos hn hpos
    cases hs : x.isNegative <;> simp [hs] at hsigned ⊢ <;> omega

/-- A whole number other than zero is written like an integer, though not always the same one. -/
theorem write_of_whole (whole : x.number? = some (.finite n)) (nonzero : n ≠ 0)
    (small : n.natAbs < 10 ^ 20) :
    ∃ digits e : Nat, x.shortest .toEven = ⟨digits, e⟩ ∧
      Layout.script.write x =
        String.ofList ((if n < 0 then ['-'] else []) ++ Nat.toDigits 10 (digits * 10 ^ e)) ∧
      (n.natAbs ≤ 2 ^ 53 → digits * 10 ^ e = n.natAbs) := by
  have hpos : 0 < n.natAbs := Int.natAbs_pos.mpr nonzero
  obtain ⟨hnan, hinf, -⟩ := finite_of_number? whole
  have hzero : x.isZero = false := by
    rw [← Bool.not_eq_true, isZero_iff, whole]
    simpa using nonzero
  obtain ⟨digits, e, hshortest, hdigits, hlength, hexact⟩ :=
    shortest_spec .toEven (units_of_number? whole) hpos
  have hcount := (digitCount_le_iff (n := n.natAbs) (k := 20) (by decide)).mpr small
  refine ⟨digits, e, hshortest, ?_, hexact⟩
  have htie : Layout.script.tie = .toEven := rfl
  rw [Layout.write, hnan, hinf, hzero, htie, hshortest,
    Layout.decimal_script hdigits (by omega), isNegative_of_number? whole nonzero]
  simp

theorem number_natCast (digits e : Nat) :
    (⟨digits, e⟩ : Decimal).number = ((digits * 10 ^ e : Nat) : ℚ) := by
  rw [Decimal.number, zpow_natCast]
  push_cast
  rfl

theorem printsExactly_iff (whole : x.number? = some (.finite n)) (nonzero : n ≠ 0) {digits e : Nat}
    (shortest : x.shortest .toEven = ⟨digits, e⟩) :
    x.PrintsExactly ↔ digits * 10 ^ e = n.natAbs := by
  have habs : |(n : ℚ)| = (n.natAbs : ℚ) := by rw [Nat.cast_natAbs, Int.cast_abs]
  have hn : (n : ℚ) ≠ 0 := Int.cast_ne_zero.mpr nonzero
  simp only [PrintsExactly, whole, shortest, number_natCast, Option.some.injEq,
    ExactNumber.finite.injEq, forall_eq', habs, Nat.cast_inj]
  exact forall_prop_of_true hn

theorem printsExactly_of_isZero (zero : x.isZero = true) : x.PrintsExactly := by
  intro q denotes nonzero
  rw [isZero_iff.mp zero, Option.some.injEq, ExactNumber.finite.injEq] at denotes
  exact absurd denotes.symm nonzero

/-- A whole number is written as the integer exactly if all its digits are printed. -/
theorem write_eq_toString_iff (whole : x.number? = some (.finite n)) (small : n.natAbs < 10 ^ 20) :
    Layout.script.write x = toString n ↔ x.PrintsExactly := by
  by_cases nonzero : n = 0
  · subst nonzero
    have zero : x.isZero = true := isZero_iff.mpr whole
    obtain ⟨hnan, hinf, -⟩ := finite_of_number? whole
    refine iff_of_true ?_ (printsExactly_of_isZero zero)
    simp [Layout.write, Layout.script, hnan, hinf, zero]
    rfl
  · obtain ⟨digits, e, hshortest, hwrite, -⟩ := write_of_whole whole nonzero small
    rw [hwrite, toString_int, printsExactly_iff whole nonzero hshortest, String.ofList_inj,
      List.append_cancel_left_eq, toDigits_injective.eq_iff]

theorem printsExactly_of_le (whole : x.number? = some (.finite n)) (small : n.natAbs ≤ 2 ^ 53) :
    x.PrintsExactly := by
  by_cases nonzero : n = 0
  · subst nonzero
    exact printsExactly_of_isZero (isZero_iff.mpr whole)
  · obtain ⟨digits, e, hshortest, -, hexact⟩ := write_of_whole whole nonzero (by omega)
    exact (printsExactly_iff whole nonzero hshortest).mpr (hexact small)

end Binary64

end ScriptCore
