import ScriptCore.Numeral.Printed
import ScriptCore.Proofs.Numeral.Digits
import ScriptCore.Proofs.Numeral.Grammar

/-!
# ScriptCore.Proofs.Numeral.Layouts

The **four notations** of scripts, and what a text in one of them denotes.

Design points:

* A number is given by its digits, without zeros at either end, and the place of the point
  (`Significant`). There is one way to do that (`Significant.unique`).
* The notations are said without the functions that write them (`Notation`). A text in any of them is a
  decimal literal of the number.
-/

namespace ScriptCore

open DecimalLiteral (natOfDigits Spelling)

/-! ### The digits of a number -/

theorem toNat_of_isDigit {c : Char} (digit : c.isDigit = true) : 48 ≤ c.toNat ∧ c.toNat ≤ 57 := by
  simpa [Char.isDigit, UInt32.le_iff_toNat_le] using digit

theorem toNat_eq_iff_zero {c : Char} : c.toNat = 48 ↔ c = '0' :=
  Char.toNat_inj (d := '0')

theorem natOfDigits_singleton (c : Char) : natOfDigits [c] = c.toNat - 48 := by
  simp [natOfDigits]

theorem natOfDigits_concat (s : List Char) (c : Char) :
    natOfDigits (s ++ [c]) = 10 * natOfDigits s + (c.toNat - 48) := by
  simp [DecimalLiteral.natOfDigits_append, natOfDigits_singleton, Nat.mul_comm]

theorem natOfDigits_zeros_append (k : Nat) (s : List Char) :
    natOfDigits (List.replicate k '0' ++ s) = natOfDigits s := by
  simp [DecimalLiteral.natOfDigits_append]

theorem natOfDigits_append_zeros (s : List Char) (k : Nat) :
    natOfDigits (s ++ List.replicate k '0') = natOfDigits s * 10 ^ k := by
  simp [DecimalLiteral.natOfDigits_append]

theorem digitChar_of_isDigit {c : Char} (digit : c.isDigit = true) :
    Nat.digitChar (c.toNat - 48) = c := by
  have table : ∀ n < 10, (Nat.digitChar n).toNat = n + 48 := by decide
  obtain ⟨lower, upper⟩ := toNat_of_isDigit digit
  refine Char.toNat_inj.mp ((table _ (by omega)).trans ?_)
  omega

/-- A text of digits that does not start with a zero is the text of its number. -/
theorem toDigits_natOfDigits {s : List Char} (digits : Digits s) (nonempty : s ≠ [])
    (first : s.head? ≠ some '0') : 0 < natOfDigits s ∧ Nat.toDigits 10 (natOfDigits s) = s := by
  induction s using List.reverseRecOn with
  | nil => exact absurd rfl nonempty
  | append_singleton s c ih =>
      have digit : c.isDigit = true := digits c (by simp)
      obtain ⟨lower, upper⟩ := toNat_of_isDigit digit
      have hc : Nat.toDigits 10 (c.toNat - 48) = [c] := by
        rw [Nat.toDigits_of_lt_base (by omega), digitChar_of_isDigit digit]
      by_cases empty : s = []
      · subst empty
        have hne : c.toNat ≠ 48 := fun h => first (congrArg some (toNat_eq_iff_zero.mp h))
        rw [List.nil_append, natOfDigits_singleton, hc]
        exact ⟨by omega, rfl⟩
      · have hfirst : s.head? ≠ some '0' := by rwa [List.head?_append_of_ne_nil _ empty] at first
        obtain ⟨pos, written⟩ := ih (fun d mem => digits d (by simp [mem])) empty hfirst
        rw [natOfDigits_concat]
        refine ⟨by omega, ?_⟩
        rw [← Nat.toDigits_append_toDigits (by decide) pos (by omega), written, hc]

/-- Digits and the place of the point give a number, and there is no zero at either end. -/
structure Significant (v : ℚ) (ds : List Char) (n : Int) : Prop where
  digits : Digits ds
  nonempty : ds ≠ []
  first : ds.head? ≠ some '0'
  last : ds.getLast? ≠ some '0'
  number : (natOfDigits ds : ℚ) * 10 ^ (n - ds.length) = v

theorem ten_zpow_add_nat (a : Int) (k : Nat) : (10 : ℚ) ^ (a + k) = 10 ^ a * ((10 ^ k : Nat) : ℚ) := by
  rw [zpow_add₀ (by norm_num), zpow_natCast, Nat.cast_pow]
  rfl

/-- Multiples of powers of ten are equal only if both factors are, unless ten divides one. -/
theorem mul_ten_zpow_inj {s t : Nat} {a b : Int} (hs : s % 10 ≠ 0) (ht : t % 10 ≠ 0)
    (same : (s : ℚ) * 10 ^ a = t * 10 ^ b) : s = t ∧ a = b := by
  wlog le : a ≤ b generalizing s t a b
  · have flipped := this ht hs same.symm (by omega)
    exact ⟨flipped.1.symm, flipped.2.symm⟩
  obtain ⟨k, rfl⟩ := Int.le.dest le
  have hten : (10 : ℚ) ^ a ≠ 0 := zpow_ne_zero a (by norm_num)
  have hnat : s = t * 10 ^ k := by
    rw [ten_zpow_add_nat, mul_comm (10 ^ a), ← mul_assoc] at same
    exact_mod_cast mul_right_cancel₀ hten same
  cases k with
  | zero => simpa using hnat
  | succ k =>
      rw [Nat.pow_succ, ← Nat.mul_assoc] at hnat
      omega

namespace Significant

variable {v : ℚ} {ds ds' : List Char} {n n' : Int}

theorem mod_ten_ne_zero (h : Significant v ds n) : natOfDigits ds % 10 ≠ 0 := by
  obtain ⟨s, c, rfl⟩ := (List.eq_nil_or_concat' ds).resolve_left h.nonempty
  obtain ⟨lower, upper⟩ := toNat_of_isDigit (h.digits c (by simp))
  have hne : c.toNat ≠ 48 := fun hc => h.last (by simp [toNat_eq_iff_zero.mp hc])
  rw [natOfDigits_concat]
  omega

theorem eq_toDigits (h : Significant v ds n) : Nat.toDigits 10 (natOfDigits ds) = ds :=
  (toDigits_natOfDigits h.digits h.nonempty h.first).2

/-- A number has one text of digits and one place for the point. -/
theorem unique (h : Significant v ds n) (h' : Significant v ds' n') : ds = ds' ∧ n = n' := by
  obtain ⟨digits, place⟩ := mul_ten_zpow_inj h.mod_ten_ne_zero h'.mod_ten_ne_zero
    (h.number.trans h'.number.symm)
  have same : ds = ds' := by rw [← h.eq_toDigits, digits, h'.eq_toDigits]
  subst same
  exact ⟨rfl, by omega⟩

theorem ne_zero (h : Significant v ds n) : v ≠ 0 := by
  rw [← h.number]
  exact mul_ne_zero (Nat.cast_ne_zero.mpr fun hzero => h.mod_ten_ne_zero (by rw [hzero]))
    (zpow_ne_zero _ (by norm_num))

end Significant

theorem digitChar_ne_zero {n : Nat} (small : n < 10) (nonzero : n ≠ 0) : Nat.digitChar n ≠ '0' := by
  have table : ∀ n < 10, n ≠ 0 → Nat.digitChar n ≠ '0' := by decide
  exact table n small nonzero

/-- The text of a number other than zero does not start with a zero. -/
theorem head?_toDigits {n : Nat} (pos : 0 < n) : (Nat.toDigits 10 n).head? ≠ some '0' := by
  induction n using Nat.strongRecOn with
  | ind n ih =>
      rcases Nat.lt_or_ge n 10 with small | large
      · rw [Nat.toDigits_of_lt_base small]
        exact fun h => digitChar_ne_zero small pos.ne' (Option.some.inj h)
      · rw [Nat.toDigits_of_base_le (by decide) large,
          List.head?_append_of_ne_nil _ Nat.toDigits_ne_nil]
        exact ih (n / 10) (by omega) (by omega)

theorem getLast?_toDigits (n : Nat) : (Nat.toDigits 10 n).getLast? = some (Nat.digitChar (n % 10)) := by
  rcases Nat.lt_or_ge n 10 with small | large
  · rw [Nat.toDigits_of_lt_base small, Nat.mod_eq_of_lt small]
    rfl
  · rw [Nat.toDigits_of_base_le (by decide) large, List.getLast?_concat]

/-- A decimal whose last digit is no zero has the digits that it is made of. -/
theorem significant_decimal {d : Decimal} (last : d.digits % 10 ≠ 0) :
    Significant d.number (Nat.toDigits 10 d.digits)
      (d.exponent + (Nat.toDigits 10 d.digits).length) where
  digits := digits_toDigits _
  nonempty := Nat.toDigits_ne_nil
  first := head?_toDigits (by omega)
  last := by
    rw [getLast?_toDigits]
    exact fun h => digitChar_ne_zero (by omega) last (Option.some.inj h)
  number := by
    rw [DecimalLiteral.natOfDigits_toDigits, Int.add_sub_cancel]
    rfl

/-! ### Notations -/

/-- The text of digits and a place of the point, in the number format of scripts. -/
inductive Written (ds : List Char) (n : Int) : List Char → Prop where
  /-- All digits stand in front of the point, which is left out. -/
  | whole (ends : ds.length ≤ n) (small : n ≤ 21) :
      Written ds n (ds ++ List.replicate (n - ds.length).toNat '0')
  /-- The point stands between digits. -/
  | pointed (pos : 0 < n) (inside : n < ds.length) (small : n ≤ 21) :
      Written ds n (ds.take n.toNat ++ '.' :: ds.drop n.toNat)
  /-- The digits stand behind the point, after at most five zeros. -/
  | fraction (above : -6 < n) (before : n ≤ 0) :
      Written ds n ('0' :: '.' :: (List.replicate (-n).toNat '0' ++ ds))
  /-- Any other number has an exponent, and the point behind the first digit. -/
  | exponential {d : Char} {rest : List Char} (split : ds = d :: rest) (outside : n ≤ -6 ∨ 21 < n) :
      Written ds n (d :: ((if rest = [] then [] else '.' :: rest) ++
        'e' :: (if n - 1 < 0 then '-' else '+') :: Nat.toDigits 10 (n - 1).natAbs))

namespace Layout

theorem isPositional_script (n : Int) : script.isPositional n = true ↔ -6 < n ∧ n ≤ 21 := by
  simp [isPositional, script]

/-- The layout of scripts writes in the notation that the place of the point calls for. -/
theorem written_place {ds : List Char} (nonempty : ds ≠ []) (n : Int) :
    Written ds n (script.place ds n) := by
  rw [place]
  split
  · rename_i positional
    obtain ⟨above, small⟩ := (isPositional_script n).mp positional
    rw [Layout.positional]
    split
    · rename_i ends
      simpa [script] using Written.whole ends small
    · split
      · rename_i pos
        exact .pointed pos (by omega) small
      · exact .fraction above (by omega)
  · rename_i outside
    have outside : n ≤ -6 ∨ 21 < n := by
      rw [isPositional_script] at outside
      omega
    obtain ⟨d, rest, rfl⟩ := List.exists_cons_of_ne_nil nonempty
    have written : Written (d :: rest) n _ := .exponential rfl outside
    rw [exponential, exponent]
    cases rest <;> by_cases negative : n - 1 < 0 <;> simpa [script, negative] using written

end Layout

/-! ### What is written denotes the number -/

/-- The text is a decimal literal of a number, with or without a minus sign. -/
def IsLiteral (negative : Bool) (v : ℚ) (s : List Char) : Prop :=
  ∃ p : Spelling, p.Valid ∧ p.text = s ∧ p.literal.negative = negative ∧ p.literal.number = v

section Notations

open DecimalLiteral (WrittenSign WrittenExponent)

variable {v : ℚ} {ds : List Char} {n : Int}

theorem Significant.literal_whole (h : Significant v ds n) (sign : WrittenSign) (ends : ds.length ≤ n) :
    IsLiteral sign.isMinus v (sign.text ++ (ds ++ List.replicate (n - ds.length).toNat '0')) := by
  refine ⟨⟨sign, ds ++ List.replicate (n - ds.length).toNat '0', none, none⟩,
    ⟨h.digits.append (digits_replicate_zero _), nofun, ?_, nofun, nofun⟩, ?_, rfl, ?_⟩
  · simp [Spelling.mantissa, h.nonempty]
  · simp [Spelling.text, Spelling.fractionText, Spelling.exponentText]
  · obtain ⟨k, hk⟩ := Int.eq_ofNat_of_zero_le (Int.sub_nonneg_of_le ends)
    have number := h.number
    rw [hk, zpow_natCast] at number
    simp [Spelling.literal, DecimalLiteral.number, Spelling.mantissa, natOfDigits_append_zeros, hk,
      number]

theorem Significant.literal_pointed (h : Significant v ds n) (sign : WrittenSign) (pos : 0 < n)
    (inside : n < ds.length) :
    IsLiteral sign.isMinus v (sign.text ++ (ds.take n.toNat ++ '.' :: ds.drop n.toNat)) := by
  refine ⟨⟨sign, ds.take n.toNat, some (ds.drop n.toNat), none⟩,
    ⟨fun c mem => h.digits c (List.mem_of_mem_take mem), ?_, ?_, nofun, nofun⟩, ?_, rfl, ?_⟩
  · rintro _ ⟨⟩ c mem
    exact h.digits c (List.mem_of_mem_drop mem)
  · simpa [Spelling.mantissa] using h.nonempty
  · simp [Spelling.text, Spelling.fractionText, Spelling.exponentText]
  · have place : 0 - ((ds.drop n.toNat).length : Int) = n - ds.length := by
      rw [List.length_drop]
      omega
    simp only [Spelling.literal, DecimalLiteral.number, Spelling.mantissa, Option.elim_none,
      Option.getD_some, List.take_append_drop, place]
    exact h.number

theorem Significant.literal_fraction (h : Significant v ds n) (sign : WrittenSign) (before : n ≤ 0) :
    IsLiteral sign.isMinus v
      (sign.text ++ '0' :: '.' :: (List.replicate (-n).toNat '0' ++ ds)) := by
  refine ⟨⟨sign, ['0'], some (List.replicate (-n).toNat '0' ++ ds), none⟩,
    ⟨?_, ?_, by simp [Spelling.mantissa], nofun, nofun⟩, ?_, rfl, ?_⟩
  · exact digits_replicate_zero 1
  · rintro _ ⟨⟩
    exact (digits_replicate_zero _).append h.digits
  · simp [Spelling.text, Spelling.fractionText, Spelling.exponentText]
  · have place : 0 - ((List.replicate (-n).toNat '0' ++ ds).length : Int) = n - ds.length := by
      rw [List.length_append, List.length_replicate]
      omega
    have zeros : ['0'] ++ (List.replicate (-n).toNat '0' ++ ds) =
        List.replicate ((-n).toNat + 1) '0' ++ ds := by
      rw [List.replicate_succ]
      rfl
    simp only [Spelling.literal, DecimalLiteral.number, Spelling.mantissa, Option.elim_none,
      Option.getD_some, zeros, natOfDigits_zeros_append, place]
    exact h.number

/-- The exponent that makes up for the point behind the first digit. -/
def writtenExponent (e : Int) : WrittenExponent :=
  ⟨'e', if e < 0 then .minus else .plus, Nat.toDigits 10 e.natAbs⟩

theorem toInt_writtenExponent (e : Int) : (writtenExponent e).toInt = e := by
  rw [writtenExponent, WrittenExponent.toInt, DecimalLiteral.natOfDigits_toDigits]
  by_cases negative : e < 0
  · simp only [negative, if_true, WrittenSign.isMinus]
    omega
  · simp only [negative, if_false, WrittenSign.isMinus, Bool.false_eq_true]
    omega

theorem text_writtenExponent (e : Int) : (writtenExponent e).text =
    'e' :: (if e < 0 then '-' else '+') :: Nat.toDigits 10 e.natAbs := by
  by_cases negative : e < 0 <;>
    simp [writtenExponent, WrittenExponent.text, WrittenSign.text, negative]

theorem Significant.literal_exponential {d : Char} {rest : List Char} (h : Significant v (d :: rest) n)
    (sign : WrittenSign) : IsLiteral sign.isMinus v
      (sign.text ++ (d :: ((if rest = [] then [] else '.' :: rest) ++
        'e' :: (if n - 1 < 0 then '-' else '+') :: Nat.toDigits 10 (n - 1).natAbs))) := by
  obtain ⟨digit, digits⟩ := digits_cons.mp h.digits
  refine ⟨⟨sign, [d], if rest = [] then none else some rest, some (writtenExponent (n - 1))⟩,
    ⟨digits_cons.mpr ⟨digit, nofun⟩, ?_, by simp [Spelling.mantissa], ?_, ?_⟩, ?_, rfl, ?_⟩
  · intro f mem
    dsimp only at mem
    split at mem <;> cases mem
    exact digits
  · rintro _ ⟨⟩
    exact .inl rfl
  · rintro _ ⟨⟩
    exact ⟨digits_toDigits _, Nat.toDigits_ne_nil⟩
  · rw [← text_writtenExponent]
    by_cases empty : rest = [] <;>
      simp [Spelling.text, Spelling.fractionText, Spelling.exponentText, empty]
  · have fraction : (if rest = [] then none else some rest).getD [] = rest := by
      split
      · rename_i empty
        exact empty.symm
      · rfl
    have place : n - 1 - (rest.length : Int) = n - (d :: rest).length := by
      rw [List.length_cons]
      omega
    simp only [Spelling.literal, DecimalLiteral.number, Spelling.mantissa, Option.elim_some, fraction,
      toInt_writtenExponent, place]
    exact h.number

/-- What is written in one of the notations denotes the number. -/
theorem Written.literal {body : List Char} (written : Written ds n body) (h : Significant v ds n)
    (sign : WrittenSign) : IsLiteral sign.isMinus v (sign.text ++ body) := by
  cases written with
  | whole ends => exact h.literal_whole sign ends
  | pointed pos inside => exact h.literal_pointed sign pos inside
  | fraction above before => exact h.literal_fraction sign before
  | exponential split =>
      subst split
      exact h.literal_exponential sign

end Notations

/-! ### Reading literals -/

theorem IsLiteral.ofChars? {negative : Bool} {v : ℚ} {s : List Char} (h : IsLiteral negative v s) :
    ∃ l, DecimalLiteral.ofChars? s = some l ∧ l.negative = negative ∧ l.number = v := by
  obtain ⟨p, valid, rfl, sign, number⟩ := h
  exact ⟨_, Spelling.ofChars?_text valid, sign, number⟩

/-- No part of a literal has a blank. -/
theorem isBlank_of_mem_text {p : Spelling} (valid : p.Valid) : ∀ c ∈ p.text, isBlank c = false := by
  have digit (c : Char) (h : c.isDigit = true) : isBlank c = false := by
    obtain ⟨lower, upper⟩ := toNat_of_isDigit h
    have table : ∀ n < 58, 48 ≤ n → isBlank (Char.ofNat n) = false := by decide
    simpa using table c.toNat (by omega) lower
  have sign (sign : DecimalLiteral.WrittenSign) : ∀ c ∈ sign.text, isBlank c = false := by
    cases sign with
    | absent => exact List.forall_mem_nil _
    | plus | minus => exact List.forall_mem_singleton.mpr rfl
  have fraction : ∀ c ∈ p.fractionText, isBlank c = false := by
    rw [Spelling.fractionText]
    cases hf : p.fraction with
    | none => exact List.forall_mem_nil _
    | some f => exact List.forall_mem_cons.mpr ⟨rfl, fun c mem => digit c (valid.fraction f hf c mem)⟩
  have exponent : ∀ c ∈ p.exponentText, isBlank c = false := by
    rw [Spelling.exponentText]
    cases he : p.exponent with
    | none => exact List.forall_mem_nil _
    | some e =>
        refine List.forall_mem_cons.mpr ⟨?_, List.forall_mem_append.mpr ⟨sign e.sign, ?_⟩⟩
        · rcases valid.mark e he with h | h <;> rw [h] <;> rfl
        · exact fun c mem => digit c ((valid.exponent e he).1 c mem)
  simp only [Spelling.text, List.forall_mem_append]
  exact ⟨⟨⟨sign p.sign, fun c mem => digit c (valid.whole c mem)⟩, fraction⟩, exponent⟩

/-- A text without blanks is read whole. -/
theorem trimBlanks_of_forall {s : List Char} (plain : ∀ c ∈ s, isBlank c = false) :
    trimBlanks s = s :=
  Stripped.trimBlanks_eq ⟨⟨[], [], by simp, nofun, nofun⟩,
    fun c mem => plain c (List.mem_of_mem_head? mem),
    fun c mem => plain c (List.mem_of_getLast? mem)⟩

/-- A decimal literal is read as the word nearest to its number. -/
theorem IsLiteral.read {negative : Bool} {v : ℚ} {s : List Char} (h : IsLiteral negative v s) :
    ∃ l : DecimalLiteral, l.negative = negative ∧ l.number = v ∧
      Numeral.read (String.ofList s) = l.value := by
  obtain ⟨p, valid, rfl, sign, number⟩ := h
  refine ⟨p.literal, sign, number, ?_⟩
  rw [Numeral.read, String.toList_ofList, trimBlanks_of_forall (isBlank_of_mem_text valid),
    Numeral.ofTrimmed?_text valid, Option.getD_some]

end ScriptCore
