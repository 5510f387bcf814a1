import ScriptCore.Proofs.Numeral.Layouts
import ScriptCore.Proofs.Numeral.Shortest

/-!
# ScriptCore.Proofs.Numeral.Printed

The **number format** of scripts writes the number that a printed text denotes, digit for digit.

Design points:

* A printed text is a decimal literal by its parts, as a printer of digits gives it
  (`Spelling.IsPrinted`). What is taken from it are the significant digits of its number
  (`significant_readPrinted`), and those decide what is written.
* So two printed texts of one number are written alike, and the shortest decimal is written like any
  text of it.
-/

namespace ScriptCore

open DecimalLiteral (natOfDigits Spelling WrittenExponent WrittenSign)

/-! ### Printed texts -/

namespace DecimalLiteral.Spelling

/-- The parts are those of a printed number: digits, then perhaps a point and digits, then perhaps an
exponent, with a minus sign or none. -/
structure IsPrinted (p : Spelling) : Prop where
  valid : p.Valid
  unsigned : p.sign = .absent
  whole : p.whole ≠ []
  fraction : p.fraction ≠ some []
  exponent : ∀ e ∈ p.exponent, e.mark = 'e' ∧ e.sign ≠ .plus

/-- The exponents fit in 32 bits: the one that is written, and the one that the number has when the
point stands behind its first digit. -/
structure Fits (p : Spelling) : Prop where
  written : ∀ e ∈ p.exponent, -2 ^ 31 ≤ e.toInt ∧ e.toInt < 2 ^ 31
  scientific : ∀ ds n, Significant p.literal.number ds n → -2 ^ 31 < n - 1 ∧ n < 2 ^ 31

end DecimalLiteral.Spelling

/-! ### Taking a printed text apart -/

theorem splitOnce_append {q : Char → Bool} {s rest : List Char} (before : ∀ c ∈ s, q c = false)
    (starts : ∀ c ∈ rest.head?, q c = true) : splitOnce q (s ++ rest) = (s, rest.tail?) := by
  have inside : ∀ c ∈ s, (!q c) = true := fun c mem => by rw [before c mem]; rfl
  have stops : ∀ c ∈ rest.head?, (!q c) = false := fun c mem => by rw [starts c mem]; rfl
  obtain ⟨front, back⟩ := span_append inside stops
  rw [splitOnce, front, back]

theorem ne_mark_of_isDigit {c : Char} (digit : c.isDigit = true) :
    (c == '.') = false ∧ (c == 'e' || c == 'E') = false := by
  obtain ⟨lower, upper⟩ := toNat_of_isDigit digit
  have apart (d : Char) (other : d.toNat < 48 ∨ 57 < d.toNat) : (c == d) = false :=
    beq_eq_false_iff_ne.mpr fun same => by rw [same] at lower upper; omega
  rw [apart '.' (.inl (by decide)), apart 'e' (.inr (by decide)), apart 'E' (.inr (by decide))]
  exact ⟨rfl, rfl⟩

namespace DecimalLiteral.Spelling

variable {p : Spelling}

theorem splitOnce_exponent (printed : p.IsPrinted) :
    splitOnce (fun c => c == 'e' || c == 'E') p.text =
      (p.whole ++ p.fractionText, p.exponent.map fun e => e.sign.text ++ e.digits) := by
  have text : p.text = (p.whole ++ p.fractionText) ++ p.exponentText := by
    rw [Spelling.text, printed.unsigned]
    rfl
  have before : ∀ c ∈ p.whole ++ p.fractionText, (c == 'e' || c == 'E') = false := by
    have digits {s : List Char} (h : Digits s) : ∀ c ∈ s, (c == 'e' || c == 'E') = false :=
      fun c mem => (ne_mark_of_isDigit (h c mem)).2
    refine List.forall_mem_append.mpr ⟨digits printed.valid.whole, ?_⟩
    rw [fractionText]
    cases hf : p.fraction with
    | none => exact List.forall_mem_nil _
    | some f => exact List.forall_mem_cons.mpr ⟨rfl, digits (printed.valid.fraction f hf)⟩
  have starts : ∀ c ∈ p.exponentText.head?, (c == 'e' || c == 'E') = true := by
    rw [exponentText]
    cases he : p.exponent with
    | none => exact fun c mem => absurd mem (Option.not_mem_none c)
    | some e =>
        rintro c ⟨⟩
        rw [(printed.exponent e he).1]
        rfl
  rw [text, splitOnce_append before starts, exponentText]
  cases p.exponent <;> rfl

theorem splitOnce_point (printed : p.IsPrinted) :
    splitOnce (· == '.') (p.whole ++ p.fractionText) = (p.whole, p.fraction) := by
  have starts : ∀ c ∈ p.fractionText.head?, (c == '.') = true := by
    rw [fractionText]
    cases p.fraction with
    | none => exact fun c mem => absurd mem (Option.not_mem_none c)
    | some f =>
        rintro c ⟨⟩
        rfl
  rw [splitOnce_append (fun c mem => (ne_mark_of_isDigit (printed.valid.whole c mem)).1) starts,
    fractionText]
  cases p.fraction <;> rfl

theorem exponentOrZero_text (printed : p.IsPrinted) (fits : p.Fits) :
    ((p.exponent.map fun e => e.sign.text ++ e.digits).map exponentOrZero).getD 0 =
      Int32.ofInt (p.exponent.elim 0 WrittenExponent.toInt) := by
  cases he : p.exponent with
  | none => rfl
  | some e =>
      obtain ⟨digits, nonempty⟩ := printed.valid.exponent e he
      have mark := (printed.exponent e he).1
      have read := exponent?_text (printed.valid.mark e he) digits nonempty
      rw [WrittenExponent.text, mark] at read
      have small : (Int32.ofInt e.toInt).toInt = e.toInt :=
        Int32.toInt_ofInt_of_le (fits.written e he).1 (fits.written e he).2
      simp only [Option.map_some, Option.getD_some, Option.elim_some, exponentOrZero, read, if_pos small]

/-- What is left of digits without the zeros at both ends, and the zeros. -/
theorem exists_zeros {s ds : List Char} (stripped : Stripped (· == '0') s ds) :
    (∃ a b, s = List.replicate a '0' ++ ds ++ List.replicate b '0') ∧
      ds.head? ≠ some '0' ∧ ds.getLast? ≠ some '0' := by
  obtain ⟨front, back, parts, hfront, hback⟩ := stripped.parts
  have zeros {s : List Char} (h : ∀ c ∈ s, (c == '0') = true) : s = List.replicate s.length '0' :=
    List.eq_replicate_of_mem fun c mem => beq_iff_eq.mp (h c mem)
  refine ⟨⟨front.length, back.length, ?_⟩, fun first => ?_, fun last => ?_⟩
  · rw [← zeros hfront, ← zeros hback]
    exact parts
  · exact Bool.noConfusion (stripped.head '0' first)
  · exact Bool.noConfusion (stripped.last '0' last)

variable {a b : Nat} {ds : List Char}

/-- The place of the point among the digits, less the zeros in front. -/
def point (p : Spelling) (zeros : Nat) : Int :=
  p.whole.length + p.exponent.elim 0 WrittenExponent.toInt - zeros

/-- The digits between the zeros and the place of the point give the number. -/
theorem significant_of_zeros (valid : p.Valid) (nonzero : p.literal.number ≠ 0)
    (parts : p.mantissa = List.replicate a '0' ++ ds ++ List.replicate b '0')
    (first : ds.head? ≠ some '0') (last : ds.getLast? ≠ some '0') :
    Significant p.literal.number ds (p.point a) := by
  have digits : Digits p.mantissa := by
    refine valid.whole.append ?_
    cases hf : p.fraction with
    | none => exact List.forall_mem_nil _
    | some f => exact valid.fraction f hf
  have number : p.literal.number = (natOfDigits p.mantissa : ℚ) *
      10 ^ (p.exponent.elim 0 WrittenExponent.toInt - ((p.fraction.getD []).length : Int)) := rfl
  have value : natOfDigits p.mantissa = natOfDigits ds * 10 ^ b := by
    rw [parts, List.append_assoc, natOfDigits_zeros_append, natOfDigits_append_zeros]
  refine ⟨fun c mem => digits c (by simp [parts, mem]), ?_, first, last, ?_⟩
  · rintro rfl
    refine nonzero ?_
    rw [number, value, natOfDigits, List.foldl_nil, Nat.zero_mul, Nat.cast_zero, zero_mul]
  · have length : (p.mantissa.length : Int) = p.whole.length + (p.fraction.getD []).length := by
      rw [mantissa, List.length_append, Nat.cast_add]
    have places : (a : Int) + ds.length + b = p.whole.length + (p.fraction.getD []).length := by
      rw [← length, parts]
      simp [add_assoc]
    rw [number, value, Nat.cast_mul, mul_assoc, Nat.cast_pow, Nat.cast_ofNat, ← zpow_natCast,
      ← zpow_add₀ (by norm_num), point]
    congr 2
    omega

/-- The zeros in front are those that are dropped. -/
theorem leading_zeros {s : List Char} (parts : s = List.replicate a '0' ++ ds ++ List.replicate b '0')
    (nonempty : ds ≠ []) (first : ds.head? ≠ some '0') :
    s.length - (s.dropWhile (· == '0')).length = a := by
  have dropped : s.dropWhile (· == '0') = ds ++ List.replicate b '0' := by
    rw [parts, List.append_assoc]
    refine (span_append (fun c mem => ?_) fun c mem => ?_).2
    · rw [List.eq_of_mem_replicate mem]
      rfl
    · rw [List.head?_append_of_ne_nil _ nonempty] at mem
      exact beq_eq_false_iff_ne.mpr fun zero => first (zero ▸ mem)
  rw [dropped, parts]
  simp

/-- From a printed text, the significant digits of its number are taken, and the place of the point. -/
theorem readPrinted_text (printed : p.IsPrinted) (fits : p.Fits) (nonzero : p.literal.number ≠ 0) :
    ∃ ds n, readPrinted p.text = (ds, n) ∧ Stripped (· == '0') p.mantissa ds ∧
      Significant p.literal.number ds n := by
  obtain ⟨ds, hds⟩ : ∃ ds,
      ((p.mantissa.dropWhile (· == '0')).reverse.dropWhile (· == '0')).reverse = ds := ⟨_, rfl⟩
  have stripped : Stripped (· == '0') p.mantissa ds := stripped_iff.mpr hds
  obtain ⟨⟨a, b, parts⟩, first, last⟩ := exists_zeros stripped
  have significant := significant_of_zeros printed.valid nonzero parts first last
  have leading := leading_zeros parts significant.nonempty first
  have bounds := fits.scientific ds _ significant
  refine ⟨ds, p.point a, ?_, stripped, significant⟩
  simp only [readPrinted, splitOnce_exponent printed, splitOnce_point printed,
    exponentOrZero_text printed fits]
  rw [show p.whole ++ p.fraction.getD [] = p.mantissa from rfl, hds, leading, ← Int32.ofInt_add,
    ← Int32.ofInt_sub, ← point, Int32.toInt_ofInt_of_le (by omega) bounds.2]

end DecimalLiteral.Spelling

/-! ### What is written -/

namespace Layout

variable {x : Binary64} {v : ℚ} {ds : List Char} {n : Int}

/-- The text is digits with the place of the point in the number format of scripts, behind a minus sign
if there is one. -/
def IsFormat (negative : Bool) (ds : List Char) (n : Int) (s : String) : Prop :=
  ∃ body, Written ds n body ∧ s = String.ofList ((if negative then ['-'] else []) ++ body)

theorem writeAs_of_finite (finite : x.isFinite = true) (nonzero : x.isZero = false)
    (digits : List Char) : script.writeAs x digits =
      String.ofList ((if x.isNegative then ['-'] else []) ++ digits) := by
  obtain ⟨hnan, hinf⟩ := Binary64.isFinite_iff.mp finite
  simp [writeAs, hnan, hinf, nonzero]

/-- Significant digits are written in the number format, and that is a literal of their number with the
sign of the word. -/
theorem writeAs_place (finite : x.isFinite = true) (nonzero : x.isZero = false)
    (significant : Significant v ds n) :
    IsFormat x.isNegative ds n (script.writeAs x (script.place ds n)) ∧
      IsLiteral x.isNegative v (script.writeAs x (script.place ds n)).toList := by
  have written := written_place significant.nonempty n
  have literal := written.literal significant (if x.isNegative then .minus else .absent)
  rw [writeAs_of_finite finite nonzero, String.toList_ofList]
  refine ⟨⟨_, written, rfl⟩, ?_⟩
  cases hs : x.isNegative <;> rw [hs] at literal <;> exact literal

theorem write_eq_writeAs (x : Binary64) : script.write x = script.writeAs x
    (script.place (Nat.toDigits 10 (x.shortest .toEven).digits)
      ((x.shortest .toEven).exponent + (Nat.toDigits 10 (x.shortest .toEven).digits).length)) := rfl

end Layout

/-- A literal is read as the word that any literal of its sign and number is read as. -/
theorem IsLiteral.read_eq {x : Binary64} {v : ℚ} {s : String} {digits : Nat} {e : Int}
    (literal : IsLiteral x.isNegative v s.toList) (number : v = digits * 10 ^ e)
    (decimal : Binary64.ofDecimal x.isNegative digits e = x) : Numeral.read s = x := by
  obtain ⟨l, sign, same, read⟩ := literal.read
  rw [String.ofList_toList] at read
  have word : l.value = (⟨x.isNegative, digits, e⟩ : DecimalLiteral).value :=
    DecimalLiteral.value_congr sign (same.trans number)
  rw [read, word]
  exact decimal

/-- **The number format.** From whatever printed text the digits of a number are taken, what is written
is a decimal literal of the number that the text denotes, with the sign of the word, in the notation
that its digits and the place of its point call for. It reads back as the word if the text reads back as
its absolute value, and it is what the layout writes by itself if the text denotes the shortest decimal.
What the layout writes by itself reads back always. -/
theorem number_format {x : Binary64} (finite : x.isFinite = true) (nonzero : x.isZero = false) :
    (∀ p : Spelling, p.IsPrinted → p.Fits → p.literal.number ≠ 0 →
      ∃ ds n l, Stripped (· == '0') p.mantissa ds ∧ Significant p.literal.number ds n ∧
        Layout.IsFormat x.isNegative ds n (Layout.script.writePrinted x (String.ofList p.text)) ∧
        DecimalLiteral.ofChars? (Layout.script.writePrinted x (String.ofList p.text)).toList = some l ∧
        l.negative = x.isNegative ∧ l.number = p.literal.number ∧
        (p.literal.value = x.abs →
          Numeral.read (Layout.script.writePrinted x (String.ofList p.text)) = x) ∧
        (p.literal.number = (x.shortest .toEven).number →
          Layout.script.writePrinted x (String.ofList p.text) = Layout.script.write x)) ∧
    ∃ ds n l, Significant (x.shortest .toEven).number ds n ∧
      Layout.IsFormat x.isNegative ds n (Layout.script.write x) ∧
      DecimalLiteral.ofChars? (Layout.script.write x).toList = some l ∧
      l.negative = x.isNegative ∧ l.number = (x.shortest .toEven).number ∧
      Numeral.read (Layout.script.write x) = x := by
  have shortest := significant_decimal (Binary64.shortest_catches .toEven nonzero).2
  refine ⟨fun p printed fits hp => ?_, ?_⟩
  · obtain ⟨ds, n, read, stripped, significant⟩ := Spelling.readPrinted_text printed fits hp
    have text : Layout.script.writePrinted x (String.ofList p.text) =
        Layout.script.writeAs x (Layout.script.place ds n) := by
      rw [Layout.writePrinted, String.toList_ofList, read]
    obtain ⟨format, literal⟩ := Layout.writeAs_place finite nonzero significant
    obtain ⟨l, accepted, sign, number⟩ := literal.ofChars?
    rw [text]
    refine ⟨ds, n, l, stripped, significant, format, accepted, sign, number, fun back => ?_,
      fun same => ?_⟩
    · rw [DecimalLiteral.value, show p.literal.negative = false by
        rw [Spelling.literal, printed.unsigned]; rfl] at back
      exact literal.read_eq rfl (Binary64.ofDecimal_of_abs finite back)
    · rw [same] at significant
      obtain ⟨rfl, rfl⟩ := significant.unique shortest
      rfl
  · obtain ⟨format, literal⟩ := Layout.writeAs_place finite nonzero shortest
    obtain ⟨l, accepted, sign, number⟩ := literal.ofChars?
    rw [Layout.write_eq_writeAs]
    exact ⟨_, _, l, shortest, format, accepted, sign, number,
      literal.read_eq rfl (Binary64.ofDecimal_shortest .toEven finite nonzero)⟩

/-! ### A small number -/

/-- The printed text `1.5e-7` by its parts. -/
def smallPrinted : Spelling := ⟨.absent, ['1'], some ['5'], some ⟨'e', .minus, ['7']⟩⟩

theorem smallPrinted_isPrinted : smallPrinted.IsPrinted :=
  ⟨⟨by decide, by decide, by decide, by decide, by decide⟩, rfl, by decide, by decide, by decide⟩

theorem smallPrinted_significant : Significant smallPrinted.literal.number ['1', '5'] (-6) :=
  ⟨by decide, by decide, by decide, by decide, rfl⟩

theorem smallPrinted_fits : smallPrinted.Fits where
  written := by decide
  scientific ds n significant := by
    obtain ⟨-, rfl⟩ := significant.unique smallPrinted_significant
    decide

/-- The number nearest to `-1.5e-7` is written with an exponent, and reads back. -/
theorem number_format_on_small :
    let x : Binary64 := ⟨0xbe8421f5f40d8376⟩
    (x.isFinite = true ∧ x.isZero = false ∧ smallPrinted.IsPrinted ∧ smallPrinted.Fits ∧
        smallPrinted.literal.number ≠ 0 ∧ smallPrinted.literal.value = x.abs) ∧
      Layout.script.writePrinted x "1.5e-7" = "-1.5e-7" ∧ Numeral.read "-1.5e-7" = x ∧
      Numeral.read (Layout.script.write x) = x := by
  intro x
  have finite : x.isFinite = true := by decide
  have nonzero : x.isZero = false := by decide
  have hp := smallPrinted_significant.ne_zero
  have back : smallPrinted.literal.value = x.abs := by decide +kernel
  have text : Layout.script.writePrinted x "1.5e-7" = "-1.5e-7" := by decide +kernel
  obtain ⟨printed, -, -, -, -, -, -, -, -, own⟩ := number_format finite nonzero
  obtain ⟨-, -, -, -, -, -, -, -, -, read, -⟩ :=
    printed smallPrinted smallPrinted_isPrinted smallPrinted_fits hp
  refine ⟨⟨finite, nonzero, smallPrinted_isPrinted, smallPrinted_fits, hp, back⟩, text, ?_, own⟩
  rw [← text]
  exact read back

end ScriptCore
