import Mathlib.Algebra.Order.Field.Power
import Mathlib.Data.List.TakeWhile
import ScriptCore.Numeral.Literal

/-!
# ScriptCore.Proofs.Numeral.Spelling

Which texts are **decimal literals**, and what number each of them denotes.

Design points:

* A `Spelling` has the parts of a literal one by one, and a text for every choice of parts. So the
  grammar is said without reading anything.
* Reading a text takes it apart in the only way there is: each part ends where the characters that it
  may consist of do (`span_append`).
-/

namespace ScriptCore

/-- A run of characters of a class ends where the text goes on with another one. -/
theorem span_append {p : Char → Bool} {s rest : List Char} (inside : ∀ c ∈ s, p c = true)
    (stops : ∀ c ∈ rest.head?, p c = false) :
    (s ++ rest).takeWhile p = s ∧ (s ++ rest).dropWhile p = rest := by
  rw [List.takeWhile_append_of_pos inside, List.dropWhile_append_of_pos inside]
  cases rest with
  | nil => exact ⟨List.append_nil s, rfl⟩
  | cons c rest => simp [stops c rfl]

/-! ### Digits -/

/-- A text of decimal digits, possibly none. -/
def Digits (s : List Char) : Prop := ∀ c ∈ s, c.isDigit = true

instance (s : List Char) : Decidable (Digits s) :=
  decidable_of_iff (s.all Char.isDigit = true) List.all_eq_true

/-- A text that does not go on with a digit. -/
def StopsDigits (s : List Char) : Prop := ∀ c ∈ s.head?, c.isDigit = false

theorem Digits.append {s t : List Char} (hs : Digits s) (ht : Digits t) : Digits (s ++ t) :=
  List.forall_mem_append.mpr ⟨hs, ht⟩

theorem digits_cons {c : Char} {s : List Char} :
    Digits (c :: s) ↔ c.isDigit = true ∧ Digits s := List.forall_mem_cons

theorem digits_toDigits (n : Nat) : Digits (Nat.toDigits 10 n) :=
  fun _ mem => Nat.isDigit_of_mem_toDigits (by decide) (Nat.le_refl _) mem

theorem digits_replicate_zero (n : Nat) : Digits (List.replicate n '0') :=
  fun _ mem => (List.eq_of_mem_replicate mem) ▸ rfl

theorem stopsDigits_nil : StopsDigits [] := nofun

theorem stopsDigits_cons {c : Char} {s : List Char} (stop : c.isDigit = false) :
    StopsDigits (c :: s) := fun _ mem => (Option.some.inj mem) ▸ stop

theorem stopsDigits_dropWhile (s : List Char) : StopsDigits (s.dropWhile Char.isDigit) := by
  intro c mem
  have hstop := List.head?_dropWhile_not Char.isDigit s
  rw [Option.mem_def] at mem
  rwa [mem] at hstop

namespace DecimalLiteral

theorem natOfDigits_eq (s : List Char) : natOfDigits s = Nat.ofDigitChars 10 s 0 := rfl

@[simp] theorem natOfDigits_toDigits (n : Nat) : natOfDigits (Nat.toDigits 10 n) = n :=
  Nat.ofDigitChars_ten_toDigits

theorem natOfDigits_append (s t : List Char) :
    natOfDigits (s ++ t) = natOfDigits s * 10 ^ t.length + natOfDigits t := by
  rw [natOfDigits_eq, Nat.ofDigitChars_append, Nat.ofDigitChars_eq_ofDigitChars_zero, Nat.mul_comm]
  rfl

@[simp] theorem natOfDigits_replicate_zero (n : Nat) :
    natOfDigits (List.replicate n '0') = 0 := by
  rw [natOfDigits_eq, Nat.ofDigitChars_replicate_zero, Nat.mul_zero]

theorem splitDigits_append {s rest : List Char} (digits : Digits s) (stops : StopsDigits rest) :
    splitDigits (s ++ rest) = (s, rest) := by
  obtain ⟨htake, hdrop⟩ := span_append digits stops
  rw [splitDigits, htake, hdrop]

/-- What is split off is digits, what is left goes on with something else, and nothing is lost. -/
theorem splitDigits_spec {s digits rest : List Char} (split : splitDigits s = (digits, rest)) :
    Digits digits ∧ StopsDigits rest ∧ s = digits ++ rest := by
  cases split
  exact ⟨fun _ => List.mem_takeWhile_imp, stopsDigits_dropWhile s,
    List.takeWhile_append_dropWhile.symm⟩

/-! ### The parts of a literal -/

/-- What may stand in front of digits. -/
inductive WrittenSign where
  | absent
  | plus
  | minus
deriving DecidableEq

/-- The sign as text. -/
def WrittenSign.text : WrittenSign → List Char
  | .absent => []
  | .plus => ['+']
  | .minus => ['-']

/-- The sign is a minus. -/
def WrittenSign.isMinus : WrittenSign → Bool
  | .minus => true
  | _ => false

/-- An exponent by its parts. -/
structure WrittenExponent where
  mark : Char
  sign : WrittenSign
  digits : List Char
deriving DecidableEq

/-- The exponent as text. -/
def WrittenExponent.text (e : WrittenExponent) : List Char := e.mark :: (e.sign.text ++ e.digits)

/-- The integer that the exponent is. -/
def WrittenExponent.toInt (e : WrittenExponent) : Int :=
  if e.sign.isMinus then -natOfDigits e.digits else natOfDigits e.digits

/-- A decimal literal by its parts. A fraction may be empty; it is there if there is a point. -/
structure Spelling where
  sign : WrittenSign
  whole : List Char
  fraction : Option (List Char)
  exponent : Option WrittenExponent
deriving DecidableEq

namespace Spelling

variable {p : Spelling}

/-- The point and the fraction as text. -/
def fractionText (p : Spelling) : List Char := p.fraction.elim [] ('.' :: ·)

/-- The exponent as text. -/
def exponentText (p : Spelling) : List Char := p.exponent.elim [] WrittenExponent.text

/-- The literal as text. -/
def text (p : Spelling) : List Char := p.sign.text ++ p.whole ++ p.fractionText ++ p.exponentText

/-- The digits in front of the exponent, those of the fraction behind those of the whole part. -/
def mantissa (p : Spelling) : List Char := p.whole ++ p.fraction.getD []

/-- The parts are those of a decimal literal: a digit on either side of the point, and one in the
exponent if there is an exponent. -/
structure Valid (p : Spelling) : Prop where
  whole : Digits p.whole
  fraction : ∀ f ∈ p.fraction, Digits f
  mantissa : p.mantissa ≠ []
  mark : ∀ e ∈ p.exponent, e.mark = 'e' ∨ e.mark = 'E'
  exponent : ∀ e ∈ p.exponent, Digits e.digits ∧ e.digits ≠ []

/-- What a spelling is read as. -/
def literal (p : Spelling) : DecimalLiteral :=
  ⟨p.sign.isMinus, natOfDigits p.mantissa,
    p.exponent.elim 0 WrittenExponent.toInt - (p.fraction.getD []).length⟩

end Spelling

/-! ### Reading a spelling -/

theorem splitSign_append (sign : WrittenSign) {rest : List Char}
    (bare : ∀ c ∈ rest.head?, c ≠ '+' ∧ c ≠ '-') :
    splitSign (sign.text ++ rest) = (sign.isMinus, rest) := by
  cases sign with
  | plus | minus => rfl
  | absent =>
      cases rest with
      | nil => rfl
      | cons c rest =>
          obtain ⟨hplus, hminus⟩ := bare c rfl
          simp [WrittenSign.text, WrittenSign.isMinus, splitSign, hplus, hminus]

theorem splitSign_spec {s rest : List Char} {negative : Bool}
    (split : splitSign s = (negative, rest)) :
    ∃ sign : WrittenSign, sign.isMinus = negative ∧ s = sign.text ++ rest := by
  unfold splitSign at split
  split at split <;> cases split
  · exact ⟨.minus, rfl, rfl⟩
  · exact ⟨.plus, rfl, rfl⟩
  · exact ⟨.absent, rfl, rfl⟩

/-- A digit is no sign. -/
theorem ne_sign_of_isDigit {c : Char} (digit : c.isDigit = true) : c ≠ '+' ∧ c ≠ '-' := by
  constructor <;> (rintro rfl; cases digit)

/-- What starts with a digit does not start with a sign. -/
theorem bare_of_digits {s rest : List Char} (digits : Digits s) (nonempty : s ≠ []) :
    ∀ c ∈ (s ++ rest).head?, c ≠ '+' ∧ c ≠ '-' := by
  cases s with
  | nil => exact absurd rfl nonempty
  | cons d s =>
      rintro c mem
      cases mem
      exact ne_sign_of_isDigit (digits_cons.mp digits).1

theorem exponent?_text {e : WrittenExponent} (mark : e.mark = 'e' ∨ e.mark = 'E')
    (digits : Digits e.digits) (nonempty : e.digits ≠ []) : exponent? e.text = some e.toInt := by
  have hbare : ∀ c ∈ e.digits.head?, c ≠ '+' ∧ c ≠ '-' := by
    rw [← List.append_nil e.digits]
    exact bare_of_digits digits nonempty
  have hsign := splitSign_append e.sign hbare
  have hdigits : splitDigits e.digits = (e.digits, []) := by
    simpa using splitDigits_append digits stopsDigits_nil
  simp [WrittenExponent.text, exponent?, mark, hsign, hdigits, nonempty, WrittenExponent.toInt]

theorem exponent?_spec {s : List Char} {n : Int} (read : exponent? s = some n) :
    (s = [] ∧ n = 0) ∨ ∃ e : WrittenExponent, s = e.text ∧ e.toInt = n ∧
      (e.mark = 'e' ∨ e.mark = 'E') ∧ Digits e.digits ∧ e.digits ≠ [] := by
  cases s with
  | nil => exact .inl ⟨rfl, (Option.some.inj read).symm⟩
  | cons c rest =>
      right
      by_cases mark : c = 'e' ∨ c = 'E'
      · cases hsplit : splitSign rest with
        | mk negative body =>
        cases hdigits : splitDigits body with
        | mk digits left =>
        obtain ⟨sign, rfl, rfl⟩ := splitSign_spec hsplit
        obtain ⟨hall, -, rfl⟩ := splitDigits_spec hdigits
        simp only [exponent?, if_pos mark, hsplit, hdigits] at read
        split at read
        · cases read
        · rename_i complete
          obtain ⟨nonempty, rfl⟩ : digits ≠ [] ∧ left = [] := by simpa using complete
          refine ⟨⟨c, sign, digits⟩, ?_, Option.some.inj read, mark, hall, nonempty⟩
          rw [List.append_nil]
          rfl
      · rw [exponent?, if_neg mark] at read
        cases read

/-- The exponent's text, whether there is one or not. -/
theorem exponent?_exponentText {p : Spelling} (valid : p.Valid) :
    exponent? p.exponentText = some (p.exponent.elim 0 WrittenExponent.toInt) := by
  unfold Spelling.exponentText
  cases h : p.exponent with
  | none => rfl
  | some e =>
      obtain ⟨digits, nonempty⟩ := valid.exponent e h
      exact exponent?_text (valid.mark e h) digits nonempty

namespace Spelling

variable {p : Spelling}

/-- Neither a digit nor a point comes where an exponent does. -/
theorem head?_exponentText (valid : p.Valid) :
    ∀ c ∈ p.exponentText.head?, c.isDigit = false ∧ c ≠ '.' := by
  unfold exponentText
  cases h : p.exponent with
  | none => nofun
  | some e =>
      rintro c mem
      cases mem
      rcases valid.mark e h with hmark | hmark <;> rw [hmark] <;> decide

theorem stopsDigits_tail (valid : p.Valid) : StopsDigits (p.fractionText ++ p.exponentText) := by
  unfold fractionText
  cases p.fraction with
  | none => exact fun c mem => (head?_exponentText valid c mem).1
  | some f => exact stopsDigits_cons (by decide)

theorem splitFraction_text (valid : p.Valid) :
    splitFraction (p.fractionText ++ p.exponentText) = (p.fraction.getD [], p.exponentText) := by
  have hstop : StopsDigits p.exponentText := fun c mem => (head?_exponentText valid c mem).1
  unfold fractionText
  cases hf : p.fraction with
  | some f => exact splitDigits_append (valid.fraction f hf) hstop
  | none =>
      have hpoint := head?_exponentText valid
      cases htext : p.exponentText with
      | nil => rfl
      | cons c rest =>
          rw [htext] at hpoint
          simp [splitFraction, (hpoint c rfl).2]

/-- What stands behind the sign does not start with a sign. -/
theorem bare (valid : p.Valid) :
    ∀ c ∈ (p.whole ++ (p.fractionText ++ p.exponentText)).head?, c ≠ '+' ∧ c ≠ '-' := by
  by_cases nonempty : p.whole = []
  · -- Without a whole part there is a point.
    obtain ⟨f, hf⟩ : ∃ f, p.fraction = some f := by
      cases hf : p.fraction with
      | some f => exact ⟨f, rfl⟩
      | none => exact absurd (by simp [mantissa, nonempty, hf]) valid.mantissa
    simp [nonempty, fractionText, hf]
  · exact bare_of_digits valid.whole nonempty

/-- A literal is read as what its parts say. -/
theorem ofChars?_text (valid : p.Valid) : ofChars? p.text = some p.literal := by
  have htext : p.text = p.sign.text ++ (p.whole ++ (p.fractionText ++ p.exponentText)) := by
    simp [text]
  have hsign := splitSign_append p.sign (bare valid)
  have hwhole := splitDigits_append valid.whole (stopsDigits_tail valid)
  have hmantissa : ¬(p.whole.isEmpty && (p.fraction.getD []).isEmpty) = true := by
    simpa [mantissa] using valid.mantissa
  rw [ofChars?, htext]
  simp only [hsign, hwhole, splitFraction_text valid, if_neg hmantissa,
    exponent?_exponentText valid, Option.map_some]
  rfl

end Spelling

theorem splitFraction_spec {s digits rest : List Char}
    (split : splitFraction s = (digits, rest)) :
    ∃ fraction : Option (List Char), (∀ f ∈ fraction, Digits f) ∧ fraction.getD [] = digits ∧
      s = fraction.elim [] ('.' :: ·) ++ rest := by
  unfold splitFraction at split
  split at split
  · obtain ⟨hall, -, rfl⟩ := splitDigits_spec split
    exact ⟨some digits, by simpa using hall, rfl, rfl⟩
  · cases split
    exact ⟨none, nofun, rfl, rfl⟩

/-- Only literals are read. -/
theorem exists_spelling {s : List Char} {l : DecimalLiteral} (read : ofChars? s = some l) :
    ∃ p : Spelling, p.Valid ∧ p.text = s := by
  cases hsign : splitSign s with
  | mk negative body =>
  cases hwhole : splitDigits body with
  | mk whole rest =>
  cases hfraction : splitFraction rest with
  | mk digits tail =>
  obtain ⟨sign, -, rfl⟩ := splitSign_spec hsign
  obtain ⟨hall, -, rfl⟩ := splitDigits_spec hwhole
  obtain ⟨fraction, hdigits, rfl, rfl⟩ := splitFraction_spec hfraction
  simp only [ofChars?, hsign, hwhole, hfraction] at read
  split at read
  · cases read
  · rename_i mantissa
    obtain ⟨e, hexponent, -⟩ := Option.map_eq_some_iff.mp read
    have hmantissa : whole ++ fraction.getD [] ≠ [] := by simpa using mantissa
    rcases exponent?_spec hexponent with ⟨rfl, -⟩ | ⟨e, rfl, -, mark, he, nonempty⟩
    · exact ⟨⟨sign, whole, fraction, none⟩, ⟨hall, hdigits, hmantissa, nofun, nofun⟩,
        by simp [Spelling.text, Spelling.fractionText, Spelling.exponentText]⟩
    · refine ⟨⟨sign, whole, fraction, some e⟩, ⟨hall, hdigits, hmantissa, ?_, ?_⟩,
        by simp [Spelling.text, Spelling.fractionText, Spelling.exponentText]⟩
      · simpa using mark
      · simpa using ⟨he, nonempty⟩

/-- The texts that are read as decimal literals are those that are spelled as one. -/
theorem isSome_ofChars?_iff {s : List Char} :
    (ofChars? s).isSome = true ↔ ∃ p : Spelling, p.Valid ∧ p.text = s := by
  constructor
  · intro read
    obtain ⟨l, read⟩ := Option.isSome_iff_exists.mp read
    exact exists_spelling read
  · rintro ⟨p, valid, rfl⟩
    rw [Spelling.ofChars?_text valid]
    rfl

end DecimalLiteral

end ScriptCore
