import ScriptCore.Numeral.Reading
import ScriptCore.Proofs.Numeral.Value

/-!
# ScriptCore.Proofs.Numeral.Grammar

Which texts **stand for a number**: what is left without the blanks at its ends has to be a numeral.

Design points:

* The grammar (`IsNumeral`) says how numerals are put together; nothing in it reads a text. A text is
  read as a number exactly if it is a numeral (`isSome_ofTrimmed?_iff`), and never as one that is not
  a number.
* Reading strips one character more than the grammar has blanks: the control character *next line*.
  A text that has none at its ends is read as the grammar says.
-/

namespace ScriptCore

/-! ### Blanks -/

/-- The Unicode space separators. -/
def isSpaceSeparator (c : Char) : Bool :=
  let n := c.toNat
  n == 0x20 || n == 0xa0 || n == 0x1680 || (0x2000 ≤ n && n ≤ 0x200a) || n == 0x202f ||
    n == 0x205f || n == 0x3000

/-- White space and line terminators of the language: tab, vertical tab, form feed, line feed,
carriage return, the two separators of lines and paragraphs, the byte order mark, and the space
separators. -/
def isScriptBlank (c : Char) : Bool :=
  [0x09, 0x0b, 0x0c, 0x0a, 0x0d, 0x2028, 0x2029, 0xfeff].contains c.toNat || isSpaceSeparator c

/-- The control character that ends a line on some machines. -/
def nextLine : Char := '\u0085'

/-- The characters that reading strips are the blanks and one more. -/
theorem isBlank_eq (c : Char) : isBlank c = (isScriptBlank c || c == nextLine) := by
  have hnext : (c == nextLine) = (c.toNat == 0x85) := by
    rw [Bool.eq_iff_iff, beq_iff_eq, beq_iff_eq]
    exact ⟨fun h => h ▸ rfl, fun h => Char.toNat_inj.mp h⟩
  rw [hnext, Bool.eq_iff_iff]
  simp only [isBlank, isWhiteSpace, isScriptBlank, isSpaceSeparator, List.contains_eq_mem,
    List.mem_cons, List.not_mem_nil, Bool.or_eq_true, Bool.and_eq_true, beq_iff_eq,
    decide_eq_true_eq, or_false]
  omega

/-- A text without the characters of a class at its ends. -/
structure Stripped (blank : Char → Bool) (s t : List Char) : Prop where
  parts : ∃ front back, s = front ++ t ++ back ∧ (∀ c ∈ front, blank c = true) ∧
    ∀ c ∈ back, blank c = true
  head : ∀ c ∈ t.head?, blank c = false
  last : ∀ c ∈ t.getLast?, blank c = false

/-- There is one way to strip a text. -/
theorem stripped_iff {blank : Char → Bool} {s t : List Char} :
    Stripped blank s t ↔ ((s.dropWhile blank).reverse.dropWhile blank).reverse = t := by
  constructor
  · intro h
    obtain ⟨front, back, rfl, hfront, hback⟩ := h.parts
    by_cases hempty : t = []
    · have hall : ∀ c ∈ front ++ t ++ back, blank c = true := by
        rw [hempty, List.append_nil]
        exact List.forall_mem_append.mpr ⟨hfront, hback⟩
      rw [List.dropWhile_eq_nil_iff.mpr hall, hempty]
      rfl
    · have hhead : ∀ c ∈ (t ++ back).head?, blank c = false := by
        rw [List.head?_append_of_ne_nil _ hempty]
        exact h.head
      have hlast : ∀ c ∈ t.reverse.head?, blank c = false := by
        rw [List.head?_reverse]
        exact h.last
      rw [List.append_assoc, (span_append hfront hhead).2, List.reverse_append,
        (span_append (by simpa using hback) hlast).2, List.reverse_reverse]
  · rintro rfl
    have hstop (s : List Char) : ∀ c ∈ (s.dropWhile blank).head?, blank c = false := by
      intro c mem
      have hstop := List.head?_dropWhile_not blank s
      rw [Option.mem_def] at mem
      rwa [mem] at hstop
    obtain ⟨u, hu⟩ : ∃ u, u = s.dropWhile blank := ⟨_, rfl⟩
    have hs : s = s.takeWhile blank ++ u := hu ▸ List.takeWhile_append_dropWhile.symm
    have hparts : u = (u.reverse.dropWhile blank).reverse ++ (u.reverse.takeWhile blank).reverse := by
      rw [← List.reverse_append, List.takeWhile_append_dropWhile, List.reverse_reverse]
    rw [← hu]
    refine ⟨⟨s.takeWhile blank, (u.reverse.takeWhile blank).reverse, ?_, fun c =>
      List.mem_takeWhile_imp, ?_⟩, ?_, ?_⟩
    · rw [List.append_assoc, ← hparts, ← hs]
    · intro c mem
      exact List.mem_takeWhile_imp (List.mem_reverse.mp mem)
    · -- What is left starts as the text does after its blanks, unless nothing is left.
      intro c mem
      refine hstop s c ?_
      rw [← hu, hparts, List.head?_append_of_ne_nil]
      · exact mem
      · rintro hnil
        rw [hnil] at mem
        cases mem
    · rw [List.getLast?_reverse]
      exact hstop u.reverse

theorem Stripped.trimBlanks_eq {s t : List Char} (h : Stripped isBlank s t) : trimBlanks s = t :=
  stripped_iff.mp h

/-- Without the extra character at an end, what the grammar strips is what reading strips. -/
theorem Stripped.isBlank {s t : List Char} (h : Stripped isScriptBlank s t)
    (hhead : t.head? ≠ some nextLine) (hlast : t.getLast? ≠ some nextLine) :
    Stripped isBlank s t := by
  have apart {o : Option Char} (plain : ∀ c ∈ o, isScriptBlank c = false)
      (other : o ≠ some nextLine) : ∀ c ∈ o, ScriptCore.isBlank c = false := by
    rintro c rfl
    have hne : (c == nextLine) = false := beq_eq_false_iff_ne.mpr fun h => other (h ▸ rfl)
    rw [isBlank_eq, plain c rfl, hne]
    rfl
  have blank {c : Char} (h : isScriptBlank c = true) : ScriptCore.isBlank c = true := by
    rw [isBlank_eq, h]
    rfl
  obtain ⟨front, back, hs, hfront, hback⟩ := h.parts
  exact ⟨⟨front, back, hs, fun c mem => blank (hfront c mem), fun c mem => blank (hback c mem)⟩,
    apart h.head hhead, apart h.last hlast⟩

/-! ### Digits in a radix -/

namespace RadixLiteral

/-- A character is the digit of a value, in either case. -/
def IsDigit (c : Char) (d : Nat) : Prop := c = Nat.digitChar d ∨ c = (Nat.digitChar d).toUpper

/-- A text consists of digits of a radix that have these values. -/
def Spells (radix : Nat) : List Char → List Nat → Prop :=
  List.Forall₂ fun c d => d < radix ∧ IsDigit c d

variable {radix : Nat}

instance (c : Char) (d : Nat) : Decidable (IsDigit c d) := inferInstanceAs (Decidable (_ ∨ _))

/-- The digits up to sixteen, from the first to the last character that is one. -/
theorem isDigit_table : ∀ n < 103, ∀ d ∈ digitValue? 16 (Char.ofNat n), IsDigit (Char.ofNat n) d := by
  decide +kernel

theorem digitValue?_table : ∀ d < 16, digitValue? 16 (Nat.digitChar d) = some d ∧
    digitValue? 16 (Nat.digitChar d).toUpper = some d := by
  decide +kernel

theorem digitValue?_of_le {c : Char} (h : 103 ≤ c.toNat) : digitValue? radix c = none := by
  unfold digitValue?
  dsimp only
  rw [if_neg (by omega), if_neg (by omega), if_neg (by omega)]
  rfl

/-- A digit in a radix is a hexadecimal one that is small enough. -/
theorem digitValue?_eq_filter (small : radix ≤ 16) (c : Char) :
    digitValue? radix c = (digitValue? 16 c).filter (· < radix) := by
  unfold digitValue?
  dsimp only
  rw [Option.filter_filter]
  congr 1
  funext d
  rw [Bool.eq_iff_iff]
  simp
  omega

theorem digitValue?_eq_some {c : Char} {d : Nat} (small : radix ≤ 16) :
    digitValue? radix c = some d ↔ d < radix ∧ IsDigit c d := by
  rw [digitValue?_eq_filter small, Option.filter_eq_some_iff, decide_eq_true_eq, and_comm]
  refine and_congr_right fun hd => ⟨fun value => ?_, ?_⟩
  · rcases Nat.lt_or_ge c.toNat 103 with hlt | hge
    · have hdigit := isDigit_table c.toNat hlt d
      rw [Char.ofNat_toNat] at hdigit
      exact hdigit value
    · rw [digitValue?_of_le hge] at value
      cases value
  · have values := digitValue?_table d (Nat.lt_of_lt_of_le hd small)
    rintro (rfl | rfl)
    · exact values.1
    · exact values.2

/-- All values are there if and only if each one is. -/
theorem mapM_eq_some_iff {α β : Type} {f : α → Option β} {s : List α} {t : List β} :
    s.mapM f = some t ↔ List.Forall₂ (fun a b => f a = some b) s t := by
  induction s generalizing t with
  | nil => cases t <;> simp
  | cons a s ih =>
      rw [List.mapM_cons]
      cases t with
      | nil => cases f a <;> cases s.mapM f <;> simp
      | cons b t =>
          rw [List.forall₂_cons, ← ih]
          cases f a <;> cases s.mapM f <;> simp

theorem ofChars?_eq_some {s : List Char} {ds : List Nat} (small : radix ≤ 16) :
    ofChars? radix s = some ds ↔ s ≠ [] ∧ Spells radix s ds := by
  unfold ofChars? Spells
  simp only [← digitValue?_eq_some small, ← mapM_eq_some_iff]
  cases s <;> simp

/-- The digits that a text spells are digits of the radix. -/
theorem Spells.lt {s : List Char} {ds : List Nat} (h : Spells radix s ds) :
    ∀ d ∈ ds, d < radix := by
  induction h with
  | nil => nofun
  | cons head tail ih => exact List.forall_mem_cons.mpr ⟨head.1, ih⟩

/-- One more digit gives a number. -/
theorem isNaN_step? {acc next : Binary64} {d : Nat} (hradix : 0 < radix) (small : radix ≤ 2 ^ 53)
    (hd : d < radix) (number : acc.isNaN = false) (step : step? radix acc d = some next) :
    next.isNaN = false := by
  have hr := Binary64.denotes_ofNat small
  have hdigit := Binary64.denotes_ofNat (Nat.le_trans (Nat.le_of_lt hd) small)
  have hzero : (Binary64.ofNat radix).isZero = false := by
    rw [hr.isZero, beq_eq_false_iff_ne]
    exact (Nat.mul_pos hradix Binary64.unitsPerOne_pos).ne'
  have hnext := Binary64.isNaN_add (Binary64.isNaN_mul number hr.notNaN hr.notInfinite hzero)
    hdigit.notNaN hdigit.notInfinite
  unfold step? at step
  dsimp only at step
  split at step
  · exact Option.some.inj step ▸ hnext
  · split at step
    · cases step
    · exact Option.some.inj step ▸ hnext

theorem isNaN_valueFrom (hradix : 0 < radix) (small : radix ≤ 2 ^ 53) {ds : List Nat}
    (digits : ∀ d ∈ ds, d < radix) {acc : Binary64} (number : acc.isNaN = false) :
    (valueFrom radix acc ds).isNaN = false := by
  induction ds generalizing acc with
  | nil => exact number
  | cons d ds ih =>
      obtain ⟨hd, hds⟩ := List.forall_mem_cons.mp digits
      rw [valueFrom]
      cases step : step? radix acc d with
      | none => exact Binary64.isNaN_infinity false
      | some next => exact ih hds (isNaN_step? hradix small hd number step)

theorem Spells.isDigit {s : List Char} {ds : List Nat} (h : Spells radix s ds) :
    ∀ c ∈ s, ∃ d < radix, IsDigit c d := by
  induction h with
  | nil => nofun
  | cons head tail ih => exact List.forall_mem_cons.mpr ⟨⟨_, head⟩, ih⟩

end RadixLiteral

namespace Numeral

/-! ### Numerals -/

/-- The letters that announce a radix. -/
def radixMarks : List (Char × Nat) :=
  [('x', 16), ('X', 16), ('o', 8), ('O', 8), ('b', 2), ('B', 2)]

/-- The grammar of numeric strings, blanks apart. -/
inductive IsNumeral : List Char → Prop where
  | empty : IsNumeral []
  | infinity (sign : DecimalLiteral.WrittenSign) : IsNumeral (sign.text ++ "Infinity".toList)
  | radix {mark : Char} {radix : Nat} {digits : List Char} {ds : List Nat}
      (announces : (mark, radix) ∈ radixMarks) (nonempty : digits ≠ [])
      (spells : RadixLiteral.Spells radix digits ds) : IsNumeral ('0' :: mark :: digits)
  | decimal (p : DecimalLiteral.Spelling) (valid : p.Valid) : IsNumeral p.text

variable {s : List Char}

theorem radixMarks_bounds : ∀ m ∈ radixMarks, 0 < m.2 ∧ m.2 ≤ 16 := by decide

theorem splitRadix?_eq_some {radix : Nat} {rest : List Char} :
    splitRadix? s = some (radix, rest) ↔
      ∃ mark, (mark, radix) ∈ radixMarks ∧ s = '0' :: mark :: rest := by
  constructor
  · intro split
    unfold splitRadix? at split
    split at split
    · rename_i mark rest'
      refine ⟨mark, ?_⟩
      split at split
      · rename_i hmark
        cases split
        rcases hmark with rfl | rfl <;> exact ⟨by decide, rfl⟩
      · split at split
        · rename_i hmark
          cases split
          rcases hmark with rfl | rfl <;> exact ⟨by decide, rfl⟩
        · split at split
          · rename_i hmark
            cases split
            rcases hmark with rfl | rfl <;> exact ⟨by decide, rfl⟩
          · cases split
    · cases split
  · rintro ⟨mark, announces, rfl⟩
    have split : ∀ m ∈ radixMarks, splitRadix? ('0' :: m.1 :: rest) = some (m.2, rest) := by
      simp only [radixMarks, List.forall_mem_cons]
      exact ⟨rfl, rfl, rfl, rfl, rfl, rfl, nofun⟩
    exact split (mark, radix) announces

/-- What announces a radix is no decimal literal. -/
theorem ofChars?_of_splitRadix? {r : Nat × List Char} (split : splitRadix? s = some r) :
    DecimalLiteral.ofChars? s = none := by
  obtain ⟨radix, rest⟩ := r
  obtain ⟨mark, announces, rfl⟩ := splitRadix?_eq_some.mp split
  have unread : ∀ m ∈ radixMarks, DecimalLiteral.ofChars? ('0' :: m.1 :: rest) = none := by
    simp only [radixMarks, List.forall_mem_cons]
    exact ⟨rfl, rfl, rfl, rfl, rfl, rfl, nofun⟩
  exact unread (mark, radix) announces

/-- What follows the letter that announces a radix starts two bytes into the text. -/
theorem utf8ByteSize_of_splitRadix? {radix : Nat} {rest : List Char}
    (split : splitRadix? s = some (radix, rest)) :
    ∃ front, s = front ++ rest ∧ (String.ofList front).utf8ByteSize = 2 := by
  obtain ⟨mark, announces, rfl⟩ := splitRadix?_eq_some.mp split
  have size : ∀ m ∈ radixMarks, (String.ofList ['0', m.1]).utf8ByteSize = 2 := by
    simp only [radixMarks, List.forall_mem_cons]
    exact ⟨rfl, rfl, rfl, rfl, rfl, rfl, nofun⟩
  exact ⟨['0', mark], rfl, size (mark, radix) announces⟩

/-! ### Reading a numeral -/

theorem infinities (sign : DecimalLiteral.WrittenSign) :
    (ofTrimmed? (sign.text ++ "Infinity".toList)).isSome = true := by
  cases sign <;> rfl

theorem ofTrimmed?_radix {mark : Char} {radix : Nat} {digits : List Char} {ds : List Nat}
    (announces : (mark, radix) ∈ radixMarks) (nonempty : digits ≠ [])
    (spells : RadixLiteral.Spells radix digits ds) :
    ofTrimmed? ('0' :: mark :: digits) = some (RadixLiteral.value radix ds) := by
  have split : splitRadix? ('0' :: mark :: digits) = some (radix, digits) :=
    splitRadix?_eq_some.mpr ⟨mark, announces, rfl⟩
  have read := (RadixLiteral.ofChars?_eq_some (radixMarks_bounds _ announces).2).mpr
    ⟨nonempty, spells⟩
  unfold ofTrimmed?
  rw [split]
  simp [read]

theorem ofTrimmed?_text {p : DecimalLiteral.Spelling} (valid : p.Valid) :
    ofTrimmed? p.text = some p.literal.value := by
  have read := DecimalLiteral.Spelling.ofChars?_text valid
  -- An empty text, the infinities and what announces a radix are no decimal literals.
  have nonempty : p.text ≠ [] := by
    intro empty
    rw [empty] at read
    cases read
  have positive : ¬(p.text = "Infinity".toList ∨ p.text = "+Infinity".toList) := by
    rintro (word | word) <;> rw [word] at read <;> cases read
  have negative : p.text ≠ "-Infinity".toList := by
    intro word
    rw [word] at read
    cases read
  have plain : splitRadix? p.text = none := by
    cases split : splitRadix? p.text with
    | none => rfl
    | some r =>
        rw [ofChars?_of_splitRadix? split] at read
        cases read
  rw [ofTrimmed?, if_neg (by simpa using nonempty), if_neg positive, if_neg negative, plain, read]
  rfl

/-- The texts that are read as something are the numerals. -/
theorem isSome_ofTrimmed?_iff : (ofTrimmed? s).isSome = true ↔ IsNumeral s := by
  constructor
  · intro read
    unfold ofTrimmed? at read
    split at read
    · rename_i empty
      exact List.isEmpty_iff.mp empty ▸ .empty
    · split at read
      · rename_i positive
        rcases positive with rfl | rfl
        · exact .infinity .absent
        · exact .infinity .plus
      · split at read
        · rename_i negative
          exact negative ▸ .infinity .minus
        · split at read
          · rename_i radix rest split
            obtain ⟨mark, announces, rfl⟩ := splitRadix?_eq_some.mp split
            rw [Option.isSome_map] at read
            obtain ⟨ds, read⟩ := Option.isSome_iff_exists.mp read
            obtain ⟨nonempty, spells⟩ :=
              (RadixLiteral.ofChars?_eq_some (radixMarks_bounds _ announces).2).mp read
            exact .radix announces nonempty spells
          · rw [Option.isSome_map] at read
            obtain ⟨p, valid, rfl⟩ := DecimalLiteral.isSome_ofChars?_iff.mp read
            exact .decimal p valid
  · intro numeral
    cases numeral with
    | empty => rfl
    | infinity sign => exact infinities sign
    | radix announces nonempty spells =>
        rw [ofTrimmed?_radix announces nonempty spells]
        rfl
    | decimal p valid =>
        rw [ofTrimmed?_text valid]
        rfl

/-- What is read is a number. -/
theorem isNaN_ofTrimmed? {x : Binary64} (read : ofTrimmed? s = some x) : x.isNaN = false := by
  unfold ofTrimmed? at read
  split at read
  · exact Option.some.inj read ▸ Binary64.isNaN_zero false
  · split at read
    · exact Option.some.inj read ▸ Binary64.isNaN_infinity false
    · split at read
      · exact Option.some.inj read ▸ Binary64.isNaN_infinity true
      · split at read
        · rename_i radix rest split
          obtain ⟨mark, announces, rfl⟩ := splitRadix?_eq_some.mp split
          obtain ⟨hradix, small⟩ := radixMarks_bounds _ announces
          obtain ⟨ds, digits, rfl⟩ := Option.map_eq_some_iff.mp read
          exact RadixLiteral.isNaN_valueFrom hradix (Nat.le_trans small (by decide))
            ((RadixLiteral.ofChars?_eq_some small).mp digits).2.lt (Binary64.isNaN_zero false)
        · obtain ⟨l, -, rfl⟩ := Option.map_eq_some_iff.mp read
          exact l.isNaN_value

/-- A text is read as a number if and only if it is a numeral without its blanks. -/
theorem isNaN_read_iff (s : String) :
    (read s).isNaN = false ↔ IsNumeral (trimBlanks s.toList) := by
  rw [← isSome_ofTrimmed?_iff, read]
  cases h : ofTrimmed? (trimBlanks s.toList) with
  | none => simp [show Binary64.nan.isNaN = true from rfl]
  | some x => simp [isNaN_ofTrimmed? h]

/-- **Numeric strings.** A text that neither starts nor ends with the control character *next line*,
blanks apart, is read as a number if and only if it is a numeral without its blanks. In general that
character is stripped like a blank. The digits behind a radix start two bytes into the text, where a
character starts. -/
theorem numeric_strings (s : String) :
    (∀ t, Stripped isScriptBlank s.toList t → t.head? ≠ some nextLine →
      t.getLast? ≠ some nextLine → ((read s).isNaN = false ↔ IsNumeral t)) ∧
    (∀ t, Stripped (fun c => isScriptBlank c || c == nextLine) s.toList t →
      ((read s).isNaN = false ↔ IsNumeral t)) ∧
    ∀ radix rest, splitRadix? (trimBlanks s.toList) = some (radix, rest) →
      ∃ front, trimBlanks s.toList = front ++ rest ∧ (String.ofList front).utf8ByteSize = 2 := by
  refine ⟨fun t stripped hhead hlast => ?_, fun t stripped => ?_,
    fun radix rest => utf8ByteSize_of_splitRadix?⟩
  · rw [isNaN_read_iff, (stripped.isBlank hhead hlast).trimBlanks_eq]
  · have stripped : Stripped isBlank s.toList t := by rwa [funext isBlank_eq]
    rw [isNaN_read_iff, stripped.trimBlanks_eq]

/-- A fraction without a whole part between a tab and a byte order mark. -/
theorem numeric_strings_on_padded :
    Stripped isScriptBlank "\t-.5e1\ufeff".toList "-.5e1".toList ∧
      (read "\t-.5e1\ufeff").isNaN = false := by
  have stripped : Stripped isScriptBlank "\t-.5e1\ufeff".toList "-.5e1".toList :=
    stripped_iff.mpr (by decide)
  have numeral : IsNumeral "-.5e1".toList :=
    .decimal ⟨.minus, [], some ['5'], some ⟨'e', .absent, ['1']⟩⟩
      ⟨nofun, by decide, by decide, by decide, by decide⟩
  exact ⟨stripped, ((numeric_strings _).1 _ stripped (by decide) (by decide)).mpr numeral⟩

/-- The control character *next line* is no blank of the grammar, but it is stripped. -/
theorem next_line_is_stripped :
    Stripped isScriptBlank "\u00855".toList "\u00855".toList ∧ ¬IsNumeral "\u00855".toList ∧
      (read "\u00855").isNaN = false := by
  refine ⟨stripped_iff.mpr (by decide), ?_, by decide +kernel⟩
  rw [← isSome_ofTrimmed?_iff]
  decide

end Numeral

end ScriptCore
