import ScriptCore.Numeral.Scan
import ScriptCore.Proofs.Numeral.Spelling
import ScriptCore.Proofs.Text.Utf8

/-!
# ScriptCore.Proofs.Numeral.Scan

An index into the bytes of a text **finds the decimal literals**, and never runs past the end.

Design points:

* The grammar (`IsDecimalLiteral`) is said of characters and reads nothing. It has the same texts as
  there are spellings (`isDecimalLiteral_iff`).
* Bytes come in by one relation: the index `Stands` in front of the characters that are left. A
  literal has seven-bit characters only, and a byte that is one of those is never part of another
  character. So what a byte says is what the next character says (`Stands.sees_cons`).
* Each part of the scan has one lemma: it does not run past the end, and leaves the characters that
  reading the part from a list leaves.
-/

namespace ScriptCore

open DecimalLiteral

/-! ### The grammar -/

/-- Digits, with a point among them or at an end, or none. -/
inductive IsMantissa : List Char → Prop where
  | whole {ds : List Char} (digits : Digits ds) (nonempty : ds ≠ []) : IsMantissa ds
  | pointed {ds fs : List Char} (digits : Digits ds) (nonempty : ds ≠ []) (fraction : Digits fs) :
      IsMantissa (ds ++ '.' :: fs)
  | bare {fs : List Char} (fraction : Digits fs) (nonempty : fs ≠ []) : IsMantissa ('.' :: fs)

/-- Nothing, or a mark and an integer. -/
inductive IsExponent : List Char → Prop where
  | absent : IsExponent []
  | written {mark : Char} {ds : List Char} (begins : mark = 'e' ∨ mark = 'E') (sign : WrittenSign)
      (digits : Digits ds) (nonempty : ds ≠ []) : IsExponent (mark :: (sign.text ++ ds))

/-- A decimal literal: a sign or none, a mantissa and an exponent or none. -/
inductive IsDecimalLiteral : List Char → Prop where
  | parts {m e : List Char} (sign : WrittenSign) (mantissa : IsMantissa m)
      (exponent : IsExponent e) : IsDecimalLiteral (sign.text ++ m ++ e)

theorem isMantissa_iff {m : List Char} :
    IsMantissa m ↔ ∃ (whole : List Char) (fraction : Option (List Char)),
      m = whole ++ fraction.elim [] ('.' :: ·) ∧ Digits whole ∧ (∀ f ∈ fraction, Digits f) ∧
        whole ++ fraction.getD [] ≠ [] := by
  constructor
  · rintro (⟨digits, nonempty⟩ | ⟨digits, nonempty, fraction⟩ | ⟨fraction, nonempty⟩)
    · exact ⟨m, none, by simp, digits, nofun, by simpa using nonempty⟩
    · exact ⟨_, some _, rfl, digits, by simpa using fraction, by simp [nonempty]⟩
    · exact ⟨[], some _, rfl, nofun, by simpa using fraction, nonempty⟩
  · rintro ⟨whole, _ | f, rfl, digits, fraction, nonempty⟩
    · simp only [Option.elim_none, Option.getD_none, List.append_nil] at nonempty ⊢
      exact .whole digits nonempty
    · have hf : Digits f := fraction f rfl
      cases whole with
      | nil => exact .bare hf nonempty
      | cons c ds => exact .pointed digits (List.cons_ne_nil c ds) hf

theorem isExponent_iff {e : List Char} :
    IsExponent e ↔ ∃ written : Option WrittenExponent, e = written.elim [] WrittenExponent.text ∧
      ∀ w ∈ written, (w.mark = 'e' ∨ w.mark = 'E') ∧ Digits w.digits ∧ w.digits ≠ [] := by
  constructor
  · rintro (_ | ⟨begins, sign, digits, nonempty⟩)
    · exact ⟨none, rfl, nofun⟩
    · exact ⟨some ⟨_, sign, _⟩, rfl, by simpa using ⟨begins, digits, nonempty⟩⟩
  · rintro ⟨_ | w, rfl, valid⟩
    · exact .absent
    · obtain ⟨begins, digits, nonempty⟩ := valid w rfl
      exact .written begins w.sign digits nonempty

/-- The literals of the grammar are the texts that are spelled as one. -/
theorem isDecimalLiteral_iff {s : List Char} :
    IsDecimalLiteral s ↔ ∃ p : Spelling, p.Valid ∧ p.text = s := by
  constructor
  · rintro ⟨sign, mantissa, exponent⟩
    obtain ⟨whole, fraction, rfl, digits, behind, nonempty⟩ := isMantissa_iff.mp mantissa
    obtain ⟨written, rfl, valid⟩ := isExponent_iff.mp exponent
    refine ⟨⟨sign, whole, fraction, written⟩, ⟨digits, behind, nonempty,
      fun e mem => (valid e mem).1, fun e mem => (valid e mem).2⟩, ?_⟩
    simp [Spelling.text, Spelling.fractionText, Spelling.exponentText]
  · rintro ⟨p, valid, rfl⟩
    have mantissa : IsMantissa (p.whole ++ p.fractionText) :=
      isMantissa_iff.mpr ⟨p.whole, p.fraction, rfl, valid.whole, valid.fraction, valid.mantissa⟩
    have exponent : IsExponent p.exponentText :=
      isExponent_iff.mpr ⟨p.exponent, rfl, fun e mem => ⟨valid.mark e mem, valid.exponent e mem⟩⟩
    rw [Spelling.text, List.append_assoc p.sign.text]
    exact .parts p.sign mantissa exponent

/-! ### Bytes and characters -/

namespace Numeral.Scan

variable {bytes : List UInt8} {p : UInt8 → Bool} {q : Char → Bool} {i : Nat} {c : Char}
  {cs : List Char}

/-- Bytes of the class are the characters of the other one, which have seven bits. -/
structure Agree (p : UInt8 → Bool) (q : Char → Bool) : Prop where
  same : ∀ (b : UInt8) (c : Char), min b.toNat 0x80 = min c.toNat 0x80 → p b = q c
  sevenBit : ∀ c, q c = true → c.toNat < 0x80

theorem char_beq (c d : Char) : (c == d) = (c.toNat == d.toNat) := by
  rw [Bool.eq_iff_iff, beq_iff_eq, beq_iff_eq, Char.toNat_inj]

/-- Classes agree that are the same numbers, none of which has an eighth bit. -/
theorem agree_of_number (k : Nat → Bool) (bytes : ∀ b : UInt8, p b = k b.toNat)
    (chars : ∀ c : Char, q c = k c.toNat) (small : ∀ n, k n = true → n < 0x80) : Agree p q := by
  refine ⟨fun b c lead => ?_, fun c inside => small _ (chars c ▸ inside)⟩
  rw [bytes, chars, Bool.eq_iff_iff]
  constructor
  · intro inside
    have := small _ inside
    rwa [show c.toNat = b.toNat by omega]
  · intro inside
    have := small _ inside
    rwa [show b.toNat = c.toNat by omega]

theorem agree_isDigit : Agree isDigit Char.isDigit :=
  agree_of_number (fun n => 48 ≤ n && n ≤ 57) (fun _ => rfl) (fun _ => rfl) fun n inside => by
    simp only [Bool.and_eq_true, decide_eq_true_eq] at inside
    omega

theorem agree_isSign : Agree isSign fun c => c == '+' || c == '-' :=
  agree_of_number (fun n => n == 43 || n == 45) (fun _ => rfl)
    (fun c => by rw [char_beq, char_beq]; rfl) fun n inside => by
      simp only [Bool.or_eq_true, beq_iff_eq] at inside
      omega

theorem agree_isPoint : Agree isPoint (· == '.') :=
  agree_of_number (· == 46) (fun _ => rfl) (fun c => char_beq c '.') fun n inside => by
    rw [beq_iff_eq] at inside
    omega

theorem agree_isMark : Agree isMark fun c => c == 'e' || c == 'E' :=
  agree_of_number (fun n => n == 101 || n == 69) (fun _ => rfl)
    (fun c => by rw [char_beq, char_beq]; rfl) fun n inside => by
      simp only [Bool.or_eq_true, beq_iff_eq] at inside
      omega

/-- The index stands in front of the characters. -/
structure Stands (bytes : List UInt8) (i : Nat) (cs : List Char) : Prop where
  le : i ≤ bytes.length
  ahead : bytes.drop i = cs.flatMap String.utf8EncodeChar

theorem stands_start (s : String) : Stands (Text.bytes s) 0 s.toList :=
  ⟨Nat.zero_le _, Text.bytes_eq s⟩

/-- At the end no byte is ahead. -/
theorem Stands.sees_nil (h : Stands bytes i []) : sees bytes p i = false := by
  rw [sees, ← List.head?_drop, h.ahead]
  rfl

/-- The byte ahead belongs to a class if the character ahead does. -/
theorem Stands.sees_cons (h : Stands bytes i (c :: cs)) (agree : Agree p q) :
    sees bytes p i = q c := by
  obtain ⟨b, u, encoded, lead, -⟩ := Text.utf8EncodeChar_eq_cons c
  rw [sees, ← List.head?_drop, h.ahead, List.flatMap_cons, encoded]
  exact agree.same b c lead

/-- A seven-bit character is one byte, so the index moves behind it. -/
theorem Stands.advance (h : Stands bytes i (c :: cs)) (small : c.toNat < 0x80) :
    advance bytes i = .ok (i + 1) ∧ Stands bytes (i + 1) cs := by
  obtain ⟨b, u, encoded, -, alone⟩ := Text.utf8EncodeChar_eq_cons c
  have ahead : bytes.drop i = b :: cs.flatMap String.utf8EncodeChar := by
    rw [h.ahead, List.flatMap_cons, encoded, alone small]
    rfl
  have room : i < bytes.length := by
    rw [← Nat.not_le, ← List.drop_eq_nil_iff, ahead]
    exact List.cons_ne_nil _ _
  refine ⟨advance_eq_ok_iff.mpr ⟨room, rfl⟩, room, ?_⟩
  rw [← List.tail_drop, ahead, List.tail_cons]

/-- The index is at the end if no characters are left. -/
theorem Stands.atEnd (h : Stands bytes i cs) : (i == bytes.length) = cs.isEmpty := by
  have ends : i = bytes.length ↔ bytes.drop i = [] := by
    rw [List.drop_eq_nil_iff]
    exact ⟨fun same => Nat.le_of_eq same.symm, Nat.le_antisymm h.le⟩
  rw [Bool.eq_iff_iff, beq_iff_eq, ends, h.ahead, List.isEmpty_iff]
  cases cs with
  | nil => exact ⟨fun _ => rfl, fun _ => rfl⟩
  | cons c cs =>
      obtain ⟨b, u, encoded, -⟩ := Text.utf8EncodeChar_eq_cons c
      rw [List.flatMap_cons, encoded]
      exact ⟨nofun, nofun⟩

/-! ### The parts of the scan -/

theorem skipSign_spec (h : Stands bytes i cs) :
    ∃ j, skipSign bytes i = .ok j ∧ Stands bytes j (splitSign cs).2 := by
  cases cs with
  | nil =>
      rw [skipSign, h.sees_nil]
      exact ⟨i, rfl, h⟩
  | cons c cs =>
      rw [skipSign, h.sees_cons agree_isSign]
      by_cases sign : (c == '+' || c == '-') = true
      · obtain ⟨moved, behind⟩ := h.advance (agree_isSign.sevenBit c sign)
        rw [if_pos sign, moved]
        refine ⟨i + 1, rfl, ?_⟩
        rw [Bool.or_eq_true, beq_iff_eq, beq_iff_eq] at sign
        rcases sign with rfl | rfl <;> exact behind
      · rw [if_neg sign]
        refine ⟨i, rfl, ?_⟩
        rw [Bool.or_eq_true, beq_iff_eq, beq_iff_eq, not_or] at sign
        have bare : splitSign (c :: cs) = (false, c :: cs) := by simp [splitSign, sign]
        rwa [bare]

/-- The digits are skipped one by one, and none else. -/
theorem skipDigits_spec (h : Stands bytes i cs) :
    skipDigits bytes i = .ok (i + (splitDigits cs).1.length) ∧
      Stands bytes (i + (splitDigits cs).1.length) (splitDigits cs).2 := by
  induction cs generalizing i with
  | nil =>
      rw [skipDigits_eq, h.sees_nil]
      exact ⟨rfl, h⟩
  | cons c cs ih =>
      rw [skipDigits_eq, h.sees_cons agree_isDigit]
      by_cases digit : c.isDigit = true
      · obtain ⟨moved, behind⟩ := h.advance (agree_isDigit.sevenBit c digit)
        have split : splitDigits (c :: cs) = (c :: (splitDigits cs).1, (splitDigits cs).2) := by
          simp [splitDigits, digit]
        have count : i + ((splitDigits cs).1.length + 1) = i + 1 + (splitDigits cs).1.length := by
          omega
        rw [if_pos digit, moved, split, List.length_cons, count]
        exact ih behind
      · have split : splitDigits (c :: cs) = ([], c :: cs) := by simp [splitDigits, digit]
        rw [if_neg digit, split]
        exact ⟨rfl, h⟩

/-- The digits on either side of the point are counted together. -/
theorem skipMantissa_spec {whole rest fraction tail : List Char} (h : Stands bytes i cs)
    (first : splitDigits cs = (whole, rest)) (second : splitFraction rest = (fraction, tail)) :
    ∃ j, skipMantissa bytes i = .ok (j, whole.length + fraction.length) ∧
      Stands bytes j tail := by
  obtain ⟨moved, behind⟩ := skipDigits_spec h
  rw [first] at moved behind
  dsimp only at moved behind
  simp only [skipMantissa, moved, bind, Except.bind]
  cases rest with
  | nil =>
      cases second
      refine ⟨_, ?_, behind⟩
      simp [behind.sees_nil, pure, Except.pure]
  | cons c rest =>
      rw [behind.sees_cons agree_isPoint]
      by_cases point : c = '.'
      · subst point
        obtain ⟨passed, inside⟩ := behind.advance (by decide)
        obtain ⟨more, last⟩ := skipDigits_spec inside
        rw [show splitDigits rest = (fraction, tail) from second] at more last
        dsimp only at more last
        refine ⟨_, ?_, last⟩
        simp [passed, more, pure, Except.pure]
      · have none : splitFraction (c :: rest) = ([], c :: rest) := by
          simp [splitFraction, point]
        rw [none] at second
        cases second
        refine ⟨_, ?_, behind⟩
        simp [point, pure, Except.pure]

/-- The exponent is skipped up to the end exactly if one is read. -/
theorem skipExponent_spec (h : Stands bytes i cs) :
    ∃ r, skipExponent bytes i = .ok r ∧ r.any (· == bytes.length) = (exponent? cs).isSome := by
  cases cs with
  | nil =>
      rw [skipExponent, h.sees_nil]
      exact ⟨some i, rfl, h.atEnd⟩
  | cons c cs =>
      have begins : (c == 'e' || c == 'E') = true ↔ c = 'e' ∨ c = 'E' := by simp
      rw [skipExponent, h.sees_cons agree_isMark]
      by_cases mark : c = 'e' ∨ c = 'E'
      · obtain ⟨passed, after⟩ := h.advance (agree_isMark.sevenBit c (begins.mpr mark))
        obtain ⟨j, signed, digits⟩ := skipSign_spec after
        obtain ⟨moved, last⟩ := skipDigits_spec digits
        rw [if_pos (begins.mpr mark), passed]
        simp only [bind, Except.bind, signed, moved]
        refine ⟨_, rfl, ?_⟩
        rw [exponent?, if_pos mark]
        dsimp only
        generalize (splitDigits (splitSign cs).2).1 = ds at last
        generalize (splitDigits (splitSign cs).2).2 = left at last
        cases ds with
        | nil => simp
        | cons d ds =>
            have moves : j + (d :: ds).length ≠ j := by simp
            rw [if_neg moves, Option.any_some, last.atEnd]
            cases left <;> rfl
      · rw [if_neg (begins.not.mpr mark), exponent?, if_neg mark]
        exact ⟨some i, rfl, h.atEnd⟩

/-- The scan does not run past the end, and finds what is read as a literal. -/
theorem isDecimal_eq (s : String) : isDecimal s = .ok (ofChars? s.toList).isSome := by
  obtain ⟨start, signed, body⟩ := skipSign_spec (stands_start s)
  cases first : splitDigits (splitSign s.toList).2 with
  | mk whole rest =>
  cases second : splitFraction rest with
  | mk fraction tail =>
  obtain ⟨stop, counted, behind⟩ := skipMantissa_spec body first second
  obtain ⟨r, moved, ends⟩ := skipExponent_spec behind
  simp only [isDecimal, signed, counted, moved, bind, Except.bind]
  have empty : (whole.isEmpty && fraction.isEmpty) = true ↔ whole.length + fraction.length = 0 := by
    simp
  simp only [ofChars?, first, second, empty]
  by_cases none : whole.length + fraction.length = 0
  · rw [if_pos none, if_pos none]
    rfl
  · rw [if_neg none, if_neg none, Option.isSome_map, ← ends]
    cases r <;> rfl

end Numeral.Scan

open Numeral.Scan in
/-- The texts that the scan accepts are the decimal literals, and those that are read as one. In no
text, whatever its characters are, does the index run past the last byte. -/
theorem scan_finds_literals (s : String) :
    ∃ found, isDecimal s = .ok found ∧ (found = true ↔ IsDecimalLiteral s.toList) ∧
      found = (ofChars? s.toList).isSome :=
  ⟨_, isDecimal_eq s, isSome_ofChars?_iff.trans isDecimalLiteral_iff.symm, rfl⟩

end ScriptCore
