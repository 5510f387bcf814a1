import ScriptCore.Proofs.Text.Forms

/-!
# ScriptCore.Proofs.Text.Utf8

Texts compare **as their UTF-8 bytes do**.

The bytes of two characters differ at some place, and the first such place decides as the characters
do (`precedes_utf8EncodeChar`). So what follows the first character that differs does not matter.
-/

namespace ScriptCore.Text

/-- Where two sequences of bytes differ first, the one has the smaller byte. -/
inductive Precedes : List UInt8 → List UInt8 → Prop where
  | here {a b : UInt8} {s t : List UInt8} (lt : a < b) : Precedes (a :: s) (b :: t)
  | there {a : UInt8} {s t : List UInt8} (rest : Precedes s t) : Precedes (a :: s) (a :: t)

/-- What follows does not matter. -/
theorem Precedes.lt_append {s t : List UInt8} (h : Precedes s t) (u v : List UInt8) :
    s ++ u < t ++ v := by
  induction h with
  | here lt => exact List.Lex.rel lt
  | there rest ih => exact List.Lex.cons ih

/-- Bytes that are written as numbers. -/
theorem precedes_ofNat {m n : Nat} {s t : List UInt8} (hm : m < 256) (hn : n < 256) (le : m ≤ n)
    (rest : m = n → Precedes s t) : Precedes (UInt8.ofNat m :: s) (UInt8.ofNat n :: t) := by
  rcases Nat.lt_or_eq_of_le le with hlt | rfl
  · refine .here (UInt8.lt_iff_toNat_lt.mpr ?_)
    rwa [UInt8.toNat_ofNat_of_lt' hm, UInt8.toNat_ofNat_of_lt' hn]
  · exact .there (rest rfl)

/-- The bytes of characters compare as the characters do. -/
theorem precedes_utf8EncodeChar {c d : Char} (lt : c < d) :
    Precedes (String.utf8EncodeChar c) (String.utf8EncodeChar d) := by
  have hlt : c.val.toNat < d.val.toNat := lt
  have hvalid : d.val.toNat < 0x110000 := by
    have := d.valid
    simp only [UInt32.isValidChar, Nat.isValidChar] at this
    omega
  unfold String.utf8EncodeChar
  generalize c.val.toNat = m at hlt
  generalize d.val.toNat = n at hlt hvalid
  dsimp only
  split
  · split
    · exact precedes_ofNat (by omega) (by omega) (by omega) (by omega)
    · split
      · exact precedes_ofNat (by omega) (by omega) (by omega) (by omega)
      · split <;> exact precedes_ofNat (by omega) (by omega) (by omega) (by omega)
  · rw [if_neg (show ¬n ≤ 127 by omega)]
    split
    · split
      · refine precedes_ofNat (by omega) (by omega) (by omega) fun _ => ?_
        exact precedes_ofNat (by omega) (by omega) (by omega) (by omega)
      · split <;> exact precedes_ofNat (by omega) (by omega) (by omega) (by omega)
    · rw [if_neg (show ¬n ≤ 2047 by omega)]
      split
      · split
        · refine precedes_ofNat (by omega) (by omega) (by omega) fun _ => ?_
          refine precedes_ofNat (by omega) (by omega) (by omega) fun _ => ?_
          exact precedes_ofNat (by omega) (by omega) (by omega) (by omega)
        · exact precedes_ofNat (by omega) (by omega) (by omega) (by omega)
      · rw [if_neg (show ¬n ≤ 65535 by omega)]
        refine precedes_ofNat (by omega) (by omega) (by omega) fun _ => ?_
        refine precedes_ofNat (by omega) (by omega) (by omega) fun _ => ?_
        refine precedes_ofNat (by omega) (by omega) (by omega) fun _ => ?_
        exact precedes_ofNat (by omega) (by omega) (by omega) (by omega)

/-- The first byte of a character is its number, or belongs to no seven-bit character. -/
theorem utf8EncodeChar_eq_cons (c : Char) : ∃ b u, String.utf8EncodeChar c = b :: u ∧
    min b.toNat 0x80 = min c.toNat 0x80 ∧ (c.toNat < 0x80 → u = []) := by
  by_cases small : c.toNat < 0x80
  · refine ⟨_, [], utf8EncodeChar_of_lt small, ?_, fun _ => rfl⟩
    rw [UInt8.toNat_ofNat_of_lt' (by unfold UInt8.size; omega)]
  · have lead : ∀ n : Nat, 0x80 ≤ n → n < 256 →
        min (UInt8.ofNat n).toNat 0x80 = min c.toNat 0x80 := by
      intro n lower upper
      rw [UInt8.toNat_ofNat_of_lt' upper]
      omega
    unfold String.utf8EncodeChar
    simp only [if_neg (show ¬c.val.toNat ≤ 127 from fun h => small (Nat.lt_succ_of_le h))]
    split
    · exact ⟨_, _, rfl, lead _ (by omega) (by omega), fun h => absurd h small⟩
    · split <;> exact ⟨_, _, rfl, lead _ (by omega) (by omega), fun h => absurd h small⟩

theorem utf8Encode_lt {s t : List Char} (lt : s < t) :
    s.flatMap String.utf8EncodeChar < t.flatMap String.utf8EncodeChar := by
  have lex : List.Lex (· < ·) s t := lt
  clear lt
  induction lex with
  | @nil d t =>
      obtain ⟨b, u, hd, -⟩ := utf8EncodeChar_eq_cons d
      rw [List.flatMap_cons, hd]
      exact List.Lex.nil
  | rel lt => exact (precedes_utf8EncodeChar lt).lt_append _ _
  | cons rest ih => exact List.append_left_lt ih

/-- A text is smaller than another one if its bytes are. -/
theorem bytes_lt {s t : String} (lt : s < t) : bytes s < bytes t := by
  rw [bytes_eq, bytes_eq]
  exact utf8Encode_lt lt

end ScriptCore.Text
