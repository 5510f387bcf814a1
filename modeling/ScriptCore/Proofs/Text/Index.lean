import ScriptCore.Proofs.Text.Forms

/-!
# ScriptCore.Proofs.Text.Index

The strings that name an **array index** are the ones that the index is written as.

Reading goes from the first digit on and writing from the last one. What is read is written again by
induction on what is left to read: the digits read so far are those of the number that they make. What
is written is read again by induction on the number, a digit at the end at a time.
-/

namespace ScriptCore.Text

variable {t : Text} {i : Nat}

theorem units_ofIndex (i : Nat) : (ofIndex i).units = Utf16.encode (Nat.toDigits 10 i) := by
  rw [ofIndex, units_ofString, String.toList_ofList]

theorem encode_digitChar {u : UInt16} {d : Nat} (h : digit? u = some d) :
    d < 10 ∧ Utf16.encode [d.digitChar] = [u] := by
  unfold digit? at h
  split at h
  · rename_i range
    cases h
    have hd : u.toNat - 48 < 10 := by omega
    have hchar : (Nat.digitChar (u.toNat - 48)).toNat = u.toNat := by
      rw [Nat.toNat_digitChar_of_lt_ten hd]
      omega
    refine ⟨hd, ?_⟩
    rw [Utf16.encode_of_sevenBit (by simp [hchar]; omega)]
    simp [hchar]
  · cases h

/-- What is read after a number that is not zero is written behind it. -/
theorem encode_toDigits_of_extendIndex? {n : Nat} {us : List UInt16} (hn : 0 < n)
    (h : extendIndex? n us = some i) :
    Utf16.encode (Nat.toDigits 10 i) = Utf16.encode (Nat.toDigits 10 n) ++ us := by
  induction us generalizing n with
  | nil =>
      cases h
      rw [List.append_nil]
  | cons u us ih =>
      rw [extendIndex?] at h
      obtain ⟨d, hdigit, h⟩ := Option.bind_eq_some_iff.mp h
      obtain ⟨hd, hunit⟩ := encode_digitChar hdigit
      split at h
      · rw [ih (by omega) h, ← Nat.toDigits_append_toDigits (by decide) hn hd,
          Nat.toDigits_of_lt_base hd, Utf16.encode_append, hunit, List.append_assoc,
          List.singleton_append]
      · cases h

theorem lt_of_extendIndex? {us : List UInt16} {n : Nat} (hn : n < indexLimit)
    (h : extendIndex? n us = some i) : i < indexLimit := by
  induction us generalizing n with
  | nil =>
      cases h
      exact hn
  | cons u us ih =>
      rw [extendIndex?] at h
      obtain ⟨d, -, h⟩ := Option.bind_eq_some_iff.mp h
      split at h
      · rename_i small
        exact ih small h
      · cases h

theorem lt_indexLimit (h : t.arrayIndex? = some i) : i < indexLimit := by
  unfold arrayIndex? at h
  split at h
  · cases h
  · obtain ⟨d, hdigit, h⟩ := Option.bind_eq_some_iff.mp h
    have hd : d < indexLimit := Nat.lt_trans (encode_digitChar hdigit).1 (by decide)
    split at h
    · split at h <;> cases h
      decide
    · exact lt_of_extendIndex? hd h

/-- A string that names an index is the index, written in decimal digits. -/
theorem units_of_arrayIndex? (h : t.arrayIndex? = some i) : t.units = (ofIndex i).units := by
  rw [units_ofIndex]
  unfold arrayIndex? at h
  split at h
  · cases h
  · rename_i u us hunits
    obtain ⟨d, hdigit, h⟩ := Option.bind_eq_some_iff.mp h
    obtain ⟨hd, hunit⟩ := encode_digitChar hdigit
    rw [hunits]
    by_cases hzero : d = 0
    · subst hzero
      cases us with
      | nil =>
          cases h
          exact hunit.symm
      | cons v us => cases h
    · rw [if_neg hzero] at h
      rw [encode_toDigits_of_extendIndex? (by omega) h, Nat.toDigits_of_lt_base hd, hunit,
        List.singleton_append]

/-! ### Writing, then reading -/

/-- A digit is written as one unit, which is read as the digit. -/
theorem encode_digit : ∀ d < 10, Utf16.encode [d.digitChar] = [UInt16.ofNat (48 + d)] ∧
    digit? (UInt16.ofNat (48 + d)) = some d := by
  decide

theorem extendIndex?_append (n : Nat) (us : List UInt16) (u : UInt16) :
    extendIndex? n (us ++ [u]) = (extendIndex? n us).bind (extendIndex? · [u]) := by
  induction us generalizing n with
  | nil => rfl
  | cons v us ih =>
      rw [List.cons_append, extendIndex?, extendIndex?, Option.bind_assoc]
      refine Option.bind_congr fun d _ => ?_
      split
      · exact ih _
      · rfl

/-- One more digit at the end of an index makes the index that it should. -/
theorem arrayIndex?_append {s : Text} {u : UInt16} {n d : Nat} (hs : s.arrayIndex? = some n)
    (pos : 0 < n) (units : t.units = s.units ++ [u]) (digit : digit? u = some d)
    (small : 10 * n + d < indexLimit) : t.arrayIndex? = some (10 * n + d) := by
  unfold arrayIndex? at hs ⊢
  rw [units]
  cases hunits : s.units with
  | nil =>
      rw [hunits] at hs
      cases hs
  | cons v vs =>
      rw [hunits] at hs
      obtain ⟨e, first, rest⟩ := Option.bind_eq_some_iff.mp hs
      rw [List.cons_append]
      dsimp only
      rw [first, Option.bind_some]
      by_cases zero : e = 0
      · rw [if_pos zero] at rest
        split at rest
        · cases rest
          exact absurd pos (Nat.lt_irrefl 0)
        · cases rest
      · rw [if_neg zero] at rest ⊢
        rw [extendIndex?_append, rest, Option.bind_some, extendIndex?, digit, Option.bind_some,
          if_pos small, extendIndex?]

/-- An index is read from the string that it is written as. -/
theorem arrayIndex?_ofIndex (small : i < indexLimit) : (ofIndex i).arrayIndex? = some i := by
  induction i using Nat.strongRecOn with
  | ind i ih =>
      rcases Nat.lt_or_ge i 10 with digit | more
      · obtain ⟨written, read⟩ := encode_digit i digit
        have units : (ofIndex i).units = [UInt16.ofNat (48 + i)] := by
          rw [units_ofIndex, Nat.toDigits_of_lt_base digit, written]
        rw [arrayIndex?, units]
        dsimp only
        rw [read, Option.bind_some]
        by_cases zero : i = 0
        · rw [if_pos zero, zero]
          rfl
        · rw [if_neg zero, extendIndex?]
      · have last : i % 10 < 10 := Nat.mod_lt _ (by decide)
        have whole : 10 * (i / 10) + i % 10 = i := Nat.div_add_mod i 10
        obtain ⟨written, read⟩ := encode_digit (i % 10) last
        have units : (ofIndex i).units =
            (ofIndex (i / 10)).units ++ [UInt16.ofNat (48 + i % 10)] := by
          rw [units_ofIndex, units_ofIndex, ← written, ← Utf16.encode_append,
            ← Nat.toDigits_of_lt_base last,
            Nat.toDigits_append_toDigits (by decide) (by omega) last, whole]
        have front := ih (i / 10) (by omega) (by omega)
        have read := arrayIndex?_append front (by omega) units read (by rw [whole]; exact small)
        rwa [whole] at read

/-- No two strings name one index. -/
theorem arrayIndex?_inj {s : Text} (hs : s.arrayIndex? = some i) (ht : t.arrayIndex? = some i) :
    s.units = t.units :=
  (units_of_arrayIndex? hs).trans (units_of_arrayIndex? ht).symm

/-- The name `length` names no index. -/
theorem not_isText_length_of_arrayIndex? (h : t.arrayIndex? = some i) :
    t.isText "length" = false := by
  rw [Bool.eq_false_iff]
  intro same
  rw [isText_eq, beq_iff_eq, ← units_ofString] at same
  rw [(alike_of_units same).arrayIndex] at h
  cases h

end ScriptCore.Text
