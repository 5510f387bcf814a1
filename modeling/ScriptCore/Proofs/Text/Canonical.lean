import ScriptCore.Proofs.Text.Index

/-!
# ScriptCore.Proofs.Text.Canonical

The strings that name an array index, said **without reading them**.

Design points:

* `IsCanonical` says of code units and a number that the units are the one way to write the number:
  digits alone, no zero in front of another digit, and the number is what the digits come to.
* Reading gives up at the first digit that carries the number over the limit. More digits never
  make a number smaller (`le_digitSum`), so no string is turned away for what was read of it.
* The number is kept in a word, each step of which may run over (`indexInWord`). It stays below the
  limit in front of every digit, and ten times that is far from the end of a word.
-/

namespace ScriptCore.Text

variable {t : Text} {i n : Nat} {u : UInt16} {us : List UInt16}

/-! ### Canonical digits -/

/-- The unit is a decimal digit. -/
def IsDigit (u : UInt16) : Prop := 48 ≤ u.toNat ∧ u.toNat ≤ 57

instance (u : UInt16) : Decidable (IsDigit u) := inferInstanceAs (Decidable (_ ∧ _))

/-- The number that digits come to when they stand behind the digits of `n`. -/
def digitSum (n : Nat) (us : List UInt16) : Nat := us.foldl (fun n u => 10 * n + (u.toNat - 48)) n

/-- The units are the decimal digits of the number, as one writes it. -/
structure IsCanonical (us : List UInt16) (i : Nat) : Prop where
  nonempty : us ≠ []
  digits : ∀ u ∈ us, IsDigit u
  bare : us.head? = some 48 → us = [48]
  value : digitSum 0 us = i

theorem indexLimit_eq : indexLimit = 4294967295 := rfl

/-- More digits do not make a number smaller. -/
theorem le_digitSum (n : Nat) (us : List UInt16) : n ≤ digitSum n us := by
  induction us generalizing n with
  | nil => exact Nat.le_refl n
  | cons u us ih =>
      have step : n ≤ 10 * n + (u.toNat - 48) := by omega
      exact Nat.le_trans step (ih _)

theorem digit?_of_isDigit (h : IsDigit u) : digit? u = some (u.toNat - 48) := if_pos h

theorem digit?_of_not_isDigit (h : ¬IsDigit u) : digit? u = none := if_neg h

/-- Further units are read exactly if all are digits and the whole stays below the limit. -/
theorem extendIndex?_eq_some_iff (small : n < indexLimit) :
    extendIndex? n us = some i ↔ (∀ u ∈ us, IsDigit u) ∧ digitSum n us = i ∧ i < indexLimit := by
  induction us generalizing n with
  | nil =>
      rw [extendIndex?, Option.some_inj]
      constructor
      · rintro rfl
        exact ⟨List.forall_mem_nil _, rfl, small⟩
      · exact fun h => h.2.1
  | cons u us ih =>
      have sum : digitSum n (u :: us) = digitSum (10 * n + (u.toNat - 48)) us := rfl
      rw [extendIndex?, List.forall_mem_cons, sum]
      by_cases digit : IsDigit u
      · rw [digit?_of_isDigit digit, Option.bind_some]
        by_cases room : 10 * n + (u.toNat - 48) < indexLimit
        · rw [if_pos room, ih room]
          exact ⟨fun h => ⟨⟨digit, h.1⟩, h.2⟩, fun h => ⟨h.1.2, h.2⟩⟩
        · rw [if_neg room]
          constructor
          · intro read
            cases read
          · rintro ⟨-, rfl, below⟩
            exact absurd (Nat.lt_of_le_of_lt (le_digitSum _ us) below) room
      · rw [digit?_of_not_isDigit digit, Option.bind_none]
        constructor
        · intro read
          cases read
        · rintro ⟨⟨first, -⟩, -⟩
          exact absurd first digit

theorem isCanonical_zero_cons : IsCanonical (48 :: us) i ↔ us = [] ∧ i = 0 := by
  constructor
  · intro h
    obtain rfl : us = [] := (List.cons.inj (h.bare rfl)).2
    exact ⟨rfl, h.value.symm⟩
  · rintro ⟨rfl, rfl⟩
    have digits : ∀ u ∈ [(48 : UInt16)], IsDigit u := by simp [IsDigit]
    exact ⟨nofun, digits, fun _ => rfl, rfl⟩

theorem isCanonical_cons (digit : IsDigit u) (ne : u ≠ 48) :
    IsCanonical (u :: us) i ↔ (∀ v ∈ us, IsDigit v) ∧ digitSum (u.toNat - 48) us = i := by
  have sum : digitSum 0 (u :: us) = digitSum (u.toNat - 48) us := by simp [digitSum]
  constructor
  · intro h
    exact ⟨(List.forall_mem_cons.mp h.digits).2, sum ▸ h.value⟩
  · rintro ⟨digits, value⟩
    refine ⟨nofun, List.forall_mem_cons.mpr ⟨digit, digits⟩, fun head => ?_, sum.trans value⟩
    exact absurd (Option.some.inj head) ne

/-- A string names an index exactly if it is the canonical way to write it, below the limit. -/
theorem arrayIndex?_eq_some_iff :
    t.arrayIndex? = some i ↔ IsCanonical t.units i ∧ i < indexLimit := by
  unfold arrayIndex?
  cases t.units with
  | nil => exact ⟨nofun, fun h => absurd rfl h.1.nonempty⟩
  | cons u us =>
      dsimp only
      by_cases digit : IsDigit u
      · have bound := digit.2
        rw [digit?_of_isDigit digit, Option.bind_some]
        by_cases zero : u = 48
        · subst zero
          rw [if_pos (by decide), isCanonical_zero_cons]
          cases us with
          | nil =>
              have below : i = 0 → i < indexLimit := by
                rintro rfl
                decide
              simpa [eq_comm] using below
          | cons v us => simp
        · have pos : u.toNat - 48 ≠ 0 := by
            intro same
            have value : u.toNat = 48 := Nat.le_antisymm (Nat.le_of_sub_eq_zero same) digit.1
            exact zero (UInt16.toNat.inj value)
          have small : u.toNat - 48 < indexLimit := by
            rw [indexLimit_eq]
            omega
          rw [if_neg pos, extendIndex?_eq_some_iff small, isCanonical_cons digit zero, and_assoc]
      · rw [digit?_of_not_isDigit digit, Option.bind_none]
        exact ⟨nofun, fun h => absurd (h.1.digits u List.mem_cons_self) digit⟩

/-! ### Printing -/

/-- An index is named by the text that it is printed as. -/
theorem ofIndex_eq (i : Nat) : ofIndex i = ofString (ToString.toString i) := by
  rw [ofIndex, Nat.toString_eq_ofList_toDigits]

/-! ### Reading in a word -/

/-- The arithmetic of words has run over. -/
structure Overflow

/-- The word that holds a number. -/
def checked (n : Nat) : Except Overflow UInt64 :=
  if n < UInt64.size then .ok (.ofNat n) else .error ⟨⟩

theorem checked_eq_ok (h : n < UInt64.size) : checked n = .ok (.ofNat n) := if_pos h

/-- A number in a word with further digits behind it, while it stays below the limit. -/
def extendInWord (index : UInt64) : List UInt16 → Except Overflow (Option UInt64)
  | [] => .ok (some index)
  | u :: us => do
    let shifted ← checked (index.toNat * 10)
    match digit? u with
    | none => return none
    | some d =>
      let next ← checked (shifted.toNat + d)
      if 4294967295 ≤ next then return none else extendInWord next us

/-- The array index that code units name, read in a word. -/
def indexInWord : List UInt16 → Except Overflow (Option UInt64)
  | [] => return none
  | u :: us =>
    match digit? u with
    | none => return none
    | some d =>
      if d = 0 then return if us.isEmpty then some 0 else none else extendInWord (.ofNat d) us

/-- A number below the limit leaves room in a word for a digit more. -/
theorem roomy (small : n < indexLimit) {d : Nat} (digit : d < 10) :
    n < UInt64.size ∧ 10 * n < UInt64.size ∧ 10 * n + d < UInt64.size := by
  rw [indexLimit_eq] at small
  have size : UInt64.size = 18446744073709551616 := rfl
  omega

/-- Neither the multiplication nor the sum runs over in front of the test against the limit. -/
theorem extendInWord_cons (small : n < indexLimit) :
    extendInWord (.ofNat n) (u :: us) = match digit? u with
      | none => .ok none
      | some d =>
        if 10 * n + d < indexLimit then extendInWord (.ofNat (10 * n + d)) us else .ok none := by
  obtain ⟨word, shifted, -⟩ := roomy small (d := 0) (by decide)
  rw [extendInWord, UInt64.toNat_ofNat_of_lt' word, Nat.mul_comm n 10, checked_eq_ok shifted]
  cases digit : digit? u with
  | none => rfl
  | some d =>
      obtain ⟨-, -, next⟩ := roomy small (encode_digitChar digit).1
      have beyond : (4294967295 : UInt64) ≤ .ofNat (10 * n + d) ↔ ¬10 * n + d < indexLimit := by
        rw [UInt64.le_iff_toNat_le, UInt64.toNat_ofNat_of_lt' next, indexLimit_eq, Nat.not_lt]
        rfl
      simp only [bind, Except.bind, UInt64.toNat_ofNat_of_lt' shifted, checked_eq_ok next, beyond,
        ite_not]
      rfl

/-- What is read in a word is what is read without bounds. -/
theorem extendInWord_eq (small : n < indexLimit) :
    extendInWord (.ofNat n) us = .ok ((extendIndex? n us).map UInt64.ofNat) := by
  induction us generalizing n with
  | nil => rfl
  | cons u us ih =>
      rw [extendInWord_cons small, extendIndex?]
      cases digit? u with
      | none => rfl
      | some d =>
          dsimp only [Option.bind_some]
          split
          · rename_i room
            exact ih room
          · rfl

/-- The word never runs over, and holds the index that the string names. -/
theorem indexInWord_eq (t : Text) :
    indexInWord t.units = .ok (t.arrayIndex?.map UInt64.ofNat) := by
  unfold arrayIndex?
  cases t.units with
  | nil => rfl
  | cons u us =>
      rw [indexInWord]
      dsimp only
      cases digit : digit? u with
      | none => rfl
      | some d =>
          have small : d < indexLimit := Nat.lt_trans (encode_digitChar digit).1 (by decide)
          dsimp only [Option.bind_some]
          split
          · cases us <;> rfl
          · exact extendInWord_eq small

/-- The word that holds an index is the index. -/
theorem toNat_indexInWord (t : Text) :
    (t.arrayIndex?.map UInt64.ofNat).map UInt64.toNat = t.arrayIndex? := by
  cases named : t.arrayIndex? with
  | none => rfl
  | some i =>
      obtain ⟨word, -⟩ := roomy (lt_indexLimit named) (d := 0) (by decide)
      rw [Option.map_some, Option.map_some, UInt64.toNat_ofNat_of_lt' word]

/-- A string names an index exactly if it is the canonical way to write a number below the limit,
whatever form it is stored in. So what is printed is read again, what is read is printed again, and
one word suffices to read strings of any length. -/
theorem reads_canonical_indices (t : Text) :
    (∀ i, t.arrayIndex? = some i ↔ IsCanonical t.units i ∧ i < 4294967295) ∧
      (∀ i, t.arrayIndex? = some i ↔
        t.units = Utf16.encode (ToString.toString i).toList ∧ i < 4294967295) ∧
      (∀ i < 4294967295, (ofString (ToString.toString i)).arrayIndex? = some i ∧
        (imported (ToString.toString i)).arrayIndex? = some i ∧
        (wide (Utf16.encode (ToString.toString i).toList)).arrayIndex? = some i) ∧
      ∃ index, indexInWord t.units = .ok index ∧ index.map UInt64.toNat = t.arrayIndex? := by
  have printed {i : Nat} (small : i < 4294967295) {s : Text}
      (units : s.units = Utf16.encode (ToString.toString i).toList) : s.arrayIndex? = some i := by
    have alike : Alike s (ofIndex i) := alike_of_units (by rw [units, ofIndex_eq, units_ofString])
    rw [alike.arrayIndex, arrayIndex?_ofIndex small]
  refine ⟨fun i => arrayIndex?_eq_some_iff, fun i => ⟨fun named => ?_, ?_⟩, fun i small => ?_,
    _, indexInWord_eq t, toNat_indexInWord t⟩
  · refine ⟨?_, lt_indexLimit named⟩
    rw [units_of_arrayIndex? named, ofIndex_eq, units_ofString]
  · rintro ⟨units, small⟩
    exact printed small units
  · exact ⟨printed small (units_ofString _), printed small rfl, printed small rfl⟩

/-- The last index, and the number behind it. -/
theorem reads_canonical_indices_at_limit :
    (imported "4294967294").arrayIndex? = some 4294967294 ∧
      ∀ i, (imported "4294967295").arrayIndex? ≠ some i := by
  have units : (imported "4294967294").units = [52, 50, 57, 52, 57, 54, 55, 50, 57, 52] := rfl
  have digits : ∀ u ∈ (imported "4294967294").units, IsDigit u := by simp [units, IsDigit]
  have canonical : IsCanonical (imported "4294967294").units 4294967294 :=
    ⟨by decide, digits, by decide, rfl⟩
  refine ⟨((reads_canonical_indices _).1 _).mpr ⟨canonical, by decide⟩, fun i named => ?_⟩
  obtain ⟨canonical, below⟩ := ((reads_canonical_indices _).1 i).mp named
  have value : digitSum 0 (imported "4294967295").units = 4294967295 := rfl
  exact absurd (canonical.value.symm.trans value) (Nat.ne_of_lt below)

end ScriptCore.Text
