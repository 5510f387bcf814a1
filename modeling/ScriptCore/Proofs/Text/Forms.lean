import ScriptCore.Proofs.Text.Utf16
import ScriptCore.Text.Basic

/-!
# ScriptCore.Proofs.Text.Forms

The **form** that a string is stored in never shows.

Each operation has one lemma that reads its result off the code units, whichever of its paths the
form takes. Seven-bit strings are where the paths differ most: there a byte, a character and a code
unit are the same thing (`bytes_of_sevenBit`, `units_ascii`).
-/

namespace ScriptCore.Text

/-! ### Seven-bit strings -/

theorem lt_of_sevenBit {s : String} (h : SevenBit s) : ∀ c ∈ s.toList, c.toNat < 0x80 :=
  fun c hc => of_decide_eq_true (List.all_eq_true.mp h c hc)

theorem utf8EncodeChar_of_lt {c : Char} (h : c.toNat < 0x80) :
    String.utf8EncodeChar c = [UInt8.ofNat c.toNat] := by
  simp only [String.utf8EncodeChar]
  rw [if_pos (show c.val.toNat ≤ 127 from Nat.le_of_lt_succ h)]
  rfl

/-- The bytes of a text are those of its characters, one after another. -/
theorem bytes_eq (s : String) : bytes s = s.toList.flatMap String.utf8EncodeChar := by
  rw [bytes, ← String.utf8Encode_toList, List.utf8Encode, List.toList_data_toByteArray]

/-- A seven-bit text has one byte for each character. -/
theorem bytes_of_sevenBit {s : String} (h : SevenBit s) :
    bytes s = s.toList.map fun c => UInt8.ofNat c.toNat := by
  have hchars : ∀ l : List Char, (∀ c ∈ l, c.toNat < 0x80) →
      l.flatMap String.utf8EncodeChar = l.map fun c => UInt8.ofNat c.toNat := by
    intro l hl
    induction l with
    | nil => rfl
    | cons c l ih =>
        rw [List.flatMap_cons, utf8EncodeChar_of_lt (hl c (by simp)),
          ih fun d hd => hl d (by simp [hd])]
        rfl
  rw [bytes_eq, hchars _ (lt_of_sevenBit h)]

/-- The bytes of a seven-bit text are the code units that its characters have. -/
theorem units_ascii {s : String} (h : SevenBit s) :
    (ascii s h).units = Utf16.encode s.toList := by
  rw [Utf16.encode_of_sevenBit (lt_of_sevenBit h), units, bytes_of_sevenBit h, List.map_map]
  refine List.map_congr_left fun c hc => UInt16.toNat.inj ?_
  have hlt := lt_of_sevenBit h c hc
  simp only [Function.comp, UInt8.toNat_toUInt16]
  rw [UInt8.toNat_ofNat_of_lt' (by unfold UInt8.size; omega),
    UInt16.toNat_ofNat_of_lt' (by unfold UInt16.size; omega)]

theorem length_bytes (s : String) : (bytes s).length = s.utf8ByteSize :=
  Array.length_toList

/-- A string that is stored as text has the units of that text. -/
theorem units_of_exactText {t : Text} {s : String} (h : t.exactText? = some s) :
    t.units = Utf16.encode s.toList := by
  cases t with
  | ascii own hown =>
      cases h
      exact units_ascii hown
  | wide us => cases h
  | imported own =>
      cases h
      rfl

theorem units_ofUnits (us : List UInt16) : (ofUnits us).units = us := by
  unfold ofUnits
  split
  · rename_i h
    rw [units_ascii, Utf16.encode_of_sevenBit (lt_of_sevenBit (sevenBit_sevenBitText h)),
      sevenBitText, String.toList_ofList, List.map_map]
    refine (List.map_congr_left fun u hu => ?_).trans (List.map_id us)
    have hlt : u.toNat < 0x80 := of_decide_eq_true (List.all_eq_true.mp h u hu)
    simp [toNat_ofNat_of_lt hlt]
  · rfl

theorem units_ofString (s : String) : (ofString s).units = Utf16.encode s.toList := by
  unfold ofString
  split
  · exact units_ascii _
  · rfl

/-! ### Each operation, read off the units -/

theorem length_eq (t : Text) : t.length = t.units.length := by
  cases t with
  | ascii s h => rw [length, units, List.length_map, length_bytes]
  | wide us => rfl
  | imported s => rfl

theorem isEmpty_eq (t : Text) : t.isEmpty = t.units.isEmpty := by
  have htext : ∀ s : String, s.isEmpty = (Utf16.encode s.toList).isEmpty := by
    intro s
    rw [Bool.eq_iff_iff, String.isEmpty_iff, List.isEmpty_iff, Utf16.encode_eq_nil_iff,
      String.toList_eq_nil_iff]
  cases t with
  | ascii s h => rw [units_ascii, ← htext, isEmpty]
  | wide us => rfl
  | imported s => exact htext s

theorem unitAt?_eq (t : Text) (i : Nat) : t.unitAt? i = t.units[i]? := by
  cases t with
  | ascii s h => rw [unitAt?, units, List.getElem?_map]
  | wide us => rfl
  | imported s => rfl

theorem toString_eq (t : Text) : t.toString = String.ofList (Utf16.decode t.units) := by
  cases t with
  | ascii s h => rw [units_ascii, Utf16.decode_encode, String.ofList_toList, toString]
  | wide us => rfl
  | imported s => rw [units, Utf16.decode_encode, String.ofList_toList, toString]

@[simp] theorem toString_ofString (s : String) : (ofString s).toString = s := by
  rw [toString_eq, units_ofString, Utf16.decode_encode, String.ofList_toList]

theorem toString_of_exactText {t : Text} {s : String} (h : t.exactText? = some s) :
    t.toString = s := by
  rw [toString_eq, units_of_exactText h, Utf16.decode_encode, String.ofList_toList]

/-- Strings whose surrogates all pair are told apart by their texts. -/
theorem units_eq_of_toString_eq {a b : Text} (ha : Utf16.isWellFormed a.units = true)
    (hb : Utf16.isWellFormed b.units = true) (same : a.toString = b.toString) :
    a.units = b.units := by
  have decoded : Utf16.decode a.units = Utf16.decode b.units := by
    rw [toString_eq, toString_eq] at same
    exact String.ofList_injective same
  rw [← eq_of_beq ha, ← eq_of_beq hb, decoded]

theorem toNumber_eq (t : Text) : t.toNumber = Numeral.read t.toString := by
  unfold toNumber
  split
  · rename_i s h
    rw [toString_of_exactText h]
  · rfl

theorem text_beq (s t : String) :
    (s == t) = (Utf16.encode s.toList == Utf16.encode t.toList) := by
  rw [Bool.eq_iff_iff, beq_iff_eq, beq_iff_eq, Utf16.encode_injective.eq_iff, String.toList_inj]

/-- Comparing texts and comparing units comes to the same. -/
theorem beq_def (a b : Text) : (a == b) = (a.units == b.units) := by
  show beq a b = _
  unfold beq
  split
  · rename_i s t hs ht
    rw [text_beq, units_of_exactText hs, units_of_exactText ht]
  · rfl

@[simp] theorem beq_iff_units {a b : Text} : (a == b) = true ↔ a.units = b.units := by
  rw [beq_def, beq_iff_eq]

theorem isText_eq (t : Text) (s : String) : t.isText s = (t.units == Utf16.encode s.toList) := by
  unfold isText
  split
  · rename_i own h
    rw [text_beq, units_of_exactText h]
  · rfl

theorem units_slice (t : Text) (start stop : Nat) :
    (t.slice start stop).units = (t.units.take stop).drop start := by
  -- The bounds are moved into the string first, which taking and dropping does by itself.
  have hclamped : ∀ us : List UInt16,
      (us.drop (min start (min stop us.length))).take
        (min stop us.length - min start (min stop us.length)) = (us.take stop).drop start := by
    intro us
    rw [← List.drop_take]
    apply List.ext_getElem?
    intro i
    simp only [List.getElem?_drop, List.getElem?_take]
    grind
  cases t with
  | ascii s h =>
      have hlen : (ascii s h).length = s.toList.length := by
        rw [length, ← length_bytes, bytes_of_sevenBit h, List.length_map]
      have hslice : (ascii s h).slice start stop = ascii _ (sevenBit_slice h _ _) := rfl
      rw [hslice, units_ascii, String.toList_ofList, hlen, units_ascii,
        Utf16.encode_of_sevenBit (lt_of_sevenBit h), Utf16.encode_of_sevenBit]
      · rw [List.map_drop, List.map_take, List.drop_take, ← hclamped, List.length_map]
      · intro c hc
        exact lt_of_sevenBit h c (List.mem_of_mem_take (List.mem_of_mem_drop hc))
  | wide us =>
      show (ofUnits _).units = _
      rw [units_ofUnits, length_eq, hclamped]
  | imported s =>
      show (ofUnits _).units = _
      rw [units_ofUnits, length_eq, hclamped]

theorem units_append (a b : Text) : (a ++ b).units = a.units ++ b.units := by
  show (append a b).units = _
  unfold append
  split
  · rw [units_ascii, units_ascii, units_ascii, String.toList_append, Utf16.encode,
      List.flatMap_append]
    rfl
  · exact units_ofUnits _

/-! ### Equality, order and hash agree -/

instance : EquivBEq Text where
  rfl := by simp
  symm := by
    simp only [beq_iff_units]
    exact Eq.symm
  trans := by
    simp only [beq_iff_units]
    exact Eq.trans

theorem hashInput_congr {a b : Text} (h : a.units = b.units) : a.hashInput = b.hashInput := by
  rw [hashInput, hashInput, h]

instance : LawfulHashable Text where
  hash_eq a b h := by
    show hash a.hashInput = hash b.hashInput
    rw [hashInput_congr (beq_iff_units.mp h)]

theorem compare_eq_iff_units {a b : Text} : compare a b = .eq ↔ a.units = b.units := by
  show compare a.units b.units = .eq ↔ _
  exact Std.compare_eq_iff_eq

/-! ### The forms -/

/-- No operation tells two strings apart, nor does it when other operands are replaced too. -/
structure Alike (a b : Text) : Prop where
  length : a.length = b.length
  isEmpty : a.isEmpty = b.isEmpty
  unitAt : ∀ i, a.unitAt? i = b.unitAt? i
  slice : ∀ start stop, (a.slice start stop == b.slice start stop) = true
  append : ∀ {c d : Text}, c.units = d.units → (a ++ c == b ++ d) = true
  appended : ∀ {c d : Text}, c.units = d.units → (c ++ a == d ++ b) = true
  arrayIndex : a.arrayIndex? = b.arrayIndex?
  toNumber : a.toNumber = b.toNumber
  equality : ∀ {c d : Text}, c.units = d.units → (a == c) = (b == d)
  isText : ∀ s, a.isText s = b.isText s
  order : ∀ {c d : Text}, c.units = d.units → compare a c = compare b d
  hashInput : a.hashInput = b.hashInput

theorem alike_of_units {a b : Text} (h : a.units = b.units) : Alike a b where
  length := by rw [length_eq, length_eq, h]
  isEmpty := by rw [isEmpty_eq, isEmpty_eq, h]
  unitAt i := by rw [unitAt?_eq, unitAt?_eq, h]
  slice start stop := by simp [units_slice, h]
  append hcd := by simp [units_append, h, hcd]
  appended hcd := by simp [units_append, h, hcd]
  arrayIndex := by rw [arrayIndex?, arrayIndex?, h]
  toNumber := by rw [toNumber_eq, toNumber_eq, toString_eq, toString_eq, h]
  equality hcd := by rw [beq_def, beq_def, h, hcd]
  isText s := by rw [isText_eq, isText_eq, h]
  order hcd := by
    show compare a.units _ = compare b.units _
    rw [h, hcd]
  hashInput := hashInput_congr h

/-- Strings with the same code units are alike, whatever they are stored as. Equality, order and hash
go by the units, slices and sums have the units that they should, and every way of making a string
from a text makes the same one, which shows as that text. -/
theorem forms_indistinguishable :
    (∀ a b : Text, a.units = b.units → Alike a b) ∧
      (∀ a b : Text, ((a == b) = true ↔ a.units = b.units) ∧
        ((a == b) = true ↔ compare a b = .eq) ∧
        ((a == b) = true → a.hashInput = b.hashInput ∧ hash a = hash b)) ∧
      (∀ a b : Text, (a ++ b).units = a.units ++ b.units) ∧
      (∀ (a : Text) (start stop : Nat),
        (a.slice start stop).units = (a.units.take stop).drop start) ∧
      ∀ s : String, (ofString s == imported s) = true ∧
        (ofUnits (Utf16.encode s.toList) == imported s) = true ∧
        (ofString s).toString = s ∧ (imported s).toString = s ∧
        (ofUnits (Utf16.encode s.toList)).toString = s := by
  refine ⟨fun a b => alike_of_units, fun a b => ⟨beq_iff_units, ?_, ?_⟩, units_append, units_slice,
    fun s => ?_⟩
  · rw [beq_iff_units, compare_eq_iff_units]
  · intro h
    exact ⟨hashInput_congr (beq_iff_units.mp h), LawfulHashable.hash_eq a b h⟩
  · have himported : (imported s).units = Utf16.encode s.toList := rfl
    simp [units_ofString, units_ofUnits, himported, toString_eq]

theorem forms_indistinguishable_on_key :
    (imported "7").units = (wide [55]).units ∧
      ((ascii "1" rfl ++ imported "7").arrayIndex? = (ascii "1" rfl ++ wide [55]).arrayIndex?) := by
  have hsame : (imported "7").units = (wide [55]).units := by decide
  have hsum : (ascii "1" rfl ++ imported "7").units = (ascii "1" rfl ++ wide [55]).units :=
    beq_iff_units.mp ((forms_indistinguishable.1 _ _ hsame).appended rfl)
  exact ⟨hsame, (forms_indistinguishable.1 _ _ hsum).arrayIndex⟩

end ScriptCore.Text
