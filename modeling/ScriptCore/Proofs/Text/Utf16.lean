import Mathlib.Logic.Function.Basic
import ScriptCore.Text.Utf16

/-!
# ScriptCore.Proofs.Text.Utf16

Text survives the way into code units and back.

* A character is one unit that is no surrogate, or a high surrogate and a low one (`encodeChar_of_lt`, `encodeChar_of_le`).
* `decode` therefore reads back what `encode` wrote (`decode_encode`), and different texts have
  different units (`encode_injective`).
-/

namespace ScriptCore.Utf16

/-! ### Single units and pairs -/

theorem isHigh_iff {u : UInt16} : isHigh u = true ↔ 0xd800 ≤ u.toNat ∧ u.toNat < 0xdc00 := by
  simp [isHigh, UInt16.le_iff_toNat_le, UInt16.lt_iff_toNat_lt]

theorem isLow_iff {u : UInt16} : isLow u = true ↔ 0xdc00 ≤ u.toNat ∧ u.toNat < 0xe000 := by
  simp [isLow, UInt16.le_iff_toNat_le, UInt16.lt_iff_toNat_lt]

theorem decode_single {u : UInt16} (h : isHigh u = false) (us : List UInt16) :
    decode (u :: us) = singleChar u :: decode us := by
  cases us with
  | nil => rfl
  | cons v us => simp [decode, h]

theorem decode_pair {u v : UInt16} (hu : isHigh u = true) (hv : isLow v = true)
    (us : List UInt16) : decode (u :: v :: us) = pairChar u v :: decode us := by
  simp [decode, hu, hv]

/-! ### Characters -/

/-- A character below the pairs is one unit, and that unit is no surrogate. -/
theorem encodeChar_of_lt {c : Char} (h : c.toNat < 0x10000) :
    ∃ u, encodeChar c = [u] ∧ u.toNat = c.toNat ∧ isHigh u = false ∧ singleChar u = c := by
  have hnat : (UInt16.ofNat c.toNat).toNat = c.toNat := UInt16.toNat_ofNat_of_lt' h
  have hvalid : c.toNat < 0xd800 ∨ 0xdfff < c.toNat ∧ c.toNat < 0x110000 := c.valid
  have hhigh : isHigh (.ofNat c.toNat) = false := by
    rw [Bool.eq_false_iff, ne_eq, isHigh_iff, hnat]
    omega
  have hlow : isLow (.ofNat c.toNat) = false := by
    rw [Bool.eq_false_iff, ne_eq, isLow_iff, hnat]
    omega
  refine ⟨.ofNat c.toNat, by simp [encodeChar, h], hnat, hhigh, ?_⟩
  simp [singleChar, hhigh, hlow, hnat]

/-- Any other character is a pair, which stands for the character. -/
theorem encodeChar_of_le {c : Char} (h : 0x10000 ≤ c.toNat) :
    ∃ u v, encodeChar c = [u, v] ∧ isHigh u = true ∧ isLow v = true ∧ pairChar u v = c := by
  have hvalid : c.toNat < 0xd800 ∨ 0xdfff < c.toNat ∧ c.toNat < 0x110000 := c.valid
  have hu : (UInt16.ofNat (0xd800 + (c.toNat - 0x10000) / 0x400)).toNat =
      0xd800 + (c.toNat - 0x10000) / 0x400 := UInt16.toNat_ofNat_of_lt' (by unfold UInt16.size; omega)
  have hv : (UInt16.ofNat (0xdc00 + (c.toNat - 0x10000) % 0x400)).toNat =
      0xdc00 + (c.toNat - 0x10000) % 0x400 := UInt16.toNat_ofNat_of_lt' (by unfold UInt16.size; omega)
  refine ⟨_, _, by rw [encodeChar, if_neg (by omega)], isHigh_iff.mpr ?_, isLow_iff.mpr ?_, ?_⟩
  · rw [hu]
    omega
  · rw [hv]
    omega
  · have hsum : 0x10000 + (0xd800 + (c.toNat - 0x10000) / 0x400 - 0xd800) * 0x400 +
        (0xdc00 + (c.toNat - 0x10000) % 0x400 - 0xdc00) = c.toNat := by omega
    rw [pairChar, hu, hv, hsum, Char.ofNat_toNat]

/-! ### Texts -/

@[simp] theorem encode_nil : encode [] = [] := rfl

@[simp] theorem encode_cons (c : Char) (s : List Char) :
    encode (c :: s) = encodeChar c ++ encode s := rfl

/-- Units that come from a text read back as the text. -/
theorem encode_append (s t : List Char) : encode (s ++ t) = encode s ++ encode t :=
  List.flatMap_append

@[simp] theorem decode_encode (s : List Char) : decode (encode s) = s := by
  induction s with
  | nil => rfl
  | cons c s ih =>
      rcases Nat.lt_or_ge c.toNat 0x10000 with h | h
      · obtain ⟨u, henc, -, hhigh, hchar⟩ := encodeChar_of_lt h
        rw [encode_cons, henc, List.singleton_append, decode_single hhigh, hchar, ih]
      · obtain ⟨u, v, henc, hu, hv, hchar⟩ := encodeChar_of_le h
        rw [encode_cons, henc, List.cons_append, List.singleton_append, decode_pair hu hv, hchar, ih]

theorem encode_injective : Function.Injective encode :=
  Function.LeftInverse.injective decode_encode

theorem encode_eq_nil_iff {s : List Char} : encode s = [] ↔ s = [] := by
  constructor
  · intro h
    exact encode_injective (h.trans encode_nil.symm)
  · rintro rfl
    rfl

/-- Seven-bit characters are their own units. -/
theorem encode_of_sevenBit {s : List Char} (h : ∀ c ∈ s, c.toNat < 0x80) :
    encode s = s.map fun c => UInt16.ofNat c.toNat := by
  induction s with
  | nil => rfl
  | cons c s ih =>
      have hc : c.toNat < 0x80 := h c (by simp)
      have henc : encodeChar c = [UInt16.ofNat c.toNat] := by
        simp only [encodeChar]
        rw [if_pos (by omega)]
      rw [encode_cons, henc, ih fun d hd => h d (by simp [hd])]
      rfl

end ScriptCore.Utf16
