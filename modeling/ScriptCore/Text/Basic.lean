import ScriptCore.Text.Utf16
import ScriptCore.Numeral.Reading

/-!
# ScriptCore.Text.Basic

The strings of scripts: immutable, stored in **one of three forms**, and told apart by their code
units alone.

Design points:

* Every operation works on the form that it finds. A seven-bit string has one byte for each code
  unit, so its bytes serve as units, and slices and sums of such strings stay seven-bit; two strings
  that are stored as text are compared as text. Everything else goes through the code units.
* `units` is the view that the forms share. That no operation shows the form is a theorem
  (`Proofs.Text.Forms`), not part of the definitions.
* The form decides only what a string costs (`payloadBytes`) and whether its text can be handed out
  without decoding (`exactText?`).
-/

namespace ScriptCore

/-- Every character has seven bits. -/
def SevenBit (s : String) : Prop := s.toList.all (·.toNat < 0x80) = true

instance (s : String) : Decidable (SevenBit s) := inferInstanceAs (Decidable (_ = true))

/-- A string. -/
inductive Text where
  /-- Seven-bit characters only. -/
  | ascii (s : String) (sevenBit : SevenBit s)
  /-- Arbitrary code units. -/
  | wide (units : List UInt16)
  /-- Text taken over from the host as it is. -/
  | imported (s : String)

theorem sevenBit_append {s t : String} (hs : SevenBit s) (ht : SevenBit t) :
    SevenBit (s ++ t) := by
  unfold SevenBit at hs ht ⊢
  rw [String.toList_append, List.all_append, hs, ht, Bool.and_self]

theorem sevenBit_slice {s : String} (hs : SevenBit s) (start stop : Nat) :
    SevenBit (String.ofList ((s.toList.take stop).drop start)) := by
  unfold SevenBit at hs ⊢
  rw [String.toList_ofList, List.all_eq_true]
  intro c hc
  exact List.all_eq_true.mp hs c (List.mem_of_mem_take (List.mem_of_mem_drop hc))

theorem toNat_ofNat_of_lt {n : Nat} (h : n < 0x80) : (Char.ofNat n).toNat = n := by
  have hvalid : n.isValidChar := .inl (Nat.lt_trans h (by decide))
  rw [Char.ofNat, dif_pos hvalid]
  rfl

/-- The text with one character for each unit. -/
def sevenBitText (us : List UInt16) : String := String.ofList (us.map fun u => .ofNat u.toNat)

theorem sevenBit_sevenBitText {us : List UInt16} (h : us.all (·.toNat < 0x80) = true) :
    SevenBit (sevenBitText us) := by
  unfold SevenBit sevenBitText
  rw [String.toList_ofList, List.all_map]
  rw [List.all_eq_true] at h ⊢
  intro u hu
  have hlt : u.toNat < 0x80 := of_decide_eq_true (h u hu)
  exact decide_eq_true ((toNat_ofNat_of_lt hlt).symm ▸ hlt)

namespace Text

/-! ### The view -/

/-- The bytes that a text is stored in. -/
def bytes (s : String) : List UInt8 := s.toByteArray.data.toList

/-- The code units. -/
def units : Text → List UInt16
  | .ascii s _ => (bytes s).map UInt8.toUInt16
  | .wide us => us
  | .imported s => Utf16.encode s.toList

/-- The text, if it is stored as such. -/
def exactText? : Text → Option String
  | .ascii s _ | .imported s => some s
  | .wide _ => none

/-- Equality. Two strings that are stored as text are compared as text. -/
def beq (a b : Text) : Bool :=
  match a.exactText?, b.exactText? with
  | some s, some t => s == t
  | _, _ => a.units == b.units

instance : BEq Text := ⟨beq⟩

/-- What goes into the hash of a string: the code units one by one, then their number. -/
def hashInput (t : Text) : List UInt16 × Nat := (t.units, t.units.length)

instance : Hashable Text := ⟨fun t => hash t.hashInput⟩
instance : Ord Text := ⟨fun a b => compare a.units b.units⟩

/-! ### Construction -/

/-- The empty string. -/
def empty : Text := .ascii "" rfl

/-- The string of a text, stored as seven-bit characters if it can be. -/
def ofString (s : String) : Text :=
  if h : SevenBit s then .ascii s h else .wide (Utf16.encode s.toList)

/-- The string of code units, stored as seven-bit characters if it can be. -/
def ofUnits (us : List UInt16) : Text :=
  if h : us.all (·.toNat < 0x80) = true then .ascii (sevenBitText us) (sevenBit_sevenBitText h)
  else .wide us

instance : Inhabited Text := ⟨empty⟩

/-! ### Reading -/

/-- The number of code units. -/
def length : Text → Nat
  | .ascii s _ => s.utf8ByteSize
  | .wide us => us.length
  | .imported s => (Utf16.encode s.toList).length

/-- There are no code units. -/
def isEmpty : Text → Bool
  | .ascii s _ | .imported s => s.isEmpty
  | .wide us => us.isEmpty

/-- The string is stored as seven-bit characters. -/
def isAscii : Text → Bool
  | .ascii .. => true
  | _ => false

/-- The name of the form that the string is stored in. -/
def formName : Text → String
  | .ascii .. => "ascii"
  | .wide _ => "unicode"
  | .imported _ => "imported"

/-- The text, with a replacement character for each surrogate without a partner. -/
def toString : Text → String
  | .ascii s _ | .imported s => s
  | .wide us => String.ofList (Utf16.decode us)

instance : ToString Text := ⟨toString⟩

/-- The bytes that the stored form takes. -/
def payloadBytes : Text → Nat
  | .ascii s _ | .imported s => s.utf8ByteSize
  | .wide us => 2 * us.length

/-- The string is that of a text. -/
def isText (t : Text) (s : String) : Bool :=
  match t.exactText? with
  | some own => own == s
  | none => t.units == Utf16.encode s.toList

/-- The code unit at an index. -/
def unitAt? : Text → Nat → Option UInt16
  | .ascii s _, i => (bytes s)[i]?.map UInt8.toUInt16
  | .wide us, i => us[i]?
  | .imported s, i => (Utf16.encode s.toList)[i]?

/-- The code units from `start` up to `stop`, both moved into the string. -/
def slice (t : Text) (start stop : Nat) : Text :=
  let stop := min stop t.length
  let start := min start stop
  match t with
  | .ascii s h => .ascii (String.ofList ((s.toList.take stop).drop start)) (sevenBit_slice h start stop)
  | t => ofUnits ((t.units.drop start).take (stop - start))

/-- Two strings, one after the other. -/
def append : Text → Text → Text
  | .ascii s hs, .ascii t ht => .ascii (s ++ t) (sevenBit_append hs ht)
  | a, b => ofUnits (a.units ++ b.units)

instance : Append Text := ⟨append⟩

/-- The number that the string stands for. -/
def toNumber (t : Text) : Binary64 :=
  match t.exactText? with
  | some s => Numeral.read s
  | none => Numeral.read t.toString

/-! ### Array indices -/

/-- The first number that is no array index. -/
def indexLimit : Nat := Nat.pow 2 32 - 1

/-- The value of a unit that is a decimal digit. -/
def digit? (u : UInt16) : Option Nat :=
  if 48 ≤ u.toNat ∧ u.toNat ≤ 57 then some (u.toNat - 48) else none

/-- A number with further digits behind it, while it stays below the limit. -/
def extendIndex? (n : Nat) : List UInt16 → Option Nat
  | [] => some n
  | u :: us => (digit? u).bind fun d =>
    if 10 * n + d < indexLimit then extendIndex? (10 * n + d) us else none

/-- The array index that the string names: decimal digits, no leading zero, below the limit. -/
def arrayIndex? (t : Text) : Option Nat :=
  match t.units with
  | [] => none
  | u :: us => (digit? u).bind fun d =>
    if d = 0 then (if us.isEmpty then some 0 else none) else extendIndex? d us

/-- The string that names an array index. -/
def ofIndex (i : Nat) : Text := ofString (String.ofList (Nat.toDigits 10 i))

end Text

end ScriptCore
