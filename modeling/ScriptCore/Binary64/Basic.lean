/-!
# ScriptCore.Binary64.Basic

Double-precision numbers as 64-bit words with an **exact** meaning.

Design points:

* A number is its bit pattern; no machine floating point is involved, so every question about a
  number is a question about natural numbers.
* The unit of measurement is the smallest positive number, `2⁻¹⁰⁷⁴`. Every finite number is a whole
  number of units (`signedUnits`), which turns comparison, truncation and rounding into integer
  arithmetic.
* The word without its sign (`magnitude`) is ordered as the number it stands for, so two finite
  numbers compare as their signed magnitudes do.
-/

namespace ScriptCore

/-- A double-precision number, given by its word: one sign bit, eleven exponent bits and
fifty-two fraction bits. -/
structure Binary64 where
  /-- The word. -/
  bits : UInt64
deriving DecidableEq, Hashable

namespace Binary64

/-! ### Fields of the word -/

/-- The word without its sign bit. -/
def magnitude (x : Binary64) : Nat := x.bits.toNat % Nat.pow 2 63

/-- The sign bit. It is set for `-0` and may be set for a word that is not a number. -/
def isNegative (x : Binary64) : Bool := Nat.pow 2 63 ≤ x.bits.toNat

/-- The magnitude of the infinities; a larger magnitude is not a number. -/
def infiniteMagnitude : Nat := 2047 * Nat.pow 2 52

/-- The word is not a number. -/
def isNaN (x : Binary64) : Bool := infiniteMagnitude < x.magnitude

/-- The word is one of the two infinities. -/
def isInfinite (x : Binary64) : Bool := x.magnitude == infiniteMagnitude

/-- The word is a finite number. -/
def isFinite (x : Binary64) : Bool := x.magnitude < infiniteMagnitude

/-- The word is one of the two zeros. -/
def isZero (x : Binary64) : Bool := x.magnitude == 0

/-- The word with the given sign and magnitude. -/
def ofMagnitude (negative : Bool) (magnitude : Nat) : Binary64 :=
  ⟨.ofNat (if negative then Nat.pow 2 63 + magnitude else magnitude)⟩

/-! ### Distinguished numbers -/

/-- The canonical word that is not a number. -/
def nan : Binary64 := ⟨0x7ff8000000000000⟩

/-- An infinity of the given sign. -/
def infinity (negative : Bool) : Binary64 := ofMagnitude negative infiniteMagnitude

/-- A zero of the given sign. -/
def zero (negative : Bool) : Binary64 := ofMagnitude negative 0

instance : Inhabited Binary64 := ⟨zero false⟩

/-- The number with the sign cleared. -/
def abs (x : Binary64) : Binary64 := ofMagnitude false x.magnitude

/-- The number with the sign flipped. -/
def neg (x : Binary64) : Binary64 := ofMagnitude (!x.isNegative) x.magnitude

/-! ### Exact values -/

/-- How many units one binade step is: the spacing of the numbers next to a given magnitude is
`2 ^ scale` units. -/
def scale (magnitude : Nat) : Nat := magnitude / Nat.pow 2 52 - 1

/-- The significand of a magnitude, with the leading bit that the word leaves out. -/
def significand (magnitude : Nat) : Nat :=
  if magnitude < Nat.pow 2 52 then magnitude else Nat.pow 2 52 + magnitude % Nat.pow 2 52

/-- The absolute value of a finite number, in units of `2⁻¹⁰⁷⁴`. -/
def units (x : Binary64) : Nat := significand x.magnitude * Nat.pow 2 (scale x.magnitude)

/-- One, in units. -/
def unitsPerOne : Nat := Nat.pow 2 1074

/-- The value of a finite number, in units of `2⁻¹⁰⁷⁴`. -/
def signedUnits (x : Binary64) : Int := if x.isNegative then -x.units else x.units

/-- The number is finite and whole. -/
def isWhole (x : Binary64) : Bool := x.isFinite && x.units % unitsPerOne == 0

/-- The whole part of a finite number, toward zero. -/
def truncate (x : Binary64) : Int := x.signedUnits.tdiv unitsPerOne

/-! ### Comparison -/

/-- A number's place in the order of the numbers; the two zeros share one place. -/
def rank (x : Binary64) : Int := if x.isNegative then -x.magnitude else x.magnitude

/-- Numeric equality: what is not a number equals nothing, and the zeros equal each other. -/
def numEq (x y : Binary64) : Bool := !x.isNaN && !y.isNaN && x.rank == y.rank

/-- Numeric order, false if either side is not a number. -/
def lt (x y : Binary64) : Bool := !x.isNaN && !y.isNaN && x.rank < y.rank

/-- Numeric order or equality, false if either side is not a number. -/
def le (x y : Binary64) : Bool := !x.isNaN && !y.isNaN && x.rank ≤ y.rank

end Binary64

end ScriptCore
