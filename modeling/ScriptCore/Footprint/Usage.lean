import ScriptCore.Binary64.Rounding

/-!
# ScriptCore.Footprint.Usage

Estimated **bytes**, under two ways of counting, and the sizes that estimates are made of.

The legacy total counts the payload of strings only; the refined one counts a header for every
string as well. Both are kept below `2⁶⁴` by staying at the largest such number.
-/

namespace ScriptCore

/-- The largest total. -/
def maxBytes : Nat := Nat.pow 2 64 - 1

/-- A sum that stays at the largest total. -/
def saturatingAdd (a b : Nat) : Nat := min (a + b) maxBytes

/-! ### Sizes -/

/-- An empty structure, or the header of an object. -/
def sizeHeader : Nat := 8

/-- A truth value. -/
def sizeBool : Nat := 1

/-- A 64-bit integer. -/
def sizeInt : Nat := 8

/-- A 32-bit integer. -/
def sizeInt32 : Nat := 4

/-- A double-precision number. -/
def sizeNumber : Nat := 8

/-- The header of a string. -/
def sizeString : Nat := 16

/-! ### Totals -/

/-- Bytes under the two ways of counting. -/
structure Usage where
  /-- Payload only. -/
  legacy : Nat
  /-- With string headers. -/
  refined : Nat
deriving DecidableEq, Repr

namespace Usage

/-- Nothing. -/
def zero : Usage := ⟨0, 0⟩

instance : Inhabited Usage := ⟨zero⟩

/-- The same under both ways of counting. -/
def uniform (bytes : Nat) : Usage := ⟨bytes, bytes⟩

/-- A string with a payload of some bytes. -/
def string (payload : Nat) : Usage := ⟨payload, payload + sizeString⟩

/-- The sum, part by part. -/
def add (a b : Usage) : Usage :=
  ⟨saturatingAdd a.legacy b.legacy, saturatingAdd a.refined b.refined⟩

instance : Add Usage := ⟨add⟩

/-- The sum of several. -/
def sum (us : List Usage) : Usage := us.foldl add zero

end Usage

/-! ### Sampling -/

/-- How far apart the measured elements of a large container are, between one and its length. A rate
that is not positive means that every element is measured, and no rate above one half counts for
more. -/
def sampleStep (total : Nat) (rate : Binary64) : Nat :=
  if !(Binary64.zero false).lt rate || total = 0 then 1
  else
    let half := Binary64.ofRatio false 1 2
    let count := Binary64.ofNat total
    let step := count / (count * (if half.lt rate then half else rate))
    max 1 (min total (step.clamp 0 maxBytes).toNat)

/-- A sum over some of the elements, scaled up to all of them. -/
def scaledUp (sum samples total : Nat) : Nat :=
  if samples = 0 then 0
  else
    ((Binary64.ofNat sum / Binary64.ofNat samples * Binary64.ofNat total).clamp 0 maxBytes).toNat

end ScriptCore
