import ScriptCore.Binary64.Basic

/-!
# ScriptCore.Binary64.Rounding

The one rounding rule, **to the nearest number and to the even word on a tie**, and the arithmetic
that follows from it: compute exactly, then round once.

Design points:

* `nearestMagnitude` takes a nonnegative fraction of units and returns the magnitude of the nearest
  number. The word that follows the largest finite one is infinity, so overflow needs no case of
  its own beyond a cap.
* Every operation reduces to `ofUnits`: an integer, a sum, a product, a quotient and a decimal
  literal are all exact fractions of units.
-/

namespace ScriptCore.Binary64

/-- The whole number nearest to `num / den`; of two equally near ones the even one. -/
def divNearestEven (num den : Nat) : Nat :=
  let q := num / den
  let r := num % den
  if 2 * r < den then q
  else if den < 2 * r then q + 1
  else q + q % 2

/-- The magnitude of the number nearest to `num / den` units. The spacing is chosen so that the
significand has fifty-three bits, or is that of the smallest numbers; a carry out of the
significand moves into the exponent by itself. -/
def nearestMagnitude (num den : Nat) : Nat :=
  let spacing := (num / den).log2 - 52
  min infiniteMagnitude (spacing * Nat.pow 2 52 + divNearestEven num (den * Nat.pow 2 spacing))

/-- The number nearest to `± num / den` units. -/
def ofUnits (negative : Bool) (num den : Nat) : Binary64 :=
  ofMagnitude negative (nearestMagnitude num den)

/-! ### Conversions -/

/-- The number nearest to `± num / den`. -/
def ofRatio (negative : Bool) (num den : Nat) : Binary64 :=
  ofUnits negative (num * unitsPerOne) den

/-- The number nearest to an integer. -/
def ofInt (n : Int) : Binary64 := ofRatio (n < 0) n.natAbs 1

/-- The number nearest to a natural number. -/
def ofNat (n : Nat) : Binary64 := ofRatio false n 1

/-- The number nearest to `± digits · 10 ^ exponent`. Exponents far out of range are settled before
any power is computed: a positive value from `10 ^ 400` up is infinite, and one below `10 ^ -400` is
zero. -/
def ofDecimal (negative : Bool) (digits : Nat) (exponent : Int) : Binary64 :=
  if digits = 0 then zero negative
  else if 400 < exponent then infinity negative
  else if exponent + digits.log2 < -400 then zero negative
  else if 0 ≤ exponent then ofRatio negative (digits * Nat.pow 10 exponent.toNat) 1
  else ofRatio negative digits (Nat.pow 10 (-exponent).toNat)

/-- The integer a number is clamped to: its whole part, moved into `lo … hi`. What is not a number
gives zero, an infinity the bound on its side. -/
def clamp (lo hi : Int) (x : Binary64) : Int :=
  if x.isNaN then 0
  else if x.isInfinite then (if x.isNegative then lo else hi)
  else max lo (min hi x.truncate)

/-! ### Arithmetic -/

/-- The sum. Two zeros of opposite sign, like any exact cancellation, give `+0`. -/
def add (x y : Binary64) : Binary64 :=
  if x.isNaN || y.isNaN then nan
  else if x.isInfinite then (if y.isInfinite && x.isNegative != y.isNegative then nan else x)
  else if y.isInfinite then y
  else
    let sum := x.signedUnits + y.signedUnits
    if sum = 0 then zero (x.isNegative && y.isNegative)
    else ofUnits (sum < 0) sum.natAbs 1

/-- The difference. -/
def sub (x y : Binary64) : Binary64 := x.add y.neg

/-- The product. -/
def mul (x y : Binary64) : Binary64 :=
  let negative := x.isNegative != y.isNegative
  if x.isNaN || y.isNaN then nan
  else if x.isInfinite || y.isInfinite then
    (if x.isZero || y.isZero then nan else infinity negative)
  else ofUnits negative (x.units * y.units) unitsPerOne

/-- The quotient. A nonzero number over zero is infinite. -/
def div (x y : Binary64) : Binary64 :=
  let negative := x.isNegative != y.isNegative
  if x.isNaN || y.isNaN then nan
  else if x.isInfinite then (if y.isInfinite then nan else infinity negative)
  else if y.isInfinite then zero negative
  else if y.isZero then (if x.isZero then nan else infinity negative)
  else ofRatio negative x.units y.units

instance : Add Binary64 := ⟨add⟩
instance : Sub Binary64 := ⟨sub⟩
instance : Mul Binary64 := ⟨mul⟩
instance : Div Binary64 := ⟨div⟩

end ScriptCore.Binary64
