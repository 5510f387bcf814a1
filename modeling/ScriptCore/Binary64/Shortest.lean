import ScriptCore.Binary64.Rounding

/-!
# ScriptCore.Binary64.Shortest

The decimal that names a number: **the fewest digits that read back**, and among those the nearest.

Design points:

* A number's *catchment* is the interval of reals that round to it. It reaches half a spacing to
  either side, or a quarter of one below a number whose lower neighbour is in the binade below, and
  it has its end points exactly when the significand is even.
* For one, two, … digits the two grid points next to the number are tried. The first grid with a
  point in the catchment wins; of two points the nearer is taken, and an exact tie is settled by the
  caller, because printers differ in it.
* Lengths are in quarters of a unit, so every comparison is one of natural numbers.
-/

namespace ScriptCore

/-- A decimal: `digits · 10 ^ exponent`. -/
structure Decimal where
  /-- All the digits, as one number. -/
  digits : Nat
  /-- The power of ten of the last digit. -/
  exponent : Int
deriving DecidableEq, Repr

/-- Which of two equally near decimals is taken. -/
inductive Tie where
  /-- The one whose last digit is even. -/
  | toEven
  /-- The one farther from zero. -/
  | away
deriving DecidableEq, Repr

namespace Binary64

/-- One, in quarters of a unit. -/
def quartersPerOne : Nat := 4 * unitsPerOne

/-- The reals that round to a positive number, in quarters of a unit. -/
structure Catchment where
  /-- The lower end. -/
  lower : Nat
  /-- The upper end. -/
  upper : Nat
  /-- The ends belong to the interval. -/
  closed : Bool

/-- `num / den` quarters lie in the interval. -/
def Catchment.holds (c : Catchment) (num den : Nat) : Bool :=
  if c.closed then c.lower * den ≤ num && num ≤ c.upper * den
  else c.lower * den < num && num < c.upper * den

/-- The catchment of a positive finite number. -/
def catchment (x : Binary64) : Catchment :=
  let m := x.magnitude
  let spacing := Nat.pow 2 (scale m)
  let below := if m % Nat.pow 2 52 = 0 ∧ Nat.pow 2 53 ≤ m then spacing else 2 * spacing
  ⟨4 * x.units - below, 4 * x.units + 2 * spacing, m % 2 == 0⟩

/-- The number of decimal digits. -/
def digitCount (n : Nat) : Nat := (Nat.toDigits 10 n).length

/-- The decimal order of a positive finite number: it lies in `10 ^ (order - 1) … 10 ^ order`. The
factor `10 ^ 400` lifts every number above one. -/
def decimalOrder (x : Binary64) : Int :=
  digitCount (x.units * Nat.pow 10 400 / unitsPerOne) - 400

/-- The decimal of `count` digits that reads back as a positive finite number, if there is one. -/
def decimalOfLength? (tie : Tie) (x : Binary64) (count : Nat) : Option Decimal :=
  let order := x.decimalOrder
  let grid : Int := order - count
  -- the number is `num / den` grid steps
  let num := 4 * x.units * Nat.pow 10 (-grid).toNat
  let den := quartersPerOne * Nat.pow 10 grid.toNat
  let below := num / den
  let here (step : Nat) : Bool := x.catchment.holds (step * den) (Nat.pow 10 (-grid).toNat)
  let pick (step : Nat) : Decimal := if step = Nat.pow 10 count then ⟨1, order⟩ else ⟨step, grid⟩
  match here below, here (below + 1) with
  | false, false => none
  | true, false => some (pick below)
  | false, true => some (pick (below + 1))
  | true, true =>
    let twice := 2 * (num % den)
    let up := den < twice ||
      (twice == den && (match tie with | .away => true | .toEven => below % 2 == 1))
    some (pick (if up then below + 1 else below))

/-- The shortest decimal that reads back as a positive finite number. Seventeen digits always
suffice. -/
def shortest (tie : Tie) (x : Binary64) : Decimal :=
  ((List.range 17).findSome? fun n => x.decimalOfLength? tie (n + 1)).getD ⟨0, 0⟩

end Binary64

end ScriptCore
