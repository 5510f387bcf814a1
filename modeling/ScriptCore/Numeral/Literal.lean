import ScriptCore.Binary64.Rounding

/-!
# ScriptCore.Numeral.Literal

The **literals** a numeral may consist of: decimal ones, and whole numbers in a radix of two, eight
or sixteen.

Design points:

* `DecimalLiteral.ofChars?` takes a text apart: sign, digits, fraction, exponent. It reads each part
  with `takeWhile`/`dropWhile` and accepts only if nothing is left.
* A radix literal is evaluated digit by digit in double precision. Each step is checked by undoing
  it, so a literal whose digits no longer fit counts as too large and is infinite.
-/

namespace ScriptCore

/-- A decimal literal, read: `± digits · 10 ^ exponent`. -/
structure DecimalLiteral where
  /-- A minus sign stands in front. -/
  negative : Bool
  /-- The digits of the whole part and the fraction, as one number. -/
  digits : Nat
  /-- The exponent that is written, less the number of digits in the fraction. -/
  exponent : Int
deriving DecidableEq, Repr

namespace DecimalLiteral

/-- The number that decimal digits denote. -/
def natOfDigits (ds : List Char) : Nat := ds.foldl (fun n c => 10 * n + (c.toNat - 48)) 0

/-- An optional sign in front: whether it is a minus, and what follows. -/
def splitSign : List Char → Bool × List Char
  | '-' :: rest => (true, rest)
  | '+' :: rest => (false, rest)
  | rest => (false, rest)

/-- The digits in front and what follows them. -/
def splitDigits (s : List Char) : List Char × List Char :=
  (s.takeWhile Char.isDigit, s.dropWhile Char.isDigit)

/-- An optional fraction in front: its digits, and what follows. -/
def splitFraction : List Char → List Char × List Char
  | '.' :: rest => splitDigits rest
  | rest => ([], rest)

/-- The exponent that makes up all of a text; no text means zero. -/
def exponent? : List Char → Option Int
  | [] => some 0
  | c :: rest =>
    if c = 'e' ∨ c = 'E' then
      let (negative, body) := splitSign rest
      let (digits, left) := splitDigits body
      if digits.isEmpty || !left.isEmpty then none
      else some (if negative then -natOfDigits digits else natOfDigits digits)
    else none

/-- Reads a whole text as a decimal literal. There must be a digit in front of the exponent, on
either side of the point. -/
def ofChars? (s : List Char) : Option DecimalLiteral :=
  let (negative, body) := splitSign s
  let (whole, rest) := splitDigits body
  let (fraction, tail) := splitFraction rest
  if whole.isEmpty && fraction.isEmpty then none
  else (exponent? tail).map fun e =>
    ⟨negative, natOfDigits (whole ++ fraction), e - fraction.length⟩

/-- The number nearest to the literal. -/
def value (l : DecimalLiteral) : Binary64 := .ofDecimal l.negative l.digits l.exponent

end DecimalLiteral

/-! ### Radix literals -/

/-- The value of a digit in a radix up to sixteen. -/
def digitValue? (radix : Nat) (c : Char) : Option Nat :=
  let n := c.toNat
  let value? :=
    if 48 ≤ n ∧ n ≤ 57 then some (n - 48)
    else if 97 ≤ n ∧ n ≤ 102 then some (n - 87)
    else if 65 ≤ n ∧ n ≤ 70 then some (n - 55)
    else none
  value?.filter (· < radix)

namespace RadixLiteral

/-- One more digit. Nothing if the digit was lost in the sum: it does not come out again by
undoing the step. -/
def step? (radix : Nat) (prev : Binary64) (digit : Nat) : Option Binary64 :=
  let r := Binary64.ofNat radix
  let next := prev * r + Binary64.ofNat digit
  if prev.isZero then some next
  else if next.le prev || !prev.numEq ((next - Binary64.ofNat digit) / r) then none
  else some next

/-- The value of digits in a radix, infinite once a digit is lost. -/
def valueFrom (radix : Nat) (acc : Binary64) : List Nat → Binary64
  | [] => acc
  | d :: ds => match step? radix acc d with
    | some next => valueFrom radix next ds
    | none => .infinity false

/-- Reads a whole text as digits of a radix; at least one is needed. -/
def ofChars? (radix : Nat) (s : List Char) : Option (List Nat) :=
  if s.isEmpty then none else s.mapM (digitValue? radix)

/-- The value of digits in a radix. -/
def value (radix : Nat) (ds : List Nat) : Binary64 := valueFrom radix (.zero false) ds

end RadixLiteral

end ScriptCore
