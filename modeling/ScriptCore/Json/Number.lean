import ScriptCore.Numeral.Literal

/-!
# ScriptCore.Json.Number

The numbers of settings documents, **as they are read**: whole numbers exactly, all others by a fast
rule that rounds more than once.

Design points:

* Digits are gathered into one word of 64 bits. The first digit that no longer fits, and every digit
  behind it, counts for the position of the point only.
* The word is then scaled by a power of ten in double precision, so a result may be off by a last bit
  from the nearest number. That is the rule, and settings keep the number that it gives.
* A number that becomes infinite is refused.
-/

namespace ScriptCore

/-- A number as it is written. -/
structure JsonNumber where
  /-- A minus sign stands in front. -/
  negative : Bool
  /-- The digits before the point. -/
  whole : List Char
  /-- The digits after the point, none if there is no point. -/
  fraction : Option (List Char)
  /-- The exponent: whether it is negative, and its digits. -/
  exponent : Option (Bool × List Char)

namespace JsonNumber

/-- The largest word. -/
def maxWord : Nat := Nat.pow 2 64 - 1

/-- The largest exponent that is evaluated. -/
def maxExponent : Nat := Nat.pow 2 31 - 1

/-- Gathers digits into a word as long as they fit. What is left begins with one that does not. -/
def gather (word : Nat) : List Char → Nat × List Char
  | [] => (word, [])
  | c :: cs =>
    let next := 10 * word + (c.toNat - 48)
    if next ≤ maxWord then gather next cs else (word, c :: cs)

/-- The power of ten as a double-precision number. -/
def powerOfTen (n : Nat) : Binary64 := .ofDecimal false 1 n

/-- Scales a number by a power of ten; nothing if it becomes infinite. Powers too small for one step
are divided off in several, until the number is zero. -/
def scale? (x : Binary64) (exponent : Int) : Nat → Option Binary64
  | 0 => some x
  | steps + 1 =>
    if exponent.natAbs ≤ 308 then
      if exponent < 0 then some (x / powerOfTen exponent.natAbs)
      else
        let y := x * powerOfTen exponent.natAbs
        if y.isInfinite then none else some y
    else if x.isZero then some x
    else if 0 ≤ exponent then none
    else scale? (x / powerOfTen 308) (exponent + 308) steps

/-- A word scaled by a power of ten. Three steps make any word zero. -/
def scaled? (n : JsonNumber) (word : Nat) (exponent : Int) : Option Binary64 :=
  (scale? (.ofNat word) exponent 4).map fun x => if n.negative then x.neg else x

/-- The number as a double-precision one, from the word and the position of the point. -/
def applyExponent? (n : JsonNumber) (word : Nat) (point : Int) : Option Binary64 :=
  match n.exponent with
  | none => n.scaled? word point
  | some (negative, digits) =>
    let e := DecimalLiteral.natOfDigits digits
    if maxExponent < e then
      if word ≠ 0 && !negative then none else some (.zero n.negative)
    else n.scaled? word (if negative then point - e else point + e)

/-- The number as a double-precision one; nothing if it is out of range. -/
def toBinary64? (n : JsonNumber) : Option Binary64 :=
  let (word, extra) := gather 0 n.whole
  match n.fraction, n.exponent, extra with
  | none, none, [] => some (if n.negative then (Binary64.ofNat word).neg else .ofNat word)
  | none, _, extra => n.applyExponent? word extra.length
  | some digits, _, extra =>
    let (all, ignored) := gather word digits
    n.applyExponent? all (extra.length - (digits.length - ignored.length : Nat))

/-- The number as a natural number that fits into a word. A sign, a point or an exponent makes it a
number of another kind. -/
def toNat? (n : JsonNumber) : Option Nat :=
  match n.negative, n.fraction, n.exponent, gather 0 n.whole with
  | false, none, none, (word, []) => some word
  | _, _, _, _ => none

end JsonNumber

end ScriptCore
