import ScriptCore.Binary64.Shortest

/-!
# ScriptCore.Numeral.Layout

How a number is **written**: its shortest digits, placed by a layout.

Design points:

* The digits come from `Binary64.shortest`; a `Layout` only decides where the point goes, when an
  exponent is used and how it is spelled, and the words for what has no digits.
* Scripts see `Layout.script`. Texts meant for people use `Layout.plain`, which never has an
  exponent, and `Layout.diagnostic`, which marks every number as one with a fraction.
-/

namespace ScriptCore

/-- The decisions of a number format. A number with `k` digits and the point after the first `n` of
them (`n` may be negative or above `k`) is written with an exponent unless `n` is in range. -/
structure Layout where
  /-- Positional notation needs `n` above this; no bound if absent. -/
  above : Option Int
  /-- Positional notation needs `n` at most this; no bound if absent. -/
  upTo : Option Int
  /-- A whole number in positional notation ends in `.0`. -/
  keepsFraction : Bool
  /-- A nonnegative exponent carries a plus sign. -/
  signsExponent : Bool
  /-- Negative zero keeps its sign. -/
  signsZero : Bool
  /-- The word for infinity. -/
  infinity : String
  /-- How equally near digits are chosen. -/
  tie : Tie

namespace Layout

/-- The number format of scripts: positional from `10⁻⁶` up to below `10²¹`. -/
def script : Layout := ⟨some (-6), some 21, false, true, false, "Infinity", .toEven⟩

/-- The format of diagnostic texts: positional from `10⁻⁴` up to below `10¹⁶`, always with a
fraction. -/
def diagnostic : Layout := ⟨some (-4), some 16, true, false, true, "inf", .away⟩

/-- The format of messages: positional whatever the size. -/
def plain : Layout := ⟨none, none, false, false, true, "inf", .away⟩

/-- The layout writes a number whose point stands at `n` without an exponent. -/
def isPositional (l : Layout) (n : Int) : Bool :=
  l.above.all (· < n) && l.upTo.all (n ≤ ·)

/-- Digits with the point after the first `n` of them, filled up with zeros as needed. -/
def positional (l : Layout) (digits : List Char) (n : Int) : List Char :=
  let k : Int := digits.length
  if k ≤ n then
    digits ++ List.replicate (n - k).toNat '0' ++ (if l.keepsFraction then ['.', '0'] else [])
  else if 0 < n then digits.take n.toNat ++ '.' :: digits.drop n.toNat
  else '0' :: '.' :: List.replicate (-n).toNat '0' ++ digits

/-- The sign and digits of an exponent. -/
def exponent (l : Layout) (e : Int) : List Char :=
  (if e < 0 then ['-'] else if l.signsExponent then ['+'] else []) ++ Nat.toDigits 10 e.natAbs

/-- Digits with the point after the first and an exponent that makes up for it. -/
def exponential (l : Layout) (digits : List Char) (n : Int) : List Char :=
  let mantissa := match digits with
    | first :: rest => if rest.isEmpty then [first] else first :: '.' :: rest
    | [] => []
  mantissa ++ 'e' :: l.exponent (n - 1)

/-- A decimal without a sign. -/
def decimal (l : Layout) (d : Decimal) : List Char :=
  let digits := Nat.toDigits 10 d.digits
  let n := d.exponent + digits.length
  if l.isPositional n then l.positional digits n else l.exponential digits n

/-- A number. -/
def write (l : Layout) (x : Binary64) : String :=
  if x.isNaN then "NaN"
  else
    let sign := if x.isNegative && (l.signsZero || !x.isZero) then ['-'] else []
    let body :=
      if x.isInfinite then l.infinity.toList
      else if x.isZero then (if l.keepsFraction then ['0', '.', '0'] else ['0'])
      else l.decimal (x.shortest l.tie)
    String.ofList (sign ++ body)

end Layout

end ScriptCore
