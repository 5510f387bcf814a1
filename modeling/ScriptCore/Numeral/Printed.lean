import ScriptCore.Numeral.Layout
import ScriptCore.Numeral.Literal

/-!
# ScriptCore.Numeral.Printed

How a number is written **with digits that were printed elsewhere**.

Design points:

* A printer of digits has a layout of its own: `1.5e-7` may come as `15e-8`, and `1` as `1.0`. All that
  is taken from its text are the digits between the zeros at either end and the place of the point,
  which each zero in front moves.
* The place of the point is counted in 32 bits. An exponent that does not fit in them counts as none.
-/

namespace ScriptCore

/-- What stands in front of the first character of a kind, and what follows it if there is one. -/
def splitOnce (p : Char → Bool) (s : List Char) : List Char × Option (List Char) :=
  (s.takeWhile (!p ·), (s.dropWhile (!p ·)).tail?)

/-- The integer that makes up all of a text, if it is one of 32 bits; zero otherwise. -/
def exponentOrZero (s : List Char) : Int32 :=
  match DecimalLiteral.exponent? ('e' :: s) with
  | some e => if (Int32.ofInt e).toInt = e then .ofInt e else 0
  | none => 0

/-- The digits of a printed number without the zeros at either end, and how many of them stand in front
of the point. -/
def readPrinted (s : List Char) : List Char × Int :=
  let (mantissa, exponent) := splitOnce (fun c => c == 'e' || c == 'E') s
  let (whole, fraction) := splitOnce (· == '.') mantissa
  let digits := whole ++ fraction.getD []
  let significant := digits.dropWhile (· == '0')
  let leading := digits.length - significant.length
  let point := Int32.ofInt whole.length + (exponent.map exponentOrZero).getD 0 - Int32.ofInt leading
  ((significant.reverse.dropWhile (· == '0')).reverse, point.toInt)

namespace Layout

/-- Digits with the point after the first `n` of them. -/
def place (l : Layout) (digits : List Char) (n : Int) : List Char :=
  if l.isPositional n then l.positional digits n else l.exponential digits n

/-- A number, where a text stands for its absolute value should that have digits. -/
def writeAs (l : Layout) (x : Binary64) (digits : List Char) : String :=
  if x.isNaN then "NaN"
  else
    let sign := if x.isNegative && (l.signsZero || !x.isZero) then ['-'] else []
    let body :=
      if x.isInfinite then l.infinity.toList
      else if x.isZero then (if l.keepsFraction then ['0', '.', '0'] else ['0'])
      else digits
    String.ofList (sign ++ body)

/-- A number, where a printed text has the digits of its absolute value. -/
def writePrinted (l : Layout) (x : Binary64) (printed : String) : String :=
  let (digits, point) := readPrinted printed.toList
  l.writeAs x (l.place digits point)

end Layout

end ScriptCore
