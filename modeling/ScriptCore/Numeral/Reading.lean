import ScriptCore.Numeral.Literal
import ScriptCore.Text.Blank

/-!
# ScriptCore.Numeral.Reading

The number a **text** stands for when a number is wanted.

Blanks at the ends do not count, an empty text is zero, and a text that is not a numeral from end to
end is not a number.
-/

namespace ScriptCore.Numeral

/-- The radix that a prefix announces, and what follows the prefix. -/
def splitRadix? : List Char → Option (Nat × List Char)
  | '0' :: c :: rest =>
    if c = 'x' ∨ c = 'X' then some (16, rest)
    else if c = 'o' ∨ c = 'O' then some (8, rest)
    else if c = 'b' ∨ c = 'B' then some (2, rest)
    else none
  | _ => none

/-- The number that a text without blanks at its ends denotes. -/
def ofTrimmed? (s : List Char) : Option Binary64 :=
  if s.isEmpty then some (.zero false)
  else if s = "Infinity".toList ∨ s = "+Infinity".toList then some (.infinity false)
  else if s = "-Infinity".toList then some (.infinity true)
  else match splitRadix? s with
    | some (radix, rest) => (RadixLiteral.ofChars? radix rest).map (RadixLiteral.value radix)
    | none => (DecimalLiteral.ofChars? s).map DecimalLiteral.value

/-- The number that a text denotes. -/
def read (s : String) : Binary64 := (ofTrimmed? (trimBlanks s.toList)).getD .nan

end ScriptCore.Numeral
