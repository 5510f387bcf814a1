/-!
# ScriptCore.Text.Blank

The characters that carry no meaning at the ends of a numeral: the Unicode property
**White_Space**, and the byte order mark.
-/

namespace ScriptCore

/-- The Unicode property White_Space. -/
def isWhiteSpace (c : Char) : Bool :=
  let n := c.toNat
  (0x09 ≤ n && n ≤ 0x0d) || n == 0x20 || n == 0x85 || n == 0xa0 || n == 0x1680 ||
    (0x2000 ≤ n && n ≤ 0x200a) || n == 0x2028 || n == 0x2029 || n == 0x202f || n == 0x205f ||
    n == 0x3000

/-- White space, or the byte order mark. -/
def isBlank (c : Char) : Bool := isWhiteSpace c || c.toNat == 0xfeff

/-- A text without the blanks at either end. -/
def trimBlanks (s : List Char) : List Char :=
  ((s.dropWhile isBlank).reverse.dropWhile isBlank).reverse

end ScriptCore
