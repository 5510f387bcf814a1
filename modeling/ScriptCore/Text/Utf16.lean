/-!
# ScriptCore.Text.Utf16

Text as **16-bit code units**.

A character below `0x10000` is one unit; any other is a high surrogate followed by a low one. A
sequence of units may hold surrogates that pair with nothing. Such a sequence has no exact text, and
`decode` shows a replacement character for each of them.
-/

namespace ScriptCore.Utf16

/-- The units of one character. -/
def encodeChar (c : Char) : List UInt16 :=
  let n := c.toNat
  if n < 0x10000 then [.ofNat n]
  else [.ofNat (0xd800 + (n - 0x10000) / 0x400), .ofNat (0xdc00 + (n - 0x10000) % 0x400)]

/-- The units of a text. -/
def encode (s : List Char) : List UInt16 := s.flatMap encodeChar

/-- The unit is the first half of a pair. -/
def isHigh (u : UInt16) : Bool := 0xd800 ≤ u && u < 0xdc00

/-- The unit is the second half of a pair. -/
def isLow (u : UInt16) : Bool := 0xdc00 ≤ u && u < 0xe000

/-- The character of a pair. -/
def pairChar (high low : UInt16) : Char :=
  .ofNat (0x10000 + (high.toNat - 0xd800) * 0x400 + (low.toNat - 0xdc00))

/-- The character shown for a surrogate that pairs with nothing. -/
def replacement : Char := .ofNat 0xfffd

/-- The character of a unit that is not part of a pair. -/
def singleChar (u : UInt16) : Char :=
  if isHigh u || isLow u then replacement else .ofNat u.toNat

/-- The text of a sequence of units. -/
def decode : List UInt16 → List Char
  | [] => []
  | [u] => [singleChar u]
  | u :: v :: rest =>
    if isHigh u && isLow v then pairChar u v :: decode rest
    else singleChar u :: decode (v :: rest)

/-- Every surrogate is half of a pair, so that the text is exact. -/
def isWellFormed (us : List UInt16) : Bool := encode (decode us) == us

end ScriptCore.Utf16
