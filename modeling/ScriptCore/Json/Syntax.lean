import ScriptCore.Json.Number
import ScriptCore.Text.Utf16

/-!
# ScriptCore.Json.Syntax

The **documents** that settings are written in: JSON, taken strictly.

Design points:

* A reader takes characters and gives a value and what is left. Containers are read with a budget of
  steps that the length of the text covers, so that every reader is total.
* A string keeps its code units, because an escape may name half a surrogate pair. Whether that is
  acceptable depends on where the string stands.
-/

namespace ScriptCore

/-- A JSON document. -/
inductive Json where
  /-- The null value. -/
  | null
  /-- A truth value. -/
  | bool (b : Bool)
  /-- A number, as written. -/
  | number (n : JsonNumber)
  /-- A string, in code units. -/
  | string (units : List UInt16)
  /-- An array. -/
  | array (items : List Json)
  /-- An object with its members in order, duplicates included. -/
  | object (members : List (List UInt16 × Json))

namespace Json

/-! ### Tokens -/

/-- The character may stand between tokens. -/
def isSpace (c : Char) : Bool := c = ' ' || c = '\n' || c = '\t' || c = '\r'

/-- The text without the space in front. -/
def skipSpace (s : List Char) : List Char := s.dropWhile isSpace

/-- Reads a fixed word. -/
def readWord? : List Char → List Char → Option (List Char)
  | [], rest => some rest
  | w :: ws, c :: cs => if w = c then readWord? ws cs else none
  | _ :: _, [] => none

/-- Reads one or more digits. -/
def readDigits? (s : List Char) : Option (List Char × List Char) :=
  let (digits, rest) := DecimalLiteral.splitDigits s
  if digits.isEmpty then none else some (digits, rest)

/-- Reads an exponent, if there is one. -/
def readExponent? : List Char → Option (Option (Bool × List Char) × List Char)
  | c :: rest =>
    if c = 'e' ∨ c = 'E' then
      let (negative, body) := DecimalLiteral.splitSign rest
      (readDigits? body).map fun (digits, rest) => (some (negative, digits), rest)
    else some (none, c :: rest)
  | [] => some (none, [])

/-- Reads a fraction, if there is one. -/
def readFraction? : List Char → Option (Option (List Char) × List Char)
  | '.' :: rest => (readDigits? rest).map fun (digits, rest) => (some digits, rest)
  | rest => some (none, rest)

/-- Reads a number. There is no plus sign in front, and no zero in front of other digits. -/
def readNumber? (s : List Char) : Option (JsonNumber × List Char) := do
  let (negative, body) := match s with
    | '-' :: rest => (true, rest)
    | rest => (false, rest)
  let (whole, rest) ← readDigits? body
  if whole.head? = some '0' ∧ whole.length ≠ 1 then none
  let (fraction, rest) ← readFraction? rest
  let (exponent, rest) ← readExponent? rest
  return (⟨negative, whole, fraction, exponent⟩, rest)

/-- The unit that a simple escape stands for. -/
def escapedUnit? : Char → Option UInt16
  | '"' => some 0x22
  | '\\' => some 0x5c
  | '/' => some 0x2f
  | 'b' => some 0x08
  | 'f' => some 0x0c
  | 'n' => some 0x0a
  | 'r' => some 0x0d
  | 't' => some 0x09
  | _ => none

/-- The number of four hexadecimal digits. -/
def hexUnit? (digits : List Char) : Option UInt16 := do
  let values ← digits.mapM (digitValue? 16)
  return .ofNat (values.foldl (fun n d => 16 * n + d) 0)

/-- Reads the rest of a string, up to the quote that ends it. -/
def readString? : List Char → Option (List UInt16 × List Char)
  | [] => none
  | '"' :: rest => some ([], rest)
  | '\\' :: 'u' :: a :: b :: c :: d :: rest => do
    let unit ← hexUnit? [a, b, c, d]
    let (units, rest) ← readString? rest
    return (unit :: units, rest)
  | '\\' :: c :: rest => do
    let unit ← escapedUnit? c
    let (units, rest) ← readString? rest
    return (unit :: units, rest)
  | c :: rest =>
    if c.toNat < 0x20 then none
    else do
      let (units, rest) ← readString? rest
      return (Utf16.encodeChar c ++ units, rest)

/-! ### Values -/

mutual

/-- Reads a value within a number of steps. -/
def readValue? : Nat → List Char → Option (Json × List Char)
  | 0, _ => none
  | n + 1, s => match skipSpace s with
    | '"' :: rest => (readString? rest).map fun (units, rest) => (.string units, rest)
    | '[' :: rest => match skipSpace rest with
      | ']' :: rest => some (.array [], rest)
      | rest => (readItems? n rest).map fun (items, rest) => (.array items, rest)
    | '\x7b' :: rest => match skipSpace rest with
      | '\x7d' :: rest => some (.object [], rest)
      | rest => (readMembers? n rest).map fun (members, rest) => (.object members, rest)
    | 'n' :: rest => (readWord? ['u', 'l', 'l'] rest).map fun rest => (.null, rest)
    | 't' :: rest => (readWord? ['r', 'u', 'e'] rest).map fun rest => (.bool true, rest)
    | 'f' :: rest => (readWord? ['a', 'l', 's', 'e'] rest).map fun rest => (.bool false, rest)
    | s => (readNumber? s).map fun (n, rest) => (.number n, rest)

/-- Reads the items of an array from the first on, up to the bracket that ends it. -/
def readItems? : Nat → List Char → Option (List Json × List Char)
  | 0, _ => none
  | n + 1, s => do
    let (item, rest) ← readValue? n s
    match skipSpace rest with
    | ']' :: rest => return ([item], rest)
    | ',' :: rest =>
      let (items, rest) ← readItems? n rest
      return (item :: items, rest)
    | _ => none

/-- Reads the members of an object from the first on, up to the brace that ends it. -/
def readMembers? : Nat → List Char → Option (List (List UInt16 × Json) × List Char)
  | 0, _ => none
  | n + 1, s => match skipSpace s with
    | '"' :: rest => do
      let (key, rest) ← readString? rest
      match skipSpace rest with
      | ':' :: rest =>
        let (value, rest) ← readValue? n rest
        match skipSpace rest with
        | '\x7d' :: rest => return ([(key, value)], rest)
        | ',' :: rest =>
          let (members, rest) ← readMembers? n rest
          return ((key, value) :: members, rest)
        | _ => none
      | _ => none
    | _ => none

end

/-- Reads a whole text as one document. -/
def read? (text : String) : Option Json := do
  let s := text.toList
  let (value, rest) ← readValue? (2 * s.length + 2) s
  if (skipSpace rest).isEmpty then return value else none

end Json

end ScriptCore
