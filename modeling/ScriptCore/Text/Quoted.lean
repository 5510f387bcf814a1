import ScriptCore.Text.Printable

/-!
# ScriptCore.Text.Quoted

Text **in quotes**, for diagnostics: what cannot be seen, or would join what stands before it, is
written as an escape.
-/

namespace ScriptCore

/-- The escape of a character by its number. -/
def numericEscape (c : Char) : List Char :=
  ['\\', 'u', '\x7b'] ++ Nat.toDigits 16 c.toNat ++ ['\x7d']

/-- How a character is written between quotes. -/
def quotedChar (c : Char) : List Char :=
  if c = '\x00' then ['\\', '0']
  else if c = '\t' then ['\\', 't']
  else if c = '\r' then ['\\', 'r']
  else if c = '\n' then ['\\', 'n']
  else if c = '"' ∨ c = '\\' then ['\\', c]
  else if isJoining c || !isPrintable c then numericEscape c
  else [c]

/-- A text in quotes. -/
def quoted (s : String) : String :=
  String.ofList ('"' :: s.toList.flatMap quotedChar ++ ['"'])

end ScriptCore
