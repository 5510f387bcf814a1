import ScriptCore.Binary64.Basic

/-!
# ScriptCore.Binary64.Hex

Words as text: the **sixteen hexadecimal digits** of a double-precision number, which tell apart what
decimal digits do not, such as the zeros.
-/

namespace ScriptCore.Binary64

/-- The hexadecimal digit of a number below sixteen. -/
def hexDigit (n : Nat) : Char := Nat.digitChar (n % 16)

/-- The lowest hexadecimal digits of a number, `count` of them. -/
def hexDigits (n : Nat) : Nat → List Char
  | 0 => []
  | count + 1 => hexDigits (n / 16) count ++ [hexDigit n]

/-- The sixteen digits of the word. -/
def toHex (x : Binary64) : String := String.ofList (hexDigits x.bits.toNat 16)

/-- The value of a hexadecimal digit; zero for any other character. -/
def hexValue (c : Char) : Nat :=
  if c.isDigit then c.toNat - 48 else if 'a' ≤ c ∧ c ≤ 'f' then c.toNat - 87 else 0

/-- The number whose word has given digits. -/
def ofHex (s : String) : Binary64 := ⟨.ofNat (s.toList.foldl (fun n c => 16 * n + hexValue c) 0)⟩

end ScriptCore.Binary64
