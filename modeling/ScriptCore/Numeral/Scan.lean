import ScriptCore.Text.Basic

/-!
# ScriptCore.Numeral.Scan

Telling a decimal literal from other texts, by **one index into its bytes**.

Design points:

* The index moves a byte at a time, and only past a byte that belongs to the part of the literal
  that comes next. So a literal is a text at whose end the index arrives.
* A move past the last byte would be an error (`advance`). That there is none is a theorem
  (`Proofs.Numeral.Scan`), as is that the literals found are those that `DecimalLiteral.ofChars?`
  reads.
-/

namespace ScriptCore.Numeral.Scan

/-! ### Bytes -/

/-- A decimal digit. -/
def isDigit (b : UInt8) : Bool := 48 ≤ b.toNat && b.toNat ≤ 57

/-- A sign, plus or minus. -/
def isSign (b : UInt8) : Bool := b.toNat == 43 || b.toNat == 45

/-- A point. -/
def isPoint (b : UInt8) : Bool := b.toNat == 46

/-- What an exponent begins with, small or capital. -/
def isMark (b : UInt8) : Bool := b.toNat == 101 || b.toNat == 69

/-! ### The index -/

/-- The index has been moved past the last byte. -/
structure PastEnd

variable (bytes : List UInt8)

/-- The index stands in front of a byte of the class. -/
def sees (p : UInt8 → Bool) (i : Nat) : Bool := bytes[i]?.any p

/-- The index behind the next byte. -/
def advance (i : Nat) : Except PastEnd Nat :=
  if i < bytes.length then .ok (i + 1) else .error ⟨⟩

theorem advance_eq_ok_iff {bytes : List UInt8} {i j : Nat} :
    advance bytes i = .ok j ↔ i < bytes.length ∧ i + 1 = j := by
  unfold advance
  split
  · rename_i room
    rw [Except.ok.injEq]
    exact (and_iff_right room).symm
  · rename_i stuck
    exact ⟨nofun, fun h => absurd h.1 stuck⟩

/-- The index behind a sign, if there is one. -/
def skipSign (i : Nat) : Except PastEnd Nat :=
  if sees bytes isSign i then advance bytes i else .ok i

/-- The index behind all the digits. -/
def skipDigits (i : Nat) : Except PastEnd Nat :=
  if sees bytes isDigit i then
    match moved : advance bytes i with
    | .ok next =>
      have : bytes.length - next < bytes.length - i := by
        have := advance_eq_ok_iff.mp moved
        omega
      skipDigits next
    | .error e => .error e
  else .ok i
termination_by bytes.length - i

/-- One digit, then the others. -/
theorem skipDigits_eq (i : Nat) : skipDigits bytes i =
    if sees bytes isDigit i then advance bytes i >>= skipDigits bytes else .ok i := by
  rw [skipDigits]
  by_cases digit : sees bytes isDigit i = true
  · rw [if_pos digit, if_pos digit]
    split <;> rename_i moved <;> exact (congrArg (· >>= skipDigits bytes) moved).symm
  · rw [if_neg digit, if_neg digit]

/-- The index behind the digits of a mantissa, and how many there are, those behind the point
included. -/
def skipMantissa (i : Nat) : Except PastEnd (Nat × Nat) := do
  let whole ← skipDigits bytes i
  if sees bytes isPoint whole then
    let fraction ← advance bytes whole
    let stop ← skipDigits bytes fraction
    return (stop, whole - i + (stop - fraction))
  else return (whole, whole - i)

/-- The index behind an exponent, if there is one. An exponent without digits is none that could be
skipped. -/
def skipExponent (i : Nat) : Except PastEnd (Option Nat) := do
  if sees bytes isMark i then
    let sign ← advance bytes i
    let digits ← skipSign bytes sign
    let stop ← skipDigits bytes digits
    return if stop = digits then none else some stop
  else return some i

/-- The text is a decimal literal. -/
def isDecimal (s : String) : Except PastEnd Bool := do
  let bytes := Text.bytes s
  let start ← skipSign bytes 0
  let (stop, digits) ← skipMantissa bytes start
  if digits = 0 then return false
  match ← skipExponent bytes stop with
  | none => return false
  | some stop => return stop == bytes.length

end ScriptCore.Numeral.Scan
