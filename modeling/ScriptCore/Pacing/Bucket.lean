import ScriptCore.Binary64.Rounding
import ScriptCore.Pacing.Timers

/-!
# ScriptCore.Pacing.Bucket

The **token bucket**: it refills at a steady rate up to its capacity, and a request that finds too
little waits for the rest.

Design points:

* A request takes its tokens at once, even below zero, and then waits until the debt is paid. Later
  requests queue up behind it by finding the debt.
* A refused request takes nothing, and one that is cancelled while it waits gives back what it took.
-/

namespace ScriptCore

/-- Why a request was refused. -/
inductive Refusal where
  /-- Cancelled before or while waiting. -/
  | cancelled
  /-- The capacity is smaller than the request. -/
  | exceedsBurst (requested burst : Nat)
  /-- The deadline comes before the tokens. -/
  | wouldExceedDeadline
deriving DecidableEq

/-- The name of the cause. -/
def Refusal.name : Refusal → String
  | .cancelled => "Cancelled"
  | .exceedsBurst .. => "ExceedsBurst"
  | .wouldExceedDeadline => "WouldExceedDeadline"

/-- The wording of a refusal. -/
def Refusal.message : Refusal → String
  | .cancelled => "wait cancelled"
  | .exceedsBurst requested burst =>
    "wait(" ++ toString requested ++ ") exceeds limiter's burst " ++ toString burst
  | .wouldExceedDeadline => "wait would exceed the deadline"

/-- A token bucket. -/
structure Bucket where
  /-- Tokens per second. -/
  rate : Binary64
  /-- The capacity. -/
  burst : Nat
  /-- The balance when it was last brought up to date. -/
  tokens : Binary64
  /-- When the balance was last brought up to date. -/
  since : Nanoseconds
deriving Inhabited

namespace Bucket

/-- A full bucket. A rate that is negative or no number counts as zero. -/
def full (rate : Binary64) (burst : Nat) (now : Nanoseconds) : Bucket :=
  let zero := Binary64.zero false
  ⟨if zero.lt rate then rate else zero, burst, .ofNat burst, now⟩

/-- The smaller of two numbers. -/
def least (x y : Binary64) : Binary64 := if y.lt x then y else x

/-- The bucket with its balance brought up to date. -/
def refill (b : Bucket) (now : Nanoseconds) : Bucket :=
  if b.since < now then
    let elapsed := Binary64.ofRatio false (now - b.since) nanosecondsPerSecond
    { b with tokens := least (b.tokens + elapsed * b.rate) (.ofNat b.burst), since := now }
  else b

/-- A number of seconds, in whole nanoseconds; none if it is negative, no number or too large. -/
def wholeNanoseconds? (seconds : Binary64) : Option Nanoseconds :=
  if !seconds.isFinite || (seconds.isNegative && !seconds.isZero) then none
  else
    let n := Binary64.divNearestEven (seconds.units * nanosecondsPerSecond) Binary64.unitsPerOne
    if n < Nat.pow 2 64 * nanosecondsPerSecond then some n else none

/-- Takes tokens, into debt if need be: the instant at which the debt is paid and the bucket
afterwards, or nothing if that is never, out of range, or past the deadline. -/
def reserve? (b : Bucket) (n : Nat) (now : Nanoseconds) (deadline : Option Nanoseconds) :
    Option (Nanoseconds × Bucket) :=
  let remaining := b.tokens - .ofNat n
  let readyAt? : Option Nanoseconds :=
    if (Binary64.zero false).le remaining then some now
    else (wholeNanoseconds? (remaining.neg / b.rate)).bind fun wait =>
      if now + wait < instantLimit then some (now + wait) else none
  readyAt?.bind fun readyAt =>
    if deadline.any (· < readyAt) then none else some (readyAt, { b with tokens := remaining })

/-- Gives tokens back, up to the capacity. -/
def restore (b : Bucket) (n : Nat) : Bucket :=
  { b with tokens := least (b.tokens + .ofNat n) (.ofNat b.burst) }

/-- Requests tokens and waits for them. -/
def request (b : Bucket) (t : Timers) (n : Nat) (token : TokenId) :
    Except Refusal Unit × Bucket × Timers :=
  if (t.token token).cancelled then (.error .cancelled, b, t)
  else if b.rate.isInfinite then (.ok (), b, t)
  else if b.burst < n then (.error (.exceedsBurst n b.burst), b, t)
  else
    let (now, t) := t.read
    let b := b.refill now
    match b.reserve? n now (t.token token).deadline with
    | none => (.error .wouldExceedDeadline, b, t)
    | some (readyAt, b) =>
      if readyAt ≤ now then (.ok (), b, t)
      else match t.waitUntil token readyAt with
        | (true, t) => (.error .cancelled, b.restore n, t)
        | (false, t) => (.ok (), b, t)

end Bucket

end ScriptCore
