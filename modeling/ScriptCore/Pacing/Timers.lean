/-!
# ScriptCore.Pacing.Timers

Time and **cancellation**: a clock, tokens that can be cancelled, and cancellations that are due at a
later instant.

Design points:

* Time is data. Instants are nanoseconds of a clock that moves only when it is read or waited for,
  so a wait is a function: it ends at its instant, or earlier at the cancellation that comes first.
* Two readings of the clock never agree. What has passed once stays passed.
* Tokens are shared by identity: whoever holds a token sees its cancellation.
-/

namespace ScriptCore

/-- An instant, or a length of time, in nanoseconds. -/
abbrev Nanoseconds := Nat

/-- One second. -/
def nanosecondsPerSecond : Nanoseconds := 1000000000

/-- Some milliseconds. -/
def milliseconds (n : Nat) : Nanoseconds := n * 1000000

/-- The first instant that the clock cannot represent. -/
def instantLimit : Nanoseconds := Nat.pow 2 63 * nanosecondsPerSecond

/-- The identity of a cancellation token. -/
structure TokenId where
  /-- The place among the tokens. -/
  index : Nat
deriving DecidableEq

/-- A cancellation token. -/
structure Token where
  /-- Someone has cancelled it. -/
  cancelled : Bool
  /-- The instant that waits with this token may not go past. -/
  deadline : Option Nanoseconds
deriving Inhabited

/-- The clock with everything that hangs on it. -/
structure Timers where
  /-- The present. -/
  now : Nanoseconds
  /-- The tokens that were made. -/
  tokens : Array Token
  /-- Cancellations that will happen, with their instants. -/
  due : List (Nanoseconds × TokenId)

namespace Timers

/-- The clock at the start. -/
def start : Timers := ⟨nanosecondsPerSecond, #[], []⟩

instance : Inhabited Timers := ⟨start⟩

/-- The token with an identity. -/
def token (t : Timers) (id : TokenId) : Token := t.tokens[id.index]?.getD default

/-- Adds a token. -/
def addToken (t : Timers) (deadline : Option Nanoseconds) : TokenId × Timers :=
  (⟨t.tokens.size⟩, { t with tokens := t.tokens.push ⟨false, deadline⟩ })

/-- Cancels a token, for good. -/
def cancel (t : Timers) (id : TokenId) : Timers :=
  { t with tokens := t.tokens.modify id.index fun tok => { tok with cancelled := true } }

/-- Moves the clock forward and lets the cancellations happen that are due by then. -/
def advanceTo (t : Timers) (instant : Nanoseconds) : Timers :=
  let now := max t.now instant
  let (past, due) := t.due.partition fun e => e.1 ≤ now
  past.foldl (fun t e => t.cancel e.2) { t with now, due }

/-- Reads the clock, which is later each time. -/
def read (t : Timers) : Nanoseconds × Timers :=
  let t := t.advanceTo (t.now + 1)
  (t.now, t)

/-- Arranges for a token to be cancelled some time from now. -/
def cancelAfter (t : Timers) (id : TokenId) (delay : Nanoseconds) : Timers :=
  { t with due := (t.now + delay, id) :: t.due }

/-- Lets every cancellation happen that is still due. -/
def settle (t : Timers) : Timers :=
  t.due.foldl (fun t e => t.advanceTo e.1) t

/-- The token's deadline has been reached. -/
def isExpired (t : Timers) (id : TokenId) : Bool × Timers :=
  let (now, t) := t.read
  ((t.token id).deadline.any (· ≤ now), t)

/-- The first instant before a given one at which a token will be cancelled. -/
def cancellationBefore? (t : Timers) (id : TokenId) (stop : Nanoseconds) : Option Nanoseconds :=
  ((t.due.filter fun e => e.2 == id && e.1 < stop).map (·.1)).min?

/-- Waits until an instant or until the token is cancelled. True if cancellation ended the wait. -/
def waitUntil (t : Timers) (id : TokenId) (stop : Nanoseconds) : Bool × Timers :=
  if (t.token id).cancelled then (true, t)
  else if stop ≤ t.now then (false, t)
  else match t.cancellationBefore? id stop with
    | some instant => (true, t.advanceTo instant)
    | none => (false, t.advanceTo stop)

/-- The instant a length of time from now, if the clock can represent it. -/
def after? (t : Timers) (length : Nanoseconds) : Option Nanoseconds :=
  if t.now + length < instantLimit then some (t.now + length) else none

end Timers

end ScriptCore
