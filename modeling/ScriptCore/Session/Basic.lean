import ScriptCore.Footprint.Walk
import ScriptCore.Host.Export
import ScriptCore.Object.Assign
import ScriptCore.Session.Realm
import ScriptCore.Session.Settings

/-!
# ScriptCore.Session.Basic

A **session**: a global object, a global scope, a stack of values, and the allowance of ticks that
paces its runs.

Design points:

* Every step of a run costs a tick. Ticks are requested from the limiter a fifth of its capacity at
  a time, and the allowance is raised only when the limiter grants them.
* Without a limiter a tick only looks whether the session has been cancelled; with one, the limiter
  looks, whenever it is asked.
* An interrupt ends a run between two steps and is never seen by a step. A run that fails leaves no
  value on the stack above where it started.
-/

namespace ScriptCore

/-- A request for termination from outside. -/
inductive Interrupt where
  /-- The token was cancelled. -/
  | cancelled
  /-- The limiter cannot grant the next ticks in time. -/
  | deadlineExceeded
deriving DecidableEq

/-- The name of the cause. -/
def Interrupt.name : Interrupt → String
  | .cancelled => "Cancelled"
  | .deadlineExceeded => "DeadlineExceeded"

/-- The wording of an interrupt. -/
def Interrupt.message : Interrupt → String
  | .cancelled => "execution cancelled"
  | .deadlineExceeded => "deadline exceeded"

/-- The interrupt that a refusal of the limiter amounts to. -/
def Refusal.interrupt : Refusal → Interrupt
  | .cancelled => .cancelled
  | .exceedsBurst .. | .wouldExceedDeadline => .deadlineExceeded

/-- How a run failed. -/
inductive RunError where
  /-- A step threw. -/
  | thrown (t : Thrown)
  /-- The run was interrupted between steps. -/
  | interrupted (i : Interrupt)

namespace RunError

/-- The name of the cause. -/
def name : RunError → String
  | .thrown t => t.kind.name
  | .interrupted i => i.name

/-- The wording of a failure. -/
def message : RunError → String
  | .thrown t => t.text
  | .interrupted i => "execution interrupted: " ++ i.message

/-- The run was interrupted. -/
def isInterrupt : RunError → Bool
  | .interrupted _ => true
  | .thrown _ => false

end RunError

/-- What grants ticks. -/
inductive Limiter where
  /-- A token bucket. -/
  | bucket (b : BucketId) (burst : Nat)
  /-- A limiter that the embedding knows by number. -/
  | custom (number : Nat) (burst : Nat)

/-- The capacity of a limiter. -/
def Limiter.burst : Limiter → Nat
  | .bucket _ n | .custom _ n => n

/-- How many ticks are requested at a time from a limiter of a given capacity. -/
def refillAmount (burst : Nat) : Nat := max 1 (burst / 5)

/-- A session. -/
structure Session where
  /-- The settings it was made with. -/
  settings : Settings
  /-- The shared prototypes. -/
  realm : Realm
  /-- The global object. -/
  globalObject : ObjectId
  /-- The global scope. -/
  globalScope : FrameId
  /-- The stack of values, its top last. -/
  stack : Array Value
  /-- What grants ticks; without it there is no throttling. -/
  limiter : Option Limiter
  /-- The ticks taken so far. -/
  ticks : Nat
  /-- The ticks that need no request. -/
  allowance : Nat
  /-- The token that cancels the session. -/
  token : TokenId
  /-- What is known about foreign data. -/
  oracle : SizeOracle

/-- What a step of a run comes to. -/
inductive Step where
  /-- More steps follow. -/
  | more
  /-- The run is over with a value. -/
  | done (v : Value)

variable {σ : Type}

/-- A run that uses a session. -/
abbrev Sessions (σ : Type) := StateT Session (Exec σ)

/-! ### Tokens and buckets -/

/-- Makes a token. -/
def newToken (deadline : Option Nanoseconds) : Exec σ TokenId :=
  Exec.onTimers (·.addToken deadline)

/-- Cancels a token. -/
def cancelToken (t : TokenId) : Exec σ Unit := Exec.onTimers fun timers => ((), timers.cancel t)

/-- Makes a full bucket. -/
def newBucket (rate : Binary64) (burst : Nat) : Exec σ BucketId :=
  modifyGet fun w =>
    let (now, timers) := w.timers.read
    (⟨w.buckets.size⟩, { w with timers, buckets := w.buckets.push (.full rate burst now) })

/-- The bucket with an identity, brought up to date. -/
def currentBucket (b : BucketId) : Exec σ Bucket :=
  modifyGet fun w =>
    let (now, timers) := w.timers.read
    let bucket := (w.buckets[b.index]?.getD default).refill now
    (bucket, { w with timers, buckets := w.buckets.setIfInBounds b.index bucket })

/-- Requests tokens from a bucket and waits for them. -/
def requestTokens (b : BucketId) (n : Nat) (token : TokenId) :
    ExceptT Refusal (Exec σ) Unit := ExceptT.mk <| modifyGet fun w =>
  let (answer, bucket, timers) := (w.buckets[b.index]?.getD default).request w.timers n token
  (answer, { w with timers, buckets := w.buckets.setIfInBounds b.index bucket })

/-- Requests ticks from a limiter and waits for them. -/
def Limiter.request (env : Embedding σ) (l : Limiter) (n : Nat) (token : TokenId) :
    ExceptT Refusal (Exec σ) Unit :=
  match l with
  | .bucket b _ => requestTokens b n token
  | .custom number _ => env.requestTicks number n token

namespace Session

/-! ### Making a session -/

/-- The session with another limiter, or none. The allowance starts with what one request grants. -/
def setLimiter (s : Session) (limiter : Option Limiter) : Session :=
  { s with limiter, allowance := limiter.elim 0 fun l => refillAmount l.burst }

/-- Makes a session without a limiter. -/
def create (settings : Settings) : Exec σ Session := do
  let realm ← Exec.onHeap Realm.create
  let globalObject ← Exec.onHeap (·.addObject (.new .plain (some realm.objectPrototype)))
  let globalScope ← Exec.onHeap (·.addFrame ⟨#[], none, none⟩)
  let token ← newToken none
  return ⟨settings, realm, globalObject, globalScope, #[], none, 0, 0, token, fun _ => none⟩

/-- Makes a session with the limiter that its settings ask for. -/
def start (settings : Settings) : ExceptT SettingsError (Exec σ) Session := do
  match settings.check with
  | .error e => throw e
  | .ok settings =>
    let s ← ExceptT.lift (create settings)
    match settings.rateLimit with
    | none => return s
    | some l =>
      let b ← ExceptT.lift (newBucket l.rate l.burst)
      return s.setLimiter (some (.bucket b l.burst))

/-! ### The stack -/

/-- Puts a value on top of the stack. -/
def push (s : Session) (v : Value) : Session := { s with stack := s.stack.push v }

/-- Takes the value on top of the stack, if there is one. -/
def pop (s : Session) : Option Value × Session := (s.stack.back?, { s with stack := s.stack.pop })

/-! ### Ticks and runs -/

/-- Takes one tick. -/
def tick (env : Embedding σ) : ExceptT Interrupt (Sessions σ) Unit := do
  modify fun s => { s with ticks := s.ticks + 1 }
  let s ← getThe Session
  match s.limiter with
  | none =>
    if (← getThe (World σ)).timers.token s.token |>.cancelled then throw .cancelled
  | some limiter =>
    if 0 < s.allowance then set { s with allowance := s.allowance - 1 }
    else
      let n := refillAmount limiter.burst
      match ← (limiter.request env n s.token).run with
      | .ok () => modify fun s => { s with allowance := n }
      | .error refusal => throw refusal.interrupt

/-- Takes several ticks until one is interrupted: what is left of the allowance after each, and the
interrupt, if there was one. -/
def takeTicks (env : Embedding σ) : Nat → Sessions σ (List Nat × Option Interrupt)
  | 0 => return ([], none)
  | n + 1 => do
    let outcome ← (tick env).run
    let left := (← getThe Session).allowance
    match outcome with
    | .error i => return ([left], some i)
    | .ok () =>
      let (lefts, interrupt) ← takeTicks env n
      return (left :: lefts, interrupt)

/-- Takes steps, at most a number of them, until one ends the run. -/
def runWithin (env : Embedding σ) (step : ExceptT Thrown (Sessions σ) Step) :
    Nat → ExceptT RunError (Sessions σ) Value
  | 0 => fun _ => Exec.endless
  | n + 1 => do
    match ← (tick env).run with
    | .error i => throw (.interrupted i)
    | .ok () => match ← step.run with
      | .error t => throw (.thrown t)
      | .ok .more => runWithin env step n
      | .ok (.done v) => return v

/-- Takes steps until one ends the run. If the run fails, the stack is cut to its height at the
start. -/
def run (env : Embedding σ) (step : ExceptT Thrown (Sessions σ) Step) :
    ExceptT RunError (Sessions σ) Value := do
  let height := (← getThe Session).stack.size
  tryCatch (runWithin env step env.patience) fun e => do
    modify fun s => { s with stack := s.stack.take height }
    throw e

/-! ### The host's side -/

/-- The value of a script for a value of the host. -/
def toValue (s : Session) (v : HostValue) : Exec σ Value :=
  Exec.onHeap (·.wrap s.realm.hostPrototypes v)

/-- Assigns a value of the host to a global property. -/
def setGlobal (env : Embedding σ) (s : Session) (name : String) (v : HostValue) :
    Throws σ Unit := do
  let v ← ExceptT.lift (s.toValue v)
  if !(← setProperty env s.globalObject (.ofString name) v) then throw (.readOnlyGlobal name)

/-- The value of a global property, if there is one. A getter that throws gives `undefined`. -/
def getGlobal (env : Embedding σ) (s : Session) (name : String) : Exec σ (Option Value) := do
  if ← hasProperty env s.globalObject (.ofString name) then
    return some (← getOrUndefined env s.globalObject (.ofString name))
  else return none

/-- Exports a value in the shape that fits best. One that cannot be exported passes through. -/
def exportOrPass (env : Embedding σ) (v : Value) : Exec σ HostValue := do
  return match ← (exportAny env v).run with
    | .ok exported => exported
    | .error _ => .script v

/-! ### Making objects -/

/-- The prototype that objects of a payload get in a session. -/
def prototypeFor (s : Session) : Payload → Option ObjectId
  | .plain | .boxed _ | .date _ => some s.realm.objectPrototype
  | .array _ => some s.realm.arrayPrototype
  | .function _ => some s.realm.functionPrototype
  | .map _ => some s.realm.mapPrototype
  | .set _ => some s.realm.setPrototype
  | _ => none

/-- Makes an object with the prototype for its payload. -/
def newObject (s : Session) (payload : Payload) : Exec σ ObjectId :=
  Exec.onHeap (·.addObject (.new payload (s.prototypeFor payload)))

/-- Puts a primitive into a box. An object stays as it is. -/
def boxed (s : Session) (v : Value) : Exec σ ObjectId :=
  match v with
  | .object o => return o
  | v => s.newObject (.boxed v)

/-! ### Memory -/

/-- What the session holds: the global object, the global scope and the stack. -/
def usage (h : Heap) (s : Session) : Estimate Usage := do
  let object ← nodeUsageHere h (.value (.object s.globalObject))
  let scope ← nodeUsageHere h (.scope s.globalScope)
  let stack ← rootUsage h (.values s.stack.toList)
  return object + scope + stack

/-- The estimate of what the session holds, with a context of its own. -/
def memoryUsage (h : Heap) (s : Session) : Except TooDeep Usage :=
  ((s.usage h).run (.new s.settings.limits s.oracle)).1

/-- The description of the session. -/
def describe (s : Session) (cancelled : Bool) : String :=
  "Runtime \x7b stack_depth: " ++ toString s.stack.size ++ ", limiter: None, ticks: " ++
    toString s.ticks ++ ", ticks_left: " ++ toString s.allowance ++ ", cancelled: " ++
    toString cancelled ++ ", .. \x7d"

end Session

end ScriptCore
