import Mathlib.Data.List.Chain
import ScriptCore.Proofs.Execution.Run
import ScriptCore.Session.Basic

/-!
# ScriptCore.Proofs.Session.Ticks

**Ticks are accounted for**: whatever a limiter answers, the ticks that a session has taken and those
that it may still take add up to what was granted.

Design points:

* Nothing is assumed of a limiter. It is any code that answers a request (`LimiterCode`), as
  `requestTokens` is for a bucket, and it may change the world on the way.
* What a limiter was asked is not read off the session: `journaled` runs the same code with a journal
  beside it, which the code cannot see, and the theorem is about the entries of that journal.
* Between two ticks anything may happen to the world, and to the session all but a change of its
  limiter, its allowance or its count of ticks (`Paced`).
-/

namespace ScriptCore

variable {σ τ : Type}

namespace Session

/-! ### One tick -/

section Tick

variable {env : Embedding σ} {s : Session} {l : Limiter} {w : World σ}

/-- While the allowance lasts, a tick takes from it, and the limiter plays no part. -/
theorem tick_of_spare (limiter : s.limiter = some l) (spare : 0 < s.allowance) :
    (tick env).run s w =
      some ((.ok (), { s with ticks := s.ticks + 1, allowance := s.allowance - 1 }), w) := by
  cases s
  cases limiter
  show (if 0 < _ then _ else _ : ExceptT Interrupt (Sessions σ) Unit) _ _ = _
  rw [if_pos spare]
  rfl

/-- The session after a tick for which the limiter was asked for a number of ticks. -/
def answered (s : Session) (n : Nat) : Except Refusal Unit → Session
  | .ok () => { s with ticks := s.ticks + 1, allowance := n }
  | .error _ => { s with ticks := s.ticks + 1 }

/-- Without an allowance, a tick is one request to the limiter. -/
theorem tick_of_empty (limiter : s.limiter = some l) (empty : s.allowance = 0) :
    (tick env).run s w =
      (l.request env (refillAmount l.burst) s.token w).map fun p =>
        ((p.1.mapError Refusal.interrupt, s.answered (refillAmount l.burst) p.1), p.2) := by
  cases s
  cases limiter
  cases empty
  show Option.bind (Option.bind (Option.bind (l.request env (refillAmount l.burst) _ w) _) _) _ = _
  cases l.request env (refillAmount l.burst) _ w with
  | none => rfl
  | some p =>
      obtain ⟨r, w'⟩ := p
      cases r <;> rfl

end Tick

end Session

/-! ### A journal of requests -/

/-- A request that a limiter has answered. -/
structure Request where
  /-- How many ticks it asked for. -/
  amount : Nat
  /-- They were granted. -/
  granted : Bool
deriving DecidableEq

/-- What a limiter does with a request for a number of ticks. -/
abbrev LimiterCode (σ : Type) := Nat → TokenId → ExceptT Refusal (Exec σ) Unit

/-- The world with another part of its own. -/
def World.withOwn (w : World σ) (own : τ) : World τ := ⟨w.heap, w.timers, w.buckets, own⟩

/-- The same code with a journal beside it. -/
def journaled (code : LimiterCode σ) : LimiterCode (σ × List Request) := fun n token w =>
  (code n token (w.withOwn w.own.1)).map fun p =>
    (p.1, p.2.withOwn (p.2.own, w.own.2 ++ [⟨n, p.1.isOk⟩]))

/-- A tick, as it went. -/
structure Taken where
  /-- The allowance before it. -/
  before : Nat
  /-- The allowance after it. -/
  after : Nat
  /-- What came of it. -/
  outcome : Except Interrupt Unit
  /-- What the limiter was asked meanwhile. -/
  requests : List Request

/-- How many of the ticks were not interrupted. -/
def served (history : List Taken) : Nat := history.countP (·.outcome.isOk)

/-- How many of the requests were granted. -/
def grants (history : List Taken) : Nat := (history.flatMap Taken.requests).countP (·.granted)

/-- A session takes ticks, one after the other, from a given state on. -/
inductive Paced (env : Embedding (σ × List Request)) (start : Session) :
    List Taken → Session → Prop where
  | installed : Paced env start [] start
  | tick {history : List Taken} {s s' : Session} {w w' : World (σ × List Request)}
      {outcome : Except Interrupt Unit} {requests : List Request}
      (before : Paced env start history s)
      (run : (Session.tick env).run s w = some ((outcome, s'), w'))
      (journal : w'.own.2 = w.own.2 ++ requests) :
      Paced env start (history ++ [⟨s.allowance, s'.allowance, outcome, requests⟩]) s'
  | between {history : List Taken} {s s' : Session} (before : Paced env start history s)
      (limiter : s'.limiter = s.limiter) (allowance : s'.allowance = s.allowance)
      (ticks : s'.ticks = s.ticks) : Paced env start history s'

/-! ### The account -/

/-- The account of a session after some ticks: the limiter grants `n` ticks at a time, and the count
began at `t`. -/
structure TickAccount (n t : Nat) (history : List Taken) (s : Session) : Prop where
  balance : served history + s.allowance = n + (n + 1) * grants history
  bound : s.allowance ≤ n
  ticks : s.ticks = t + history.length
  asks : ∀ x ∈ history, x.requests = if x.before = 0 then [⟨n, x.outcome.isOk⟩] else []
  refused : ∀ x ∈ history, x.outcome.isOk = false → x.after = 0
  last : ∀ x ∈ history.getLast?, x.after = s.allowance
  linked : history.IsChain fun x y => y.before = x.after

theorem served_concat (history : List Taken) (x : Taken) :
    served (history ++ [x]) = served history + if x.outcome.isOk then 1 else 0 := by
  simp [served, List.countP_append, List.countP_singleton]

theorem grants_concat (history : List Taken) (x : Taken) :
    grants (history ++ [x]) = grants history + x.requests.countP (·.granted) := by
  simp [grants, List.flatMap_append, List.countP_append]

namespace TickAccount

variable {n t : Nat} {history : List Taken} {s s' : Session}

theorem start (s : Session) (allowance : s.allowance = n) : TickAccount n s.ticks [] s where
  balance := by simp [served, grants, allowance]
  bound := Nat.le_of_eq allowance
  ticks := rfl
  asks := by simp
  refused := by simp
  last := by simp
  linked := .nil

/-- Adds one tick to the account. -/
theorem concat (h : TickAccount n t history s) (x : Taken) (before : x.before = s.allowance)
    (after : x.after = s'.allowance) (ticks : s'.ticks = s.ticks + 1)
    (balance : (if x.outcome.isOk then 1 else 0) + s'.allowance =
      s.allowance + (n + 1) * x.requests.countP (·.granted))
    (bound : s'.allowance ≤ n)
    (asks : x.requests = if x.before = 0 then [⟨n, x.outcome.isOk⟩] else [])
    (refused : x.outcome.isOk = false → x.after = 0) :
    TickAccount n t (history ++ [x]) s' where
  balance := by
    have := h.balance
    rw [served_concat, grants_concat, Nat.mul_add]
    omega
  bound := bound
  ticks := by
    rw [ticks, h.ticks, List.length_append, List.length_singleton, Nat.add_assoc]
  asks := by
    intro y hy
    rcases List.mem_append.mp hy with hy | hy
    · exact h.asks y hy
    · cases List.mem_singleton.mp hy
      exact asks
  refused := by
    intro y hy
    rcases List.mem_append.mp hy with hy | hy
    · exact h.refused y hy
    · cases List.mem_singleton.mp hy
      exact refused
  last := by simp [after]
  linked := by
    refine List.isChain_append.mpr ⟨h.linked, .singleton x, ?_⟩
    intro y hy z hz
    cases hz
    rw [before, h.last y hy]

end TickAccount

section Journal

variable {code : LimiterCode σ} {env : Embedding (σ × List Request)} {number burst : Nat}

/-- A tick of a session whose limiter keeps a journal is of one of three kinds. -/
theorem tick_cases (recorded : env.requestTicks number = journaled code) {s s' : Session}
    {w w' : World (σ × List Request)} {outcome : Except Interrupt Unit} {requests : List Request}
    (limiter : s.limiter = some (.custom number burst))
    (run : (Session.tick env).run s w = some ((outcome, s'), w'))
    (journal : w'.own.2 = w.own.2 ++ requests) :
    (0 < s.allowance ∧ outcome.isOk = true ∧ requests = [] ∧
      s' = { s with ticks := s.ticks + 1, allowance := s.allowance - 1 }) ∨
    (s.allowance = 0 ∧ ∃ r : Except Refusal Unit, outcome = r.mapError Refusal.interrupt ∧
      requests = [⟨refillAmount burst, r.isOk⟩] ∧ s' = s.answered (refillAmount burst) r) := by
  rcases Nat.eq_zero_or_pos s.allowance with empty | spare
  · right
    rw [Session.tick_of_empty limiter empty, Limiter.request, recorded, journaled] at run
    obtain ⟨p, answer, same⟩ := Option.map_eq_some_iff.mp run
    cases same
    obtain ⟨q, -, rfl⟩ := Option.map_eq_some_iff.mp answer
    exact ⟨empty, q.1, rfl, (List.append_cancel_left journal).symm, rfl⟩
  · left
    rw [Session.tick_of_spare limiter spare] at run
    cases run
    exact ⟨spare, rfl, (List.self_eq_append_right.mp journal), rfl⟩

/-- Whatever has happened, the account is right. -/
theorem Paced.accounted (recorded : env.requestTicks number = journaled code) {start s : Session}
    {history : List Taken} (limiter : start.limiter = some (.custom number burst))
    (full : start.allowance = refillAmount burst) (paced : Paced env start history s) :
    TickAccount (refillAmount burst) start.ticks history s ∧
      s.limiter = some (.custom number burst) := by
  induction paced with
  | installed => exact ⟨.start start full, limiter⟩
  | between before same allowance ticks ih =>
      obtain ⟨h, hl⟩ := ih
      refine ⟨?_, same.trans hl⟩
      exact { h with
        balance := by rw [allowance]; exact h.balance
        bound := by rw [allowance]; exact h.bound
        ticks := by rw [ticks]; exact h.ticks
        last := by rw [allowance]; exact h.last }
  | tick before run journal ih =>
      obtain ⟨h, hl⟩ := ih
      rcases tick_cases recorded hl run journal with
        ⟨spare, ok, rfl, rfl⟩ | ⟨empty, r, rfl, rfl, rfl⟩
      · refine ⟨h.concat _ rfl rfl rfl ?_ (Nat.le_trans (Nat.sub_le _ _) h.bound) ?_ ?_, hl⟩
        · simp only [ok, if_true, List.countP_nil]
          omega
        · exact (if_neg (Nat.ne_of_gt spare)).symm
        · intro hne
          rw [ok] at hne
          cases hne
      · cases r with
        | ok u =>
            refine ⟨h.concat _ rfl rfl rfl ?_ (Nat.le_refl _) ?_ ?_, hl⟩
            · simp [Session.answered, Except.mapError, Except.isOk, Except.toBool, empty]
              omega
            · exact (if_pos empty).symm
            · intro hne
              cases hne
        | error e =>
            refine ⟨h.concat _ rfl rfl rfl ?_ h.bound ?_ ?_, hl⟩
            · simp [Session.answered, Except.mapError, Except.isOk, Except.toBool, empty]
            · exact (if_pos empty).symm
            · intro _
              exact empty

/-- Ticks are accounted for. Whatever the limiter answers, the ticks that were not interrupted and the
allowance add up to one allowance for the start and, for each request that was granted, one more
besides the tick that asked. The limiter is asked just where the allowance is used up, always for the
same number of ticks, and asked again after it has refused; every tick is counted, and it ends if the
limiter answers. -/
theorem ticks_accounted (recorded : env.requestTicks number = journaled code) {s s' : Session}
    {history : List Taken}
    (paced : Paced env (s.setLimiter (some (.custom number burst))) history s') :
    let n := max 1 (burst / 5)
    served history + s'.allowance = n + (n + 1) * grants history ∧
    s'.allowance ≤ n ∧
    s'.ticks = s.ticks + history.length ∧
    (∀ x ∈ history, x.requests = if x.before = 0 then [⟨n, x.outcome.isOk⟩] else []) ∧
    (∀ x ∈ history, x.outcome.isOk = false → x.after = 0) ∧
    history.IsChain (fun x y => x.outcome.isOk = false → y.requests = [⟨n, y.outcome.isOk⟩]) ∧
    ∀ w : World (σ × List Request),
      (s'.allowance = 0 → (code n s'.token (w.withOwn w.own.1)).isSome) →
        ((Session.tick env).run s' w).isSome := by
  intro n
  obtain ⟨h, limiter⟩ := paced.accounted recorded rfl rfl
  refine ⟨h.balance, h.bound, h.ticks, h.asks, h.refused, ?_, ?_⟩
  · refine h.linked.imp_of_mem_imp fun x y hx hy link interrupted => ?_
    have empty : y.before = 0 := link.trans (h.refused x hx interrupted)
    rw [h.asks y hy, if_pos empty]
    rfl
  · intro w answers
    rcases Nat.eq_zero_or_pos s'.allowance with empty | spare
    · rw [Session.tick_of_empty limiter empty, Option.isSome_map, Limiter.request, recorded,
        journaled, Option.isSome_map]
      exact answers empty
    · rw [Session.tick_of_spare limiter spare]
      rfl

end Journal

/-! ### A limiter that grants once -/

/-- A session that nothing has happened to. -/
def idleSession : Session :=
  ⟨.default, ⟨⟨0⟩, ⟨0⟩, ⟨0⟩, ⟨0⟩, ⟨0⟩⟩, ⟨0⟩, ⟨0⟩, #[], none, 0, 0, ⟨0⟩, fun _ => none⟩

/-- Grants the first request and refuses all others. -/
def grantOnce : LimiterCode Bool := fun _ _ w =>
  some (if w.own then .error .wouldExceedDeadline else .ok (), { w with own := true })

/-- The world with the state of that limiter and the journal. -/
def grantOnceWorld (spent : Bool) (journal : List Request) : World (Bool × List Request) :=
  ⟨.empty, .start, #[], (spent, journal)⟩

theorem ticks_accounted_on_grantOnce :
    let env : Embedding (Bool × List Request) :=
      { (default : Embedding (Bool × List Request)) with
        requestTicks := fun _ => journaled grantOnce }
    ∃ history s', Paced env (idleSession.setLimiter (some (.custom 0 10))) history s' ∧
      history.map Taken.requests = [[], [], [⟨2, true⟩], [], [], [⟨2, false⟩], [⟨2, false⟩]] ∧
      served history + s'.allowance = 2 + 3 * grants history := by
  intro env
  have recorded : env.requestTicks 0 = journaled grantOnce := rfl
  have none : Paced env (idleSession.setLimiter (some (.custom 0 10))) [] _ := .installed
  have first := (none.tick (w := grantOnceWorld false []) rfl rfl).tick
    (w := grantOnceWorld false []) rfl rfl
  have granted := first.tick (w := grantOnceWorld false []) rfl rfl
  have second := (granted.tick (w := grantOnceWorld true []) rfl rfl).tick
    (w := grantOnceWorld true []) rfl rfl
  have refused := (second.tick (w := grantOnceWorld true []) rfl rfl).tick
    (w := grantOnceWorld true []) rfl rfl
  exact ⟨_, _, refused, rfl, (ticks_accounted recorded refused).1⟩

end ScriptCore
