import ScriptCore.Proofs.Session.Runs

/-!
# ScriptCore.Proofs.Session.Cancellation

**Cancellation is prompt and final**: a cancelled session takes the ticks that it still has, and none
after them.

Design points:

* A tick looks at the token only where it has to ask for it, so the ticks that are left when the token
  is cancelled are the whole allowance with a bucket and none without a limiter (`spare`).
* The token is looked at before anything else, so from then on a tick leaves the world as it is: no
  bucket is brought up to date, let alone charged.
* What happens between two ticks may do anything to the world but to the clock, which it has through
  its operations alone (`Timers.Onward`). That none of these takes a cancellation back is proved.
* A run that the cancellation finds on its way (`Midway`) and one that starts later are one case: the
  second has taken no step so far.
-/

namespace ScriptCore

variable {σ : Type}

/-! ### Cancelled tokens stay cancelled -/

namespace Timers

variable {t t' : Timers} {id : TokenId}

/-- One state of the clock comes of another by its operations. -/
inductive Onward (t : Timers) : Timers → Prop where
  | same : Onward t t
  | addToken {t' : Timers} (before : Onward t t') (deadline : Option Nanoseconds) :
      Onward t (t'.addToken deadline).2
  | cancel {t' : Timers} (before : Onward t t') (id : TokenId) : Onward t (t'.cancel id)
  | cancelAfter {t' : Timers} (before : Onward t t') (id : TokenId) (delay : Nanoseconds) :
      Onward t (t'.cancelAfter id delay)
  | advanceTo {t' : Timers} (before : Onward t t') (instant : Nanoseconds) :
      Onward t (t'.advanceTo instant)

/-- Only a token that has been made can be cancelled. -/
theorem lt_size_of_cancelled (h : (t.token id).cancelled = true) : id.index < t.tokens.size := by
  by_contra outside
  rw [token, Array.getElem?_eq_none (Nat.le_of_not_lt outside)] at h
  cases h

theorem cancelled_addToken (h : (t.token id).cancelled = true) (deadline : Option Nanoseconds) :
    ((t.addToken deadline).2.token id).cancelled = true := by
  have inside := lt_size_of_cancelled h
  rw [token] at h
  rw [token, addToken, Array.getElem?_push_lt inside, ← Array.getElem?_eq_getElem inside]
  exact h

theorem cancelled_cancel (h : (t.token id).cancelled = true) (other : TokenId) :
    ((t.cancel other).token id).cancelled = true := by
  have inside := lt_size_of_cancelled h
  rw [token, Array.getElem?_eq_getElem inside] at h
  rw [token, cancel, Array.getElem?_modify, Array.getElem?_eq_getElem inside]
  split
  · rfl
  · exact h

theorem cancelled_cancelAll (past : List (Nanoseconds × TokenId))
    (h : (t.token id).cancelled = true) :
    ((past.foldl (fun t e => t.cancel e.2) t).token id).cancelled = true := by
  induction past generalizing t with
  | nil => exact h
  | cons e past ih => exact ih (cancelled_cancel h e.2)

/-- No operation takes a cancellation back. -/
theorem Onward.cancelled (onward : Onward t t') (h : (t.token id).cancelled = true) :
    (t'.token id).cancelled = true := by
  induction onward with
  | same => exact h
  | addToken _ deadline ih => exact cancelled_addToken ih deadline
  | cancel _ other ih => exact cancelled_cancel ih other
  | cancelAfter _ _ _ ih => exact ih
  | advanceTo _ _ ih => exact cancelled_cancelAll _ ih

namespace Onward

theorem read (before : Onward t t') : Onward t t'.read.2 := before.advanceTo (t'.now + 1)

/-- Waiting is nothing but letting time pass. -/
theorem waitUntil (before : Onward t t') (id : TokenId) (stop : Nanoseconds) :
    Onward t (t'.waitUntil id stop).2 := by
  rw [Timers.waitUntil]
  split
  · exact before
  split
  · exact before
  split
  · exact before.advanceTo _
  · exact before.advanceTo _

end Onward

end Timers

/-- A bucket uses the clock through its operations. -/
theorem Bucket.onward_request (c : Bucket) (t : Timers) (n : Nat) (token : TokenId) :
    t.Onward (c.request t n token).2.2 := by
  rw [request]
  split
  · exact .same
  split
  · exact .same
  split
  · exact .same
  dsimp only
  have read : t.Onward t.read.2 := Timers.Onward.same.read
  split
  · exact read
  case _ readyAt _ _ =>
    have waited := read.waitUntil token readyAt
    split
    · exact read
    cases ended : t.read.2.waitUntil token readyAt with
    | mk early later =>
        rw [ended] at waited
        cases early <;> exact waited

/-! ### A cancelled session -/

/-- Storing what is there changes nothing. -/
theorem setIfInBounds_getD {α : Type} [Inhabited α] {items : Array α} (i : Nat) :
    items.setIfInBounds i (items[i]?.getD default) = items := by
  refine Array.ext_getElem? fun j => ?_
  rw [Array.getElem?_setIfInBounds]
  split
  case isTrue here =>
    cases here
    split
    · rw [Array.getElem?_eq_getElem ‹_›, Option.getD_some]
    · rw [Array.getElem?_eq_none (Nat.le_of_not_lt ‹_›)]
  case isFalse => rfl

/-- A request with a cancelled token is refused before anything else happens. -/
theorem requestTokens_of_cancelled {w : World σ} {token : TokenId} (b : BucketId) (n : Nat)
    (cancelled : (w.timers.token token).cancelled = true) :
    (requestTokens b n token).run w = some (.error .cancelled, w) := by
  have refused (c : Bucket) : c.request w.timers n token = (.error .cancelled, c, w.timers) :=
    if_pos cancelled
  show some _ = some _
  dsimp only
  rw [refused, setIfInBounds_getD]

namespace Session

/-- The ticks that a session takes without a look at its token. -/
def spare (s : Session) : Nat := s.limiter.elim 0 fun _ => s.allowance

/-- The limiter, if there is one, is a token bucket. -/
def OnlyBucket (s : Session) : Prop := ∀ l ∈ s.limiter, ∃ b burst, l = .bucket b burst

/-- A session with a bucket or no limiter whose token is cancelled. -/
structure Cancelled (s : Session) (w : World σ) : Prop where
  limiter : s.OnlyBucket
  token : (w.timers.token s.token).cancelled = true

/-- What may happen between two ticks: the limiter, the allowance and the token are kept, and the clock
is used through its operations. -/
structure Meanwhile (s : Session) (w : World σ) (s' : Session) (w' : World σ) : Prop where
  limiter : s'.limiter = s.limiter
  allowance : s'.allowance = s.allowance
  token : s'.token = s.token
  clock : w.timers.Onward w'.timers

/-- The session after a tick for which nothing was granted. -/
def ticked (s : Session) : Session :=
  { s with ticks := s.ticks + 1, allowance := s.allowance - min 1 s.spare }

/-! ### Ticks of a cancelled session -/

section Tick

variable {env : Embedding σ} {s s' : Session} {w w' : World σ}

theorem Meanwhile.spare_eq (h : Meanwhile s w s' w') : s'.spare = s.spare := by
  rw [spare, spare, h.limiter, h.allowance]

theorem Cancelled.meanwhile (cancelled : s.Cancelled w) (h : Meanwhile s w s' w') :
    s'.Cancelled w' where
  limiter := by
    rw [OnlyBucket, h.limiter]
    exact cancelled.limiter
  token := by
    rw [h.token]
    exact h.clock.cancelled cancelled.token

theorem Cancelled.ticked (cancelled : s.Cancelled w) : s.ticked.Cancelled w where
  limiter := cancelled.limiter
  token := cancelled.token

theorem spare_of_some {l : Limiter} (limiter : s.limiter = some l) : s.spare = s.allowance := by
  rw [spare, limiter]
  rfl

theorem spare_ticked (s : Session) : s.ticked.spare = s.spare - 1 := by
  cases limiter : s.limiter with
  | none =>
      rw [spare, spare, show s.ticked.limiter = _ from limiter, limiter]
      rfl
  | some l =>
      rw [spare_of_some (s := s.ticked) limiter, ticked, spare_of_some limiter]
      dsimp only
      omega

/-- Between two ticks of a session another one may tick, with the same bucket or without. -/
theorem Meanwhile.of_tick {other other' : Session} {outcome : Except Interrupt Unit}
    (limiter : other.OnlyBucket)
    (run : (Session.tick env).run other w = some ((outcome, other'), w')) (s : Session) :
    Meanwhile s w s w' := by
  refine ⟨rfl, rfl, rfl, ?_⟩
  cases found : other.limiter with
  | none =>
      rw [tick_of_unlimited found] at run
      cases run
      exact .same
  | some l =>
      rcases Nat.eq_zero_or_pos other.allowance with empty | spare
      · obtain ⟨b, burst, rfl⟩ := limiter l found
        rw [tick_of_empty found empty] at run
        obtain ⟨p, answer, same⟩ := Option.map_eq_some_iff.mp run
        cases same
        cases answer
        exact Bucket.onward_request ..
      · rw [tick_of_spare found spare] at run
        cases run
        exact .same

/-- Without spare ticks, a tick of a cancelled session is interrupted. -/
theorem Cancelled.tick_of_empty (cancelled : s.Cancelled w) (empty : s.spare = 0) :
    (Session.tick env).run s w = some ((.error .cancelled, s.ticked), w) := by
  have rest : s.ticked = { s with ticks := s.ticks + 1 } := by
    rw [Session.ticked, empty]
    rfl
  cases limiter : s.limiter with
  | none =>
      rw [tick_of_unlimited limiter, if_pos cancelled.token, rest]
  | some l =>
      obtain ⟨b, burst, rfl⟩ := cancelled.limiter l limiter
      have refused := requestTokens_of_cancelled b (refillAmount burst) cancelled.token
      rw [Session.tick_of_empty limiter ((spare_of_some limiter).symm.trans empty), rest]
      show Option.map _ ((requestTokens b (refillAmount burst) s.token).run w) = _
      rw [refused]
      rfl

/-- A tick of a cancelled session succeeds while there are spare ticks, and leaves the world as it
is. -/
theorem Cancelled.tick (cancelled : s.Cancelled w) :
    (Session.tick env).run s w =
      some ((if 0 < s.spare then .ok () else .error .cancelled, s.ticked), w) := by
  rcases Nat.eq_zero_or_pos s.spare with empty | spare
  · rw [cancelled.tick_of_empty empty, empty]
    rfl
  · rw [if_pos spare]
    cases limiter : s.limiter with
    | none =>
        rw [Session.spare, limiter] at spare
        cases spare
    | some l =>
        rw [Session.ticked, Nat.min_eq_left spare]
        rw [spare_of_some limiter] at spare
        exact tick_of_spare limiter spare

end Tick

end Session

/-! ### The ticks after the cancellation -/

/-- A session goes on from a given state on, with the outcomes of its ticks so far. -/
inductive Ticking (env : Embedding σ) (s₀ : Session) (w₀ : World σ) :
    List (Except Interrupt Unit) → Session → World σ → Prop where
  | start : Ticking env s₀ w₀ [] s₀ w₀
  | tick {log : List (Except Interrupt Unit)} {s s' : Session} {w w' : World σ}
      {outcome : Except Interrupt Unit} (before : Ticking env s₀ w₀ log s w)
      (run : (Session.tick env).run s w = some ((outcome, s'), w')) :
      Ticking env s₀ w₀ (log ++ [outcome]) s' w'
  | between {log : List (Except Interrupt Unit)} {s s' : Session} {w w' : World σ}
      (before : Ticking env s₀ w₀ log s w) (meanwhile : Session.Meanwhile s w s' w') :
      Ticking env s₀ w₀ log s' w'

/-- The outcomes of some ticks, a number of which succeed. -/
def outcomes (spare count : Nat) : List (Except Interrupt Unit) :=
  List.replicate (min count spare) (.ok ()) ++ List.replicate (count - spare) (.error .cancelled)

theorem outcomes_succ (spare count : Nat) :
    outcomes spare (count + 1) =
      outcomes spare count ++ [if 0 < spare - count then .ok () else .error .cancelled] := by
  rcases Nat.lt_or_ge count spare with left | past
  · rw [outcomes, outcomes, if_pos (Nat.sub_pos_of_lt left), Nat.min_eq_left left,
      Nat.min_eq_left (Nat.le_of_lt left), Nat.sub_eq_zero_of_le left,
      Nat.sub_eq_zero_of_le (Nat.le_of_lt left), List.replicate_succ']
    simp only [List.replicate_zero, List.append_nil]
  · rw [outcomes, outcomes, if_neg (by omega), Nat.min_eq_right past,
      Nat.min_eq_right (Nat.le_succ_of_le past), Nat.succ_sub past, List.replicate_succ',
      List.append_assoc]

/-- After a cancellation, the spare ticks are used up one by one, and nothing else has changed. -/
theorem Ticking.account {env : Embedding σ} {s₀ s : Session} {w₀ w : World σ}
    {log : List (Except Interrupt Unit)} (cancelled : s₀.Cancelled w₀)
    (ticking : Ticking env s₀ w₀ log s w) :
    s.Cancelled w ∧ s.spare = s₀.spare - log.length ∧ log = outcomes s₀.spare log.length := by
  induction ticking with
  | start => exact ⟨cancelled, rfl, by rw [outcomes]; simp⟩
  | between _ meanwhile ih =>
      obtain ⟨h, spare, rest⟩ := ih
      exact ⟨h.meanwhile meanwhile, meanwhile.spare_eq.trans spare, rest⟩
  | tick before run ih =>
      obtain ⟨h, spare, rest⟩ := ih
      rw [h.tick] at run
      cases run
      refine ⟨h.ticked, ?_, ?_⟩
      · rw [Session.spare_ticked, spare, List.length_append, List.length_singleton, Nat.sub_sub]
      · rw [List.length_append, List.length_singleton, outcomes_succ, ← rest, ← spare]

/-! ### Runs -/

namespace Session

/-- What a run of a cancelled session comes to, by the number of its spare ticks. -/
inductive Stops (step : ExceptT Thrown (Sessions σ) Step) :
    Nat → Session → World σ → Option ((Except RunError Value × Session) × World σ) → Prop where
  /-- No tick is left, so there is no further step. -/
  | interrupted (s : Session) (w : World σ) :
      Stops step 0 s w (some ((.error (.interrupted .cancelled), s.ticked), w))
  /-- A step ends the run. -/
  | done {n : Nat} {s s' : Session} {w w' : World σ} {v : Value}
      (run : step.run s.ticked w = some ((.ok (.done v), s'), w')) :
      Stops step (n + 1) s w (some ((.ok v, s'), w'))
  /-- A step throws. -/
  | thrown {n : Nat} {s s' : Session} {w w' : World σ} {t : Thrown}
      (run : step.run s.ticked w = some ((.error t, s'), w')) :
      Stops step (n + 1) s w (some ((.error (.thrown t), s'), w'))
  /-- A step has no end. -/
  | endless {n : Nat} {s : Session} {w : World σ} (run : step.run s.ticked w = none) :
      Stops step (n + 1) s w none
  /-- A step asks for more. -/
  | more {n : Nat} {s s' : Session} {w w' : World σ}
      {r : Option ((Except RunError Value × Session) × World σ)}
      (run : step.run s.ticked w = some ((.ok .more, s'), w')) (rest : Stops step n s' w' r) :
      Stops step (n + 1) s w r

section Run

variable {env : Embedding σ} {step : ExceptT Thrown (Sessions σ) Step} {s s' : Session}
  {w w' : World σ}

/-- What a step of a run may do: the clock is used through its operations, and there is no tick and no
other limiter or token. -/
def Leaves (step : ExceptT Thrown (Sessions σ) Step) : Prop :=
  ∀ ⦃s w r s' w'⦄, step.run s w = some ((r, s'), w') → Meanwhile s w s' w'

/-- The spare ticks of a cancelled session bound the steps of a run, which is interrupted then. -/
theorem Cancelled.stops (leaves : Leaves step) {n : Nat} (cancelled : s.Cancelled w)
    (enough : s.spare < n) : Stops step s.spare s w ((runWithin env step n).run s w) := by
  -- A step asks for more only with a spare tick less, so the patience left stays ahead of the ticks.
  induction n generalizing s w with
  | zero => cases enough
  | succ n ih =>
      cases left : s.spare with
      | zero =>
          rw [runWithin_of_interrupt (cancelled.tick_of_empty left)]
          exact .interrupted s w
      | succ k =>
          have tick : (Session.tick env).run s w = _ := cancelled.tick
          rw [left, if_pos k.succ_pos] at tick
          rw [runWithin_of_tick tick]
          cases run : step.run s.ticked w with
          | none => exact .endless run
          | some p =>
              obtain ⟨⟨r, s'⟩, w'⟩ := p
              have meanwhile := leaves run
              have spare : s'.spare = k := by
                rw [meanwhile.spare_eq, spare_ticked, left, Nat.add_sub_cancel]
              cases r with
              | error t => exact .thrown run
              | ok r =>
                  cases r with
                  | done v => exact .done run
                  | more =>
                      refine .more run ?_
                      rw [← spare]
                      exact ih (cancelled.ticked.meanwhile meanwhile) (by omega)

end Run

end Session

/-- What a run of a cancelled session leaves is reached by ticks, with the steps between them. -/
theorem Ticking.stops {env : Embedding σ} {step : ExceptT Thrown (Sessions σ) Step}
    {s₀ s : Session} {w₀ w : World σ} {log : List (Except Interrupt Unit)} {n : Nat}
    {r : Option ((Except RunError Value × Session) × World σ)} (leaves : Session.Leaves step)
    (cancelled : s.Cancelled w) (spare : s.spare = n) (ticking : Ticking env s₀ w₀ log s w)
    (stops : Session.Stops step n s w r) :
    ∀ p ∈ r, ∃ more, Ticking env s₀ w₀ (log ++ more) p.1.2 p.2 := by
  have ticked := ticking.tick cancelled.tick
  induction stops generalizing log with
  | interrupted s w =>
      intro p hp
      cases hp
      exact ⟨_, ticked⟩
  | done run =>
      intro p hp
      cases hp
      exact ⟨_, ticked.between (leaves run)⟩
  | thrown run =>
      intro p hp
      cases hp
      exact ⟨_, ticked.between (leaves run)⟩
  | endless run =>
      intro p hp
      cases hp
  | more run rest ih =>
      intro p hp
      have meanwhile := leaves run
      have later := cancelled.ticked.meanwhile meanwhile
      have next := ticked.between meanwhile
      have left : _ = _ := meanwhile.spare_eq.trans (Session.spare_ticked _)
      obtain ⟨more, reached⟩ := ih later (by omega) next (next.tick later.tick) p hp
      rw [List.append_assoc] at reached
      exact ⟨_, reached⟩

/-- The end of a run changes nothing but the stack. -/
theorem Session.meanwhile_ending (height : Nat) (p : (Except RunError Value × Session) × World σ) :
    Session.Meanwhile p.1.2 p.2 (ending height p).1.2 (ending height p).2 := by
  obtain ⟨⟨_ | _, s⟩, w⟩ := p <;> exact ⟨rfl, rfl, rfl, .same⟩

/-- Cancellation is prompt and final. Of the ticks after it, the spare ones succeed and all others are
interrupted, and none touches the world, so nothing is taken from a bucket. A run that is between two
steps, or that starts now, takes at most as many further steps as there are spare ticks, and is
interrupted unless one of them ends it; what it leaves is again a state that ticks have led to, for any
later run. -/
theorem cancellation_is_final {env : Embedding σ} {s : Session} {w : World σ}
    (limiter : ∀ l ∈ s.limiter, ∃ b burst, l = .bucket b burst)
    (cancelled : (w.timers.token s.token).cancelled = true) {log : List (Except Interrupt Unit)}
    {s' : Session} {w' : World σ} (ticking : Ticking env s w log s' w') :
    let left := s.spare - log.length
    log = List.replicate (min log.length s.spare) (.ok ()) ++
      List.replicate (log.length - s.spare) (.error .cancelled) ∧
    (∃ s'', (Session.tick env).run s' w' =
      some ((if 0 < left then .ok () else .error .cancelled, s''), w')) ∧
    ∀ step, Session.Leaves step → ∀ k s₀ w₀, Session.Midway env step k s₀ w₀ s' w' →
      k + left < env.patience →
        ∃ r, Session.Stops step left s' w' r ∧
          (Session.run env step).run s₀ w₀ = r.map (Session.ending s₀.stack.size) ∧
          ∀ p ∈ (Session.run env step).run s₀ w₀, ∃ more,
            Ticking env s w (log ++ more) p.1.2 p.2 := by
  intro left
  obtain ⟨h, spare, rest⟩ := ticking.account ⟨limiter, cancelled⟩
  refine ⟨rest, ⟨s'.ticked, ?_⟩, ?_⟩
  · rw [h.tick, spare]
  · intro step leaves k s₀ w₀ midway enough
    have stops : Session.Stops step s'.spare s' w'
        ((Session.runWithin env step (env.patience - k)).run s' w') := h.stops leaves (by omega)
    have goes := midway.runWithin_eq (env.patience - k)
    rw [Nat.sub_add_cancel (by omega)] at goes
    rw [spare] at stops
    refine ⟨_, stops, ?_, ?_⟩
    · rw [Session.run_eq, goes]
    · intro p hp
      rw [Session.run_eq, goes] at hp
      obtain ⟨q, hq, rfl⟩ := Option.map_eq_some_iff.mp hp
      obtain ⟨more, reached⟩ := ticking.stops leaves h spare stops q hq
      exact ⟨more, reached.between (Session.meanwhile_ending _ q)⟩

/-- A step that leaves a value on the stack and asks for more. -/
def pushing : ExceptT Thrown (Sessions σ) Step := fun s w =>
  some ((.ok .more, s.push .undefined), w)

/-- A world with a cancelled token and a full bucket. -/
def cancelledWorld : World Unit := ⟨.empty, (Timers.start.addToken none).2.cancel ⟨0⟩,
  #[.full (.zero false) 10 0], ()⟩

/-- The session is interrupted, and is so too after another one has taken tokens from its bucket. -/
theorem cancellation_is_final_in_cancelledWorld :
    let env : Embedding Unit := { (default : Embedding Unit) with patience := 3 }
    let s := idleSession.setLimiter (some (.bucket ⟨0⟩ 10))
    let other : Session := { s with allowance := 0, token := ⟨1⟩ }
    let interrupted (w : World Unit) := (Session.run env pushing).run s w =
      some ((.error (.interrupted .cancelled), { s with ticks := 3, allowance := 0 }), w)
    interrupted cancelledWorld ∧ ∃ p, (Session.tick env).run other cancelledWorld = some p ∧
      p.1.1.isOk = true ∧ interrupted p.2 := by
  intro env s other interrupted
  have limiter : ∀ l ∈ s.limiter, ∃ b burst, l = .bucket b burst := by
    intro l hl
    cases hl
    exact ⟨_, _, rfl⟩
  have leaves : Session.Leaves (pushing (σ := Unit)) := by
    intro s w r s' w' run
    cases run
    exact ⟨rfl, rfl, rfl, .same⟩
  have begun : Ticking env s cancelledWorld [] s cancelledWorld := .start
  have after {w : World Unit} (meanwhile : Session.Meanwhile s cancelledWorld s w) :
      interrupted w := by
    obtain ⟨-, -, runs⟩ := cancellation_is_final limiter rfl (begun.between meanwhile)
    obtain ⟨r, stops, result, -⟩ := runs pushing leaves 0 s w (.start _ _) (by decide)
    refine result.trans ?_
    cases stops with
    | done run | thrown run | endless run => cases run
    | more run rest =>
        cases run
        cases rest with
        | done run | thrown run | endless run => cases run
        | more run rest =>
            cases run
            cases rest
            rfl
  have granted : ((Session.tick env).run other cancelledWorld).map (·.1.1.isOk) = some true := by
    decide +kernel
  obtain ⟨⟨⟨outcome, other'⟩, w⟩, ticks, ok⟩ := Option.map_eq_some_iff.mp granted
  have bucket : other.OnlyBucket := limiter
  have meanwhile : Session.Meanwhile s cancelledWorld s w := .of_tick bucket ticks s
  exact ⟨after ⟨rfl, rfl, rfl, .same⟩, _, ticks, ok, after meanwhile⟩

end ScriptCore
