import Mathlib.Algebra.BigOperators.Group.Finset.Basic
import Mathlib.Data.Fintype.BigOperators
import ScriptCore.Proofs.Pacing.DryBucket
import ScriptCore.Proofs.Session.Ticks

/-!
# ScriptCore.Proofs.Session.SharedBucket

**Sharing a bucket that never refills**: however the ticks of several sessions interleave, no more is
granted than the bucket held, and nothing that could be granted is lost.

Design points:

* A run is a log of ticks, each with the session that took it (`Sharing`). Between two ticks anything
  may happen that spares the sessions' allowances and the bucket's balance.
* Two machines are composed. A session gains an allowance, and the tick that asked, with every
  request that is granted; the bucket pays for the requests. `Shares.balance` accounts for the one
  and `Shares.spent` for the other, both by the number of requests granted so far.
-/

namespace ScriptCore

variable {σ : Type} {k : Nat}

/-- The rate, the capacity and the balance of a bucket. -/
def World.balance (w : World σ) (b : BucketId) : Option (Binary64 × Nat × Binary64) :=
  w.buckets[b.index]?.map fun c => (c.rate, c.burst, c.tokens)

/-- The balance of a bucket that never refills. -/
def dryBalance (burst m : Nat) : Option (Binary64 × Nat × Binary64) :=
  some (.zero false, burst, .ofNat m)

/-- A tick of one of several sessions. -/
abbrev SharedTick (k : Nat) := Fin k × Except Interrupt Unit

/-- How many of the ticks were not interrupted. -/
def completed (log : List (SharedTick k)) : Nat := log.countP (·.2.isOk)

/-- Several sessions take ticks, in any order, from a given state on. -/
inductive Sharing (env : Embedding σ) (b : BucketId) (start : Fin k → Session) (begin : World σ) :
    List (SharedTick k) → (Fin k → Session) → World σ → Prop where
  | installed : Sharing env b start begin [] start begin
  | tick {log : List (SharedTick k)} {ss : Fin k → Session} {w w' : World σ} {s' : Session}
      {outcome : Except Interrupt Unit} (i : Fin k) (before : Sharing env b start begin log ss w)
      (inTime : w.timers.now + 1 < instantLimit)
      (run : (Session.tick env).run (ss i) w = some ((outcome, s'), w')) :
      Sharing env b start begin (log ++ [(i, outcome)]) (Function.update ss i s') w'
  | between {log : List (SharedTick k)} {ss ss' : Fin k → Session} {w w' : World σ}
      (before : Sharing env b start begin log ss w)
      (limiter : ∀ i, (ss' i).limiter = (ss i).limiter)
      (allowance : ∀ i, (ss' i).allowance = (ss i).allowance)
      (undisturbed : ∀ i, w'.timers.Undisturbed (ss' i).token)
      (balance : w'.balance b = w.balance b) : Sharing env b start begin log ss' w'

/-! ### One tick -/

section Tick

variable {b : BucketId} {burst m : Nat} {w : World σ} {token : TokenId}

theorem World.balance_eq_dry :
    w.balance b = dryBalance burst m ↔ ∃ c, w.buckets[b.index]? = some c ∧ c.Dry burst m := by
  rw [balance, dryBalance, Option.map_eq_some_iff]
  constructor
  · intro found
    obtain ⟨c, hc, heq⟩ := found
    rw [Prod.mk.injEq, Prod.mk.injEq] at heq
    exact ⟨c, hc, heq.1, heq.2.1, heq.2.2⟩
  · intro found
    obtain ⟨c, hc, hdry⟩ := found
    exact ⟨c, hc, by rw [hdry.rate, hdry.burst, hdry.tokens]⟩

/-- A request to a bucket that never refills is granted if the balance covers it. Otherwise it is
refused and takes nothing. -/
theorem requestTokens_dry (dry : w.balance b = dryBalance burst m) (inside : m ≤ burst)
    (exact : burst ≤ 2 ^ 53) (quiet : w.timers.Undisturbed token)
    (inTime : w.timers.now + 1 < instantLimit) (n : Nat) :
    ∃ r w', requestTokens b n token w = some (r, w') ∧
      (w'.timers = w.timers ∨ w'.timers = w.timers.read.2) ∧
      ((n ≤ m ∧ r = .ok () ∧ w'.balance b = dryBalance burst (m - n)) ∨
        (m < n ∧ (∃ e, r = .error e ∧ e ≠ .cancelled) ∧ w'.balance b = dryBalance burst m)) := by
  obtain ⟨c, hc, hdry⟩ := World.balance_eq_dry.mp dry
  obtain ⟨place, -⟩ := Array.getElem?_eq_some_iff.mp hc
  have small : w.timers.now + 1 < 2 ^ 200 := Nat.lt_trans inTime (by decide)
  obtain ⟨r, c', t', answer, clock, outcome⟩ := hdry.request quiet small inside exact n
  refine ⟨r, { w with timers := t', buckets := w.buckets.setIfInBounds b.index c' }, ?_, clock, ?_⟩
  · show some _ = some _
    dsimp only
    rw [hc, Option.getD_some, answer]
  · have stored : (w.buckets.setIfInBounds b.index c')[b.index]? = some c' :=
      Array.getElem?_setIfInBounds_self_of_lt place
    rcases outcome with ⟨covers, ok, rest⟩ | ⟨short, refused, rest⟩
    · exact .inl ⟨covers, ok, World.balance_eq_dry.mpr ⟨c', stored, rest⟩⟩
    · exact .inr ⟨short, refused, World.balance_eq_dry.mpr ⟨c', stored, rest⟩⟩

/-- What a tick comes to in a session whose bucket never refills. -/
inductive DryTick (b : BucketId) (burst m : Nat) (s : Session) (w : World σ) :
    Except Interrupt Unit → Session → World σ → Prop where
  /-- The allowance lasts. -/
  | spared (spare : 0 < s.allowance) :
      DryTick b burst m s w (.ok ()) { s with ticks := s.ticks + 1, allowance := s.allowance - 1 } w
  /-- The bucket pays for a new allowance. -/
  | granted {w' : World σ} (empty : s.allowance = 0) (covers : refillAmount burst ≤ m)
      (clock : w'.timers = w.timers ∨ w'.timers = w.timers.read.2)
      (balance : w'.balance b = dryBalance burst (m - refillAmount burst)) :
      DryTick b burst m s w (.ok ())
        { s with ticks := s.ticks + 1, allowance := refillAmount burst } w'
  /-- The bucket cannot pay, now or ever. -/
  | refused {w' : World σ} (empty : s.allowance = 0) (short : m < refillAmount burst)
      (clock : w'.timers = w.timers ∨ w'.timers = w.timers.read.2)
      (balance : w'.balance b = dryBalance burst m) :
      DryTick b burst m s w (.error .deadlineExceeded) { s with ticks := s.ticks + 1 } w'

theorem DryTick.now_le {s s' : Session} {w' : World σ} {outcome : Except Interrupt Unit}
    (taken : DryTick b burst m s w outcome s' w') : w'.timers.now ≤ w.timers.now + 1 := by
  have read : w.timers.read.2.now = w.timers.now + 1 := w.timers.now_read
  cases taken with
  | spared spare => exact Nat.le_succ _
  | granted empty covers clock balance | refused empty short clock balance =>
      rcases clock with same | later
      · rw [same]
        exact Nat.le_succ _
      · rw [later, read]

theorem tick_dry (env : Embedding σ) {s : Session} (limiter : s.limiter = some (.bucket b burst))
    (dry : w.balance b = dryBalance burst m) (inside : m ≤ burst) (exact : burst ≤ 2 ^ 53)
    (quiet : w.timers.Undisturbed s.token) (inTime : w.timers.now + 1 < instantLimit) :
    ∃ outcome s' w', (Session.tick env).run s w = some ((outcome, s'), w') ∧
      DryTick b burst m s w outcome s' w' := by
  rcases Nat.eq_zero_or_pos s.allowance with empty | spare
  · obtain ⟨r, w', answer, clock, outcome⟩ :=
      requestTokens_dry dry inside exact quiet inTime (refillAmount burst)
    rw [Session.tick_of_empty limiter empty, Limiter.request, Limiter.burst, answer]
    rcases outcome with ⟨covers, rfl, rest⟩ | ⟨short, ⟨e, rfl, he⟩, rest⟩
    · exact ⟨_, _, _, rfl, .granted empty covers clock rest⟩
    · have late : e.interrupt = .deadlineExceeded := by
        cases e with
        | cancelled => exact absurd rfl he
        | exceedsBurst requested burst => rfl
        | wouldExceedDeadline => rfl
      refine ⟨_, _, _, rfl, ?_⟩
      rw [Except.mapError, late]
      exact .refused empty short clock rest
  · exact ⟨_, _, _, Session.tick_of_spare limiter spare, .spared spare⟩

end Tick

/-! ### The accounts -/

theorem refillAmount_pos (burst : Nat) : 0 < refillAmount burst := Nat.le_max_left 1 _

/-- The sum of numbers one of which has changed. -/
theorem sum_update_add {f : Session → Nat} (ss : Fin k → Session) (i : Fin k) (s' : Session) :
    (∑ j, f (Function.update ss i s' j)) + f (ss i) = (∑ j, f (ss j)) + f s' := by
  have changed : (fun j => f (Function.update ss i s' j)) =
      Function.update (fun j => f (ss j)) i (f s') := by
    funext j
    exact Function.apply_update (fun _ => f) ss i s' j
  have rest := Finset.sum_erase_add Finset.univ (fun j => f (ss j)) (Finset.mem_univ i)
  rw [changed, Finset.sum_update_of_mem (Finset.mem_univ i), Finset.sdiff_singleton_eq_erase]
  omega

/-- The accounts of sessions that share a bucket, when some requests have been granted and a balance
is left. -/
structure Shares (b : BucketId) (burst granted m : Nat) (log : List (SharedTick k))
    (ss : Fin k → Session) (w : World σ) : Prop where
  limiter : ∀ i, (ss i).limiter = some (.bucket b burst)
  quiet : ∀ i, w.timers.Undisturbed (ss i).token
  dry : w.balance b = dryBalance burst m
  spent : m + refillAmount burst * granted = burst
  balance : completed log + ∑ i, (ss i).allowance =
    k * refillAmount burst + (refillAmount burst + 1) * granted
  interrupts : ∀ x ∈ log, x.2 = .ok () ∨ x.2 = .error .deadlineExceeded
  refused : ∀ x ∈ log, x.2.isOk = false → (ss x.1).allowance = 0 ∧ m < refillAmount burst
  final : log.Pairwise fun x y => x.1 = y.1 → x.2.isOk = false → y.2.isOk = false

theorem completed_concat (log : List (SharedTick k)) (x : SharedTick k) :
    completed (log ++ [x]) = completed log + if x.2.isOk then 1 else 0 := by
  simp [completed, List.countP_append, List.countP_singleton]

namespace Shares

variable {b : BucketId} {burst granted m : Nat} {log : List (SharedTick k)} {ss : Fin k → Session}
  {w w' : World σ}

theorem inside (h : Shares b burst granted m log ss w) : m ≤ burst :=
  h.spent ▸ Nat.le_add_right _ _

/-- Adds one tick to the accounts. -/
theorem concat (h : Shares b burst granted m log ss w) {i : Fin k} {outcome : Except Interrupt Unit}
    {s' : Session} {granted' m' : Nat} (limiter : s'.limiter = (ss i).limiter)
    (token : s'.token = (ss i).token)
    (clock : w'.timers = w.timers ∨ w'.timers = w.timers.read.2)
    (dry : w'.balance b = dryBalance burst m') (spent : m' + refillAmount burst * granted' = burst)
    (less : m' ≤ m)
    (balance : (if outcome.isOk then 1 else 0) + s'.allowance + (refillAmount burst + 1) * granted =
      (ss i).allowance + (refillAmount burst + 1) * granted')
    (interrupt : outcome = .ok () ∨ outcome = .error .deadlineExceeded)
    (refused : outcome.isOk = false → s'.allowance = 0 ∧ m' < refillAmount burst)
    (stuck : (ss i).allowance = 0 → m < refillAmount burst → outcome.isOk = false) :
    Shares b burst granted' m' (log ++ [(i, outcome)]) (Function.update ss i s') w' where
  limiter := by
    intro j
    rcases eq_or_ne j i with rfl | hne
    · rw [Function.update_self, limiter, h.limiter]
    · rw [Function.update_of_ne hne, h.limiter]
  quiet := by
    have later : ∀ id, w.timers.Undisturbed id → w'.timers.Undisturbed id := by
      intro id quiet
      rcases clock with same | read
      · rw [same]
        exact quiet
      · rw [read]
        exact quiet.read
    intro j
    rcases eq_or_ne j i with rfl | hne
    · rw [Function.update_self, token]
      exact later _ (h.quiet j)
    · rw [Function.update_of_ne hne]
      exact later _ (h.quiet j)
  dry := dry
  spent := spent
  balance := by
    have sum := sum_update_add (f := Session.allowance) ss i s'
    have before := h.balance
    rw [completed_concat]
    dsimp only
    omega
  interrupts := by
    intro x hx
    rcases List.mem_append.mp hx with hx | hx
    · exact h.interrupts x hx
    · cases List.mem_singleton.mp hx
      exact interrupt
  refused := by
    intro x hx failed
    rcases List.mem_append.mp hx with hx | hx
    · obtain ⟨empty, short⟩ := h.refused x hx failed
      rcases eq_or_ne x.1 i with rfl | hne
      · rw [Function.update_self]
        exact refused (stuck empty short)
      · rw [Function.update_of_ne hne]
        exact ⟨empty, Nat.lt_of_le_of_lt less short⟩
    · cases List.mem_singleton.mp hx
      rw [Function.update_self]
      exact refused failed
  final := by
    refine List.pairwise_append.mpr ⟨h.final, List.pairwise_singleton _ _, ?_⟩
    intro x hx y hy same failed
    cases List.mem_singleton.mp hy
    obtain ⟨empty, short⟩ := h.refused x hx failed
    rw [same] at empty
    exact stuck empty short

/-- A tick keeps the accounts. -/
theorem tick (h : Shares b burst granted m log ss w) {i : Fin k} {outcome : Except Interrupt Unit}
    {s' : Session} (taken : DryTick b burst m (ss i) w outcome s' w') :
    ∃ granted' m', Shares b burst granted' m' (log ++ [(i, outcome)]) (Function.update ss i s') w' := by
  cases taken with
  | spared spare =>
      refine ⟨granted, m, h.concat rfl rfl (.inl rfl) h.dry h.spent (Nat.le_refl m) ?_ (.inl rfl) ?_ ?_⟩
      · have ok : (Except.ok () : Except Interrupt Unit).isOk = true := rfl
        rw [if_pos ok]
        dsimp only
        omega
      · intro failed
        cases failed
      · intro empty
        exact absurd empty (Nat.ne_of_gt spare)
  | granted empty covers clock balance =>
      refine ⟨granted + 1, _, h.concat rfl rfl clock balance ?_ (Nat.sub_le _ _) ?_ (.inl rfl) ?_ ?_⟩
      · have spent := h.spent
        rw [Nat.mul_add]
        omega
      · have ok : (Except.ok () : Except Interrupt Unit).isOk = true := rfl
        rw [if_pos ok, empty, Nat.mul_add]
        dsimp only
        omega
      · intro failed
        cases failed
      · intro _ short
        exact absurd covers (Nat.not_le.mpr short)
  | refused empty short clock balance =>
      refine ⟨granted, m, h.concat rfl rfl clock balance h.spent (Nat.le_refl m) ?_ (.inr rfl) ?_ ?_⟩
      · have failed : (Except.error .deadlineExceeded : Except Interrupt Unit).isOk = false := rfl
        rw [failed]
        simp
      · intro _
        exact ⟨empty, short⟩
      · intro _ _
        rfl

/-- What happens between two ticks keeps the accounts. -/
theorem between (h : Shares b burst granted m log ss w) {ss' : Fin k → Session}
    (limiter : ∀ i, (ss' i).limiter = (ss i).limiter)
    (allowance : ∀ i, (ss' i).allowance = (ss i).allowance)
    (undisturbed : ∀ i, w'.timers.Undisturbed (ss' i).token)
    (balance : w'.balance b = w.balance b) : Shares b burst granted m log ss' w' where
  limiter i := (limiter i).trans (h.limiter i)
  quiet := undisturbed
  dry := balance.trans h.dry
  spent := h.spent
  balance := by
    simp only [allowance]
    exact h.balance
  interrupts := h.interrupts
  refused x hx failed := by
    rw [allowance]
    exact h.refused x hx failed
  final := h.final

/-- The bucket pays for no more requests than fit into it. -/
theorem granted_le (h : Shares b burst granted m log ss w) : granted ≤ burst / refillAmount burst :=
  (Nat.le_div_iff_mul_le (refillAmount_pos burst)).mpr (by
    rw [Nat.mul_comm]
    exact Nat.le_of_add_left_le h.spent.le)

/-- Where it cannot pay for another one, it has paid for all that fit. -/
theorem granted_eq (h : Shares b burst granted m log ss w) (short : m < refillAmount burst) :
    granted = burst / refillAmount burst := by
  refine (Nat.div_eq_of_lt_le ?_ ?_).symm
  · rw [Nat.mul_comm]
    exact Nat.le_of_add_left_le h.spent.le
  · rw [Nat.mul_comm, Nat.mul_add]
    have spent := h.spent
    omega

end Shares

section Run

variable {env : Embedding σ} {b : BucketId} {burst : Nat} {rate : Binary64} {since : Nanoseconds}
  {s ss : Fin k → Session} {w₀ w : World σ} {log : List (SharedTick k)}

/-- The accounts are right throughout. -/
theorem Sharing.shares (exact : burst ≤ 2 ^ 53) (dry : w₀.balance b = dryBalance burst burst)
    (quiet : ∀ i, w₀.timers.Undisturbed (s i).token)
    (run : Sharing env b (fun i => (s i).setLimiter (some (.bucket b burst))) w₀ log ss w) :
    ∃ granted m, Shares b burst granted m log ss w := by
  induction run with
  | installed =>
      refine ⟨0, burst, fun _ => rfl, quiet, dry, rfl, ?_, ?_, ?_, .nil⟩
      · simp [completed, Session.setLimiter, Limiter.burst]
      · simp
      · simp
  | between before limiter allowance undisturbed balance ih =>
      obtain ⟨granted, m, h⟩ := ih
      exact ⟨granted, m, h.between limiter allowance undisturbed balance⟩
  | tick i before inTime run ih =>
      obtain ⟨granted, m, h⟩ := ih
      obtain ⟨outcome, s', w', run', taken⟩ :=
        tick_dry env (h.limiter i) h.dry h.inside exact (h.quiet i) inTime
      cases run.symm.trans run'
      exact h.tick taken

/-- A bucket that never refills grants exactly its capacity, however it is shared. Every session has
one allowance for a start, and each fifth of the capacity that the bucket pays for is worth one more
and the tick that asked. That is the most there can be, and it has all been used once every session
has been refused. A session that has been refused is refused for ever, with the deadline as the
reason; every tick ends, and a refused one takes nothing. -/
theorem shared_bucket_runs_dry (any : 0 < k) (exact : burst ≤ 2 ^ 53)
    (still : (Binary64.zero false).lt rate = false)
    (full : w₀.buckets[b.index]? = some (Bucket.full rate burst since))
    (quiet : ∀ i, w₀.timers.Undisturbed (s i).token)
    (run : Sharing env b (fun i => (s i).setLimiter (some (.bucket b burst))) w₀ log ss w) :
    let n := max 1 (burst / 5)
    completed log ≤ k * n + (n + 1) * (burst / n) ∧
    ((∀ i, ∃ e, (i, .error e) ∈ log) → completed log = k * n + (n + 1) * (burst / n)) ∧
    log.Pairwise (fun x y => x.1 = y.1 → x.2.isOk = false → y.2 = .error .deadlineExceeded) ∧
    (∀ x ∈ log, x.2 = .ok () ∨ x.2 = .error .deadlineExceeded) ∧
    ∀ i, w.timers.now + 1 < instantLimit →
      ∃ r s' w', (Session.tick env).run (ss i) w = some ((r, s'), w') ∧
        (r.isOk = false → w'.balance b = w.balance b) := by
  intro n
  obtain ⟨granted, m, h⟩ :=
    run.shares exact (World.balance_eq_dry.mpr ⟨_, full, Bucket.dry_full still burst since⟩) quiet
  have balance : completed log + ∑ i, (ss i).allowance = k * n + (n + 1) * granted := h.balance
  refine ⟨?_, ?_, ?_, h.interrupts, ?_⟩
  · have paid := Nat.mul_le_mul_left (n + 1) h.granted_le
    exact Nat.le_trans (Nat.le_of_add_right_le balance.le) (Nat.add_le_add_left paid _)
  · intro all
    have empty : ∑ i, (ss i).allowance = 0 := by
      refine Finset.sum_eq_zero fun i _ => ?_
      obtain ⟨e, he⟩ := all i
      exact (h.refused _ he rfl).1
    obtain ⟨e, he⟩ := all ⟨0, any⟩
    rw [empty, h.granted_eq (h.refused _ he rfl).2] at balance
    exact balance
  · refine h.final.imp_of_mem fun {x y} hx hy later same failed => ?_
    rcases h.interrupts y hy with ok | late
    · have := later same failed
      rw [ok] at this
      cases this
    · exact late
  · intro i inTime
    obtain ⟨outcome, s', w', run', taken⟩ :=
      tick_dry env (h.limiter i) h.dry h.inside exact (h.quiet i) inTime
    refine ⟨outcome, s', w', run', ?_⟩
    intro failed
    cases taken with
    | spared spare => cases failed
    | granted empty covers clock balance => cases failed
    | refused empty short clock balance => rw [balance, h.dry]

/-! ### Two sessions and ten tokens -/

/-- The ticks can be taken in any order. -/
theorem Sharing.scheduled (env : Embedding σ) (exact : burst ≤ 2 ^ 53)
    (dry : w₀.balance b = dryBalance burst burst)
    (quiet : ∀ i, w₀.timers.Undisturbed (s i).token) (schedule : List (Fin k)) :
    w₀.timers.now + schedule.length < instantLimit →
    ∃ log ss w, Sharing env b (fun i => (s i).setLimiter (some (.bucket b burst))) w₀ log ss w ∧
      log.map Prod.fst = schedule ∧ w.timers.now ≤ w₀.timers.now + schedule.length := by
  induction schedule using List.reverseRecOn with
  | nil =>
      intro _
      exact ⟨[], _, w₀, .installed, rfl, Nat.le_refl _⟩
  | append_singleton schedule i ih =>
      intro inTime
      rw [List.length_append, List.length_singleton] at inTime ⊢
      obtain ⟨log, ss, w, run, order, clock⟩ := ih (Nat.lt_trans (Nat.lt_succ_self _) inTime)
      obtain ⟨granted, m, h⟩ := run.shares exact dry quiet
      have early : w.timers.now + 1 < instantLimit :=
        Nat.lt_of_le_of_lt (Nat.succ_le_succ clock) inTime
      obtain ⟨outcome, s', w', ends, taken⟩ :=
        tick_dry env (h.limiter i) h.dry h.inside exact (h.quiet i) early
      refine ⟨_, _, w', run.tick i early ends, ?_, ?_⟩
      · rw [List.map_append, order]
        rfl
      · exact Nat.le_trans taken.now_le (Nat.succ_le_succ clock)

end Run

/-- A world with a bucket that holds ten tokens and never refills. -/
def tenTokenWorld : World Unit := ⟨.empty, .start, #[.full (.zero false) 10 0], ()⟩

/-- Two sessions that take turns get nineteen ticks out of ten tokens. -/
theorem shared_bucket_runs_dry_on_turns :
    ∃ log ss w, Sharing (default : Embedding Unit) ⟨0⟩
        (fun _ : Fin 2 => idleSession.setLimiter (some (.bucket ⟨0⟩ 10))) tenTokenWorld log ss w ∧
      log.map Prod.fst = (List.replicate 20 [0, 1]).flatten ∧
      completed log = 2 * 2 + 3 * 5 := by
  have still : (Binary64.zero false).lt (.zero false) = false := by decide
  have full : tenTokenWorld.buckets[0]? = some (Bucket.full (.zero false) 10 0) := rfl
  have quiet (i : Fin 2) : tenTokenWorld.timers.Undisturbed idleSession.token :=
    ⟨rfl, rfl, by simp [tenTokenWorld, Timers.start]⟩
  obtain ⟨log, ss, w, run, order, -⟩ :=
    Sharing.scheduled default (b := ⟨0⟩) (s := fun _ => idleSession) (by decide)
      (World.balance_eq_dry.mpr ⟨_, full, Bucket.dry_full still 10 0⟩) quiet
      (List.replicate 20 [0, 1]).flatten (by decide)
  obtain ⟨most, all, -⟩ := shared_bucket_runs_dry (by decide) (by decide) still full quiet run
  refine ⟨log, ss, w, run, order, all fun i => ?_⟩
  -- a session that was never refused would have completed twenty ticks
  by_contra never
  have twenty : log.countP (·.1 == i) = 20 := by
    have turns : ∀ i : Fin 2, (List.replicate 20 [0, 1]).flatten.count i = 20 := by decide
    rw [← turns i, ← order, List.count, List.countP_map]
    rfl
  have fewer : log.countP (·.1 == i) ≤ completed log := by
    refine List.countP_mono_left fun x hx same => ?_
    obtain ⟨j, outcome⟩ := x
    cases eq_of_beq same
    cases outcome with
    | ok u => rfl
    | error e => exact absurd ⟨e, hx⟩ never
  exact absurd (Nat.le_trans (twenty.ge.trans fewer) most) (by decide)

end ScriptCore
