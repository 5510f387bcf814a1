import ScriptCore.Pacing.Bucket
import ScriptCore.Proofs.Binary64.Whole

/-!
# ScriptCore.Proofs.Pacing.DryBucket

A token bucket that **never refills**.

Its balance stays a whole number: time adds nothing to it, a granted request takes exactly what it
asked for, and a refused one takes nothing. A request that finds too little would have to wait for
ever, so it is refused at once.
-/

namespace ScriptCore

namespace Timers

variable {t : Timers} {id : TokenId}

/-- A token that nobody cancels, now or later, and that has no deadline. -/
structure Undisturbed (t : Timers) (id : TokenId) : Prop where
  notCancelled : (t.token id).cancelled = false
  noDeadline : (t.token id).deadline = none
  notDue : ∀ e ∈ t.due, e.2 ≠ id

theorem token_cancel_of_ne {other : TokenId} (hne : other ≠ id) :
    (t.cancel other).token id = t.token id := by
  have hindex : other.index ≠ id.index := by
    intro heq
    cases other
    cases id
    exact hne (congrArg TokenId.mk heq)
  simp [token, cancel, Array.getElem?_modify, hindex]

/-- Cancelling tokens changes neither the clock nor what is due. -/
theorem cancelAll_frame (past : List (Nanoseconds × TokenId)) (t : Timers) :
    (past.foldl (fun t e => t.cancel e.2) t).now = t.now ∧
      (past.foldl (fun t e => t.cancel e.2) t).due = t.due := by
  induction past generalizing t with
  | nil => exact ⟨rfl, rfl⟩
  | cons e past ih => exact ih (t.cancel e.2)

theorem token_cancelAll {past : List (Nanoseconds × TokenId)} (others : ∀ e ∈ past, e.2 ≠ id)
    (t : Timers) : (past.foldl (fun t e => t.cancel e.2) t).token id = t.token id := by
  induction past generalizing t with
  | nil => rfl
  | cons e past ih =>
      rw [List.foldl_cons, ih (fun x hx => others x (List.mem_cons_of_mem e hx)),
        token_cancel_of_ne (others e List.mem_cons_self)]

theorem now_read (t : Timers) : t.read.1 = t.now + 1 := by
  rw [read, advanceTo]
  dsimp only
  rw [(cancelAll_frame _ _).1]
  exact Nat.max_eq_right (Nat.le_succ _)

/-- Reading the clock disturbs no token that was not to be disturbed. -/
theorem Undisturbed.read (h : t.Undisturbed id) : t.read.2.Undisturbed id := by
  rw [Timers.read, advanceTo]
  dsimp only
  rw [List.partition_eq_filter_filter]
  have others : ∀ e ∈ t.due.filter (fun e => e.1 ≤ max t.now (t.now + 1)), e.2 ≠ id :=
    fun e he => h.notDue e (List.mem_filter.mp he).1
  have htoken := token_cancelAll others
  refine ⟨?_, ?_, ?_⟩
  · rw [htoken]
    exact h.notCancelled
  · rw [htoken]
    exact h.noDeadline
  · rw [(cancelAll_frame _ _).2]
    intro e he
    exact h.notDue e (List.mem_filter.mp he).1

end Timers

namespace Bucket

variable {b : Bucket} {burst m n : Nat} {now : Nanoseconds}

/-- A bucket that never refills, with a capacity and a balance. -/
structure Dry (b : Bucket) (burst m : Nat) : Prop where
  rate : b.rate = .zero false
  burst : b.burst = burst
  tokens : b.tokens = .ofNat m

/-- A rate that is not above zero makes a bucket that never refills. -/
theorem dry_full {rate : Binary64} (still : (Binary64.zero false).lt rate = false) (burst : Nat)
    (now : Nanoseconds) : (full rate burst now).Dry burst burst := by
  refine ⟨?_, rfl, rfl⟩
  rw [full]
  dsimp only
  rw [still]
  rfl

theorem least_ofNat (hle : m ≤ n) (hn : n ≤ 2 ^ 53) :
    least (.ofNat m) (.ofNat n) = .ofNat m := by
  have hlt := (Binary64.denotes_ofNat hn).lt_iff (Binary64.denotes_ofNat (Nat.le_trans hle hn))
  rw [least, if_neg]
  rw [hlt]
  exact Nat.not_lt.mpr (Nat.mul_le_mul_right _ hle)

namespace Dry

variable (h : b.Dry burst m) (inside : m ≤ burst) (exact : burst ≤ 2 ^ 53)

include h

include inside exact in
/-- Time adds nothing. -/
theorem refill (small : now < 2 ^ 200) : (b.refill now).Dry burst m := by
  rw [Bucket.refill]
  split
  · obtain ⟨d, elapsed⟩ := Binary64.ofRatio_denotes
      (Nat.lt_of_le_of_lt (Nat.sub_le now b.since) small) nanosecondsPerSecond
    refine ⟨h.rate, h.burst, ?_⟩
    dsimp only
    rw [h.rate, h.tokens, h.burst, elapsed.mul_zero,
      Binary64.ofNat_add_zero (Nat.le_trans inside exact), least_ofNat inside exact]
  · exact h

theorem reserve?_of_le (hle : n ≤ m) (hm : m ≤ 2 ^ 53) :
    b.reserve? n now none = some (now, { b with tokens := .ofNat (m - n) }) := by
  have hrest := Binary64.denotes_ofNat (m := m - n) (by omega)
  rw [reserve?, h.tokens, Binary64.ofNat_sub_ofNat hle hm, if_pos (hrest.zero_le_iff.mpr (.inl rfl))]
  rfl

/-- The debt would never be paid. -/
theorem reserve?_of_lt (hlt : m < n) (hn : n ≤ 2 ^ 53) (deadline : Option Nanoseconds) :
    b.reserve? n now deadline = none := by
  have hrest := Binary64.denotes_ofNat_sub hlt hn
  have hpos : 0 < (n - m) * Binary64.unitsPerOne :=
    Nat.mul_pos (by omega) Binary64.unitsPerOne_pos
  have hnever : wholeNanoseconds? (Binary64.infinity false) = none := by decide
  rw [reserve?, h.tokens, h.rate, if_neg, hrest.neg.div_zero hpos, hnever]
  · rfl
  · rw [hrest.zero_le_iff, not_or]
    exact ⟨by simp, Nat.ne_of_gt hpos⟩

variable {t : Timers} {token : TokenId}

/-- A request is granted if the balance covers it. Otherwise it is refused and takes nothing. -/
theorem request (quiet : t.Undisturbed token) (inTime : t.now + 1 < 2 ^ 200) (inside : m ≤ burst)
    (exact : burst ≤ 2 ^ 53) (n : Nat) :
    ∃ r b' t', b.request t n token = (r, b', t') ∧ (t' = t ∨ t' = t.read.2) ∧
      ((n ≤ m ∧ r = .ok () ∧ b'.Dry burst (m - n)) ∨
        (m < n ∧ (∃ refusal, r = .error refusal ∧ refusal ≠ .cancelled) ∧ b'.Dry burst m)) := by
  have finite : b.rate.isInfinite = false := by rw [h.rate]; rfl
  rw [Bucket.request, quiet.notCancelled, finite, h.burst]
  simp only [Bool.false_eq_true, if_false]
  split
  · rename_i exceeds
    exact ⟨_, b, t, rfl, .inl rfl, .inr ⟨Nat.lt_of_le_of_lt inside exceeds, ⟨_, rfl, by simp⟩, h⟩⟩
  · rename_i covers
    have filled : (b.refill t.read.1).Dry burst m :=
      h.refill inside exact (t.now_read ▸ inTime)
    rw [quiet.read.noDeadline]
    rcases Nat.lt_or_ge m n with hlt | hle
    · rw [filled.reserve?_of_lt hlt (by omega)]
      exact ⟨_, _, _, rfl, .inr rfl, .inr ⟨hlt, ⟨_, rfl, by simp⟩, filled⟩⟩
    · rw [filled.reserve?_of_le hle (by omega)]
      simp only [Nat.le_refl, if_true]
      exact ⟨_, _, _, rfl, .inr rfl, .inl ⟨hle, rfl, filled.rate, filled.burst, rfl⟩⟩

end Dry

end Bucket

end ScriptCore
