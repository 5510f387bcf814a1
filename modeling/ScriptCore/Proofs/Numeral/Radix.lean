import Mathlib.Data.Nat.Digits.Defs
import Mathlib.Tactic.MkIffOfInductiveProp
import ScriptCore.Proofs.Binary64.Rounded
import ScriptCore.Proofs.Numeral.Grammar

/-!
# ScriptCore.Proofs.Numeral.Radix

The number that a **radix literal** is read as, and when it is read as infinity.

Design points:

* Up to `2⁵³` all sums are exact. Let the *crossing* be the first prefix of the digits from `2⁵³` on
  (`Crosses`): it is rounded once, and every digit behind it is less than half of the spacing, so it
  changes nothing.
* Each step is undone in double precision. At the crossing, or right behind it, that can fail far
  below the largest number (`LosesDigit`); what fails there makes the literal infinite.
-/

namespace ScriptCore.RadixLiteral

open Binary64 (Whole roundBits)

variable {radix a b d k : Nat} {acc : Binary64} {ds : List Nat}

/-! ### Digits and the number they denote -/

/-- Digits behind a number. -/
def horner (radix a : Nat) (ds : List Nat) : Nat := ds.foldl (fun n d => n * radix + d) a

theorem horner_cons (radix a d : Nat) (ds : List Nat) :
    horner radix a (d :: ds) = horner radix (a * radix + d) ds := rfl

theorem horner_append (radix a : Nat) (ds es : List Nat) :
    horner radix a (ds ++ es) = horner radix (horner radix a ds) es := List.foldl_append

theorem horner_eq (radix a : Nat) (ds : List Nat) :
    horner radix a ds = a * radix ^ ds.length + Nat.ofDigits radix ds.reverse := by
  induction ds generalizing a with
  | nil => simp [horner]
  | cons d ds ih =>
      rw [horner_cons, ih, List.reverse_cons, Nat.ofDigits_append, Nat.ofDigits_singleton,
        List.length_reverse, List.length_cons]
      ring

theorem le_horner (hradix : 0 < radix) (a : Nat) (ds : List Nat) : a ≤ horner radix a ds := by
  rw [horner_eq]
  exact Nat.le_add_right_of_le (Nat.le_mul_of_pos_right a (Nat.pow_pos hradix))

/-- The digits behind a number do not carry into it. -/
theorem horner_lt (digits : ∀ d ∈ ds, d < radix) (a : Nat) :
    horner radix a ds < (a + 1) * radix ^ ds.length := by
  induction ds generalizing a with
  | nil => simp [horner]
  | cons d ds ih =>
      obtain ⟨hd, hds⟩ := List.forall_mem_cons.mp digits
      calc horner radix a (d :: ds) < (a * radix + d + 1) * radix ^ ds.length := ih hds _
        _ ≤ ((a + 1) * radix) * radix ^ ds.length := by
          refine Nat.mul_le_mul_right _ ?_
          rw [Nat.succ_mul]
          omega
        _ = (a + 1) * radix ^ (d :: ds).length := by rw [List.length_cons, Nat.pow_succ']; ring

/-- A prefix is what is left of the number without the digits behind it. -/
theorem horner_div (digits : ∀ d ∈ ds, d < radix) (a : Nat) :
    horner radix a ds / radix ^ ds.length = a := by
  refine Nat.div_eq_of_lt_le ?_ (horner_lt digits a)
  rw [horner_eq]
  exact Nat.le_add_right _ _

/-- The first of some digits is found behind the place where they start. -/
theorem horner_mod {e : Nat} (he : e < radix) (digits : ∀ d ∈ ds, d < radix) (a : Nat) :
    horner radix a (e :: ds) / radix ^ ds.length % radix = e := by
  rw [horner_cons, horner_div digits, Nat.mul_comm, Nat.mul_add_mod, Nat.mod_eq_of_lt he]

/-! ### One step -/

/-- The step of a digit: the sum, unless undoing it fails. -/
theorem step?_of_pos (hb : 1 ≤ b) (hb' : b ≤ 4) (hacc : Whole acc a) (pos : 0 < a)
    (exact : roundBits a = a) (hd : d < 2 ^ b) (hk : k ≤ 1022)
    (small : 17 * (a * 2 ^ b + d) < 40 * 2 ^ k) :
    ∃ next, Whole next (roundBits (a * 2 ^ b + d)) ∧ step? (2 ^ b) acc d =
      if roundBits (roundBits (a * 2 ^ b + d) - d) = a * 2 ^ b then some next else none := by
  have hradix : 2 ^ b ≤ 2 ^ 4 := Nat.pow_le_pow_right Nat.two_pos hb'
  have htwice : a * 2 ^ 1 ≤ a * 2 ^ b :=
    Nat.mul_le_mul_left a (Nat.pow_le_pow_right Nat.two_pos hb)
  have hplace : 1 * 2 ^ b ≤ a * 2 ^ b := Nat.mul_le_mul_right _ pos
  have hr : Whole (Binary64.ofNat (2 ^ b)) (2 ^ b) := Binary64.whole_ofNat (by omega)
  have hdigit : Whole (Binary64.ofNat d) d := Binary64.whole_ofNat (by omega)
  have hproduct : Whole (acc * Binary64.ofNat (2 ^ b)) (a * 2 ^ b) := by
    have hmul := hacc.mul hr hk (by omega)
    rwa [Binary64.roundBits_mul_two_pow, exact] at hmul
  have hnext := hproduct.add hdigit hk (by omega)
  obtain ⟨hlower, hupper⟩ := Binary64.roundBits_bounds (a * 2 ^ b + d)
  have hround := Binary64.roundBits_bounds (roundBits (a * 2 ^ b + d) - d)
  have hdifference := hnext.sub hdigit (by omega) hk (by omega)
  have hgrows : (acc * Binary64.ofNat (2 ^ b) + Binary64.ofNat d).le acc = false := by
    rw [← Bool.not_eq_true, hnext.le_iff hacc]
    omega
  have hundone := hacc.numEq_div_iff hdifference hr (Binary64.roundBits_roundBits _) (by omega) hk
    (by omega)
  refine ⟨_, hnext, ?_⟩
  have hzero : acc.isZero = false := by
    rw [hacc.isZero, beq_eq_false_iff_ne]
    exact pos.ne'
  unfold step?
  dsimp only
  rw [hzero, hgrows]
  by_cases undone : roundBits (roundBits (a * 2 ^ b + d) - d) = a * 2 ^ b
  · rw [hundone.mpr undone, if_pos undone]
    rfl
  · rw [Bool.eq_false_iff.mpr fun h => undone (hundone.mp h), if_neg undone]
    rfl

/-- The first digit. -/
theorem step?_of_zero (hb : b ≤ 4) (hacc : Whole acc 0) (hd : d < 2 ^ b) :
    ∃ next, Whole next d ∧ step? (2 ^ b) acc d = some next := by
  have hradix : 2 ^ b ≤ 2 ^ 4 := Nat.pow_le_pow_right Nat.two_pos hb
  have hr : Whole (Binary64.ofNat (2 ^ b)) (2 ^ b) := Binary64.whole_ofNat (by omega)
  have hdigit : Whole (Binary64.ofNat d) d := Binary64.whole_ofNat (by omega)
  have hproduct := hacc.mul hr (k := 5) (by decide) (by omega)
  rw [Nat.zero_mul, Binary64.roundBits_of_le (Nat.zero_le _)] at hproduct
  have hnext := hproduct.add hdigit (k := 5) (by decide) (by omega)
  rw [Nat.zero_add, Binary64.roundBits_of_le (by omega)] at hnext
  refine ⟨_, hnext, ?_⟩
  unfold step?
  dsimp only
  rw [hacc.isZero]
  rfl

/-! ### Digits that are summed exactly -/

/-- As long as the number is at most `2⁵³`, the sum is the number. -/
theorem whole_of_small (hb : 1 ≤ b) (hb' : b ≤ 4) {ds : List Nat} (digits : ∀ d ∈ ds, d < 2 ^ b)
    {acc : Binary64} {a : Nat} (hacc : Whole acc a) (small : horner (2 ^ b) a ds ≤ 2 ^ 53) :
    ∃ acc', Whole acc' (horner (2 ^ b) a ds) ∧
      ∀ es, valueFrom (2 ^ b) acc (ds ++ es) = valueFrom (2 ^ b) acc' es := by
  induction ds generalizing acc a with
  | nil => exact ⟨acc, hacc, fun es => rfl⟩
  | cons d ds ih =>
      obtain ⟨hd, hds⟩ := List.forall_mem_cons.mp digits
      rw [horner_cons] at small ⊢
      have hsum := Nat.le_trans (le_horner (Nat.two_pow_pos b) _ ds) small
      obtain ⟨next, hnext, hstep⟩ : ∃ next, Whole next (a * 2 ^ b + d) ∧
          step? (2 ^ b) acc d = some next := by
        rcases Nat.eq_zero_or_pos a with rfl | pos
        · rw [Nat.zero_mul, Nat.zero_add]
          exact step?_of_zero hb' hacc hd
        · have hplace : a * 1 ≤ a * 2 ^ b := Nat.mul_le_mul_left a (Nat.one_le_two_pow)
          obtain ⟨next, hnext, hstep⟩ := step?_of_pos (k := 60) hb hb' hacc pos
            (Binary64.roundBits_of_le (by omega)) hd (by decide) (by omega)
          rw [Binary64.roundBits_of_le hsum] at hnext hstep
          rw [Nat.add_sub_cancel, Binary64.roundBits_of_le (by omega), if_pos rfl] at hstep
          exact ⟨next, hnext, hstep⟩
      obtain ⟨acc', hacc', hrest⟩ := ih hds hnext small
      refine ⟨acc', hacc', fun es => ?_⟩
      rw [List.cons_append, valueFrom, hstep]
      exact hrest es

/-! ### Digits that change nothing -/

/-- From `2⁵³` on a digit is dropped, and at `2⁵³` itself one that is more than half of the radix is
missed. -/
theorem undone_of_large (hb : 1 ≤ b) (large : 2 ^ 53 ≤ a) (exact : roundBits a = a)
    (hd : d < 2 ^ b) : roundBits (a * 2 ^ b + d) = a * 2 ^ b ∧
      (roundBits (a * 2 ^ b - d) = a * 2 ^ b ↔ (a = 2 ^ 53 → 2 * d ≤ 2 ^ b)) := by
  obtain ⟨q, j, rfl, hlower, hupper, hj⟩ := Binary64.exists_parts large exact
  obtain ⟨i, rfl⟩ : ∃ i, j = i + 1 := ⟨j - 1, by omega⟩
  have hspacing : 2 ^ (i + 1 + b) = 2 * (2 ^ i * 2 ^ b) := by
    rw [Nat.pow_add, Nat.pow_succ']
    ring
  have hle : 1 * 2 ^ b ≤ 2 ^ i * 2 ^ b := Nat.mul_le_mul_right _ Nat.one_le_two_pow
  have hlast : (q + 1) * 2 ^ (i + 1 + b) ≤ 2 ^ 53 * 2 ^ (i + 1 + b) := Nat.mul_le_mul_right _ hupper
  have hfirst : 2 ^ 52 * 2 ^ (i + 1 + b) ≤ q * 2 ^ (i + 1 + b) := Nat.mul_le_mul_right _ hlower
  rw [Nat.succ_mul] at hlast
  rw [Nat.mul_assoc, ← Nat.pow_add]
  have hround : roundBits (q * 2 ^ (i + 1 + b) + d) = q * 2 ^ (i + 1 + b) := by
    rw [(Binary64.spaced_whole (.inr (by omega)) (by omega)).roundBits_eq_iff]
    omega
  have hundoes := Binary64.undoes_iff (k := i + 1 + b) (by omega) hlower (d := d) (by omega)
  rw [hround, Nat.mod_eq_of_lt (by omega)] at hundoes
  refine ⟨hround, hundoes.trans ?_⟩
  cases i with
  | zero =>
      rw [Nat.pow_zero, Nat.one_mul] at hspacing
      omega
  | succ i =>
      have hfar : 2 * (1 * 2 ^ b) ≤ 2 ^ (i + 1) * 2 ^ b := by
        rw [Nat.pow_succ', Nat.mul_assoc]
        exact Nat.mul_le_mul_left 2 (Nat.mul_le_mul_right _ Nat.one_le_two_pow)
      have hplace : 2 ^ 52 * 2 ^ 2 ≤ q * 2 ^ (i + 1 + 1) :=
        Nat.mul_le_mul hlower (Nat.pow_le_pow_right Nat.two_pos (by omega))
      omega

/-- Behind a number from `2⁵³` on, all digits are dropped. -/
theorem whole_of_large (hb : 1 ≤ b) (hb' : b ≤ 4) (hk : k ≤ 1022) {ds : List Nat}
    (digits : ∀ d ∈ ds, d < 2 ^ b) {acc : Binary64} {a : Nat} (hacc : Whole acc a)
    (large : 2 ^ 53 ≤ a) (exact : roundBits a = a)
    (small : 18 * (a * (2 ^ b) ^ ds.length) < 40 * 2 ^ k)
    (near : a = 2 ^ 53 → ∀ d ∈ ds.head?, 2 * d ≤ 2 ^ b) :
    Whole (valueFrom (2 ^ b) acc ds) (a * (2 ^ b) ^ ds.length) := by
  induction ds generalizing acc a with
  | nil => simpa [valueFrom] using hacc
  | cons d ds ih =>
      obtain ⟨hd, hds⟩ := List.forall_mem_cons.mp digits
      obtain ⟨hround, hundone⟩ := undone_of_large hb large exact hd
      have hradix : 2 ^ b ≤ 2 ^ 4 := Nat.pow_le_pow_right Nat.two_pos hb'
      have htwice : a * 2 ^ 1 ≤ a * 2 ^ b :=
        Nat.mul_le_mul_left a (Nat.pow_le_pow_right Nat.two_pos hb)
      have hlength : a * (2 ^ b) ^ (d :: ds).length = a * 2 ^ b * (2 ^ b) ^ ds.length := by
        rw [List.length_cons, Nat.pow_succ', Nat.mul_assoc]
      have hplace : a * 2 ^ b * 1 ≤ a * 2 ^ b * (2 ^ b) ^ ds.length :=
        Nat.mul_le_mul_left _ (Nat.pow_pos (Nat.two_pow_pos b))
      rw [hlength] at small ⊢
      obtain ⟨next, hnext, hstep⟩ := step?_of_pos hb hb' hacc (by omega) exact hd hk (by omega)
      rw [hround, if_pos (hundone.mpr fun h => near h d rfl)] at hstep
      rw [hround] at hnext
      rw [valueFrom, hstep]
      refine ih hds hnext (by omega) ?_ small (by omega)
      rw [Binary64.roundBits_mul_two_pow, exact]

/-- At `2⁵³` a digit that is more than half of the radix is missed. -/
theorem infinite_of_large (hb : 1 ≤ b) (hb' : b ≤ 4) (hacc : Whole acc (2 ^ 53)) (hd : d < 2 ^ b)
    (far : 2 ^ b < 2 * d) : valueFrom (2 ^ b) acc (d :: ds) = .infinity false := by
  have hradix : 2 ^ b ≤ 2 ^ 4 := Nat.pow_le_pow_right Nat.two_pos hb'
  have exact := Binary64.roundBits_of_le (Nat.le_refl (2 ^ 53))
  obtain ⟨hround, hundone⟩ := undone_of_large hb (Nat.le_refl _) exact hd
  obtain ⟨next, -, hstep⟩ := step?_of_pos (k := 60) hb hb' hacc (by decide) exact hd (by decide)
    (by omega)
  rw [hround, if_neg (fun h => absurd (hundone.mp h rfl) (by omega))] at hstep
  rw [valueFrom, hstep]

/-! ### The crossing -/

/-- Without its last `t` digits a number is at least `2⁵³`, and without one more it is less. -/
def Crosses (radix n t : Nat) : Prop := n / radix ^ (t + 1) < 2 ^ 53 ∧ 2 ^ 53 ≤ n / radix ^ t

theorem Crosses.unique {n t t' : Nat} (hradix : 0 < radix) (h : Crosses radix n t)
    (h' : Crosses radix n t') : t = t' := by
  have apart {t t' : Nat} (h : Crosses radix n t) (h' : Crosses radix n t') : t' ≤ t := by
    by_contra hlt
    have hle : n / radix ^ t' ≤ n / radix ^ (t + 1) :=
      Nat.div_le_div_left (Nat.pow_le_pow_right hradix (by omega)) (Nat.pow_pos hradix)
    exact absurd (Nat.le_trans h'.2 hle) (Nat.not_le.mpr h.1)
  exact Nat.le_antisymm (apart h' h) (apart h h')

/-- How far the words next to a number are apart. -/
def spacing (n : Nat) : Nat := 2 ^ (n.log2 - 52)

theorem spacing_eq {n : Nat} (h : Binary64.Spaced n 1 k) : spacing n = 2 ^ k := by
  have hlog := h.log2_eq Nat.one_pos
  rw [Nat.div_one] at hlog
  rw [spacing, hlog]

/-- The sum lies halfway between two words, and without its last digit it is an odd number of
spacings. -/
@[mk_iff halfway_iff]
structure Halfway (radix q : Nat) : Prop where
  half : 2 * (q % spacing q) = spacing q
  odd : q / radix * radix / spacing q % 2 = 1

/-- Without its last digit the sum is a power of two, and the sum is rounded down by more than a
quarter of the spacing: more than half of the spacing below the power. -/
@[mk_iff pastPower_iff]
structure PastPower (radix q : Nat) : Prop where
  power : q / radix * radix = 2 ^ 52 * spacing q
  far : spacing q < 4 * (q % spacing q)
  down : roundBits q < q

/-- At the crossing the sum without its last digit is a significand at a spacing. -/
theorem parts_of_crossing {p : Nat} (hb : b ≤ 4) (hp : p < 2 ^ 53) (hd : d < 2 ^ b)
    (large : 2 ^ 53 ≤ p * 2 ^ b + d) : ∃ q k, p * 2 ^ b = q * 2 ^ k ∧ 1 ≤ k ∧ 2 ^ 52 ≤ q ∧
      q * 2 ^ k + d < 2 ^ 53 * 2 ^ k := by
  have hradix : 2 ^ b ≤ 2 ^ 4 := Nat.pow_le_pow_right Nat.two_pos hb
  have hpos : p ≠ 0 := by
    rintro rfl
    omega
  have hlog : p.log2 < 53 := (Nat.log2_lt hpos).mpr hp
  have hupper : (p + 1) * 2 ^ b ≤ 2 ^ (p.log2 + 1 + b) := by
    rw [Nat.pow_add]
    exact Nat.mul_le_mul_right _ Nat.lt_log2_self
  rw [Nat.succ_mul] at hupper
  have hspace : 53 < p.log2 + 1 + b :=
    (Nat.pow_lt_pow_iff_right (by decide)).mp (Nat.lt_of_le_of_lt large (by omega))
  obtain ⟨c, hc⟩ : ∃ c, p.log2 + c = 52 := ⟨52 - p.log2, by omega⟩
  obtain ⟨k, rfl⟩ : ∃ k, b = c + k := ⟨b - c, by omega⟩
  have hplace : p * 2 ^ (c + k) = p * 2 ^ c * 2 ^ k := by rw [Nat.pow_add, Nat.mul_assoc]
  refine ⟨p * 2 ^ c, k, hplace, by omega, ?_, ?_⟩
  · rw [← hc, Nat.pow_add]
    exact Nat.mul_le_mul_right _ (Nat.log2_self_le hpos)
  · rw [← hplace, ← Nat.pow_add, show 53 + k = p.log2 + 1 + (c + k) by omega]
    omega

/-- The step at the crossing is undone unless one of these is so. -/
theorem undone_of_crossing {p : Nat} (hb : b ≤ 4) (hp : p < 2 ^ 53) (hd : d < 2 ^ b)
    (large : 2 ^ 53 ≤ p * 2 ^ b + d) :
    roundBits (roundBits (p * 2 ^ b + d) - d) = p * 2 ^ b ↔
      ¬Halfway (2 ^ b) (p * 2 ^ b + d) ∧ ¬PastPower (2 ^ b) (p * 2 ^ b + d) := by
  have hwhole : (p * 2 ^ b + d) / 2 ^ b * 2 ^ b = p * 2 ^ b := by
    rw [Nat.mul_comm p, Nat.mul_add_div (Nat.two_pow_pos b), Nat.div_eq_of_lt hd, Nat.add_zero,
      Nat.mul_comm]
  obtain ⟨q, k, hplace, hk, hnormal, hsum⟩ := parts_of_crossing hb hp hd large
  rw [hplace] at hwhole ⊢
  have hlower : 2 ^ 52 * 2 ^ k ≤ q * 2 ^ k := Nat.mul_le_mul_right _ hnormal
  have hspacing : spacing (q * 2 ^ k + d) = 2 ^ k :=
    spacing_eq (Binary64.spaced_whole (.inr (by omega)) hsum)
  have hrest : (q * 2 ^ k + d) % 2 ^ k = d % 2 ^ k := by
    rw [Nat.mul_comm, Nat.mul_add_mod]
  have hhalfway : Halfway (2 ^ b) (q * 2 ^ k + d) ↔ 2 * (d % 2 ^ k) = 2 ^ k ∧ q % 2 = 1 := by
    rw [halfway_iff, hwhole, hspacing, hrest, Nat.mul_div_cancel _ (Nat.two_pow_pos k)]
  have hpast : PastPower (2 ^ b) (q * 2 ^ k + d) ↔ q = 2 ^ 52 ∧ 2 ^ k < 4 * (d % 2 ^ k) ∧
      roundBits (q * 2 ^ k + d) < q * 2 ^ k + d := by
    rw [pastPower_iff, hwhole, hspacing, hrest, Nat.mul_left_inj (Nat.two_pow_pos k).ne']
  rw [hhalfway, hpast]
  exact Binary64.undoes_iff hk hnormal hsum

/-- A digit of the literal is lost in the sums. -/
inductive LosesDigit (radix n : Nat) : Prop where
  /-- At the crossing, halfway between two words. -/
  | halfway {t : Nat} (crosses : Crosses radix n t) (halfway : Halfway radix (n / radix ^ t))
  /-- At the crossing, at a power of two. -/
  | power {t : Nat} (crosses : Crosses radix n t) (past : PastPower radix (n / radix ^ t))
  /-- Right behind the crossing, if that is `2⁵³` itself. -/
  | behind {t : Nat} (crosses : Crosses radix n (t + 1)) (power : n / radix ^ (t + 1) = 2 ^ 53)
      (far : radix < 2 * (n / radix ^ t % radix))

theorem losesDigit_iff {n t : Nat} (hradix : 0 < radix) (crosses : Crosses radix n t) :
    LosesDigit radix n ↔ Halfway radix (n / radix ^ t) ∨ PastPower radix (n / radix ^ t) ∨
      ∃ u, t = u + 1 ∧ n / radix ^ t = 2 ^ 53 ∧ radix < 2 * (n / radix ^ u % radix) := by
  constructor
  · intro lost
    cases lost with
    | halfway other halfway =>
        obtain rfl := crosses.unique hradix other
        exact .inl halfway
    | power other past =>
        obtain rfl := crosses.unique hradix other
        exact .inr (.inl past)
    | behind other power far =>
        obtain rfl := crosses.unique hradix other
        exact .inr (.inr ⟨_, rfl, power, far⟩)
  · rintro (halfway | past | ⟨u, rfl, power, far⟩)
    · exact .halfway crosses halfway
    · exact .power crosses past
    · exact .behind crosses power far

/-- A number below `2⁵³` has no crossing. -/
theorem Crosses.le {n t : Nat} (h : Crosses radix n t) : 2 ^ 53 ≤ n :=
  Nat.le_trans h.2 (Nat.div_le_self _ _)

theorem LosesDigit.le {n : Nat} (lost : LosesDigit radix n) : 2 ^ 53 ≤ n := by
  cases lost with
  | halfway crosses => exact crosses.le
  | power crosses => exact crosses.le
  | behind crosses => exact crosses.le

theorem exists_crossing {ds : List Nat} {a : Nat} (small : a < 2 ^ 53)
    (large : 2 ^ 53 ≤ horner radix a ds) : ∃ front d back, ds = front ++ d :: back ∧
      horner radix a front < 2 ^ 53 ∧ 2 ^ 53 ≤ horner radix a front * radix + d := by
  induction ds generalizing a with
  | nil => exact absurd large (Nat.not_le.mpr small)
  | cons d ds ih =>
      rcases Nat.lt_or_ge (a * radix + d) (2 ^ 53) with hlt | hge
      · obtain ⟨front, e, back, rfl, hfront, hback⟩ := ih hlt large
        exact ⟨d :: front, e, back, rfl, hfront, hback⟩
      · exact ⟨[], d, ds, rfl, small, hge⟩

/-! ### The value -/

section Crossing

variable {p n : Nat} {back : List Nat}

/-- Where the crossing of a number is, when digits follow the first part that is at least `2⁵³`. -/
theorem place_of_crossing (hn : horner radix p (d :: back) = n) (hp : p < 2 ^ 53) (hd : d < radix)
    (hback : ∀ e ∈ back, e < radix) (large : 2 ^ 53 ≤ p * radix + d) :
    n / radix ^ back.length = p * radix + d ∧ Crosses radix n back.length ∧
      (p * radix + d) * radix ^ back.length ≤ n := by
  have hplace : n / radix ^ back.length = p * radix + d := hn ▸ horner_div hback _
  have hbefore : n / radix ^ (back.length + 1) = p :=
    hn ▸ horner_div (List.forall_mem_cons.mpr ⟨hd, hback⟩) p
  refine ⟨hplace, ⟨hbefore ▸ hp, hplace ▸ large⟩, ?_⟩
  rw [← hn, horner_cons, horner_eq]
  exact Nat.le_add_right _ _

/-- A sum whose step is undone is rounded to `2⁵³` only if it is that. -/
theorem roundBits_eq_power_iff (hd : d ≤ 16) (undone : roundBits (roundBits (p + d) - d) = p) :
    roundBits (p + d) = 2 ^ 53 ↔ p + d = 2 ^ 53 := by
  constructor
  · intro power
    rw [power, Binary64.roundBits_of_le (Nat.sub_le _ _)] at undone
    omega
  · intro power
    rw [power, Binary64.roundBits_of_le (Nat.le_refl _)]

/-- Where the step at the crossing is undone, a digit is lost only right behind it. -/
theorem losesDigit_of_undone (hb' : b ≤ 4) (hn : horner (2 ^ b) p (d :: back) = n) (hp : p < 2 ^ 53)
    (hd : d < 2 ^ b) (hback : ∀ e ∈ back, e < 2 ^ b) (large : 2 ^ 53 ≤ p * 2 ^ b + d)
    (undone : roundBits (roundBits (p * 2 ^ b + d) - d) = p * 2 ^ b) :
    LosesDigit (2 ^ b) n ↔ p * 2 ^ b + d = 2 ^ 53 ∧ ∃ e ∈ back.head?, 2 ^ b < 2 * e := by
  obtain ⟨hplace, crosses, -⟩ := place_of_crossing hn hp hd hback large
  obtain ⟨hhalfway, hpast⟩ := (undone_of_crossing hb' hp hd large).mp undone
  rw [losesDigit_iff (Nat.two_pow_pos b) crosses, hplace]
  constructor
  · rintro (halfway | past | ⟨u, hu, power, far⟩)
    · exact absurd halfway hhalfway
    · exact absurd past hpast
    · obtain ⟨e, es, rfl⟩ := List.exists_cons_of_length_eq_add_one hu
      obtain rfl : es.length = u := Nat.succ.inj hu
      obtain ⟨he, hes⟩ := List.forall_mem_cons.mp hback
      rw [← hn, horner_cons, horner_mod he hes] at far
      exact ⟨power, e, rfl, far⟩
  · rintro ⟨power, e, mem, far⟩
    obtain ⟨es, rfl⟩ : ∃ es, back = e :: es := ⟨_, List.eq_cons_of_mem_head? mem⟩
    obtain ⟨he, hes⟩ := List.forall_mem_cons.mp hback
    refine .inr (.inr ⟨es.length, rfl, power, ?_⟩)
    rw [← hn, horner_cons, horner_mod he hes]
    exact far

/-- Digits behind the crossing. -/
theorem valueFrom_of_crossing (hb : 1 ≤ b) (hb' : b ≤ 4) (hk : k ≤ 1022)
    (hn : horner (2 ^ b) p (d :: back) = n) (hacc : Whole acc p) (hp : p < 2 ^ 53) (hd : d < 2 ^ b)
    (hback : ∀ e ∈ back, e < 2 ^ b) (large : 2 ^ 53 ≤ p * 2 ^ b + d) (small : n < 2 * 2 ^ k) :
    Crosses (2 ^ b) n back.length ∧
      (¬LosesDigit (2 ^ b) n → Whole (valueFrom (2 ^ b) acc (d :: back))
        (roundBits (n / (2 ^ b) ^ back.length) * (2 ^ b) ^ back.length)) ∧
      (LosesDigit (2 ^ b) n → valueFrom (2 ^ b) acc (d :: back) = .infinity false) := by
  have hradix : 2 ^ b ≤ 2 ^ 4 := Nat.pow_le_pow_right Nat.two_pos hb'
  obtain ⟨hplace, crosses, hsum⟩ := place_of_crossing hn hp hd hback large
  have hfirst : (p * 2 ^ b + d) * 1 ≤ (p * 2 ^ b + d) * (2 ^ b) ^ back.length :=
    Nat.mul_le_mul_left _ (Nat.pow_pos (Nat.two_pow_pos b))
  have hpos : 0 < p := by
    refine Nat.pos_of_ne_zero ?_
    rintro rfl
    omega
  obtain ⟨next, hnext, hstep⟩ := step?_of_pos hb hb' hacc hpos
    (Binary64.roundBits_of_le (Nat.le_of_lt hp)) hd hk (by omega)
  refine ⟨crosses, ?_⟩
  rw [valueFrom, hstep, hplace]
  by_cases undone : roundBits (roundBits (p * 2 ^ b + d) - d) = p * 2 ^ b
  · rw [if_pos undone, losesDigit_of_undone hb' hn hp hd hback large undone]
    have hpower := roundBits_eq_power_iff (by omega) undone
    by_cases lost : p * 2 ^ b + d = 2 ^ 53 ∧ ∃ e ∈ back.head?, 2 ^ b < 2 * e
    · refine ⟨fun kept => absurd lost kept, fun _ => ?_⟩
      obtain ⟨power, e, mem, far⟩ := lost
      obtain ⟨es, rfl⟩ : ∃ es, back = e :: es := ⟨_, List.eq_cons_of_mem_head? mem⟩
      rw [hpower.mpr power] at hnext
      exact infinite_of_large hb hb' hnext (hback e List.mem_cons_self) far
    · have hround := (Binary64.roundBits_bounds (p * 2 ^ b + d)).2
      have hscaled : 16 * roundBits (p * 2 ^ b + d) * (2 ^ b) ^ back.length ≤
          17 * (p * 2 ^ b + d) * (2 ^ b) ^ back.length := Nat.mul_le_mul_right _ hround
      rw [Nat.mul_assoc, Nat.mul_assoc] at hscaled
      refine ⟨fun _ => whole_of_large hb hb' hk hback hnext (Binary64.le_roundBits large)
        (Binary64.roundBits_roundBits _) (by omega) fun power e mem => ?_, fun h => absurd h lost⟩
      exact Nat.le_of_not_lt fun far => lost ⟨hpower.mp power, e, mem, far⟩
  · rw [if_neg undone]
    have lost : LosesDigit (2 ^ b) n := by
      rw [undone_of_crossing hb' hp hd large, not_and_or, not_not, not_not] at undone
      rw [losesDigit_iff (Nat.two_pow_pos b) crosses, hplace]
      exact undone.imp_right .inl
    exact ⟨fun kept => absurd lost kept, fun _ => rfl⟩

end Crossing

/-- The value of digits from `2⁵³` on. -/
theorem value_of_large (hb : 1 ≤ b) (hb' : b ≤ 4) (digits : ∀ d ∈ ds, d < 2 ^ b) {n : Nat}
    (hn : horner (2 ^ b) 0 ds = n) (large : 2 ^ 53 ≤ n) (hk : k ≤ 1023) (small : n < 2 ^ k) :
    ∃ t, Crosses (2 ^ b) n t ∧
      (¬LosesDigit (2 ^ b) n →
        Whole (value (2 ^ b) ds) (roundBits (n / (2 ^ b) ^ t) * (2 ^ b) ^ t)) ∧
      (LosesDigit (2 ^ b) n → value (2 ^ b) ds = .infinity false) := by
  obtain ⟨front, d, back, rfl, hfront, hcross⟩ := exists_crossing (by decide) (hn ▸ large)
  obtain ⟨hdigits, hrest⟩ := List.forall_mem_append.mp digits
  obtain ⟨hd, hback⟩ := List.forall_mem_cons.mp hrest
  obtain ⟨acc, hacc, hrun⟩ :=
    whole_of_small hb hb' hdigits Binary64.whole_zero (Nat.le_of_lt hfront)
  have hpos : k ≠ 0 := by
    rintro rfl
    omega
  obtain ⟨j, rfl⟩ := Nat.exists_eq_succ_of_ne_zero hpos
  rw [horner_append] at hn
  rw [Nat.pow_succ'] at small
  rw [value, hrun]
  exact ⟨back.length,
    valueFrom_of_crossing hb hb' (Nat.le_of_succ_le_succ hk) hn hacc hfront hd hback hcross small⟩

end ScriptCore.RadixLiteral

namespace ScriptCore.Numeral

open Binary64 (Whole roundBits)
open RadixLiteral (Spells Crosses LosesDigit value)

/-! ### Reading a radix literal -/

variable {mark : Char} {radix : Nat} {text : List Char} {ds : List Nat}

theorem isBlank_of_isDigit {c : Char} {d : Nat} (hd : d < 16) (digit : RadixLiteral.IsDigit c d) :
    isBlank c = false := by
  have plain : ∀ d < 16, isBlank (Nat.digitChar d) = false ∧
      isBlank (Nat.digitChar d).toUpper = false := by decide +kernel
  rcases digit with rfl | rfl
  · exact (plain d hd).1
  · exact (plain d hd).2

/-- A radix literal has no blanks at its ends. -/
theorem trimBlanks_radix (small : radix ≤ 16) (nonempty : text ≠ []) (spells : Spells radix text ds) :
    trimBlanks ('0' :: mark :: text) = '0' :: mark :: text := by
  refine Stripped.trimBlanks_eq ⟨⟨[], [], by simp, nofun, nofun⟩, ?_, ?_⟩
  · intro c mem
    cases mem
    decide
  · intro c mem
    rw [List.getLast?_cons_cons, List.getLast?_cons_of_ne_nil nonempty] at mem
    obtain ⟨d, hd, digit⟩ := spells.isDigit c (List.mem_of_getLast? mem)
    exact isBlank_of_isDigit (Nat.lt_of_lt_of_le hd small) digit

theorem read_radix (announces : (mark, radix) ∈ radixMarks) (nonempty : text ≠ [])
    (spells : Spells radix text ds) :
    read (String.ofList ('0' :: mark :: text)) = value radix ds := by
  rw [read, String.toList_ofList, trimBlanks_radix (radixMarks_bounds _ announces).2 nonempty spells,
    ofTrimmed?_radix announces nonempty spells, Option.getD_some]

theorem exists_power : ∀ m ∈ radixMarks, ∃ b < 5, 1 ≤ b ∧ m.2 = 2 ^ b := by decide

/-- **Radix literals.** A whole number up to `2⁵³` is read exactly. Below `2¹⁰²³` a literal is read as
a finite number if and only if no digit is lost in the sums; that number is the crossing, rounded,
with zeros for all digits behind it. A literal that loses a digit is read as infinity. -/
theorem radix_literals (announces : (mark, radix) ∈ radixMarks) (nonempty : text ≠ [])
    (spells : Spells radix text ds) {n : Nat} (denotes : Nat.ofDigits radix ds.reverse = n) :
    (n ≤ 2 ^ 53 → read (String.ofList ('0' :: mark :: text)) = .ofNat n ∧
      (read (String.ofList ('0' :: mark :: text))).number? = some (.finite n)) ∧
    (n < 2 ^ 1023 →
      ((read (String.ofList ('0' :: mark :: text))).isFinite = true ↔ ¬LosesDigit radix n) ∧
      (¬LosesDigit radix n → ∀ t, Crosses radix n t →
        (read (String.ofList ('0' :: mark :: text))).number? =
          some (.finite (roundBits (n / radix ^ t) * radix ^ t : Nat))) ∧
      (LosesDigit radix n → read (String.ofList ('0' :: mark :: text)) = .infinity false)) := by
  obtain ⟨b, hb', hb, hradix⟩ := exists_power _ announces
  subst hradix
  have digits := spells.lt
  have hn : RadixLiteral.horner (2 ^ b) 0 ds = n := by
    rw [RadixLiteral.horner_eq, Nat.zero_mul, Nat.zero_add, denotes]
  have hexact (le : n ≤ 2 ^ 53) : Whole (value (2 ^ b) ds) n := by
    obtain ⟨acc, hacc, hrun⟩ := RadixLiteral.whole_of_small hb (by omega) digits
      Binary64.whole_zero (hn ▸ le)
    have hvalue : value (2 ^ b) ds = acc := by simpa [value, RadixLiteral.valueFrom] using hrun []
    rwa [hvalue, ← hn]
  rw [read_radix announces nonempty spells]
  refine ⟨fun le => ⟨(hexact le).unique (Binary64.whole_ofNat le), (hexact le).number?⟩,
    fun small => ?_⟩
  rcases Nat.lt_or_ge n (2 ^ 53) with below | large
  · have notLost : ¬LosesDigit (2 ^ b) n := fun lost => Nat.not_le.mpr below lost.le
    exact ⟨iff_of_true (hexact (Nat.le_of_lt below)).isFinite notLost,
      fun _ t crosses => absurd crosses.le (Nat.not_le.mpr below), fun lost => absurd lost notLost⟩
  · obtain ⟨t, crosses, hkept, hlost⟩ := RadixLiteral.value_of_large hb (by omega) digits hn
      large (Nat.le_refl _) small
    refine ⟨⟨fun finite lost => ?_, fun notLost => (hkept notLost).isFinite⟩,
      fun notLost t' crosses' => ?_, hlost⟩
    · rw [hlost lost] at finite
      cases finite
    · obtain rfl := crosses.unique (Nat.two_pow_pos b) crosses'
      exact (hkept notLost).number?

/-- The largest byte, and a literal that is rounded up where it crosses `2⁵³`, with one digit behind
that. -/
theorem radix_literals_below_and_beyond :
    (read "0xFf").number? = some (.finite 255) ∧
      Crosses 16 ((2 ^ 53 + 3) * 16 + 7) 1 ∧ ¬LosesDigit 16 ((2 ^ 53 + 3) * 16 + 7) ∧
      (read "0x200000000000037").isFinite = true ∧
      (read "0x200000000000037").number? = some (.finite ((2 ^ 53 + 4) * 16 : Nat)) := by
  have announces : ('x', 16) ∈ radixMarks := by decide
  have byte : Spells 16 ['F', 'f'] [15, 15] :=
    .cons ⟨by decide, .inr rfl⟩ (.cons ⟨by decide, .inl rfl⟩ .nil)
  have long : Spells 16 "200000000000037".toList [2, 0, 0, 0, 0, 0, 0, 0, 0, 0, 0, 0, 0, 3, 7] :=
    ((RadixLiteral.ofChars?_eq_some (by decide)).mp (by decide +kernel)).2
  have crosses : Crosses 16 ((2 ^ 53 + 3) * 16 + 7) 1 := ⟨by decide, by decide⟩
  have rounded : roundBits (((2 ^ 53 + 3) * 16 + 7) / 16 ^ 1) = 2 ^ 53 + 4 := by decide +kernel
  have notLost : ¬LosesDigit 16 ((2 ^ 53 + 3) * 16 + 7) := by
    rw [RadixLiteral.losesDigit_iff (by decide) crosses, RadixLiteral.halfway_iff,
      RadixLiteral.pastPower_iff, rounded]
    rintro (⟨-, odd⟩ | ⟨-, -, down⟩ | ⟨_, -, power, -⟩)
    · exact absurd odd (by decide +kernel)
    · exact absurd down (by decide)
    · exact absurd power (by decide)
  obtain ⟨finite, value, -⟩ :=
    (radix_literals announces (by decide) long (n := (2 ^ 53 + 3) * 16 + 7) rfl).2 (by decide +kernel)
  refine ⟨((radix_literals announces (by decide) byte (n := 255) rfl).1 (by decide)).2, crosses,
    notLost, finite.mpr notLost, (value notLost 1 crosses).trans ?_⟩
  rw [rounded, Nat.pow_one]

/-- The first number above `2⁵³` is read as infinity. -/
theorem radix_literal_overflows_early :
    Spells 16 "20000000000001".toList [2, 0, 0, 0, 0, 0, 0, 0, 0, 0, 0, 0, 0, 1] ∧
      Nat.ofDigits 16 [2, 0, 0, 0, 0, 0, 0, 0, 0, 0, 0, 0, 0, 1].reverse = 2 ^ 53 + 1 ∧
      2 ^ 53 + 1 < 2 ^ 1023 ∧ (read "0x20000000000001").isFinite = false := by
  refine ⟨?_, by decide, by decide +kernel, by decide +kernel⟩
  exact ((RadixLiteral.ofChars?_eq_some (by decide)).mp (by decide +kernel)).2

end ScriptCore.Numeral
