import Mathlib.Data.List.Sort
import ScriptCore.Collection.Basic

/-!
# ScriptCore.Proofs.Collection.Threading

The **threading** of a collection's arena: which slots are live, and what `head`, `tail`, `next` and
`prev` say about them.

Design points:

* A slot's links are described by the set of live slots alone: `next` is the first live slot after
  it, `prev` the last live slot before it (`FirstFrom`, `LastBefore`). Two sets of live slots that
  differ in one member have links that differ in two places, which is what insertion and removal
  change.
* A removed slot keeps a `prev` that may itself have been removed since. It is enough that no live
  slot lies between the two (`Threaded.back`): then the walk of `successor` ends at the first live
  slot after the place where it began.
-/

namespace ScriptCore

/-! ### First and last members -/

/-- The first member of `L` from `a` on, if there is one. -/
def FirstFrom (L : Nat → Prop) (a : Nat) : Option Nat → Prop
  | some s => L s ∧ a ≤ s ∧ ∀ t, a ≤ t → t < s → ¬ L t
  | none => ∀ t, a ≤ t → ¬ L t

/-- The last member of `L` before `b`, if there is one. -/
def LastBefore (L : Nat → Prop) (b : Nat) : Option Nat → Prop
  | some s => L s ∧ s < b ∧ ∀ t, s < t → t < b → ¬ L t
  | none => ∀ t, t < b → ¬ L t

/-- No member of `L` lies between a slot and what it points back to. -/
def GapBefore (L : Nat → Prop) (b : Nat) : Option Nat → Prop
  | some s => s < b ∧ ∀ t, s < t → t < b → ¬ L t
  | none => ∀ t, t < b → ¬ L t

section Neighbours

variable {L : Nat → Prop} {a b n s t : Nat} {o o' : Option Nat}

theorem FirstFrom.unique (h : FirstFrom L a o) (h' : FirstFrom L a o') : o = o' := by
  cases o with
  | none =>
      cases o' with
      | none => rfl
      | some s' => exact absurd h'.1 (h s' h'.2.1)
  | some s =>
      cases o' with
      | none => exact absurd h.1 (h' s h.2.1)
      | some s' =>
          have hle : s ≤ s' := Nat.le_of_not_lt fun hlt => h.2.2 s' h'.2.1 hlt h'.1
          have hge : s' ≤ s := Nat.le_of_not_lt fun hlt => h'.2.2 s h.2.1 hlt h.1
          rw [Nat.le_antisymm hle hge]

theorem LastBefore.unique (h : LastBefore L b o) (h' : LastBefore L b o') : o = o' := by
  cases o with
  | none =>
      cases o' with
      | none => rfl
      | some s' => exact absurd h'.1 (h s' h'.2.1)
  | some s =>
      cases o' with
      | none => exact absurd h.1 (h' s h.2.1)
      | some s' =>
          have hge : s' ≤ s := Nat.le_of_not_lt fun hlt => h.2.2 s' hlt h'.2.1 h'.1
          have hle : s ≤ s' := Nat.le_of_not_lt fun hlt => h'.2.2 s hlt h.2.1 h.1
          rw [Nat.le_antisymm hle hge]

/-- Nothing changes when the search starts earlier, past slots that are no members. -/
theorem FirstFrom.of_gap (h : FirstFrom L b o) (hab : a ≤ b)
    (hgap : ∀ t, a ≤ t → t < b → ¬ L t) : FirstFrom L a o := by
  cases o with
  | none =>
      intro t hat hLt
      rcases Nat.lt_or_ge t b with htb | hbt
      · exact hgap t hat htb hLt
      · exact h t hbt hLt
  | some s =>
      refine ⟨h.1, Nat.le_trans hab h.2.1, fun t hat hts hLt => ?_⟩
      rcases Nat.lt_or_ge t b with htb | hbt
      · exact hgap t hat htb hLt
      · exact h.2.2 t hbt hts hLt

/-- Nor does it when the search starts later, past slots that are no members. -/
theorem FirstFrom.advance (h : FirstFrom L a o) (hab : a ≤ b)
    (hgap : ∀ t, a ≤ t → t < b → ¬ L t) : FirstFrom L b o := by
  cases o with
  | none => exact fun t hbt => h t (Nat.le_trans hab hbt)
  | some s =>
      have hbs : b ≤ s := Nat.le_of_not_lt fun hsb => hgap s h.2.1 hsb h.1
      exact ⟨h.1, hbs, fun t hbt hts => h.2.2 t (Nat.le_trans hab hbt) hts⟩

/-- A member follows another exactly if that one precedes it. -/
theorem firstFrom_iff_lastBefore (hs : L s) (ht : L t) :
    FirstFrom L (t + 1) (some s) ↔ LastBefore L s (some t) := by
  constructor
  · rintro ⟨-, hts, hgap⟩
    exact ⟨ht, hts, hgap⟩
  · rintro ⟨-, hts, hgap⟩
    exact ⟨hs, hts, hgap⟩

/-- Without `s`, what pointed to `s` points to its successor. -/
theorem FirstFrom.remove (h : FirstFrom L a o) (hn : FirstFrom L (s + 1) o') :
    FirstFrom (fun t => L t ∧ t ≠ s) a (if o = some s then o' else o) := by
  by_cases ho : o = some s
  · subst ho
    rw [if_pos rfl]
    have hgap : ∀ t, a ≤ t → t < s + 1 → ¬ (L t ∧ t ≠ s) := fun t hat hts hLt =>
      h.2.2 t hat (Nat.lt_of_le_of_ne (Nat.le_of_lt_succ hts) hLt.2) hLt.1
    refine FirstFrom.of_gap ?_ (Nat.le_succ_of_le h.2.1) hgap
    cases o' with
    | none => exact fun t hst hLt => hn t hst hLt.1
    | some n =>
        exact ⟨⟨hn.1, Nat.ne_of_gt hn.2.1⟩, hn.2.1, fun t hst htn hLt => hn.2.2 t hst htn hLt.1⟩
  · rw [if_neg ho]
    cases o with
    | none => exact fun t hat hLt => h t hat hLt.1
    | some n =>
        exact ⟨⟨h.1, fun hns => ho (hns ▸ rfl)⟩, h.2.1, fun t hat htn hLt => h.2.2 t hat htn hLt.1⟩

/-- Without `s`, what pointed back to `s` points to its predecessor. -/
theorem LastBefore.remove (h : LastBefore L b o) (hp : LastBefore L s o') :
    LastBefore (fun t => L t ∧ t ≠ s) b (if o = some s then o' else o) := by
  by_cases ho : o = some s
  · subst ho
    rw [if_pos rfl]
    have hgap : ∀ t, s ≤ t → t < b → ¬ (L t ∧ t ≠ s) := fun t hst htb hLt =>
      h.2.2 t (Nat.lt_of_le_of_ne hst (Ne.symm hLt.2)) htb hLt.1
    cases o' with
    | none =>
        intro t htb hLt
        rcases Nat.lt_or_ge t s with hts | hst
        · exact hp t hts hLt.1
        · exact hgap t hst htb hLt
    | some p =>
        refine ⟨⟨hp.1, Nat.ne_of_lt hp.2.1⟩, Nat.lt_trans hp.2.1 h.2.1, fun t hpt htb hLt => ?_⟩
        rcases Nat.lt_or_ge t s with hts | hst
        · exact hp.2.2 t hpt hts hLt.1
        · exact hgap t hst htb hLt
  · rw [if_neg ho]
    cases o with
    | none => exact fun t htb hLt => h t htb hLt.1
    | some n =>
        exact ⟨⟨h.1, fun hns => ho (hns ▸ rfl)⟩, h.2.1, fun t hnt htb hLt => h.2.2 t hnt htb hLt.1⟩

/-- With a new member behind all others, a search that found none finds the new one. -/
theorem FirstFrom.append (h : FirstFrom L a o) (han : a ≤ n) (hL : ∀ t, L t → t < n) :
    FirstFrom (fun t => L t ∨ t = n) a (o.or (some n)) := by
  cases o with
  | none =>
      refine ⟨Or.inr rfl, han, fun t hat htn hLt => ?_⟩
      exact hLt.elim (h t hat) (Nat.ne_of_lt htn)
  | some s =>
      refine ⟨Or.inl h.1, h.2.1, fun t hat hts hLt => ?_⟩
      exact hLt.elim (h.2.2 t hat hts) (Nat.ne_of_lt (Nat.lt_trans hts (hL s h.1)))

/-- A new member behind all others precedes none of them. -/
theorem LastBefore.append (h : LastBefore L b o) (hbn : b ≤ n) :
    LastBefore (fun t => L t ∨ t = n) b o := by
  cases o with
  | none => exact fun t htb hLt => hLt.elim (h t htb) (Nat.ne_of_lt (Nat.lt_of_lt_of_le htb hbn))
  | some s =>
      exact ⟨Or.inl h.1, h.2.1, fun t hst htb hLt =>
        hLt.elim (h.2.2 t hst htb) (Nat.ne_of_lt (Nat.lt_of_lt_of_le htb hbn))⟩

theorem LastBefore.gap (h : LastBefore L b o) : GapBefore L b o := by
  cases o with
  | none => exact h
  | some s => exact h.2

theorem GapBefore.mono {L' : Nat → Prop} (h : GapBefore L b o)
    (hL : ∀ t, t < b → L' t → L t) : GapBefore L' b o := by
  cases o with
  | none => exact fun t htb hLt => h t htb (hL t htb hLt)
  | some s => exact ⟨h.1, fun t hst htb hLt => h.2 t hst htb (hL t htb hLt)⟩

/-- Among the numbers below `n`, a number is followed by the next one. -/
theorem firstFrom_lt : FirstFrom (· < n) a (if a < n then some a else none) := by
  by_cases han : a < n
  · rw [if_pos han]
    exact ⟨han, Nat.le_refl a, fun t hat hta _ => Nat.not_lt.mpr hat hta⟩
  · rw [if_neg han]
    exact fun t hat htn => han (Nat.lt_of_le_of_lt hat htn)

/-- Among the numbers below `n`, a number is preceded by the one before. -/
theorem lastBefore_lt (hbn : b ≤ n) :
    LastBefore (· < n) b (if b = 0 then none else some (b - 1)) := by
  by_cases hb : b = 0
  · rw [if_pos hb]
    exact fun t htb _ => Nat.not_lt_zero t (hb ▸ htb)
  · rw [if_neg hb]
    refine ⟨?_, ?_, fun t hbt htb _ => ?_⟩ <;> omega

end Neighbours

/-! ### Threaded arenas -/

/-- The slot holds an entry that has not been removed. -/
def LiveAt (arena : Array Entry) (s : Nat) : Prop :=
  ∃ e, arena[s]? = some e ∧ e.removed = false

theorem LiveAt.lt_size {arena : Array Entry} {s : Nat} (h : LiveAt arena s) : s < arena.size := by
  obtain ⟨e, he, -⟩ := h
  exact (Array.getElem?_eq_some_iff.mp he).1

/-- The links of an arena agree with the set of its live slots. -/
structure Threaded (arena : Array Entry) (head tail : Option Nat) : Prop where
  /-- The order begins with the first live slot. -/
  head : FirstFrom (LiveAt arena) 0 head
  /-- It ends with the last. -/
  tail : LastBefore (LiveAt arena) arena.size tail
  /-- A live slot leads to the live slot after it. -/
  next : ∀ {s e}, arena[s]? = some e → e.removed = false → FirstFrom (LiveAt arena) (s + 1) e.next
  /-- A live slot leads back to the live slot before it. -/
  prev : ∀ {s e}, arena[s]? = some e → e.removed = false → LastBefore (LiveAt arena) s e.prev
  /-- A removed slot leads back past removed slots only. -/
  back : ∀ {s e}, arena[s]? = some e → e.removed = true → GapBefore (LiveAt arena) s e.prev

namespace Threaded

variable {arena : Array Entry} {head tail : Option Nat} {s : Nat} {e : Entry}

theorem empty : Threaded #[] none none where
  head := fun t _ ⟨e, he, _⟩ => by simp at he
  tail := fun t ht _ => absurd ht (Nat.not_lt_zero t)
  next := fun he => by simp at he
  prev := fun he => by simp at he
  back := fun he => by simp at he

/-- The threading depends on the links and the removal marks of the slots alone. -/
theorem congr {arena' : Array Entry} (h : Threaded arena head tail)
    (hsize : arena'.size = arena.size)
    (hlinks : ∀ {s : Nat} {e' : Entry}, arena'[s]? = some e' → ∃ e, arena[s]? = some e ∧
      e.prev = e'.prev ∧ e.next = e'.next ∧ e.removed = e'.removed) :
    LiveAt arena' = LiveAt arena ∧ Threaded arena' head tail := by
  have hlive : LiveAt arena' = LiveAt arena := by
    funext s
    apply propext
    constructor
    · rintro ⟨e', he', hr⟩
      obtain ⟨e, he, -, -, her⟩ := hlinks he'
      exact ⟨e, he, her.trans hr⟩
    · rintro ⟨e, he, hr⟩
      obtain ⟨e', he'⟩ : ∃ e', arena'[s]? = some e' := by
        have hlt := (Array.getElem?_eq_some_iff.mp he).1
        exact ⟨_, Array.getElem?_eq_getElem (hsize ▸ hlt)⟩
      obtain ⟨f, hf, -, -, hfr⟩ := hlinks he'
      obtain rfl : e = f := Option.some.inj (he.symm.trans hf)
      exact ⟨e', he', hfr ▸ hr⟩
  refine ⟨hlive, ?_, ?_, ?_, ?_, ?_⟩
  · rw [hlive]; exact h.head
  · rw [hlive, hsize]; exact h.tail
  · intro s e' he' hr
    obtain ⟨e, he, -, hn, her⟩ := hlinks he'
    rw [hlive, ← hn]
    exact h.next he (her.trans hr)
  · intro s e' he' hr
    obtain ⟨e, he, hp, -, her⟩ := hlinks he'
    rw [hlive, ← hp]
    exact h.prev he (her.trans hr)
  · intro s e' he' hr
    obtain ⟨e, he, hp, -, her⟩ := hlinks he'
    rw [hlive, ← hp]
    exact h.back he (her.trans hr)

/-- A slot leads to a live slot exactly if that one leads back to it. -/
theorem next_eq_some_iff (h : Threaded arena head tail) {t : Nat} {f : Entry}
    (hf : arena[t]? = some f) (hfr : f.removed = false) (he : arena[s]? = some e)
    (hr : e.removed = false) : f.next = some s ↔ e.prev = some t := by
  have hiff := firstFrom_iff_lastBefore (L := LiveAt arena) ⟨e, he, hr⟩ ⟨f, hf, hfr⟩
  constructor
  · intro hn
    exact (h.prev he hr).unique (hiff.mp (hn ▸ h.next hf hfr))
  · intro hp
    exact (h.next hf hfr).unique (hiff.mpr (hp ▸ h.prev he hr))

/-- Nothing precedes a live slot exactly if the order begins with it. -/
theorem head_eq_some_iff (h : Threaded arena head tail) (he : arena[s]? = some e)
    (hr : e.removed = false) : head = some s ↔ e.prev = none := by
  constructor
  · intro hh
    have hfirst := hh ▸ h.head
    exact (h.prev he hr).unique fun t hts => hfirst.2.2 t (Nat.zero_le t) hts
  · intro hp
    have hprev := hp ▸ h.prev he hr
    exact h.head.unique ⟨⟨e, he, hr⟩, Nat.zero_le s, fun t _ hts => hprev t hts⟩

/-- Nothing follows a live slot exactly if the order ends with it. -/
theorem tail_eq_some_iff (h : Threaded arena head tail) (he : arena[s]? = some e)
    (hr : e.removed = false) : tail = some s ↔ e.next = none := by
  have hs : LiveAt arena s := ⟨e, he, hr⟩
  constructor
  · intro ht
    have hlast := ht ▸ h.tail
    exact (h.next he hr).unique fun t hst hLt => hlast.2.2 t hst hLt.lt_size hLt
  · intro hn
    have hnext := hn ▸ h.next he hr
    exact h.tail.unique ⟨hs, hs.lt_size, fun t hst _ => hnext t hst⟩

/-! ### Insertion -/

section Push

variable {arena' : Array Entry} {key : Value} {value : Option Value}

theorem liveAt_push (hsize : arena'.size = arena.size + 1)
    (hnew : arena'[arena.size]? = some ⟨key, value, tail, none, false⟩)
    (hold : ∀ s, s < arena.size → arena'[s]? = arena[s]?.map fun e =>
      if tail = some s then { e with next := some arena.size } else e) :
    LiveAt arena' = fun s => LiveAt arena s ∨ s = arena.size := by
  funext s
  apply propext
  constructor
  · rintro ⟨e, he, hr⟩
    have hs : s < arena.size + 1 := hsize ▸ (Array.getElem?_eq_some_iff.mp he).1
    rcases Nat.lt_succ_iff_lt_or_eq.mp hs with hs | hs
    · rw [hold s hs] at he
      obtain ⟨f, hf, rfl⟩ := Option.map_eq_some_iff.mp he
      refine Or.inl ⟨f, hf, ?_⟩
      split at hr <;> exact hr
    · exact Or.inr hs
  · rintro (⟨e, he, hr⟩ | rfl)
    · have hs := (Array.getElem?_eq_some_iff.mp he).1
      refine ⟨_, by rw [hold s hs, he]; rfl, ?_⟩
      dsimp only
      split <;> exact hr
    · exact ⟨_, hnew, rfl⟩

/-- A new entry goes behind the last live slot, which leads to it. -/
theorem push (h : Threaded arena head tail) (hsize : arena'.size = arena.size + 1)
    (hnew : arena'[arena.size]? = some ⟨key, value, tail, none, false⟩)
    (hold : ∀ s, s < arena.size → arena'[s]? = arena[s]?.map fun e =>
      if tail = some s then { e with next := some arena.size } else e) :
    Threaded arena' (head.or (some arena.size)) (some arena.size) := by
  have hlt : ∀ s, LiveAt arena s → s < arena.size := fun s hs => hs.lt_size
  have hlive := liveAt_push hsize hnew hold
  -- An old entry keeps its links, but for the `next` of the last live one.
  have holdLinks : ∀ {s e'}, arena'[s]? = some e' → s < arena.size → ∃ e, arena[s]? = some e ∧
      e'.prev = e.prev ∧ e'.removed = e.removed ∧
      e'.next = if tail = some s then some arena.size else e.next := by
    intro s e' he' hs
    rw [hold s hs] at he'
    obtain ⟨e, he, rfl⟩ := Option.map_eq_some_iff.mp he'
    refine ⟨e, he, ?_⟩
    split <;> exact ⟨rfl, rfl, rfl⟩
  have hcases : ∀ {s e'}, arena'[s]? = some e' → s < arena.size ∨
      (s = arena.size ∧ e' = ⟨key, value, tail, none, false⟩) := by
    intro s e' he'
    have hs : s < arena.size + 1 := hsize ▸ (Array.getElem?_eq_some_iff.mp he').1
    rcases Nat.lt_succ_iff_lt_or_eq.mp hs with hs | rfl
    · exact Or.inl hs
    · exact Or.inr ⟨rfl, Option.some.inj (he'.symm.trans hnew)⟩
  refine ⟨?_, ?_, ?_, ?_, ?_⟩
  · rw [hlive]
    exact h.head.append (Nat.zero_le _) hlt
  · rw [hlive, hsize]
    exact ⟨Or.inr rfl, Nat.lt_succ_self _, fun t hst hts => by omega⟩
  · intro s e' he' hr
    rw [hlive]
    rcases hcases he' with hs | ⟨rfl, rfl⟩
    · obtain ⟨e, he, -, her, hn⟩ := holdLinks he' hs
      have hnext := (h.next he (her ▸ hr)).append (Nat.succ_le_of_lt hs) hlt
      rw [hn]
      simp only [h.tail_eq_some_iff he (her ▸ hr)]
      cases hen : e.next <;> simpa [hen] using hnext
    · exact fun t hst hLt => hLt.elim (fun hLt => by have := hlt t hLt; omega) (by omega)
  · intro s e' he' hr
    rw [hlive]
    rcases hcases he' with hs | ⟨rfl, rfl⟩
    · obtain ⟨e, he, hp, her, -⟩ := holdLinks he' hs
      rw [hp]
      exact (h.prev he (her ▸ hr)).append (Nat.le_of_lt hs)
    · exact h.tail.append (Nat.le_refl _)
  · intro s e' he' hr
    rw [hlive]
    rcases hcases he' with hs | ⟨rfl, rfl⟩
    · obtain ⟨e, he, hp, her, -⟩ := holdLinks he' hs
      rw [hp]
      exact (h.back he (her ▸ hr)).mono fun t hts hLt => hLt.elim id (by omega)
    · cases hr

end Push

/-! ### Removal -/

theorem size_bridge (arena : Array Entry) (s : Nat) (prev next : Option Nat) :
    (Collection.bridge arena s prev next).size = arena.size := by
  cases prev <;> cases next <;> simp [Collection.bridge, Collection.setEntry]

/-- What joining its neighbours does to each slot. -/
theorem getElem?_bridge (arena : Array Entry) {s : Nat} {prev next : Option Nat}
    (hp : prev ≠ some s) (hn : next ≠ some s) (t : Nat) :
    (Collection.bridge arena s prev next)[t]? = arena[t]?.map fun f =>
      if t = s then ⟨.undefined, none, f.prev, none, true⟩
      else { f with
        next := if prev = some t then next else f.next
        prev := if next = some t then prev else f.prev } := by
  simp only [Collection.bridge, Collection.setEntry]
  cases hf : arena[t]? with
  | none => cases prev <;> cases next <;> simp [Array.getElem?_modify, hf]
  | some f =>
      by_cases hts : t = s
      · subst hts
        cases prev <;> cases next <;> simp_all [Array.getElem?_modify]
      · cases prev <;> cases next <;>
          simp only [Array.getElem?_modify, hf, if_neg hts, if_neg (Ne.symm hts), Option.some.injEq,
            reduceCtorEq, if_false, Option.map_some] <;>
          split_ifs <;> rfl

/-- The neighbours that a live slot has are other slots. -/
theorem links_ne_self (h : Threaded arena head tail) (he : arena[s]? = some e)
    (hr : e.removed = false) : e.prev ≠ some s ∧ e.next ≠ some s := by
  constructor
  · intro hp
    have hprev := h.prev he hr
    rw [hp] at hprev
    exact Nat.lt_irrefl s hprev.2.1
  · intro hn
    have hnext := h.next he hr
    rw [hn] at hnext
    exact absurd hnext.2.1 (Nat.not_succ_le_self s)

theorem liveAt_bridge {prev next : Option Nat} (hp : prev ≠ some s) (hn : next ≠ some s) :
    LiveAt (Collection.bridge arena s prev next) = fun t => LiveAt arena t ∧ t ≠ s := by
  have hget := getElem?_bridge arena hp hn
  funext t
  apply propext
  constructor
  · rintro ⟨f', hf', hfr⟩
    rw [hget] at hf'
    obtain ⟨f, hf, rfl⟩ := Option.map_eq_some_iff.mp hf'
    by_cases hts : t = s
    · rw [if_pos hts] at hfr; cases hfr
    · rw [if_neg hts] at hfr
      exact ⟨⟨f, hf, hfr⟩, hts⟩
  · rintro ⟨⟨f, hf, hfr⟩, hts⟩
    refine ⟨_, by rw [hget, hf]; rfl, ?_⟩
    dsimp only
    rw [if_neg hts]
    exact hfr

/-- The slot of a removed entry drops out, and its neighbours lead to each other. -/
theorem bridge (h : Threaded arena head tail) (he : arena[s]? = some e) (hr : e.removed = false) :
    Threaded (Collection.bridge arena s e.prev e.next)
      (if e.prev.isSome then head else e.next) (if e.next.isSome then tail else e.prev) := by
  have hnext := h.next he hr
  have hprev := h.prev he hr
  obtain ⟨hps, hns⟩ := h.links_ne_self he hr
  have hget := getElem?_bridge arena hps hns
  have hlive : LiveAt (Collection.bridge arena s e.prev e.next) = _ := liveAt_bridge hps hns
  refine ⟨?_, ?_, ?_, ?_, ?_⟩
  · rw [hlive]
    have hfirst := h.head.remove hnext
    simp only [h.head_eq_some_iff he hr] at hfirst
    cases hp : e.prev <;> simpa [hp] using hfirst
  · rw [hlive, size_bridge]
    have hlast := h.tail.remove hprev
    simp only [h.tail_eq_some_iff he hr] at hlast
    cases hn : e.next <;> simpa [hn] using hlast
  · intro t f' hf' hfr
    rw [hget] at hf'
    obtain ⟨f, hf, rfl⟩ := Option.map_eq_some_iff.mp hf'
    by_cases hts : t = s
    · rw [if_pos hts] at hfr; cases hfr
    · rw [if_neg hts] at hfr ⊢
      rw [hlive]
      simp only [← h.next_eq_some_iff hf hfr he hr]
      exact (h.next hf hfr).remove hnext
  · intro t f' hf' hfr
    rw [hget] at hf'
    obtain ⟨f, hf, rfl⟩ := Option.map_eq_some_iff.mp hf'
    by_cases hts : t = s
    · rw [if_pos hts] at hfr; cases hfr
    · rw [if_neg hts] at hfr ⊢
      rw [hlive]
      simp only [h.next_eq_some_iff he hr hf hfr]
      exact (h.prev hf hfr).remove hprev
  · intro t f' hf' hfr
    rw [hget] at hf'
    obtain ⟨f, hf, rfl⟩ := Option.map_eq_some_iff.mp hf'
    rw [hlive]
    by_cases hts : t = s
    · subst hts
      obtain rfl : e = f := Option.some.inj (he.symm.trans hf)
      rw [if_pos rfl]
      exact hprev.gap.mono fun t _ hLt => hLt.1
    · rw [if_neg hts] at hfr ⊢
      -- The slot after a live one is live, so it is no removed slot whose `prev` would be changed.
      have hne : e.next ≠ some t := fun hn => by
        obtain ⟨g, hg, hgr⟩ := (hn ▸ hnext).1
        obtain rfl : f = g := Option.some.inj (hf.symm.trans hg)
        rw [hfr] at hgr; cases hgr
      rw [if_neg hne]
      exact (h.back hf hfr).mono fun t _ hLt => hLt.1

end Threaded

/-! ### Walks -/

namespace Collection

variable {c : Collection}

/-- The slots are threaded by their links. -/
def IsThreaded (c : Collection) : Prop := Threaded c.arena c.head c.tail

/-- The slot holds an entry that has not been removed. -/
def Live (c : Collection) (s : Nat) : Prop := LiveAt c.arena s

theorem entry_eq {s : Nat} {e : Entry} (he : c.arena[s]? = some e) : c.entry s = e := by
  rw [entry, he, Option.getD_some]

/-- From every slot, live or removed, the walk ends at the first live slot after it. -/
theorem successor_firstFrom (h : c.IsThreaded) {s : Nat} (hs : s < c.arena.size) :
    FirstFrom c.Live (s + 1) (c.successor s) := by
  -- The walk goes back over removed slots, which get smaller, before it goes forward once.
  induction s using Nat.strong_induction_on with
  | _ s ih =>
    have he := Array.getElem?_eq_getElem hs
    rw [successor, he]
    dsimp only
    by_cases hr : c.arena[s].removed
    · rw [if_pos hr]
      have hback := h.back he hr
      have hnot : ¬ c.Live s := by
        rintro ⟨e, he', hr'⟩
        obtain rfl := Option.some.inj (he.symm.trans he')
        rw [hr] at hr'; cases hr'
      cases hp : c.arena[s].prev with
      | none =>
          rw [hp] at hback
          refine h.head.advance (Nat.zero_le _) fun t _ hts => ?_
          rcases Nat.lt_succ_iff_lt_or_eq.mp hts with hts | rfl
          · exact hback t hts
          · exact hnot
      | some p =>
          rw [hp] at hback
          simp only [if_pos hback.1]
          refine (ih p hback.1 (Nat.lt_trans hback.1 hs)).advance (Nat.succ_le_succ
            (Nat.le_of_lt hback.1)) fun t hpt hts => ?_
          rcases Nat.lt_succ_iff_lt_or_eq.mp hts with hts | rfl
          · exact hback.2 t hpt hts
          · exact hnot
    · rw [if_neg hr]
      exact h.next he (Bool.eq_false_iff.mpr hr)

/-- The walk along `next` visits the live slots from `a` on, in ascending order. -/
theorem slotsFrom_sorted (h : c.IsThreaded) {fuel a : Nat} {o : Option Nat}
    (ho : FirstFrom c.Live a o) (hfuel : c.arena.size ≤ fuel + a) :
    (c.slotsFrom fuel o).Pairwise (· < ·) ∧ ∀ t, t ∈ c.slotsFrom fuel o ↔ c.Live t ∧ a ≤ t := by
  -- Every step moves `a` past one slot, so the fuel lasts to the end of the arena.
  induction fuel generalizing a o with
  | zero =>
      refine ⟨List.Pairwise.nil, fun t => ?_⟩
      have hnot : ¬ (c.Live t ∧ a ≤ t) := by
        rintro ⟨ht, hat⟩
        have hlt := LiveAt.lt_size ht
        omega
      simp [slotsFrom, hnot]
  | succ fuel ih =>
      cases o with
      | none =>
          refine ⟨List.Pairwise.nil, fun t => ?_⟩
          have hnot : ¬ (c.Live t ∧ a ≤ t) := fun ⟨ht, hat⟩ => ho t hat ht
          simp [slotsFrom, hnot]
      | some s =>
          obtain ⟨⟨e, he, hr⟩, has, hgap⟩ := ho
          have hnext := h.next he hr
          obtain ⟨hsorted, hmem⟩ := ih hnext (by omega)
          rw [slotsFrom, entry_eq he]
          refine ⟨List.pairwise_cons.mpr ⟨fun t ht => ((hmem t).mp ht).2, hsorted⟩, fun t => ?_⟩
          rw [List.mem_cons, hmem]
          constructor
          · rintro (rfl | ⟨ht, hst⟩)
            · exact ⟨⟨e, he, hr⟩, has⟩
            · exact ⟨ht, by omega⟩
          · rintro ⟨ht, hat⟩
            rcases Nat.lt_trichotomy t s with hts | rfl | hst
            · exact absurd ht (hgap t hat hts)
            · exact Or.inl rfl
            · exact Or.inr ⟨ht, hst⟩

theorem liveSlots_sorted (h : c.IsThreaded) : c.liveSlots.Pairwise (· < ·) :=
  (slotsFrom_sorted h h.head (Nat.le_refl _)).1

theorem mem_liveSlots (h : c.IsThreaded) {t : Nat} : t ∈ c.liveSlots ↔ c.Live t := by
  have hmem := (slotsFrom_sorted h h.head (Nat.le_refl c.arena.size)).2 t
  exact hmem.trans ⟨And.left, fun ht => ⟨ht, Nat.zero_le t⟩⟩

end Collection

end ScriptCore
