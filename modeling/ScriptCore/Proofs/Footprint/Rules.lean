import ScriptCore.Proofs.Footprint.Plan

/-!
# ScriptCore.Proofs.Footprint.Rules

The **rules** by which plans are performed, with a journal of what happens on the way.

Design points:

* The rules are given as a relation. Measuring a node is performing the plan of that node, and nothing
  bounds the recursion: a finite derivation is a pass that comes to an end.
* A journal has the context right after each event, so that what is true all along a pass can be said.
  What is allowed to happen in a context is left to the rules.
* The context decides which rule applies, so that there is one journal at most (`Performs.unique`).
-/

namespace ScriptCore

open Estimate

/-! ### Contexts -/

namespace Context

/-- Records something. -/
def record (c : Context) (a : Allocation) : Context := { c with visits := (c.visits.record a).2 }

/-- What is true of every context: no deeper than the ceiling, and no more spent than can be. -/
structure Sound (c : Context) : Prop where
  depth : c.depth ≤ c.limits.maxDepth
  spent : c.spent ≤ maxBytes

theorem sound_new (limits : Limits) (oracle : SizeOracle) : (Context.new limits oracle).Sound :=
  ⟨Nat.zero_le _, Nat.zero_le _⟩

/-- The same level under the same limits. -/
structure SameLevel (c c' : Context) : Prop where
  limits : c'.limits = c.limits
  depth : c'.depth = c.depth

namespace SameLevel

variable {c c₁ c₂ c' : Context}

theorem refl (c : Context) : c.SameLevel c := ⟨rfl, rfl⟩

theorem trans (h₁ : c.SameLevel c₁) (h₂ : c₁.SameLevel c₂) : c.SameLevel c₂ :=
  ⟨h₂.limits.trans h₁.limits, h₂.depth.trans h₁.depth⟩

end SameLevel

variable {c c₁ c' : Context}

theorem limits_of_descend (descends : c.descend = .ok c₁) : c₁.limits = c.limits := by
  rw [(descend_ok descends).2]

theorem SameLevel.ascend (descends : c.descend = .ok c₁) (h : c₁.SameLevel c') :
    c.SameLevel c'.ascend := by
  obtain ⟨-, rfl⟩ := descend_ok descends
  refine ⟨h.limits, ?_⟩
  show c'.depth - 1 = c.depth
  rw [h.depth, Nat.add_sub_cancel]

end Context

namespace Estimate

theorem run_record (a : Allocation) (c : Context) :
    (Estimate.record a).run c = (.ok (!c.visits.has a), c.record a) := by
  rw [← Visits.record_fst]
  rfl

theorem run_ask (s : Sampling) (length : Nat) (c : Context) :
    (s.ask length).run c = (.ok (s.applies c.limits length), c) := rfl

end Estimate

/-! ### Journals -/

/-- Something that happens in a pass. -/
inductive Event where
  /-- A cost is charged. -/
  | charged (u : Usage)
  /-- Something is recorded for the first time. -/
  | first (a : Allocation)
  /-- Something is recorded again. -/
  | again (a : Allocation)
  /-- What something holds is going to be walked. -/
  | walked (a : Allocation)
  /-- A level is entered. -/
  | entered
  /-- A level is left. -/
  | left
  /-- A container is going to be sampled. -/
  | sampled

/-- Something that happens, and the context right after it. -/
structure Moment where
  /-- What happens. -/
  event : Event
  /-- The context after it. -/
  context : Context

section Results

variable {α β : Type} {f : α → β} {r : Except TooDeep α}

theorem eq_error_of_map {e : TooDeep} (hr : r.map f = .error e) : r = .error e := by
  cases r with
  | error _ => exact congrArg Except.error (Except.error.inj hr)
  | ok _ => cases hr

theorem eq_ok_of_map {b : β} (hr : r.map f = .ok b) : ∃ a, r = .ok a ∧ b = f a := by
  cases r with
  | error _ => cases hr
  | ok a => exact ⟨a, rfl, (Except.ok.inj hr).symm⟩

end Results

/-- A sum over some of the elements of a container, scaled up to all of them. -/
def Usage.scaled (length : Nat) (us : List Usage) : Usage :=
  ⟨scaledUp (Usage.sum us).legacy us.length length,
    scaledUp (Usage.sum us).refined us.length length⟩

namespace Heap

mutual

/-- A plan is performed from one context to another. -/
inductive Performs (h : Heap) :
    Plan → Context → List Moment → Except TooDeep Usage → Context → Prop where
  | nothing (c : Context) : Performs h .nothing c [] (.ok .zero) c
  | cost (k : Cost) (c : Context) :
      Performs h (.cost k) c [⟨.charged (k.usage c.oracle), c.charge (k.usage c.oracle)⟩]
        (.ok (k.usage c.oracle)) (c.charge (k.usage c.oracle))
  | node {n : Node} {c : Context} {j : List Moment} {r : Except TooDeep Usage} {c' : Context}
      (performs : Performs h (h.plan n) c j r c') : Performs h (.node n) c j r c'
  | bothFails {p q : Plan} {c : Context} {j : List Moment} {e : TooDeep} {c' : Context}
      (first : Performs h p c j (.error e) c') : Performs h (.both p q) c j (.error e) c'
  | both {p q : Plan} {c c₁ : Context} {j₁ j₂ : List Moment} {u : Usage}
      {r : Except TooDeep Usage} {c' : Context} (first : Performs h p c j₁ (.ok u) c₁)
      (second : Performs h q c₁ j₂ r c') :
      Performs h (.both p q) c (j₁ ++ j₂) (r.map (u + ·)) c'
  | withinFails {p q : Plan} {c : Context} {j : List Moment} {e : TooDeep} {c' : Context}
      (first : Performs h p c j (.error e) c') : Performs h (.within p q) c j (.error e) c'
  | withinStops {p q : Plan} {c : Context} {j : List Moment} {u : Usage} {c' : Context}
      (first : Performs h p c j (.ok u) c') (spent : c'.isOver = true) :
      Performs h (.within p q) c j (.ok u) c'
  | within {p q : Plan} {c c₁ : Context} {j₁ j₂ : List Moment} {u : Usage}
      {r : Except TooDeep Usage} {c' : Context} (first : Performs h p c j₁ (.ok u) c₁)
      (left : c₁.isOver = false) (second : Performs h q c₁ j₂ r c') :
      Performs h (.within p q) c (j₁ ++ j₂) (r.map (u + ·)) c'
  | tooDeep {p : Plan} {c : Context} {e : TooDeep} (refused : c.descend = .error e) :
      Performs h (.deeper p) c [] (.error e) c
  | deeper {p : Plan} {c c₁ : Context} {j : List Moment} {r : Except TooDeep Usage} {c' : Context}
      (descends : c.descend = .ok c₁) (content : Performs h p c₁ j r c') :
      Performs h (.deeper p) c (⟨.entered, c₁⟩ :: (j ++ [⟨.left, c'.ascend⟩])) r c'.ascend
  | first {a : Allocation} {p q : Plan} {c : Context} {j : List Moment}
      {r : Except TooDeep Usage} {c' : Context} (new : ¬ c.visits.Counted a)
      (content : Performs h p (c.record a) j r c') :
      Performs h (.record a p q) c (⟨.first a, c.record a⟩ :: j) r c'
  | again {a : Allocation} {p q : Plan} {c : Context} {j : List Moment}
      {r : Except TooDeep Usage} {c' : Context} (old : c.visits.Counted a)
      (content : Performs h q (c.record a) j r c') :
      Performs h (.record a p q) c (⟨.again a, c.record a⟩ :: j) r c'
  | met {a : Allocation} {p : Plan} {c : Context} (old : c.visits.Counted a) :
      Performs h (.unlessMet a p) c [] (.ok .zero) c
  | unmet {a : Allocation} {p : Plan} {c : Context} {j : List Moment}
      {r : Except TooDeep Usage} {c' : Context} (new : ¬ c.visits.Counted a)
      (content : Performs h p c j r c') : Performs h (.unlessMet a p) c j r c'
  | contents {a : Allocation} {p : Plan} {c : Context} {j : List Moment}
      {r : Except TooDeep Usage} {c' : Context} (content : Performs h p c j r c') :
      Performs h (.contents a p) c (⟨.walked a, c⟩ :: j) r c'
  | container {s : Sampling} {items : List Plan} {c : Context} {j : List Moment}
      {r : Except TooDeep (List Usage)} {c' : Context}
      (full : s.applies c.limits items.length = false)
      (elements : PerformsEach h items c j r c') :
      Performs h (.container s items) c j (r.map Usage.sum) c'
  | sample {s : Sampling} {items : List Plan} {c : Context} {j : List Moment}
      {r : Except TooDeep (List Usage)} {c' : Context}
      (long : s.applies c.limits items.length = true)
      (elements : PerformsEach h (everyNth (sampleStep items.length c.limits.sampleRate) items)
        c j r c') :
      Performs h (.container s items) c (⟨.sampled, c⟩ :: j) (r.map (Usage.scaled items.length)) c'

/-- Several plans are performed, one after another, until the budget is used up. -/
inductive PerformsEach (h : Heap) :
    List Plan → Context → List Moment → Except TooDeep (List Usage) → Context → Prop where
  | nil (c : Context) : PerformsEach h [] c [] (.ok []) c
  | fails {p : Plan} {ps : List Plan} {c : Context} {j : List Moment} {e : TooDeep}
      {c' : Context} (head : Performs h p c j (.error e) c') :
      PerformsEach h (p :: ps) c j (.error e) c'
  | stops {p : Plan} {ps : List Plan} {c : Context} {j : List Moment} {u : Usage} {c' : Context}
      (head : Performs h p c j (.ok u) c') (spent : c'.isOver = true) :
      PerformsEach h (p :: ps) c j (.ok [u]) c'
  | cons {p : Plan} {ps : List Plan} {c c₁ : Context} {j₁ j₂ : List Moment} {u : Usage}
      {r : Except TooDeep (List Usage)} {c' : Context} (head : Performs h p c j₁ (.ok u) c₁)
      (left : c₁.isOver = false) (tail : PerformsEach h ps c₁ j₂ r c') :
      PerformsEach h (p :: ps) c (j₁ ++ j₂) (r.map (u :: ·)) c'

end

/-! ### What a performance leaves as it was -/

variable {h : Heap}

mutual

/-- However a plan ends, the level is the one that it started from. -/
theorem Performs.sameLevel {p : Plan} {c : Context} {j : List Moment} {r : Except TooDeep Usage}
    {c' : Context} : h.Performs p c j r c' → c.SameLevel c'
  | .nothing c => .refl c
  | .cost _ _ => ⟨rfl, rfl⟩
  | .node performs => performs.sameLevel
  | .bothFails first => first.sameLevel
  | .both first second => first.sameLevel.trans second.sameLevel
  | .withinFails first => first.sameLevel
  | .withinStops first _ => first.sameLevel
  | .within first _ second => first.sameLevel.trans second.sameLevel
  | .tooDeep _ => .refl _
  | .deeper descends content => .ascend descends content.sameLevel
  | .first _ content => ⟨content.sameLevel.limits, content.sameLevel.depth⟩
  | .again _ content => ⟨content.sameLevel.limits, content.sameLevel.depth⟩
  | .met _ => .refl _
  | .unmet _ content => content.sameLevel
  | .contents content => content.sameLevel
  | .container _ elements => elements.sameLevel
  | .sample _ elements => elements.sameLevel

theorem PerformsEach.sameLevel {ps : List Plan} {c : Context} {j : List Moment}
    {r : Except TooDeep (List Usage)} {c' : Context} :
    h.PerformsEach ps c j r c' → c.SameLevel c'
  | .nil c => .refl c
  | .fails head => head.sameLevel
  | .stops head _ => head.sameLevel
  | .cons head _ tail => head.sameLevel.trans tail.sameLevel

end

mutual

/-- The only error is the ceiling on the depth. -/
theorem Performs.error_eq {p : Plan} {c : Context} {j : List Moment} {r : Except TooDeep Usage}
    {c' : Context} {e : TooDeep} (hr : r = .error e) :
    h.Performs p c j r c' → e = ⟨c.limits.maxDepth⟩
  | .nothing _ | .cost _ _ | .withinStops _ _ | .met _ => nomatch hr
  | .node performs => performs.error_eq hr
  | .bothFails first => first.error_eq hr
  | .both first second => first.sameLevel.limits ▸ second.error_eq (eq_error_of_map hr)
  | .withinFails first => first.error_eq hr
  | .within first _ second => first.sameLevel.limits ▸ second.error_eq (eq_error_of_map hr)
  | .tooDeep refused => by
      cases hr
      exact (Context.descend_error refused).2
  | .deeper descends content => Context.limits_of_descend descends ▸ content.error_eq hr
  | .first _ content => (content.error_eq hr :)
  | .again _ content => (content.error_eq hr :)
  | .unmet _ content => content.error_eq hr
  | .contents content => content.error_eq hr
  | .container _ elements => elements.error_eq (eq_error_of_map hr)
  | .sample _ elements => elements.error_eq (eq_error_of_map hr)

theorem PerformsEach.error_eq {ps : List Plan} {c : Context} {j : List Moment}
    {r : Except TooDeep (List Usage)} {c' : Context} {e : TooDeep} (hr : r = .error e) :
    h.PerformsEach ps c j r c' → e = ⟨c.limits.maxDepth⟩
  | .nil _ | .stops _ _ => nomatch hr
  | .fails head => head.error_eq (congrArg Except.error (Except.error.inj hr))
  | .cons head _ tail => head.sameLevel.limits ▸ tail.error_eq (eq_error_of_map hr)

end

/-! ### What determines a performance -/

mutual

/-- A performance is determined by the plan and the context. -/
theorem Performs.unique {p : Plan} {c : Context} {j j₂ : List Moment} {r r₂ : Except TooDeep Usage}
    {c' c₂ : Context} :
    h.Performs p c j r c' → h.Performs p c j₂ r₂ c₂ → j = j₂ ∧ r = r₂ ∧ c' = c₂
  | .nothing _, other | .cost _ _, other => by
      cases other
      exact ⟨rfl, rfl, rfl⟩
  | .node performs, other => by
      cases other with
      | node other => exact performs.unique other
  | .bothFails first, other => by
      cases other with
      | bothFails other => exact first.unique other
      | both other _ => nomatch (first.unique other).2.1
  | .both first second, other => by
      cases other with
      | bothFails other => nomatch (first.unique other).2.1
      | both other₁ other₂ =>
          -- The first parts end in one context, so the second parts start from one.
          obtain ⟨hj, hr, hc⟩ := first.unique other₁
          cases hr
          subst hj hc
          obtain ⟨hj, hr, hc⟩ := second.unique other₂
          exact ⟨congrArg _ hj, congrArg _ hr, hc⟩
  | .withinFails first, other => by
      cases other with
      | withinFails other => exact first.unique other
      | withinStops other _ | within other _ _ => nomatch (first.unique other).2.1
  | .withinStops first spent, other => by
      cases other with
      | withinFails other => nomatch (first.unique other).2.1
      | withinStops other _ => exact first.unique other
      | within other left _ =>
          -- The budget cannot be used up and not used up in one context.
          rw [← (first.unique other).2.2, spent] at left
          cases left
  | .within first left second, other => by
      cases other with
      | withinFails other => nomatch (first.unique other).2.1
      | withinStops other spent =>
          rw [← (first.unique other).2.2, left] at spent
          cases spent
      | within other₁ _ other₂ =>
          obtain ⟨hj, hr, hc⟩ := first.unique other₁
          cases hr
          subst hj hc
          obtain ⟨hj, hr, hc⟩ := second.unique other₂
          exact ⟨congrArg _ hj, congrArg _ hr, hc⟩
  | .tooDeep refused, other => by
      cases other with
      | tooDeep refused₂ =>
          have he := Except.error.inj (refused.symm.trans refused₂)
          exact ⟨rfl, congrArg _ he, rfl⟩
      | deeper descends _ => nomatch refused.symm.trans descends
  | .deeper descends content, other => by
      cases other with
      | tooDeep refused => nomatch refused.symm.trans descends
      | deeper descends₂ other =>
          have hc := Except.ok.inj (descends.symm.trans descends₂)
          subst hc
          obtain ⟨hj, hr, hc⟩ := content.unique other
          exact ⟨by rw [hj, hc], hr, by rw [hc]⟩
  | .first new content, other => by
      cases other with
      | first _ other =>
          obtain ⟨hj, hr, hc⟩ := content.unique other
          exact ⟨congrArg _ hj, hr, hc⟩
      | again old _ => exact absurd old new
  | .again old content, other => by
      cases other with
      | first new _ => exact absurd old new
      | again _ other =>
          obtain ⟨hj, hr, hc⟩ := content.unique other
          exact ⟨congrArg _ hj, hr, hc⟩
  | .met old, other => by
      cases other with
      | met _ => exact ⟨rfl, rfl, rfl⟩
      | unmet new _ => exact absurd old new
  | .unmet new content, other => by
      cases other with
      | met old => exact absurd old new
      | unmet _ other => exact content.unique other
  | .contents content, other => by
      cases other with
      | contents other =>
          obtain ⟨hj, hr, hc⟩ := content.unique other
          exact ⟨congrArg _ hj, hr, hc⟩
  | .container full elements, other => by
      cases other with
      | container _ other =>
          obtain ⟨hj, hr, hc⟩ := elements.unique other
          exact ⟨hj, congrArg _ hr, hc⟩
      | sample long _ =>
          rw [full] at long
          cases long
  | .sample long elements, other => by
      cases other with
      | container full _ =>
          rw [full] at long
          cases long
      | sample _ other =>
          obtain ⟨hj, hr, hc⟩ := elements.unique other
          exact ⟨congrArg _ hj, congrArg _ hr, hc⟩

theorem PerformsEach.unique {ps : List Plan} {c : Context} {j j₂ : List Moment}
    {r r₂ : Except TooDeep (List Usage)} {c' c₂ : Context} :
    h.PerformsEach ps c j r c' → h.PerformsEach ps c j₂ r₂ c₂ → j = j₂ ∧ r = r₂ ∧ c' = c₂
  | .nil _, other => by
      cases other
      exact ⟨rfl, rfl, rfl⟩
  | .fails head, other => by
      cases other with
      | fails other =>
          obtain ⟨hj, hr, hc⟩ := head.unique other
          exact ⟨hj, congrArg _ (Except.error.inj hr), hc⟩
      | stops other _ | cons other _ _ => nomatch (head.unique other).2.1
  | .stops head spent, other => by
      cases other with
      | fails other => nomatch (head.unique other).2.1
      | stops other _ =>
          obtain ⟨hj, hr, hc⟩ := head.unique other
          cases hr
          exact ⟨hj, rfl, hc⟩
      | cons other left _ =>
          rw [← (head.unique other).2.2, spent] at left
          cases left
  | .cons head left tail, other => by
      cases other with
      | fails other => nomatch (head.unique other).2.1
      | stops other spent =>
          rw [← (head.unique other).2.2, left] at spent
          cases spent
      | cons other₁ _ other₂ =>
          obtain ⟨hj, hr, hc⟩ := head.unique other₁
          cases hr
          subst hj hc
          obtain ⟨hj, hr, hc⟩ := tail.unique other₂
          exact ⟨congrArg _ hj, congrArg _ hr, hc⟩

end

end Heap

end ScriptCore
