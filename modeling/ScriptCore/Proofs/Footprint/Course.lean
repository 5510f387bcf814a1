import ScriptCore.Proofs.Footprint.Follows
import ScriptCore.Proofs.Footprint.Total

/-!
# ScriptCore.Proofs.Footprint.Course

The **course** of a pass: which contexts it goes through.

Design points:

* A course forgets the plan and keeps the journal: each event leads from one context to the next. What
  an event keeps, a course keeps.
* What is walked stands in the journal apart from what is recorded. Plans walk what something holds only
  where they have just recorded it for the first time (`Plan.Recorded`), so the walks are some of the
  first records (`Performs.walks_sublist`), and these do not repeat.
-/

namespace ScriptCore

/-! ### Steps -/

namespace Context

/-- An event leads from one context to the next. -/
inductive Step (c : Context) : Event → Context → Prop where
  | charged (u : Usage) : Step c (.charged u) (c.charge u)
  | first {a : Allocation} (new : ¬ c.visits.Counted a) : Step c (.first a) (c.record a)
  | again {a : Allocation} (old : c.visits.Counted a) : Step c (.again a) (c.record a)
  | walked (a : Allocation) : Step c (.walked a) c
  | entered {c' : Context} (descends : c.descend = .ok c') : Step c .entered c'
  | left : Step c .left c.ascend
  | sampled : Step c .sampled c

/-- A later context of the same pass, or of one after it: nothing is given back or forgotten. -/
structure Grows (c c' : Context) : Prop where
  limits : c'.limits = c.limits
  spent : c.spent ≤ c'.spent
  visits : ∀ a, c.visits.Counted a → c'.visits.Counted a

/-- Some things were recorded for the first time, and nothing else. -/
structure Counts (c : Context) (as : List Allocation) (c' : Context) : Prop where
  nodup : as.Nodup
  fresh : ∀ a ∈ as, ¬ c.visits.Counted a
  visits : ∀ a, c'.visits.Counted a ↔ c.visits.Counted a ∨ a ∈ as

end Context

/-- What an event records for the first time. -/
def Event.first? : Event → Option Allocation
  | .first a => some a
  | _ => none

/-- What an event starts to walk. -/
def Event.walked? : Event → Option Allocation
  | .walked a => some a
  | _ => none

/-- What is recorded for the first time along a journal. -/
def firsts (j : List Moment) : List Allocation := j.flatMap fun m => m.event.first?.toList

/-- What is walked along a journal. -/
def walks (j : List Moment) : List Allocation := j.flatMap fun m => m.event.walked?.toList

namespace Context

variable {c c₁ c' : Context} {e : Event} {as bs : List Allocation}

namespace Grows

theorem refl (c : Context) : c.Grows c := ⟨rfl, Nat.le_refl _, fun _ ha => ha⟩

theorem trans (h₁ : c.Grows c₁) (h₂ : c₁.Grows c') : c.Grows c' where
  limits := h₂.limits.trans h₁.limits
  spent := h₁.spent.trans h₂.spent
  visits := fun a ha => h₂.visits a (h₁.visits a ha)

instance : IsTrans Context Grows := ⟨fun _ _ _ => trans⟩

end Grows

namespace Counts

theorem nil {c c' : Context} (hvisits : c'.visits = c.visits) : c.Counts [] c' :=
  ⟨.nil, by simp, by simp [hvisits]⟩

/-- What is recorded later was not recorded before. -/
theorem append (h₁ : c.Counts as c₁) (h₂ : c₁.Counts bs c') : c.Counts (as ++ bs) c' where
  nodup := by
    refine List.nodup_append.mpr ⟨h₁.nodup, h₂.nodup, ?_⟩
    intro a ha b hb hab
    subst hab
    exact h₂.fresh a hb ((h₁.visits a).mpr (.inr ha))
  fresh := by
    intro a hmem
    rcases List.mem_append.mp hmem with ha | hb
    · exact h₁.fresh a ha
    · exact fun hc => h₂.fresh a hb ((h₁.visits a).mpr (.inl hc))
  visits := by simp [h₂.visits, h₁.visits, or_assoc]

end Counts

namespace Step

theorem sound (step : c.Step e c') (hc : c.Sound) : c'.Sound := by
  cases step with
  | charged u => exact ⟨hc.depth, Nat.min_le_right _ _⟩
  | first _ => exact ⟨hc.depth, hc.spent⟩
  | again _ => exact ⟨hc.depth, hc.spent⟩
  | entered descends =>
      obtain ⟨hne, rfl⟩ := descend_ok descends
      exact ⟨Nat.lt_of_le_of_ne hc.depth hne, hc.spent⟩
  | left => exact ⟨(Nat.sub_le _ _).trans hc.depth, hc.spent⟩
  | walked _ => exact hc
  | sampled => exact hc

theorem counts (step : c.Step e c') : c.Counts e.first?.toList c' := by
  cases step with
  | first new => exact ⟨by simp [Event.first?], by simpa [Event.first?] using new,
      by simp [Event.first?, record, Visits.counted_record]⟩
  | again old =>
      refine ⟨by simp [Event.first?], by simp [Event.first?], fun a => ?_⟩
      simp only [record, Visits.counted_record, Event.first?, Option.toList_none, List.not_mem_nil,
        or_false, or_iff_left_iff_imp]
      exact fun ha => ha ▸ old
  | entered descends =>
      obtain ⟨-, rfl⟩ := descend_ok descends
      exact .nil rfl
  | _ => exact .nil rfl

theorem grows (step : c.Step e c') (hc : c.Sound) : c.Grows c' := by
  have hvisits : ∀ a, c.visits.Counted a → c'.visits.Counted a :=
    fun a ha => (step.counts.visits a).mpr (.inl ha)
  cases step with
  | charged u => exact ⟨rfl, Nat.le_min.mpr ⟨Nat.le_add_right _ _, hc.spent⟩, hvisits⟩
  | entered descends =>
      obtain ⟨-, rfl⟩ := descend_ok descends
      exact ⟨rfl, Nat.le_refl _, fun _ ha => ha⟩
  | _ => exact ⟨rfl, Nat.le_refl _, hvisits⟩

end Step

end Context

/-! ### Courses -/

/-- A journal leads from one context to another. -/
inductive Course : Context → List Moment → Context → Prop where
  | nil (c : Context) : Course c [] c
  | cons {c : Context} {m : Moment} {j : List Moment} {c' : Context}
      (step : c.Step m.event m.context) (rest : Course m.context j c') : Course c (m :: j) c'

namespace Course

variable {c c₁ c' : Context} {j j₁ j₂ : List Moment}

theorem append (h₁ : Course c j₁ c₁) (h₂ : Course c₁ j₂ c') : Course c (j₁ ++ j₂) c' := by
  induction h₁ with
  | nil => exact h₂
  | cons step _ ih => exact .cons step (ih h₂)

theorem sound (course : Course c j c') (hc : c.Sound) :
    (∀ m ∈ j, m.context.Sound) ∧ c'.Sound := by
  induction course with
  | nil => exact ⟨by simp, hc⟩
  | cons step _ ih =>
      obtain ⟨hj, hc'⟩ := ih (step.sound hc)
      exact ⟨List.forall_mem_cons.mpr ⟨step.sound hc, hj⟩, hc'⟩

theorem chain (course : Course c j c') (hc : c.Sound) :
    (c :: (j.map Moment.context ++ [c'])).IsChain Context.Grows := by
  induction course with
  | nil c => simpa using Context.Grows.refl c
  | cons step _ ih => exact .cons_cons (step.grows hc) (ih (step.sound hc))

/-- Nothing is given back or forgotten, from any context on the way to any later one. -/
theorem pairwise (course : Course c j c') (hc : c.Sound) :
    (c :: (j.map Moment.context ++ [c'])).Pairwise Context.Grows :=
  List.isChain_iff_pairwise.mp (course.chain hc)

theorem grows (course : Course c j c') (hc : c.Sound) : c.Grows c' :=
  List.rel_of_pairwise_cons (course.pairwise hc) (List.mem_append_right _ List.mem_cons_self)

theorem counts (course : Course c j c') : c.Counts (firsts j) c' := by
  induction course with
  | nil => exact .nil rfl
  | cons step _ ih => exact step.counts.append ih

end Course

namespace Heap

variable {h : Heap}

mutual

/-- The journal of a performance leads from its first context to its last. -/
theorem Performs.course {p : Plan} {c : Context} {j : List Moment} {r : Except TooDeep Usage}
    {c' : Context} : h.Performs p c j r c' → Course c j c'
  | .nothing c => .nil c
  | .cost _ _ => .cons (.charged _) (.nil _)
  | .node performs => performs.course
  | .bothFails first => first.course
  | .both first second => first.course.append second.course
  | .withinFails first => first.course
  | .withinStops first _ => first.course
  | .within first _ second => first.course.append second.course
  | .tooDeep _ => .nil _
  | .deeper descends content =>
      .cons (.entered descends) (content.course.append (.cons .left (.nil _)))
  | .first new content => .cons (.first new) content.course
  | .again old content => .cons (.again old) content.course
  | .met _ => .nil _
  | .unmet _ content => content.course
  | .contents content => .cons (.walked _) content.course
  | .container _ elements => elements.course
  | .sample _ elements => .cons .sampled elements.course

theorem PerformsEach.course {ps : List Plan} {c : Context} {j : List Moment}
    {r : Except TooDeep (List Usage)} {c' : Context} :
    h.PerformsEach ps c j r c' → Course c j c'
  | .nil c => .nil c
  | .fails head => head.course
  | .stops head _ => head.course
  | .cons head _ tail => head.course.append tail.course

end

end Heap

/-! ### What is walked -/

namespace Plan

mutual

/-- Nothing is walked but what has just been recorded for the first time, perhaps before the plan. -/
def Recorded : Plan → Option Allocation → Prop
  | .nothing, _ | .cost _, _ | .node _, _ => True
  | .both p q, owner | .within p q, owner => p.Recorded owner ∧ q.Recorded none
  | .deeper p, owner => p.Recorded owner
  | .record a p q, _ => p.Recorded (some a) ∧ q.Recorded none
  | .unlessMet _ p, _ => p.Recorded none
  | .contents a p, owner => owner = some a ∧ p.Recorded none
  | .container _ items, _ => RecordedEach items

def RecordedEach : List Plan → Prop
  | [] => True
  | p :: ps => p.Recorded none ∧ RecordedEach ps

end

theorem recordedEach_iff (ps : List Plan) : RecordedEach ps ↔ ∀ p ∈ ps, p.Recorded none := by
  induction ps with
  | nil => simp [RecordedEach]
  | cons p ps ih => simp [RecordedEach, ih]

theorem Flat.recorded {p : Plan} (hp : p.Flat) : p.Recorded none := by
  induction p using Plan.induct with
  | nothing | cost _ | node _ => trivial
  | both p q ihp ihq | within p q ihp ihq => exact ⟨ihp hp.1, ihq hp.2⟩
  | deeper p ih => exact ih hp
  | record | unlessMet | contents => exact hp.elim
  | container s items ih =>
      exact (recordedEach_iff _).mpr fun p hmem => ih p hmem ((flatEach_iff _).mp hp p hmem)

end Plan

theorem Root.recorded_plan (root : Root) : root.plan.Recorded none := root.flat_plan.recorded

namespace Heap

section Plans

variable (h : Heap)

theorem recorded_objectPlan (o : ObjectId) : (h.objectPlan o).Recorded none := by
  refine ⟨?_, trivial⟩
  split
  · exact ⟨rfl, (Plan.flat_object _).recorded⟩
  · trivial

theorem recorded_framesPlan (f : FrameId) : (h.framesPlan f).Recorded none := by
  have houter : (h.outerPlan f).Recorded none := by
    rw [outerPlan]
    cases h.outer? f with
    | none => trivial
    | some g => exact recorded_framesPlan g
  rw [framesPlan_eq]
  exact ⟨⟨⟨rfl, (h.flat_framePlan f).recorded⟩, houter⟩, houter⟩
termination_by f.index
decreasing_by exact g.2

theorem recorded_hostEntriesPlan (m : HostMapId) : (h.hostEntriesPlan m).Recorded none := by
  refine ⟨⟨rfl, Plan.Flat.recorded (Plan.flatEach_map (fun _ => ?_) _)⟩, trivial⟩
  exact ⟨trivial, trivial⟩

theorem recorded_hostElementsPlan (s : HostSliceId) : (h.hostElementsPlan s).Recorded none := by
  refine ⟨⟨rfl, Plan.Flat.recorded (Plan.flatEach_map (fun _ => ?_) _)⟩, trivial⟩
  trivial

theorem recorded_valuePlan (v : Value) : (h.valuePlan v).Recorded none := by
  cases v with
  | object o => exact h.recorded_objectPlan o
  | _ => trivial

theorem recorded_hostPlan (v : HostValue) : (h.hostPlan v).Recorded none := by
  cases v with
  | map m => exact ⟨trivial, h.recorded_hostEntriesPlan m⟩
  | slice s => exact ⟨trivial, h.recorded_hostElementsPlan s⟩
  | foreign _ => exact ⟨⟨rfl, trivial⟩, trivial⟩
  | script v => exact h.recorded_valuePlan v
  | _ => trivial

/-- Whatever a node is, its plan walks nothing that it has not recorded. -/
theorem recorded_plan (n : Node) : (h.plan n).Recorded none := by
  cases n with
  | value v => exact h.recorded_valuePlan v
  | host v => exact h.recorded_hostPlan v
  | scope f => exact ⟨trivial, h.recorded_framesPlan f⟩
  | hostEntries m => exact h.recorded_hostEntriesPlan m
  | hostElements s => exact h.recorded_hostElementsPlan s

end Plans

end Heap

section Walks

variable {h : Heap} {m : Moment} {j j₁ j₂ : List Moment}

@[simp] theorem firsts_nil : firsts [] = [] := rfl

@[simp] theorem walks_nil : walks [] = [] := rfl

@[simp] theorem firsts_cons : firsts (m :: j) = m.event.first?.toList ++ firsts j := rfl

@[simp] theorem walks_cons : walks (m :: j) = m.event.walked?.toList ++ walks j := rfl

@[simp] theorem firsts_append : firsts (j₁ ++ j₂) = firsts j₁ ++ firsts j₂ := by simp [firsts]

@[simp] theorem walks_append : walks (j₁ ++ j₂) = walks j₁ ++ walks j₂ := by simp [walks]

mutual

/-- What is walked was recorded for the first time, and is walked once for that. -/
theorem Heap.Performs.walks_sublist {p : Plan} {c : Context} {j : List Moment}
    {r : Except TooDeep Usage} {c' : Context} {owner : Option Allocation} :
    h.Performs p c j r c' → p.Recorded owner → (walks j).Sublist (owner.toList ++ firsts j)
  | .nothing _, _ | .cost _ _, _ | .tooDeep _, _ | .met _, _ => List.nil_sublist _
  | .node performs, _ =>
      (performs.walks_sublist (h.recorded_plan _)).trans (List.sublist_append_right _ _)
  | .bothFails first, hp => first.walks_sublist hp.1
  | .both first second, hp => by
      simpa using (first.walks_sublist hp.1).append (second.walks_sublist hp.2)
  | .withinFails first, hp => first.walks_sublist hp.1
  | .withinStops first _, hp => first.walks_sublist hp.1
  | .within first _ second, hp => by
      simpa using (first.walks_sublist hp.1).append (second.walks_sublist hp.2)
  | .deeper _ content, hp => by
      have hcontent := content.walks_sublist hp
      simpa [Event.first?, Event.walked?] using hcontent
  -- The record makes up for the contents that may be walked right after it.
  | .first _ content, hp =>
      (content.walks_sublist hp.1).trans (List.sublist_append_right _ _)
  | .again _ content, hp =>
      (content.walks_sublist hp.2).trans (List.sublist_append_right _ _)
  | .unmet _ content, hp => (content.walks_sublist hp).trans (List.sublist_append_right _ _)
  | .contents content, ⟨howner, hp⟩ => howner ▸ (content.walks_sublist hp).cons_cons _
  | .container _ elements, hp => by
      have helements := elements.walks_sublist ((Plan.recordedEach_iff _).mp hp)
      exact helements.trans (List.sublist_append_right _ _)
  | .sample _ elements, hp => by
      have helements := elements.walks_sublist fun p hmem =>
        (Plan.recordedEach_iff _).mp hp p (everyNth_subset hmem)
      exact helements.trans (List.sublist_append_right _ _)

theorem Heap.PerformsEach.walks_sublist {ps : List Plan} {c : Context} {j : List Moment}
    {r : Except TooDeep (List Usage)} {c' : Context} :
    h.PerformsEach ps c j r c' → (∀ p ∈ ps, p.Recorded none) → (walks j).Sublist (firsts j)
  | .nil _, _ => List.nil_sublist _
  | .fails head, hps => head.walks_sublist (hps _ List.mem_cons_self)
  | .stops head _, hps => head.walks_sublist (hps _ List.mem_cons_self)
  | .cons head _ tail, hps => by
      have hhead := head.walks_sublist (hps _ List.mem_cons_self)
      have htail := tail.walks_sublist fun p hp => hps p (List.mem_cons_of_mem _ hp)
      simpa using hhead.append htail

end

end Walks

/-! ### Main result -/

/-- A pass comes to an end, on any graph: the rules derive it, with one journal. Whether it fails or
not, it ends at the depth that it started from, and it fails only with the ceiling on the depth. On its
way it never is deeper than the ceiling, nothing spent is given back and nothing counted is forgotten.
It walks what something holds once at most, and never again once that has been counted. -/
theorem pass_respects_context (h : Heap) (root : Root) {c : Context} (hc : c.Sound) :
    ∃ r c', (rootUsage h root).run c = (r, c') ∧ c'.Sound ∧ c'.depth = c.depth ∧
      (∀ e, r = .error e → e = ⟨c.limits.maxDepth⟩) ∧
      (∃! j, h.Performs root.plan c j r c') ∧
      ∀ j, h.Performs root.plan c j r c' →
        (∀ m ∈ j, m.context.depth ≤ c.limits.maxDepth) ∧
        (c :: (j.map Moment.context ++ [c'])).Pairwise Context.Grows ∧
        (walks j).Nodup ∧ ∀ a ∈ walks j, ¬ c.visits.Counted a ∧ c'.visits.Counted a := by
  obtain ⟨j, r, c', hrun, performs⟩ := performs_rootUsage h root hc
  refine ⟨r, c', hrun, (performs.course.sound hc).2, performs.sameLevel.depth,
    fun e hr => performs.error_eq hr,
    ⟨j, performs, fun _ other => (other.unique performs).1⟩, fun j performs => ?_⟩
  have hcounts := performs.course.counts
  have hpairwise := performs.course.pairwise hc
  have hwalks : (walks j).Sublist (firsts j) := performs.walks_sublist root.recorded_plan
  refine ⟨fun m hm => ?_, hpairwise, hwalks.nodup hcounts.nodup, fun a ha => ?_⟩
  -- The limits of a context on the way are those at the start.
  · have hgrows : c.Grows m.context :=
      List.rel_of_pairwise_cons hpairwise (List.mem_append_left _ (List.mem_map_of_mem hm))
    rw [← hgrows.limits]
    exact ((performs.course.sound hc).1 m hm).depth
  · have hfirst := hwalks.subset ha
    exact ⟨hcounts.fresh a hfirst, (hcounts.visits a).mpr (.inr hfirst)⟩

theorem pass_respects_context_on_cycle :
    ∃ r c', (rootUsage selfHolding (.node (.value (.object ⟨0⟩)))).run
        (.new ⟨2, maxBytes, 10, 10, .zero false⟩ fun _ => none) = (r, c') ∧ c'.depth = 0 ∧
      ∃ j, selfHolding.Performs (.node (.value (.object ⟨0⟩)))
        (.new ⟨2, maxBytes, 10, 10, .zero false⟩ fun _ => none) j r c' ∧ (walks j).Nodup := by
  obtain ⟨r, c', hrun, -, hdepth, -, ⟨j, performs, -⟩, hall⟩ :=
    pass_respects_context selfHolding (.node (.value (.object ⟨0⟩)))
      (Context.sound_new ⟨2, maxBytes, 10, 10, .zero false⟩ fun _ => none)
  exact ⟨r, c', hrun, hdepth, j, performs, (hall j performs).2.2.1⟩

end ScriptCore
