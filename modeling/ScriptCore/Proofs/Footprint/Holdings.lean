import ScriptCore.Proofs.Footprint.Rules

/-!
# ScriptCore.Proofs.Footprint.Holdings

What plans **hold**, data of the host included.

Design points:

* A map or a slice of the host is held in two ways. As a value of the host it has a header; by an object
  that wraps it, it has none, because that object has one. A `Holding` tells which of the two it is.
* Holdings are read off a plan as far as it records something. What is recorded there holds more: that is
  the graph, and it is read off the same plans (`Heap.graph`).
* A frame that is met again leads to the frame around it. That is one of its holdings as well, so that
  it is no matter whether it is met again (`Plan.Canonical`).
-/

namespace ScriptCore

/-! ### Holdings -/

/-- Something that is held. -/
inductive Holding where
  /-- A cost. -/
  | cost (k : Cost)
  /-- An allocation. It costs nothing by itself. -/
  | ref (a : Allocation)
  /-- A container of the host with its header. -/
  | headed (a : Allocation)

namespace Holding

variable (oracle : SizeOracle) (s : Scheme)

/-- What a holding costs by itself. Whether a header is charged is not known yet. -/
def own : Holding → Nat
  | cost k => (k.usage oracle).count s
  | ref _ | headed _ => 0

/-- The allocation that is held. -/
def target? : Holding → Option Allocation
  | cost _ => none
  | ref a | headed a => some a

/-- What several holdings cost by themselves. -/
def worth (hs : List Holding) : Nat := (hs.map (own oracle s)).sum

variable {oracle s}

@[simp] theorem worth_nil : worth oracle s [] = 0 := rfl

@[simp] theorem worth_cons (x : Holding) (hs : List Holding) :
    worth oracle s (x :: hs) = x.own oracle s + worth oracle s hs := by
  simp [worth]

@[simp] theorem worth_append (hs hs' : List Holding) :
    worth oracle s (hs ++ hs') = worth oracle s hs + worth oracle s hs' := by
  simp [worth]

theorem worth_perm {hs hs' : List Holding} (hperm : hs.Perm hs') :
    worth oracle s hs = worth oracle s hs' :=
  (hperm.map _).sum_nat

theorem worth_eq_zero {hs : List Holding} (hrefs : ∀ x ∈ hs, ∃ a, x = ref a) :
    worth oracle s hs = 0 := by
  induction hs with
  | nil => rfl
  | cons x hs ih =>
      obtain ⟨a, rfl⟩ := hrefs x List.mem_cons_self
      rw [worth_cons, ih fun y hy => hrefs y (List.mem_cons_of_mem _ hy)]
      rfl

end Holding

namespace Plan

mutual

/-- What a plan holds, given what nodes hold. -/
@[simp]
def holdings (inner : Node → List Holding) : Plan → List Holding
  | nothing => []
  | cost k => [.cost k]
  | node n => inner n
  | both p q | within p q => p.holdings inner ++ q.holdings inner
  | deeper p | contents _ p => p.holdings inner
  | record a _ _ => [.ref a]
  | unlessMet a _ => [.headed a]
  | container _ items => holdingsEach inner items

/-- What several plans hold. -/
@[simp]
def holdingsEach (inner : Node → List Holding) : List Plan → List Holding
  | [] => []
  | p :: ps => p.holdings inner ++ holdingsEach inner ps

end

theorem holdingsEach_map {α : Type} (inner : Node → List Holding) (content : α → Plan)
    (items : List α) :
    holdingsEach inner (items.map content) = items.flatMap fun x => (content x).holdings inner := by
  induction items with
  | nil => rfl
  | cons x items ih => rw [List.map_cons, holdingsEach, ih, List.flatMap_cons]

/-- What is done with an allocation that is met for the first time. -/
def anew : Plan → Plan
  | record _ p _ => p
  | p => p

/-- The plan records an allocation before anything else. -/
inductive Enters : Plan → Allocation → Prop where
  | here (a : Allocation) (p q : Plan) : Enters (.record a p q) a
  | after (k : Cost) {p : Plan} {a : Allocation} (hp : p.Enters a) : Enters (.both (.cost k) p) a

end Plan

namespace Heap

variable (h : Heap)

/-- What a node holds. Its plan names no other node before it records something. -/
def nodeHoldings (n : Node) : List Holding := (h.plan n).holdings fun _ => []

/-- What a plan holds in a heap. -/
def holdings (p : Plan) : List Holding := p.holdings h.nodeHoldings

/-- What is done with an allocation. -/
def allocationPlan : Allocation → Plan
  | .object o => h.objectPlan o
  | .frame f => h.framesPlan f
  | .hostMap m => h.hostEntriesPlan m
  | .hostSlice s => h.hostElementsPlan s
  | .foreign d => h.hostPlan (.foreign d)
  | .hostFunction _ | .numbered _ => .nothing

/-- What an allocation holds. -/
def graph (a : Allocation) : List Holding := h.holdings (h.allocationPlan a).anew

theorem holdings_framesPlan (inner : Node → List Holding) (f : FrameId) :
    (h.framesPlan f).holdings inner = [.ref (.frame f)] := by
  rw [framesPlan_eq]
  rfl

theorem holdings_outerPlan (inner : Node → List Holding) (f : FrameId) :
    (h.outerPlan f).holdings inner = (h.outer? f).elim [] fun g => [.ref (.frame g)] := by
  rw [outerPlan]
  cases h.outer? f with
  | none => rfl
  | some g => exact h.holdings_framesPlan inner g

theorem holdings_plan (inner : Node → List Holding) (n : Node) :
    (h.plan n).holdings inner = h.nodeHoldings n := by
  cases n with
  | value v => cases v <;> rfl
  | host v =>
      cases v with
      | script v => cases v <;> rfl
      | _ => rfl
  | scope f => simp [nodeHoldings, plan, holdings_framesPlan]
  | _ => rfl

@[simp] theorem holdings_node (n : Node) : h.holdings (.node n) = h.nodeHoldings n := rfl

@[simp] theorem holdings_plan_node (n : Node) : h.holdings (h.plan n) = h.nodeHoldings n :=
  h.holdings_plan _ n

theorem graph_frame (f : FrameId) : h.graph (.frame f) =
    h.holdings (h.framePlan f) ++ (h.outer? f).elim [] fun g => [.ref (.frame g)] := by
  rw [graph, allocationPlan, framesPlan_eq, ← h.holdings_outerPlan h.nodeHoldings f]
  rfl

/-! ### What is held further on -/

/-- Something is among some holdings, or among those of an allocation that they lead to. -/
inductive Carries (hs : List Holding) : Holding → Prop where
  | here {x : Holding} (hx : x ∈ hs) : Carries hs x
  | further {x y : Holding} {a : Allocation} (hx : Carries hs x) (ha : x.target? = some a)
      (hy : y ∈ h.graph a) : Carries hs y

/-- Some holdings lead to an allocation. -/
def Meets (hs : List Holding) (a : Allocation) : Prop := ∃ x, h.Carries hs x ∧ x.target? = some a

variable {h} {h' : Heap} {hs hs' : List Holding} {x : Holding} {a : Allocation}

namespace Carries

theorem trans (hx : h.Carries hs' x) (hall : ∀ y ∈ hs', h.Carries hs y) : h.Carries hs x := by
  induction hx with
  | here hy => exact hall _ hy
  | further _ ha hy ih => exact .further ih ha hy

theorem mono (hx : h.Carries hs' x) (hall : ∀ y ∈ hs', y ∈ hs) : h.Carries hs x :=
  hx.trans fun y hy => .here (hall y hy)

/-- What an allocation holds is held by all that leads to it. -/
theorem of_ref (hx : h.Carries (h.graph a) x) : h.Carries [.ref a] x :=
  hx.trans fun _ hy => .further (.here List.mem_cons_self) rfl hy

/-- A container with a header and one without lead to the same. -/
theorem of_header {k : Cost} (hx : h.Carries [.cost k, .ref a] x) :
    h.Carries [.headed a] x ∨ x = .cost k ∨ x = .ref a := by
  induction hx with
  | here hx => exact .inr (by simpa using hx)
  | further _ hb hy ih =>
      obtain hx | rfl | rfl := ih
      · exact .inl (.further hx hb hy)
      · cases hb
      · obtain rfl := Option.some.inj hb
        exact .inl (.further (.here List.mem_cons_self) rfl hy)

/-- The order in which things are held does not matter. -/
theorem perm (hx : h.Carries hs x) (hperm : hs.Perm hs')
    (hgraph : ∀ a, (h.graph a).Perm (h'.graph a)) : h'.Carries hs' x := by
  induction hx with
  | here hx => exact .here (hperm.mem_iff.mp hx)
  | further _ ha hy ih => exact .further ih ha ((hgraph _).mem_iff.mp hy)

end Carries

end Heap

/-! ### Canonical plans -/

namespace Plan

mutual

/-- What is recorded leads to what it holds in a heap, and a container of the host has its header. -/
def Canonical (h : Heap) : Plan → Prop
  | nothing | cost _ | node _ => True
  | both p q | within p q => p.Canonical h ∧ q.Canonical h
  | deeper p | contents _ p => p.Canonical h
  | record a p q =>
    (h.holdings p = h.graph a ∧ p.Canonical h) ∧
      (∀ x ∈ h.holdings q, (∃ b, x = .ref b) ∧ x ∈ h.graph a) ∧ q.Canonical h
  | unlessMet a p =>
    p.Enters a ∧ h.holdings p = [.cost (.bytes sizeHeader), .ref a] ∧ p.Canonical h
  | container _ items => CanonicalEach h items

def CanonicalEach (h : Heap) : List Plan → Prop
  | [] => True
  | p :: ps => p.Canonical h ∧ CanonicalEach h ps

end

variable {h : Heap}

theorem canonicalEach_iff (ps : List Plan) :
    CanonicalEach h ps ↔ ∀ p ∈ ps, p.Canonical h := by
  induction ps with
  | nil => simp [CanonicalEach]
  | cons p ps ih => simp [CanonicalEach, ih]

theorem Flat.canonical {p : Plan} (hp : p.Flat) : p.Canonical h := by
  induction p using Plan.induct with
  | nothing | cost _ | node _ => trivial
  | both p q ihp ihq | within p q ihp ihq => exact ⟨ihp hp.1, ihq hp.2⟩
  | deeper p ih => exact ih hp
  | record | unlessMet | contents => exact hp.elim
  | container s items ih =>
      exact (canonicalEach_iff _).mpr fun p hmem => ih p hmem ((flatEach_iff _).mp hp p hmem)

theorem canonicalEach_map {α : Type} {content : α → Plan} (hcontent : ∀ x, (content x).Flat)
    (items : List α) : CanonicalEach h (items.map content) := by
  simpa [canonicalEach_iff] using fun x _ => (hcontent x).canonical

end Plan

namespace Heap

variable (h : Heap)

theorem canonical_objectPlan (o : ObjectId) : (h.objectPlan o).Canonical h := by
  refine ⟨⟨rfl, ?_⟩, ?_, trivial⟩
  · split
    · exact (Plan.flat_object _).canonical
    · trivial
  · simp [holdings]

theorem canonical_framesPlan (f : FrameId) : (h.framesPlan f).Canonical h := by
  have houter : (h.outerPlan f).Canonical h := by
    rw [outerPlan]
    cases h.outer? f with
    | none => trivial
    | some g => exact canonical_framesPlan g
  have hgraph := h.graph_frame f
  rw [← h.holdings_outerPlan h.nodeHoldings f] at hgraph
  rw [framesPlan_eq]
  refine ⟨⟨hgraph.symm, (h.flat_framePlan f).canonical, houter⟩, fun x hx => ?_, houter⟩
  refine ⟨?_, hgraph ▸ List.mem_append_right _ hx⟩
  rw [holdings, holdings_outerPlan] at hx
  cases hg : h.outer? f with
  | none => simp [hg] at hx
  | some g => exact ⟨.frame g, by simpa [hg] using hx⟩
termination_by f.index
decreasing_by exact g.2

theorem canonical_hostEntriesPlan (m : HostMapId) : (h.hostEntriesPlan m).Canonical h := by
  refine ⟨⟨rfl, Plan.canonicalEach_map (fun _ => ?_) _⟩, ?_, trivial⟩
  · exact ⟨trivial, trivial⟩
  · simp [holdings]

theorem canonical_hostElementsPlan (s : HostSliceId) : (h.hostElementsPlan s).Canonical h := by
  refine ⟨⟨rfl, Plan.canonicalEach_map (fun _ => ?_) _⟩, ?_, trivial⟩
  · trivial
  · simp [holdings]

theorem canonical_valuePlan (v : Value) : (h.valuePlan v).Canonical h := by
  cases v with
  | object o => exact h.canonical_objectPlan o
  | _ => trivial

theorem canonical_hostPlan (v : HostValue) : (h.hostPlan v).Canonical h := by
  cases v with
  | map m => exact ⟨.after _ (.here _ _ _), rfl, trivial, h.canonical_hostEntriesPlan m⟩
  | slice s => exact ⟨.after _ (.here _ _ _), rfl, trivial, h.canonical_hostElementsPlan s⟩
  | foreign d => exact ⟨⟨rfl, trivial⟩, by simp [holdings], trivial⟩
  | script v => exact h.canonical_valuePlan v
  | _ => trivial

/-- Whatever a node is, its plan leads to what the graph says. -/
theorem canonical_plan (n : Node) : (h.plan n).Canonical h := by
  cases n with
  | value v => exact h.canonical_valuePlan v
  | host v => exact h.canonical_hostPlan v
  | scope f => exact ⟨trivial, h.canonical_framesPlan f⟩
  | hostEntries m => exact h.canonical_hostEntriesPlan m
  | hostElements s => exact h.canonical_hostElementsPlan s

/-! ### A new slice -/

/-- The heap with a new slice of some values. -/
def withSlice (vs : List HostValue) : Heap := (h.addHostSlice vs.toArray).2

/-- The identity of the next slice. -/
def newSlice : HostSliceId := ⟨h.hostSlices.size⟩

variable {h} {vs vs' : List HostValue}

theorem hostSlice_withSlice (s : HostSliceId) : (h.withSlice vs).hostSlice s =
    if s = h.newSlice then vs.toArray else h.hostSlice s := by
  obtain ⟨i⟩ := s
  by_cases hi : i = h.hostSlices.size <;>
    simp [hostSlice, withSlice, addHostSlice, newSlice, Array.getElem?_push, hi]

/-- No node holds what is in a slice, before it is recorded. -/
theorem nodeHoldings_withSlice : (h.withSlice vs).nodeHoldings = h.nodeHoldings := by
  funext n
  cases n with
  | value v => cases v <;> rfl
  | host v =>
      cases v with
      | script v => cases v <;> rfl
      | _ => rfl
  | scope f => simp [nodeHoldings, plan, holdings_framesPlan]
  | _ => rfl

theorem graph_slice (s : HostSliceId) : h.graph (.hostSlice s) =
    (h.hostSlice s).toList.flatMap fun v => h.nodeHoldings (.host v) :=
  Plan.holdingsEach_map _ _ _

/-- Apart from the new slice the graph is the same. -/
theorem graph_withSlice (a : Allocation) : (h.withSlice vs).graph a =
    if a = .hostSlice h.newSlice then vs.flatMap fun v => h.nodeHoldings (.host v)
    else h.graph a := by
  by_cases ha : a = .hostSlice h.newSlice
  · subst ha
    simp [graph_slice, hostSlice_withSlice, nodeHoldings_withSlice]
  rw [if_neg ha]
  cases a with
  | hostSlice s =>
      have hs : s ≠ h.newSlice := fun hs => ha (congrArg _ hs)
      rw [graph_slice, graph_slice, hostSlice_withSlice, if_neg hs, nodeHoldings_withSlice]
  | frame f =>
      rw [graph_frame, graph_frame, holdings, nodeHoldings_withSlice]
      rfl
  | _ =>
      rw [graph, holdings, nodeHoldings_withSlice]
      rfl

/-- A permutation of the list permutes what the new slice holds, and nothing else. -/
theorem graph_withSlice_perm (hperm : vs.Perm vs') (a : Allocation) :
    ((h.withSlice vs).graph a).Perm ((h.withSlice vs').graph a) := by
  rw [graph_withSlice, graph_withSlice]
  split
  · exact hperm.flatMap_right _
  · exact .refl _

end Heap

end ScriptCore
