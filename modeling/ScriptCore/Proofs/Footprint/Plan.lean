import ScriptCore.Proofs.Footprint.Accounting
import ScriptCore.Proofs.Footprint.Running

/-!
# ScriptCore.Proofs.Footprint.Plan

What an estimate does with a node, **as data**.

Design points:

* A plan is a finite tree of the few things that estimates are made of. What a plan asks for one level
  down it names as a node, so plans are not recursive.
* Every function of the estimate runs the plan of what it measures (`nodeUsage_eq_run`). A property of
  all estimates is a property of all plans then: an induction with one case for each constructor.
* Values, slots and payloads have plans of their own. They do not depend on the heap, and they record
  nothing (`Plan.Flat`). The plans of nodes do both.
-/

namespace ScriptCore

open Estimate

/-! ### Plans -/

/-- A cost that has no parts. -/
inductive Cost where
  /-- Some bytes. -/
  | bytes (n : Nat)
  /-- A string with a payload of some bytes. -/
  | string (payload : Nat)
  /-- Foreign data, as large as the oracle knows it to be. -/
  | foreign (d : Foreign)

/-- When a container is sampled. -/
inductive Sampling where
  /-- It never is. -/
  | never
  /-- If it is a long sequence. -/
  | array
  /-- If it has many entries. -/
  | entries

/-- What an estimate does with a node. -/
inductive Plan where
  /-- Nothing. -/
  | nothing
  /-- Charges a cost. -/
  | cost (k : Cost)
  /-- Measures a node. -/
  | node (n : Node)
  /-- One thing after another. -/
  | both (first second : Plan)
  /-- One thing after another, the second only if the budget is not used up by then. -/
  | within (first second : Plan)
  /-- Something one level deeper. -/
  | deeper (content : Plan)
  /-- Records an allocation, and goes on by whether it is met for the first time. -/
  | record (a : Allocation) (first again : Plan)
  /-- Something, unless an object or data of the host was recorded before. -/
  | unlessMet (a : Allocation) (content : Plan)
  /-- What an object, a frame or data of the host holds. -/
  | contents (a : Allocation) (content : Plan)
  /-- The elements of a container. -/
  | container (sampling : Sampling) (items : List Plan)

namespace Cost

/-- Charges a cost. -/
def charge : Cost → Estimate Usage
  | bytes n => Estimate.bytes n
  | string n => stringLeaf n
  | foreign d => do Estimate.bytes (((← get).oracle d).getD 0)

/-- How much it is. -/
def usage (oracle : SizeOracle) : Cost → Usage
  | bytes n => .uniform n
  | string n => .string n
  | foreign d => .uniform ((oracle d).getD 0)

theorem run_charge (k : Cost) (c : Context) :
    k.charge.run c = (.ok (k.usage c.oracle), c.charge (k.usage c.oracle)) := by
  cases k <;> rfl

end Cost

namespace Sampling

/-- A container of some length is sampled. -/
def applies (l : Limits) (length : Nat) : Sampling → Bool
  | never => false
  | array => l.samplesArray length
  | entries => l.samplesEntries length

/-- Asks whether a container of some length is sampled. -/
def ask (length : Nat) (s : Sampling) : Estimate Bool := do
  return s.applies (← get).limits length

end Sampling

/-- Records something; false if it was recorded before. -/
def Estimate.record (a : Allocation) : Estimate Bool :=
  modifyGet fun c => let (new, visits) := c.visits.record a; (new, { c with visits })

namespace Plan

mutual

/-- Does what a plan says, given how nodes are measured. -/
@[simp]
def run (inner : Node → Estimate Usage) : Plan → Estimate Usage
  | nothing => return .zero
  | cost k => k.charge
  | node n => inner n
  | both p q => do
    let u ← run inner p
    return u + (← run inner q)
  | within p q => do
    let u ← run inner p
    if ← isOver then return u
    return u + (← run inner q)
  | deeper p => nested (run inner p)
  | record a p q => do if ← Estimate.record a then run inner p else run inner q
  | unlessMet a p => do
    if (← get).visits.has a then return .zero
    run inner p
  | contents _ p => run inner p
  | container s items => do walk (runEach inner items) (← s.ask items.length) id

/-- What each of several plans does. -/
@[simp]
def runEach (inner : Node → Estimate Usage) : List Plan → List (Estimate Usage)
  | [] => []
  | p :: ps => run inner p :: runEach inner ps

end

theorem runEach_eq_map (inner : Node → Estimate Usage) (ps : List Plan) :
    runEach inner ps = ps.map (run inner) := by
  induction ps with
  | nil => rfl
  | cons p ps ih => rw [runEach, ih, List.map_cons]

/-- A property of all plans. A container has it if its elements do. -/
theorem induct {motive : Plan → Prop} (nothing : motive .nothing) (cost : ∀ k, motive (.cost k))
    (node : ∀ n, motive (.node n)) (both : ∀ p q, motive p → motive q → motive (.both p q))
    (within : ∀ p q, motive p → motive q → motive (.within p q))
    (deeper : ∀ p, motive p → motive (.deeper p))
    (record : ∀ a p q, motive p → motive q → motive (.record a p q))
    (unlessMet : ∀ a p, motive p → motive (.unlessMet a p))
    (contents : ∀ a p, motive p → motive (.contents a p))
    (container : ∀ s items, (∀ p ∈ items, motive p) → motive (.container s items)) (p : Plan) :
    motive p :=
  Plan.rec nothing cost node both within deeper record unlessMet contents container
    (fun _ hp => nomatch hp)
    (fun _ _ hp hps q hq => by
      rcases List.mem_cons.mp hq with rfl | hq
      · exact hp
      · exact hps q hq) p

/-! ### Values, slots and payloads -/

/-- Measures the objects that are present. -/
def objects : List (Option ObjectId) → Plan
  | [] => nothing
  | none :: os => objects os
  | some o :: os => both (node (.value (.object o))) (objects os)

/-- Something that has a name. -/
def named (payload : Nat) (content : Plan) : Plan := both (cost (.string payload)) content

end Plan

/-- What is done with the content of a property. -/
def Slot.plan : Slot → Plan
  | .data v _ => .node (.value v)
  | .accessor getter setter _ => .both (.cost (.bytes sizeHeader)) (.objects [getter, setter])

/-- What is done with the stored properties of an object. -/
def PropertyTable.plan (t : PropertyTable) : Plan :=
  .container .entries (t.toList.map fun e => .named e.1.payloadBytes e.2.plan)

/-- What is done with an entry of a map or a set. -/
def entryPlan (e : Value × Option Value) : Plan :=
  match e.2 with
  | some v => .both (.node (.value e.1)) (.node (.value v))
  | none => .node (.value e.1)

/-- What is done with a payload. -/
def Payload.plan : Payload → Plan
  | .plain | .lazy _ => .nothing
  | .array elements => .container .array (elements.toList.map fun v => .node (.value v))
  | .function f =>
    match f.scope with
    | some scope => .named f.name.payloadBytes (.node (.scope scope))
    | none => .cost (.string f.name.payloadBytes)
  | .map c | .set c => .container .entries (c.toList.map entryPlan)
  | .proxy target handler => .objects [target, handler]
  | .boxed v => .node (.value v)
  | .date _ => .cost (.bytes sizeNumber)
  | .hostMap m _ => .node (.hostEntries m)
  | .hostSlice s _ => .node (.hostElements s)
  | .hostData v => .node (.host v)

/-- What is done with everything that an object holds. -/
def Object.plan (o : Object) : Plan :=
  .within (.both (.both (.cost (.bytes sizeHeader)) (.objects [o.prototype])) o.properties.plan)
    o.payload.plan

/-! ### Plans that record nothing -/

namespace Plan

mutual

/-- Nothing is recorded. What is measured is named as nodes. -/
def Flat : Plan → Prop
  | nothing | cost _ | node _ => True
  | both p q | within p q => p.Flat ∧ q.Flat
  | deeper p => p.Flat
  | record .. | unlessMet .. | contents .. => False
  | container _ items => FlatEach items

def FlatEach : List Plan → Prop
  | [] => True
  | p :: ps => p.Flat ∧ FlatEach ps

end

theorem flatEach_iff (ps : List Plan) : FlatEach ps ↔ ∀ p ∈ ps, p.Flat := by
  induction ps with
  | nil => simp [FlatEach]
  | cons p ps ih => simp [FlatEach, ih]

theorem flatEach_map {α : Type} {content : α → Plan} (hcontent : ∀ x, (content x).Flat)
    (items : List α) : FlatEach (items.map content) := by
  simp [flatEach_iff, hcontent]

theorem flat_objects (os : List (Option ObjectId)) : (objects os).Flat := by
  induction os with
  | nil => trivial
  | cons o os ih =>
      cases o with
      | none => exact ih
      | some o => exact ⟨trivial, ih⟩

theorem flat_slot (s : Slot) : s.plan.Flat := by
  cases s with
  | data _ _ => trivial
  | accessor getter setter _ => exact ⟨trivial, flat_objects _⟩

theorem flat_entry (e : Value × Option Value) : (entryPlan e).Flat := by
  obtain ⟨key, _ | v⟩ := e
  · trivial
  · exact ⟨trivial, trivial⟩

theorem flat_payload (p : Payload) : p.plan.Flat := by
  cases p with
  | array elements =>
      refine flatEach_map (fun _ => ?_) _
      trivial
  | function f =>
      obtain ⟨name, code, _ | scope⟩ := f
      · trivial
      · exact ⟨trivial, trivial⟩
  | map c => exact flatEach_map flat_entry _
  | set c => exact flatEach_map flat_entry _
  | proxy target handler => exact flat_objects _
  | _ => trivial

theorem flat_properties (t : PropertyTable) : t.plan.Flat := by
  refine flatEach_map (fun e => ?_) _
  exact ⟨trivial, flat_slot e.2⟩

theorem flat_object (o : Object) : o.plan.Flat :=
  ⟨⟨⟨trivial, flat_objects _⟩, flat_properties _⟩, flat_payload o.payload⟩

end Plan

/-! ### Nodes -/

namespace Heap

variable (h : Heap)

/-- What is done with an object. One that has not been made is only recorded. -/
def objectPlan (o : ObjectId) : Plan :=
  .record (.object o)
    (if (h.object o).isInitialized then .deeper (.contents (.object o) (h.object o).plan)
      else .nothing)
    .nothing

/-- What is done with a value. -/
def valuePlan : Value → Plan
  | .undefined | .null => .cost (.bytes sizeHeader)
  | .boolean _ => .cost (.bytes sizeBool)
  | .smi _ | .int64 _ => .cost (.bytes sizeInt)
  | .int32 _ | .uint32 _ => .cost (.bytes sizeInt32)
  | .double _ => .cost (.bytes sizeNumber)
  | .string t => .cost (.string t.payloadBytes)
  | .symbol s => .cost (.string (s.description.elim 0 Text.payloadBytes))
  | .object o => h.objectPlan o

/-- What is done with the bindings of a frame. -/
def bindingsPlan (f : FrameId) : Plan :=
  .container .never ((h.frame f).bindings.toList.map fun e =>
    .named e.1.payloadBytes (.node (.value e.2)))

/-- What is done with what a frame holds. -/
def framePlan (f : FrameId) : Plan :=
  .both (.both .nothing (h.bindingsPlan f)) (.objects [(h.frame f).object])

theorem flat_framePlan (f : FrameId) : (h.framePlan f).Flat := by
  refine ⟨⟨trivial, Plan.flatEach_map (fun _ => ?_) _⟩, Plan.flat_objects _⟩
  exact ⟨trivial, trivial⟩

/-- What is done with a frame and the frames around it. -/
def framesPlan (f : FrameId) : Plan :=
  let outer := match h.outer? f with
    | some ⟨g, _⟩ => framesPlan g
    | none => .nothing
  .record (.frame f) (.within (.contents (.frame f) (h.framePlan f)) outer) outer
termination_by f.index

/-- What is done with the frames around a frame. -/
def outerPlan (f : FrameId) : Plan :=
  match h.outer? f with
  | some g => h.framesPlan g.1
  | none => .nothing

theorem framesPlan_eq (f : FrameId) : h.framesPlan f = .record (.frame f)
    (.within (.contents (.frame f) (h.framePlan f)) (h.outerPlan f)) (h.outerPlan f) := by
  rw [framesPlan, outerPlan]
  cases h.outer? f <;> rfl

/-- What is done with the entries of a map of the host. -/
def hostEntriesPlan (m : HostMapId) : Plan :=
  .record (.hostMap m) (.deeper (.contents (.hostMap m) (.container .entries
    ((h.hostMap m).toList.map fun e => .named e.1.utf8ByteSize (.node (.host e.2)))))) .nothing

/-- What is done with the elements of a slice of the host. -/
def hostElementsPlan (s : HostSliceId) : Plan :=
  .record (.hostSlice s) (.deeper (.contents (.hostSlice s) (.container .array
    ((h.hostSlice s).toList.map fun v => .node (.host v))))) .nothing

/-- What is done with a container of the host that has a header. -/
def hostContainerPlan (a : Allocation) (content : Plan) : Plan :=
  .unlessMet a (.both (.cost (.bytes sizeHeader)) content)

/-- What is done with a value of the host. -/
def hostPlan : HostValue → Plan
  | .nil | .function _ => .cost (.bytes sizeHeader)
  | .bool _ => .cost (.bytes sizeBool)
  | .int _ | .uint _ => .cost (.bytes sizeInt)
  | .float _ => .cost (.bytes sizeNumber)
  | .str s | .error s => .cost (.string s.utf8ByteSize)
  | .map m => hostContainerPlan (.hostMap m) (h.hostEntriesPlan m)
  | .slice s => hostContainerPlan (.hostSlice s) (h.hostElementsPlan s)
  | .foreign d =>
    .record (.foreign d) (.contents (.foreign d) (.cost (.foreign (h.foreignData d)))) .nothing
  | .script v => h.valuePlan v

/-- What is done with a node. -/
def plan : Node → Plan
  | .value v => h.valuePlan v
  | .host v => h.hostPlan v
  | .scope f => .deeper (.both .nothing (h.framesPlan f))
  | .hostEntries m => h.hostEntriesPlan m
  | .hostElements s => h.hostElementsPlan s

end Heap

/-- What is done with a root. -/
def Root.plan : Root → Plan
  | .node n => .node n
  | .text t => .cost (.string t.payloadBytes)
  | .values vs => .container .never (vs.map fun v => .node (.value v))
  | .slot s => s.plan

theorem Root.flat_plan (root : Root) : root.plan.Flat := by
  cases root with
  | values vs =>
      refine Plan.flatEach_map (fun _ => ?_) _
      trivial
  | slot s => exact Plan.flat_slot s
  | _ => trivial

/-! ### Totals -/

/-- No more than the largest total, under both ways of counting. -/
def Usage.Bounded (u : Usage) : Prop := ∀ s, u.count s ≤ maxBytes

theorem Usage.bounded_add (u v : Usage) : (u + v).Bounded := by
  intro s
  rw [count_add]
  exact Nat.min_le_right _ _

theorem Usage.Bounded.add_zero {u : Usage} (hu : u.Bounded) : u + .zero = u := by
  refine ext_count fun s => ?_
  rw [count_add, count_zero]
  exact Nat.min_eq_left (hu s)

theorem Usage.zero_add_add (u v : Usage) : .zero + u + v = u + v := by
  refine ext_count fun s => ?_
  simp only [count_add, count_zero, saturatingAdd]
  omega

/-! ### Estimates run plans -/

section Walk

variable {α β : Type} {f : α → β} {cost : β → Estimate Usage}

theorem everyNth_map (step : Nat) (f : α → β) (items : List α) :
    everyNth step (items.map f) = (everyNth step items).map f := by
  rw [everyNth, everyNth, List.zipIdx_map, List.filterMap_map, List.map_filterMap]
  congr 1
  funext e
  dsimp only [Function.comp, Prod.map, id]
  split <;> rfl

theorem measureWhile_map (sum : Usage) (count : Nat) (items : List α) :
    measureWhile cost sum count (items.map f) = measureWhile (cost ∘ f) sum count items := by
  induction items generalizing sum count with
  | nil => rfl
  | cons item items ih =>
      rw [List.map_cons, measureWhile, measureWhile]
      simp only [ih, Function.comp]

/-- Elements may be prepared before they are measured. -/
theorem walk_map (sampled : Bool) (items : List α) :
    walk (items.map f) sampled cost = walk items sampled (cost ∘ f) := by
  unfold walk
  simp only [everyNth_map, measureWhile_map, List.length_map]

end Walk

section Runs

variable (h : Heap) (inner : Node → Estimate Usage)

/-- The elements of a container are measured as their plans say. -/
theorem run_container {α : Type} (s : Sampling) (items : List α) (content : α → Plan) :
    (Plan.container s (items.map content)).run inner = (do
      walk items (← s.ask items.length) fun x => (content x).run inner) := by
  rw [Plan.run, Plan.runEach_eq_map, List.map_map, List.length_map]
  simp only [walk_map]
  rfl

theorem innerObjects_eq_run (os : List (Option ObjectId)) :
    innerObjects inner os = (Plan.objects os).run inner := by
  induction os with
  | nil => rfl
  | cons o os ih =>
      cases o with
      | none => exact ih
      | some o =>
          rw [innerObjects, ih]
          rfl

theorem slotUsage_eq_run (s : Slot) : slotUsage inner s = s.plan.run inner := by
  cases s with
  | data v _ => rfl
  | accessor getter setter _ =>
      rw [slotUsage, innerObjects_eq_run]
      rfl

theorem propertiesUsage_eq_run (t : PropertyTable) :
    propertiesUsage inner t = t.plan.run inner := by
  rw [PropertyTable.plan, run_container, propertiesUsage]
  simp only [slotUsage_eq_run]
  rfl

theorem entry_eq_run (e : Value × Option Value) :
    (do
      let first ← inner (.value e.1)
      match e.2 with
      | some v => return first + (← inner (.value v))
      | none => return first) = (entryPlan e).run inner := by
  obtain ⟨key, _ | v⟩ := e
  · exact bind_pure _
  · rfl

theorem payloadUsage_eq_run (p : Payload) : payloadUsage inner p = p.plan.run inner := by
  cases p with
  | plain => rfl
  | «lazy» _ => rfl
  | array elements =>
      rw [Payload.plan, run_container]
      rfl
  | function f =>
      obtain ⟨name, code, _ | scope⟩ := f
      · exact bind_pure _
      · rfl
  | map c | set c =>
      rw [Payload.plan, run_container]
      simp only [← entry_eq_run]
      rfl
  | proxy target handler => exact innerObjects_eq_run ..
  | boxed v => rfl
  | date _ => rfl
  | hostMap _ _ => rfl
  | hostSlice _ _ => rfl
  | hostData _ => rfl

theorem object_eq_run (o : Object) :
    (do
      let header ← bytes sizeHeader
      let prototype ← innerObjects inner [o.prototype]
      let properties ← propertiesUsage inner o.properties
      let total := header + prototype + properties
      if ← isOver then return total
      return total + (← payloadUsage inner o.payload)) = o.plan.run inner := by
  simp only [Object.plan, Plan.run, Cost.charge, innerObjects_eq_run, propertiesUsage_eq_run,
    payloadUsage_eq_run, bind_assoc, pure_bind]

theorem objectUsage_eq_run (o : ObjectId) :
    objectUsage h inner o = (h.objectPlan o).run inner := by
  rw [objectUsage, Heap.objectPlan, Plan.run]
  refine bind_congr fun new => ?_
  cases new with
  | false => rfl
  | true =>
      dsimp only
      cases (h.object o).isInitialized with
      | false => rfl
      | true => exact congrArg nested (object_eq_run inner _)

theorem valueUsage_eq_run (v : Value) : valueUsage h inner v = (h.valuePlan v).run inner := by
  cases v with
  | object o => exact objectUsage_eq_run h inner o
  | _ => rfl

theorem hostEntriesUsage_eq_run (m : HostMapId) :
    hostEntriesUsage h inner m = (h.hostEntriesPlan m).run inner := by
  rw [hostEntriesUsage, Heap.hostEntriesPlan, Plan.run]
  refine bind_congr fun new => ?_
  cases new with
  | false => rfl
  | true =>
      have hcontent := run_container inner .entries (h.hostMap m).toList fun e =>
        .named e.1.utf8ByteSize (.node (.host e.2))
      exact congrArg nested hcontent.symm

theorem hostElementsUsage_eq_run (s : HostSliceId) :
    hostElementsUsage h inner s = (h.hostElementsPlan s).run inner := by
  rw [hostElementsUsage, Heap.hostElementsPlan, Plan.run]
  refine bind_congr fun new => ?_
  cases new with
  | false => rfl
  | true =>
      have hcontent := run_container inner .array (h.hostSlice s).toList fun v => .node (.host v)
      exact congrArg nested hcontent.symm

theorem hostUsage_eq_run (v : HostValue) : hostUsage h inner v = (h.hostPlan v).run inner := by
  cases v with
  | map m =>
      rw [hostUsage, hostEntriesUsage_eq_run]
      rfl
  | slice s =>
      rw [hostUsage, hostElementsUsage_eq_run]
      rfl
  | foreign d =>
      rw [hostUsage, Heap.hostPlan, Plan.run]
      refine bind_congr fun new => ?_
      cases new <;> rfl
  | script v => exact valueUsage_eq_run h inner v
  | _ => rfl

theorem bindings_eq_run (f : FrameId) :
    (walk (h.frame f).bindings.toList false fun (name, v) => do
      let first ← stringLeaf name.payloadBytes
      return first + (← inner (.value v))) = (h.bindingsPlan f).run inner :=
  (run_container inner .never (h.frame f).bindings.toList fun e =>
    .named e.1.payloadBytes (.node (.value e.2))).symm

/-- A chain of frames is measured on top of a running total. -/
theorem framesUsage_eq_run {total : Usage} (htotal : total.Bounded) (f : FrameId) :
    framesUsage h inner total f = do return total + (← (h.framesPlan f).run inner) := by
  have houter : ∀ {total : Usage}, total.Bounded →
      outerUsage h inner total f = do return total + (← (h.outerPlan f).run inner) := by
    intro total htotal
    rw [outerUsage, Heap.outerPlan]
    cases h.outer? f with
    | none => exact congrArg pure htotal.add_zero.symm
    | some g => exact framesUsage_eq_run htotal g
  rw [framesUsage_eq, Heap.framesPlan_eq]
  simp only [Plan.run, bind_assoc]
  refine bind_congr fun new => ?_
  cases new with
  | false => exact houter htotal
  | true =>
      simp only [Heap.framePlan, Plan.run, if_true, bind_assoc, pure_bind, bindings_eq_run,
        innerObjects_eq_run]
      refine bind_congr fun bindings => bind_congr fun object => bind_congr fun spent => ?_
      -- The plan adds up the frame by itself, the estimate on top of the total.
      have hsum : total + bindings + object = total + (.zero + bindings + object) := by
        rw [Usage.zero_add_add, Usage.add_assoc]
      cases spent with
      | true => exact congrArg pure hsum
      | false =>
          rw [if_neg Bool.false_ne_true, houter (Usage.bounded_add _ _), hsum]
          simp [Usage.add_assoc]
termination_by f.index
decreasing_by exact g.2

theorem scope_eq_run (f : FrameId) :
    nested (framesUsage h inner .zero f) = (h.plan (.scope f)).run inner := by
  have hzero : Usage.zero.Bounded := fun s => by simp
  rw [framesUsage_eq_run h inner hzero, Heap.plan, Plan.run, Plan.run]
  rfl

/-- A node is measured as its plan says. -/
theorem nodeUsage_eq_run (n : Node) : nodeUsage h inner n = (h.plan n).run inner := by
  cases n with
  | value v => exact valueUsage_eq_run h inner v
  | host v => exact hostUsage_eq_run h inner v
  | scope f => exact scope_eq_run h inner f
  | hostEntries m => exact hostEntriesUsage_eq_run h inner m
  | hostElements s => exact hostElementsUsage_eq_run h inner s

/-- A root is measured as its plan says. -/
theorem rootUsage_eq_run (root : Root) :
    rootUsage h root = root.plan.run (nodeUsageHere h) := by
  cases root with
  | node n => rfl
  | text t => rfl
  | values vs => exact (run_container (nodeUsageHere h) .never vs fun v => .node (.value v)).symm
  | slot s => exact slotUsage_eq_run (nodeUsageHere h) s

end Runs

end ScriptCore
