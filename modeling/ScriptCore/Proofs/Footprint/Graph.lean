import Mathlib.Algebra.GroupWithZero.Nat
import Mathlib.Algebra.Order.BigOperators.Group.Finset
import ScriptCore.Footprint.Walk

/-!
# ScriptCore.Proofs.Footprint.Graph

The **graph** that an estimate walks over, with no walk in it.

Design points:

* What a node holds is a list of pieces: costs of its own, and references to other nodes. Nodes are
  the objects and the scope frames, named by their allocations.
* A value, a slot or a payload is no node. It contributes its pieces to the node that holds it.
* Costs are exact sums here. Only an estimate saturates.
-/

namespace ScriptCore

/-! ### Costs -/

/-- A way of counting. -/
inductive Scheme where
  | legacy | refined

/-- The total under a way of counting. -/
def Usage.count (u : Usage) : Scheme → Nat
  | .legacy => u.legacy
  | .refined => u.refined

@[simp] theorem Usage.count_zero (s : Scheme) : Usage.zero.count s = 0 := by cases s <;> rfl

@[simp] theorem Usage.count_add (u v : Usage) (s : Scheme) :
    (u + v).count s = saturatingAdd (u.count s) (v.count s) := by
  cases s <;> rfl

theorem Usage.ext_count {u v : Usage} (h : ∀ s, u.count s = v.count s) : u = v := by
  obtain ⟨_, _⟩ := u
  obtain ⟨_, _⟩ := v
  simpa [Usage.count] using And.intro (h .legacy) (h .refined)

theorem Usage.add_assoc (u v w : Usage) : u + v + w = u + (v + w) := by
  refine ext_count fun s => ?_
  simp only [count_add, saturatingAdd]
  omega

/-- Something that a node holds. -/
inductive Piece where
  /-- A cost of its own. -/
  | cost (u : Usage)
  /-- A reference to a node. -/
  | ref (a : Allocation)

namespace Piece

/-- What a piece costs by itself; a reference costs nothing. -/
def own (s : Scheme) : Piece → Nat
  | .cost u => u.count s
  | .ref _ => 0

/-- What several pieces cost by themselves. -/
def total (s : Scheme) (ps : List Piece) : Nat := (ps.map (own s)).sum

@[simp] theorem total_nil (s : Scheme) : total s [] = 0 := rfl

@[simp] theorem total_cost (s : Scheme) (u : Usage) (ps : List Piece) :
    total s (.cost u :: ps) = u.count s + total s ps := by
  simp [total, own]

@[simp] theorem total_ref (s : Scheme) (a : Allocation) (ps : List Piece) :
    total s (.ref a :: ps) = total s ps := by
  simp [total, own]

@[simp] theorem total_append (s : Scheme) (ps qs : List Piece) :
    total s (ps ++ qs) = total s ps + total s qs := by
  simp [total]

theorem total_eq_zero {s : Scheme} {ps : List Piece} (h : ∀ p ∈ ps, ∃ a, p = .ref a) :
    total s ps = 0 := by
  induction ps with
  | nil => rfl
  | cons p ps ih =>
      obtain ⟨a, rfl⟩ := h p List.mem_cons_self
      rw [total_ref]
      exact ih fun q hq => h q (List.mem_cons_of_mem _ hq)

theorem total_perm {s : Scheme} {ps qs : List Piece} (h : ps.Perm qs) : total s ps = total s qs :=
  (h.map _).sum_nat

/-- References to the objects that are present. -/
def refs (os : List (Option ObjectId)) : List Piece :=
  os.filterMap fun o => o.map fun o => .ref (.object o)

end Piece

open Piece

/-! ### Nodes -/

/-- What a value is made of. -/
def Value.pieces : Value → List Piece
  | .undefined | .null => [.cost (.uniform sizeHeader)]
  | .boolean _ => [.cost (.uniform sizeBool)]
  | .smi _ | .int64 _ => [.cost (.uniform sizeInt)]
  | .int32 _ | .uint32 _ => [.cost (.uniform sizeInt32)]
  | .double _ => [.cost (.uniform sizeNumber)]
  | .string t => [.cost (.string t.payloadBytes)]
  | .symbol s => [.cost (.string (s.description.elim 0 Text.payloadBytes))]
  | .object o => [.ref (.object o)]

/-- What a property is made of, apart from its name. -/
def Slot.pieces : Slot → List Piece
  | .data v _ => v.pieces
  | .accessor getter setter _ => .cost (.uniform sizeHeader) :: refs [getter, setter]

/-- A name and what is stored under it. -/
def namedPieces (name : Text) (content : List Piece) : List Piece :=
  .cost (.string name.payloadBytes) :: content

/-- An entry of a map or a set. -/
def entryPieces (e : Value × Option Value) : List Piece :=
  e.1.pieces ++ e.2.elim [] Value.pieces

/-- What a payload is made of. Host data is left out. -/
def Payload.pieces : Payload → List Piece
  | .plain | .lazy _ => []
  | .array elements => elements.toList.flatMap Value.pieces
  | .function f => namedPieces f.name (f.scope.elim [] fun scope => [.ref (.frame scope)])
  | .map c | .set c => c.toList.flatMap entryPieces
  | .proxy target handler => refs [target, handler]
  | .boxed v => v.pieces
  | .date _ => [.cost (.uniform sizeNumber)]
  | .hostMap .. | .hostSlice .. | .hostData _ => []

/-- What an object holds. One that has not been made holds nothing. -/
def Object.pieces (o : Object) : List Piece :=
  if o.isInitialized then
    [.cost (.uniform sizeHeader)] ++ refs [o.prototype] ++
      o.properties.toList.flatMap (fun e => namedPieces e.1 e.2.pieces) ++ o.payload.pieces
  else []

namespace Heap

variable (h : Heap)

/-- A reference to the frame around a frame. -/
def outerPieces (f : FrameId) : List Piece :=
  (h.outer? f).elim [] fun g => [.ref (.frame g)]

theorem ref_of_mem_outerPieces {f : FrameId} {p : Piece} (hp : p ∈ h.outerPieces f) :
    ∃ g, p = .ref (.frame g) := by
  unfold outerPieces at hp
  cases hg : h.outer? f with
  | none => simp [hg] at hp
  | some g => exact ⟨g, by simpa [hg] using hp⟩

/-- What a scope frame holds. -/
def framePieces (f : FrameId) : List Piece :=
  (h.frame f).bindings.toList.flatMap (fun e => namedPieces e.1 e.2.pieces) ++
    refs [(h.frame f).object] ++ h.outerPieces f

/-- What a node holds. -/
def pieces : Allocation → List Piece
  | .object o => (h.object o).pieces
  | .frame f => h.framePieces f
  | _ => []

/-- What a node costs by itself. -/
def cost (s : Scheme) (a : Allocation) : Nat := total s (h.pieces a)

/-- A node is reached from some pieces. -/
inductive Reaches (ps : List Piece) : Allocation → Prop where
  /-- It is one of them. -/
  | here {a : Allocation} (ha : .ref a ∈ ps) : Reaches ps a
  /-- A node that is reached holds it. -/
  | step {a b : Allocation} (ha : Reaches ps a) (hb : .ref b ∈ h.pieces a) : Reaches ps b

variable {h}

theorem Reaches.trans {ps qs : List Piece} {a : Allocation} (ha : h.Reaches qs a)
    (hqs : ∀ b, .ref b ∈ qs → h.Reaches ps b) : h.Reaches ps a := by
  induction ha with
  | here hb => exact hqs _ hb
  | step _ hb ih => exact .step ih hb

theorem Reaches.mono {ps qs : List Piece} {a : Allocation} (ha : h.Reaches qs a)
    (hqs : ∀ p ∈ qs, p ∈ ps) : h.Reaches ps a :=
  ha.trans fun _ hb => .here (hqs _ hb)

/-- A set of nodes that has the first ones and what its members hold has all. -/
theorem Reaches.mem_of_closed {ps : List Piece} {S : Allocation → Prop}
    (hps : ∀ a, .ref a ∈ ps → S a) (hS : ∀ a, S a → ∀ b, .ref b ∈ h.pieces a → S b)
    {a : Allocation} (ha : h.Reaches ps a) : S a := by
  induction ha with
  | here ha => exact hps _ ha
  | step _ hb ih => exact hS _ ih _ hb

/-- The order in which nodes hold their pieces does not matter. -/
theorem Reaches.perm {h' : Heap} (hperm : ∀ a, (h'.pieces a).Perm (h.pieces a)) {ps : List Piece}
    {a : Allocation} (ha : h.Reaches ps a) : h'.Reaches ps a := by
  induction ha with
  | here ha => exact .here ha
  | step _ hb ih => exact .step ih ((hperm _).mem_iff.mpr hb)

/-! ### What is measured in full -/

variable (h)

/-- Nothing in the heap belongs to the host. -/
def IsLanguage : Prop := ∀ o, (h.object o).toClass ≠ .hostBacked

end Heap

/-- No container of the heap is large enough to be sampled. -/
def Limits.Covers (l : Limits) (h : Heap) : Prop :=
  ∀ o, (h.object o).properties.toList.length ≤ l.entriesThreshold ∧
    match (h.object o).payload with
    | .array elements => elements.size ≤ l.arrayThreshold
    | .map c | .set c => c.toList.length ≤ l.entriesThreshold
    | _ => True

/-- What a root is made of. -/
def Root.pieces : Root → List Piece
  | .node (.value v) => v.pieces
  | .node (.scope f) => [.ref (.frame f)]
  | .node _ => []
  | .text t => [.cost (.string t.payloadBytes)]
  | .values vs => vs.flatMap Value.pieces
  | .slot s => s.pieces

/-- The root is none of the host's. -/
def Root.IsLanguage : Root → Prop
  | .node (.value _) | .node (.scope _) | .text _ | .values _ | .slot _ => True
  | .node _ => False

end ScriptCore
