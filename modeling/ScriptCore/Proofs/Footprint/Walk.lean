import ScriptCore.Proofs.Footprint.Accounting
import ScriptCore.Proofs.Footprint.Running

/-!
# ScriptCore.Proofs.Footprint.Walk

Every estimate **accounts for the pieces** of what it measures.

Design points:

* There is one lemma per function, and none looks into another. The functions that measure a node
  are parametric in how nodes one level down are measured; their lemmas assume of that only that it
  accounts for what it measures (`AccountsInner`).
* An estimate that fails says nothing, so the ceiling on the depth does not show here. The recursion
  over the room below the ceiling starts from a measure that always fails.
* A chain of scope frames is measured on top of a running total, so its lemma says what was added
  to that total (`Usage.Added`).
-/

namespace ScriptCore

open Estimate Piece

/-! ### Running estimates -/

namespace Estimate

variable {α β : Type} {c c'' : Context}

theorem run_visit_ok {o : ObjectId} {new : Bool}
    (h : (visit (.object o)).run c = (.ok new, c'')) : c.Records (.object o) new c'' := by
  rw [run_visit] at h
  cases h
  exact ⟨Visits.record_fst_iff (.object o), rfl, rfl, Visits.counted_record (.object o)⟩

theorem run_visitFrame_ok {f : FrameId} {new : Bool}
    (h : (visitFrame f).run c = (.ok new, c'')) : c.Records (.frame f) new c'' := by
  rw [run_visitFrame] at h
  cases h
  exact ⟨Visits.record_fst_iff (.frame f), rfl, rfl, Visits.counted_record (.frame f)⟩

theorem run_nested_ok {m : Estimate α} {a : α} (h : (nested m).run c = (.ok a, c'')) :
    ∃ d c', m.run { c with depth := d } = (.ok a, c') ∧ c'' = c'.ascend := by
  rw [run_nested] at h
  cases descends : c.descend with
  | error e =>
      rw [descends] at h
      cases h
  | ok c₁ =>
      obtain ⟨-, rfl⟩ := Context.descend_ok descends
      rw [descends] at h
      obtain ⟨ha, hc⟩ := Prod.mk.inj h
      exact ⟨_, _, Prod.ext ha rfl, hc.symm⟩

end Estimate

/-! ### Specifications -/

/-- Whenever the estimate returns, it has accounted for some pieces. -/
def Accounts (h : Heap) (m : Estimate Usage) (ps : List Piece) : Prop :=
  ∀ ⦃c u c'⦄, c.Ready h → m.run c = (.ok u, c') → ∃ counted, Accounted h ps c u c' counted

namespace Accounts

variable {h : Heap} {m n : Estimate Usage} {ps qs : List Piece}

theorem zero : Accounts h (pure .zero) [] := by
  intro c u c' hc hrun
  obtain ⟨rfl, rfl⟩ := run_pure_ok hrun
  exact ⟨[], .zero hc.spent⟩

theorem leaf (u : Usage) : Accounts h (leaf u) [.cost u] := by
  intro c v c' _ hrun
  cases hrun
  exact ⟨[], .leaf c u⟩

theorem add (hm : Accounts h m ps) (hn : Accounts h n qs) :
    Accounts h (do let u ← m; return u + (← n)) (ps ++ qs) := by
  intro c u c' hc hrun
  obtain ⟨u₁, c₁, hrun₁, hrun⟩ := run_bind_ok hrun
  obtain ⟨u₂, c₂, hrun₂, hrun⟩ := run_bind_ok hrun
  obtain ⟨rfl, rfl⟩ := run_pure_ok hrun
  obtain ⟨counted₁, h₁⟩ := hm hc hrun₁
  obtain ⟨counted₂, h₂⟩ := hn (h₁.ready hc) hrun₂
  exact ⟨_, h₁.append h₂⟩

theorem pass (hm : Accounts h m ps) : Accounts h (m >>= fun u => pure u) ps := by
  rw [bind_pure]
  exact hm

theorem nested (hm : Accounts h m ps) : Accounts h (nested m) ps := by
  intro c u c' hc hrun
  obtain ⟨d, c₁, hbody, rfl⟩ := run_nested_ok hrun
  have hd : ({ c with depth := d } : Context).Ready h := ⟨hc.covers, hc.spent⟩
  obtain ⟨counted, ha⟩ := hm hd hbody
  exact ⟨counted, ha.setDepth _⟩

/-! ### Containers -/

variable {α : Type} {measure : α → Estimate Usage} {content : α → List Piece}

/-- The loop over a container goes on from what was accounted for before it. -/
theorem measureWhile {items : List α} (hitems : ∀ x ∈ items, Accounts h (measure x) (content x))
    {c₀ c c' : Context} {sum : Usage} {count : Nat} {r : Usage × Nat} {counted : List Allocation}
    (hc₀ : c₀.Ready h) (hsum : Accounted h ps c₀ sum c counted)
    (hrun : (measureWhile measure sum count items).run c = (.ok r, c')) :
    ∃ counted', Accounted h (ps ++ items.flatMap content) c₀ r.1 c' counted' := by
  -- The pieces measured so far are part of what is proved, since the loop carries their sum.
  induction items generalizing ps c sum count counted with
  | nil =>
      obtain ⟨rfl, rfl⟩ := run_pure_ok hrun
      exact ⟨counted, by simpa using hsum⟩
  | cons x xs ih =>
      rw [ScriptCore.measureWhile] at hrun
      obtain ⟨u, c₁, hrun₁, hrun⟩ := run_bind_ok hrun
      rw [run_bind, run_isOver] at hrun
      dsimp only at hrun
      obtain ⟨counted₁, h₁⟩ := hitems x List.mem_cons_self (hsum.ready hc₀) hrun₁
      have hsum₁ := hsum.append h₁
      rw [List.flatMap_cons, ← List.append_assoc]
      split at hrun
      · rename_i hover
        obtain ⟨rfl, rfl⟩ := run_pure_ok hrun
        exact ⟨_, hsum₁.stop hover⟩
      · exact ih (fun y hy => hitems y (List.mem_cons_of_mem _ hy)) hsum₁ hrun

theorem walk {items : List α} (hitems : ∀ x ∈ items, Accounts h (measure x) (content x)) :
    Accounts h (walk items false measure) (items.flatMap content) := by
  intro c u c' hc hrun
  obtain ⟨r, c₁, hrun, hpure⟩ := run_bind_ok hrun
  obtain ⟨rfl, rfl⟩ := run_pure_ok hpure
  exact measureWhile hitems hc (.zero hc.spent) hrun

/-- A container that is not sampled is measured in full. -/
theorem walkUnsampled {items : List α} {samples : Estimate Bool}
    (hitems : ∀ x ∈ items, Accounts h (measure x) (content x))
    (hfull : ∀ c : Context, c.Ready h → samples.run c = (.ok false, c)) :
    Accounts h (do ScriptCore.walk items (← samples) measure) (items.flatMap content) := by
  intro c u c' hc hrun
  rw [run_bind, hfull c hc] at hrun
  exact walk hitems hc hrun

theorem walkEntries {items : List α} {n : Nat}
    (hitems : ∀ x ∈ items, Accounts h (measure x) (content x))
    (hn : ∀ l : Limits, l.Covers h → n ≤ l.entriesThreshold) :
    Accounts h (do ScriptCore.walk items (← samplesEntries n) measure) (items.flatMap content) := by
  refine walkUnsampled hitems fun c hc => ?_
  have hfull : c.limits.samplesEntries n = false := by
    simpa [Limits.samplesEntries] using hn _ hc.covers
  rw [run_samplesEntries, hfull]

theorem walkArray {items : List α} {n : Nat}
    (hitems : ∀ x ∈ items, Accounts h (measure x) (content x))
    (hn : ∀ l : Limits, l.Covers h → n ≤ l.arrayThreshold) :
    Accounts h (do ScriptCore.walk items (← samplesArray n) measure) (items.flatMap content) := by
  refine walkUnsampled hitems fun c hc => ?_
  have hfull : c.limits.samplesArray n = false := by
    simpa [Limits.samplesArray] using hn _ hc.covers
  rw [run_samplesArray, hfull]

end Accounts

/-! ### Nodes -/

/-- Nodes one level down are accounted for. -/
structure AccountsInner (h : Heap) (inner : Node → Estimate Usage) : Prop where
  value : ∀ v : Value, Accounts h (inner (.value v)) v.pieces
  scope : ∀ f, Accounts h (inner (.scope f)) [.ref (.frame f)]

/-- A usage is added to a total, unless there is nothing to add. -/
def Usage.Added (total v u : Usage) : Prop := u = total + v ∨ u = total ∧ v = .zero

theorem Usage.Added.after {total w v u : Usage} (h : Usage.Added (total + w) v u) :
    Usage.Added total (w + v) u := by
  rcases h with rfl | ⟨rfl, rfl⟩
  · exact .inl (add_assoc ..)
  · refine .inl (ext_count fun s => ?_)
    simp only [count_add, count_zero, saturatingAdd]
    omega

theorem Usage.Added.zero_add {total v u : Usage} (h : Usage.Added total v u) :
    Usage.Added total (.zero + v) u := by
  rcases h with rfl | ⟨rfl, rfl⟩
  · refine .inl (ext_count fun s => ?_)
    simp only [count_add, count_zero, saturatingAdd]
    omega
  · exact .inr ⟨rfl, rfl⟩

namespace AccountsInner

variable {h : Heap} {inner : Node → Estimate Usage}

theorem innerObjects (hi : AccountsInner h inner) (os : List (Option ObjectId)) :
    Accounts h (innerObjects inner os) (refs os) := by
  induction os with
  | nil => exact .zero
  | cons o os ih =>
      cases o with
      | none => exact ih
      | some o => exact (hi.value (.object o)).add ih

theorem slot (hi : AccountsInner h inner) (s : Slot) : Accounts h (slotUsage inner s) s.pieces := by
  cases s with
  | data v _ => exact hi.value v
  | accessor getter setter _ => exact (Accounts.leaf _).add (hi.innerObjects _)

theorem named (name : Text) {m : Estimate Usage} {ps : List Piece} (hm : Accounts h m ps) :
    Accounts h (do let u ← stringLeaf name.payloadBytes; return u + (← m))
      (namedPieces name ps) :=
  (Accounts.leaf _).add hm

theorem properties (hi : AccountsInner h inner) (o : ObjectId) :
    Accounts h (propertiesUsage inner (h.object o).properties)
      ((h.object o).properties.toList.flatMap fun e => namedPieces e.1 e.2.pieces) :=
  .walkEntries (fun e _ => named e.1 (hi.slot e.2)) fun _ hl => (hl o).1

theorem entry (hi : AccountsInner h inner) (e : Value × Option Value) :
    Accounts h (do
      let first ← inner (.value e.1)
      match e.2 with
      | some v => return first + (← inner (.value v))
      | none => return first) (entryPieces e) := by
  obtain ⟨key, _ | v⟩ := e
  · rw [entryPieces, Option.elim_none, List.append_nil]
    exact (hi.value key).pass
  · exact (hi.value key).add (hi.value v)

theorem payload (hi : AccountsInner h inner) (o : ObjectId)
    (hlanguage : (h.object o).toClass ≠ .hostBacked) :
    Accounts h (payloadUsage inner (h.object o).payload) (h.object o).payload.pieces := by
  have hcovers : ∀ l : Limits, l.Covers h → _ := fun l hl => (hl o).2
  unfold Object.toClass at hlanguage
  generalize (h.object o).payload = p at hcovers hlanguage ⊢
  cases p with
  | plain => exact .zero
  | «lazy» _ => exact .zero
  | array elements => exact .walkArray (fun v _ => hi.value v) hcovers
  | function f =>
      obtain ⟨name, code, _ | scope⟩ := f
      · exact (Accounts.leaf _).pass
      · exact named name (hi.scope scope)
  | map c => exact .walkEntries (fun e _ => hi.entry e) hcovers
  | set c => exact .walkEntries (fun e _ => hi.entry e) hcovers
  | proxy target handler => exact hi.innerObjects _
  | boxed v => exact hi.value v
  | date _ => exact .leaf _
  | hostMap _ _ => exact absurd rfl hlanguage
  | hostSlice _ _ => exact absurd rfl hlanguage
  | hostData _ => exact absurd rfl hlanguage

/-- The header, the prototype and the properties come first. Then the budget decides whether the
payload follows. -/
theorem objectBody (hi : AccountsInner h inner) (o : ObjectId)
    (hlanguage : (h.object o).toClass ≠ .hostBacked) (hinit : (h.object o).isInitialized = true) :
    Accounts h (do
      let header ← bytes sizeHeader
      let prototype ← ScriptCore.innerObjects inner [(h.object o).prototype]
      let properties ← propertiesUsage inner (h.object o).properties
      let total := header + prototype + properties
      if ← isOver then return total
      return total + (← payloadUsage inner (h.object o).payload)) (h.object o).pieces := by
  intro c u c' hc hrun
  obtain ⟨header, c₁, hrun₁, hrun⟩ := run_bind_ok hrun
  obtain ⟨prototype, c₂, hrun₂, hrun⟩ := run_bind_ok hrun
  obtain ⟨properties, c₃, hrun₃, hrun⟩ := run_bind_ok hrun
  rw [run_bind, run_isOver] at hrun
  dsimp only at hrun
  obtain ⟨counted₁, h₁⟩ := Accounts.leaf _ hc hrun₁
  obtain ⟨counted₂, h₂⟩ := hi.innerObjects _ (h₁.ready hc) hrun₂
  have h₁₂ := h₁.append h₂
  obtain ⟨counted₃, h₃⟩ := hi.properties o (h₁₂.ready hc) hrun₃
  have h₁₂₃ := h₁₂.append h₃
  rw [Object.pieces, if_pos hinit]
  split at hrun
  · rename_i hover
    obtain ⟨rfl, rfl⟩ := run_pure_ok hrun
    exact ⟨_, h₁₂₃.stop hover⟩
  · obtain ⟨payload, c₄, hrun₄, hrun⟩ := run_bind_ok hrun
    obtain ⟨rfl, rfl⟩ := run_pure_ok hrun
    obtain ⟨counted₄, h₄⟩ := hi.payload o hlanguage (h₁₂₃.ready hc) hrun₄
    exact ⟨_, h₁₂₃.append h₄⟩

theorem object (hi : AccountsInner h inner) (hh : h.IsLanguage) (o : ObjectId) :
    Accounts h (objectUsage h inner o) [.ref (.object o)] := by
  intro c u c' hc hrun
  rw [objectUsage] at hrun
  obtain ⟨new, c₁, hvisit, hrun⟩ := run_bind_ok hrun
  have hrecords := run_visit_ok hvisit
  have hc₁ := hrecords.ready hc
  cases new with
  | false =>
      obtain ⟨rfl, rfl⟩ := run_pure_ok hrun
      exact ⟨[], .again hc.spent hrecords⟩
  | true =>
      by_cases hinit : (h.object o).isInitialized = true
      · rw [if_neg (by simp [hinit])] at hrun
        obtain ⟨counted, ha⟩ := (hi.objectBody o (hh o) hinit).nested hc₁ hrun
        exact ⟨_, .enter hrecords ha⟩
      · rw [if_pos (by simp [hinit])] at hrun
        obtain ⟨rfl, rfl⟩ := run_pure_ok hrun
        have hpieces : h.pieces (.object o) = [] := if_neg hinit
        have ha := Accounted.zero (h := h) hc₁.spent
        exact ⟨_, .enter hrecords (hpieces ▸ ha)⟩

/-- A frame contributes its bindings. -/
theorem binding (hi : AccountsInner h inner) (f : FrameId) :
    Accounts h (walk (h.frame f).bindings.toList false fun (name, v) => do
        let first ← stringLeaf name.payloadBytes
        return first + (← inner (.value v)))
      ((h.frame f).bindings.toList.flatMap fun e => namedPieces e.1 e.2.pieces) :=
  .walk fun e _ => named e.1 (hi.value e.2)

/-- The frames from one outward add to the running total what the reference to it stands for. -/
theorem frames (hi : AccountsInner h inner) (f : FrameId) {total u : Usage} {c c' : Context}
    (hc : c.Ready h) (hrun : (framesUsage h inner total f).run c = (.ok u, c')) :
    ∃ v counted, Usage.Added total v u ∧ Accounted h [.ref (.frame f)] c v c' counted := by
  rw [framesUsage_eq] at hrun
  obtain ⟨new, c₁, hvisit, hrun⟩ := run_bind_ok hrun
  have hrecords := run_visitFrame_ok hvisit
  have hc₁ := hrecords.ready hc
  -- What follows the frame itself, whether it was new or not.
  have houter : ∀ (total : Usage) {c₂ : Context}, c₂.Ready h →
      (outerUsage h inner total f).run c₂ = (.ok u, c') →
      ∃ v counted, Usage.Added total v u ∧ Accounted h (h.outerPieces f) c₂ v c' counted := by
    intro total c₂ hc₂ hrun
    unfold outerUsage at hrun
    unfold Heap.outerPieces
    cases hg : h.outer? f with
    | none =>
        rw [hg] at hrun
        obtain ⟨rfl, rfl⟩ := run_pure_ok hrun
        exact ⟨.zero, [], .inr ⟨rfl, rfl⟩, .zero hc₂.spent⟩
    | some g =>
        rw [hg] at hrun
        exact frames hi g hc₂ hrun
  cases new with
  -- The walk goes on outward from a frame that was counted before, over what that frame holds anyway.
  | false =>
      obtain ⟨v, counted, hadded, ha⟩ := houter total hc₁ hrun
      refine ⟨_, _, hadded.zero_add, ((Accounted.again hc.spent hrecords).append ha).drop ?_⟩
      intro p hp
      obtain ⟨g, rfl⟩ := h.ref_of_mem_outerPieces hp
      have hmem : Piece.ref (.frame g) ∈ h.pieces (.frame f) := List.mem_append_right _ hp
      exact ⟨_, rfl, .step (.here List.mem_cons_self) hmem⟩
  | true =>
      obtain ⟨w₁, c₂, hrun₁, hrun⟩ := run_bind_ok hrun
      obtain ⟨w₂, c₃, hrun₂, hrun⟩ := run_bind_ok hrun
      rw [run_bind, run_isOver] at hrun
      dsimp only at hrun
      obtain ⟨counted₁, h₁⟩ := hi.binding f hc₁ hrun₁
      obtain ⟨counted₂, h₂⟩ := hi.innerObjects _ (h₁.ready hc₁) hrun₂
      have h₁₂ := h₁.append h₂
      split at hrun
      · rename_i hover
        obtain ⟨rfl, rfl⟩ := run_pure_ok hrun
        exact ⟨_, _, .inl (Usage.add_assoc ..), .enter hrecords (h₁₂.stop hover)⟩
      · obtain ⟨v, counted, hadded, ha⟩ := houter _ (h₁₂.ready hc₁) hrun
        have hsum : Usage.Added total (w₁ + w₂ + v) u := by
          rw [Usage.add_assoc]
          exact hadded.after.after
        exact ⟨_, _, hsum, .enter hrecords (h₁₂.append ha)⟩
termination_by f.index
decreasing_by exact g.2

theorem nodeScope (hi : AccountsInner h inner) (f : FrameId) :
    Accounts h (nodeUsage h inner (.scope f)) [.ref (.frame f)] := by
  refine Accounts.nested fun c u c' hc hrun => ?_
  obtain ⟨v, counted, rfl | ⟨rfl, rfl⟩, ha⟩ := hi.frames f hc hrun
  · exact ⟨_, (Accounted.zero hc.spent).append ha⟩
  · exact ⟨_, ha⟩

theorem nodeValue (hi : AccountsInner h inner) (hh : h.IsLanguage) (v : Value) :
    Accounts h (nodeUsage h inner (.value v)) v.pieces := by
  cases v with
  | object o => exact hi.object hh o
  | _ => exact .leaf _

end AccountsInner

/-- With any room below the ceiling, what is measured is accounted for. -/
theorem accountsInner_usageWithin {h : Heap} (hh : h.IsLanguage) (n : Nat) :
    AccountsInner h (usageWithin h n) := by
  induction n with
  | zero =>
      have hfail : AccountsInner h (fun _ => do throw ⟨(← get).limits.maxDepth⟩) := by
        refine ⟨?_, ?_⟩
        · intro v c u c' _ hrun
          cases hrun
        · intro f c u c' _ hrun
          cases hrun
      exact ⟨hfail.nodeValue hh, hfail.nodeScope⟩
  | succ n ih => exact ⟨ih.nodeValue hh, ih.nodeScope⟩

/-- An estimate accounts for what its root is made of. -/
theorem accounts_rootUsage {h : Heap} (hh : h.IsLanguage) {root : Root} (hroot : root.IsLanguage) :
    Accounts h (rootUsage h root) root.pieces := by
  have hhere : AccountsInner h (nodeUsageHere h) :=
    ⟨fun v c u c' hc hrun => (accountsInner_usageWithin hh _).value v hc hrun,
      fun f c u c' hc hrun => (accountsInner_usageWithin hh _).scope f hc hrun⟩
  cases root with
  | node n =>
      cases n with
      | value v => exact hhere.value v
      | scope f => exact hhere.scope f
      | _ => exact hroot.elim
  | text t => exact .leaf _
  | values vs => exact .walk fun v _ => hhere.value v
  | slot s => exact hhere.slot s

end ScriptCore
