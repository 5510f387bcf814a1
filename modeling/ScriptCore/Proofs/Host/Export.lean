import ScriptCore.Proofs.Host.ExportShapes

/-!
# ScriptCore.Proofs.Host.Export

**Deep exports** copy the graph that they follow, and name the right reason where they do not.

The proof is one induction on the number of objects that the path may still grow by. The path itself
is the reason for a cycle: each object on it leads to the value that is being exported. A cycle in
turn is the reason for a path of any length, so an export that meets one cannot succeed.
-/

namespace ScriptCore

variable {σ : Type}

/-! ### Paths -/

section Paths

variable {h : Heap} {env : Embedding σ} {v : Value} {o : ObjectId} {n : Nat}

/-- No export path is longer than a bound. -/
def Heap.WithinDepth (h : Heap) (n : Nat) (v : Value) : Prop :=
  ∀ os, h.ExportPath v os → os.length ≤ n

/-- Why an export that may follow a number of objects fails. -/
inductive ExportFails (h : Heap) (n : Nat) (v : Value) : ExportError → Prop where
  | circular {o : ObjectId} (leads : h.LeadsTo v o) (cycle : h.OnCycle o) :
      ExportFails h n v .circular
  | tooDeep {os : List ObjectId} (path : h.ExportPath v os) (longer : n < os.length) :
      ExportFails h n v (.tooDeep maxExportDepth)

theorem ExportFails.of_part {e : ExportError} (part : h.Part o v) (fails : ExportFails h n v e) :
    ExportFails h (n + 1) (.object o) e := by
  cases fails with
  | circular leads cycle => exact .circular (leads.of_part part) cycle
  | tooDeep path longer => exact .tooDeep (.through part path) (Nat.succ_lt_succ longer)

theorem ExportFails.longer {e : ExportError} (fails : ExportFails h n v e) :
    ∃ os, h.ExportPath v os ∧ n < os.length := by
  cases fails with
  | circular leads cycle => exact leads.exists_path cycle n
  | tooDeep path longer => exact ⟨_, path, longer⟩

theorem Heap.withinDepth_of_parts (parts : ∀ v, h.Part o v → h.WithinDepth n v) :
    h.WithinDepth (n + 1) (.object o) := by
  intro os path
  cases path with
  | here => exact Nat.zero_le _
  | last own => exact Nat.succ_le_succ (Nat.zero_le _)
  | through part rest => exact Nat.succ_le_succ (parts _ part _ rest)

/-- Primitives and data of the host have no parts. -/
theorem Heap.withinDepth_of_leaf (leaf : ∀ o, v = .object o → h.IsHostBacked o) (n : Nat) :
    h.WithinDepth n v := by
  intro os path
  cases path with
  | here => exact Nat.zero_le _
  | last own => exact absurd (leaf _ rfl) own
  | through part rest => exact absurd (leaf _ rfl) part.not_isHostBacked

variable {child : List ObjectId → Value → Exports σ HostValue} {path : List ObjectId}

theorem exportAt_leaf (leaf : ∀ o, v = .object o → h.IsHostBacked o) (w : World σ)
    (grows : h.Extends w.heap) :
    exportAt env child path v w = some (.ok (h.unwrap v), w) := by
  rw [← grows.unwrap]
  cases v with
  | object o =>
      have backed := (grows.isHostBacked o).mpr (leaf o rfl)
      rw [Heap.IsHostBacked] at backed
      rw [exportAt, Exports.bind_of_ok (Exports.asks_apply _ _), Heap.unwrap]
      cases payload : w.heap.payload o <;> simp_all [Payload.toClass] <;> rfl
  | _ => rfl

theorem exportAt_own (own : ¬h.IsHostBacked o) (w : World σ) (grows : h.Extends w.heap) :
    exportAt env child path (.object o) w =
      (if path.contains o then throw .circular
      else if maxExportDepth ≤ path.length then throw (.tooDeep maxExportDepth)
      else exportObject env (child (o :: path)) o : Exports σ HostValue) w := by
  rw [← grows.isHostBacked, Heap.IsHostBacked] at own
  rw [exportAt, Exports.bind_of_ok (Exports.asks_apply _ _)]
  cases payload : w.heap.payload o with
  | hostMap m prototypes | hostSlice s prototypes | hostData v =>
      rw [payload] at own
      exact absurd rfl own
  | _ => rfl

theorem leaf_yields (leaf : ∀ o, v = .object o → h.IsHostBacked o) {fails : ExportError → Prop} :
    Yields h (exportAt env child path v) (Copies (h.WithinDepth n) v) fails := by
  refine Yields.congr (fun w grows => exportAt_leaf leaf w grows) (.pure fun h' grows => ⟨?_, ?_⟩)
  · exact (Heap.Mirrors.of_leaf leaf).mono grows
  · exact Heap.withinDepth_of_leaf leaf n

/-- Leaves are handed over, and an object that is being exported already is on a cycle. What is left
to be said is what happens on an object that is new to the path. -/
theorem exportAt_yields
    (leads : ∀ p ∈ path, ∀ o, v = .object o → Relation.TransGen h.GoesOn p o)
    (fresh : ∀ o, v = .object o → ¬h.IsHostBacked o →
      Yields h (if maxExportDepth ≤ path.length then throw (.tooDeep maxExportDepth)
        else exportObject env (child (o :: path)) o) (Copies (h.WithinDepth n) v)
        (ExportFails h n v)) :
    Yields h (exportAt env child path v) (Copies (h.WithinDepth n) v) (ExportFails h n v) := by
  by_cases leaf : ∀ o, v = .object o → h.IsHostBacked o
  · exact leaf_yields leaf
  · obtain ⟨o, rfl, own⟩ : ∃ o, v = .object o ∧ ¬h.IsHostBacked o := by simpa using leaf
    refine Yields.congr (fun w grows => exportAt_own own w grows) ?_
    by_cases again : path.contains o = true
    · rw [if_pos again]
      have cycle := leads o (List.contains_iff_mem.mp again) o rfl
      exact .throw (.circular ⟨o, rfl, .refl⟩ cycle)
    · rw [if_neg again]
      exact fresh o rfl own

/-- An export follows the graph of a settled heap: with room for `n` more objects, it gives a copy if
that is enough for every path, and otherwise fails for a reason that is there. -/
theorem exportWithin_yields (settled : h.Settled) (patient : 0 < env.patience) (n : Nat)
    (path : List ObjectId) (v : Value) (room : n + path.length = maxExportDepth)
    (leads : ∀ p ∈ path, ∀ o, v = .object o → Relation.TransGen h.GoesOn p o) :
    Yields h (exportWithin env n path v) (Copies (h.WithinDepth n) v) (ExportFails h n v) := by
  induction n generalizing path v with
  | zero =>
      rw [exportWithin]
      refine exportAt_yields leads fun o same own => ?_
      subst same
      rw [if_pos (by omega)]
      exact .throw (.tooDeep (.last own) Nat.zero_lt_one)
  | succ n ih =>
      rw [exportWithin]
      refine exportAt_yields leads fun o same own => ?_
      subst same
      rw [if_neg (by omega)]
      have parts : CopiesParts h (exportWithin env n (o :: path)) (ExportFails h (n + 1) (.object o))
          o (h.WithinDepth n) := by
        intro u part
        refine (ih (o :: path) u (by rw [List.length_cons]; omega) ?_).excuse
          fun _ reason => reason.of_part part
        intro p mem q same
        subst same
        rcases List.mem_cons.mp mem with rfl | mem
        · exact .single part
        · exact (leads p mem o rfl).tail part
      refine (exportObject_yields settled patient own parts).imp ?_
      intro h' x _ copy
      exact ⟨copy.1, Heap.withinDepth_of_parts copy.2⟩

end Paths

/-! ### Deep exports -/

/-- A deep export of a value copies the graph that it leads to, or says why it does not. It ends and
changes nothing but to add data of the host. It gives a result exactly where no export path passes
through more objects than it follows, and then the result mirrors the value. It fails as circular
only where a cycle is reached, and always fails where one is. -/
theorem exportAny_mirrors {env : Embedding σ} {w : World σ} (settled : w.heap.Settled)
    (patient : 0 < env.patience) (v : Value) :
    ∃ r h', exportAny env v w = some (r, { w with heap := h' }) ∧ w.heap.Extends h' ∧
      ((∃ x, r = .ok x) ↔ ∀ os, w.heap.ExportPath v os → os.length ≤ maxExportDepth) ∧
      (∀ x, r = .ok x → h'.Mirrors v x) ∧
      (∀ e, r = .error e →
        (e = .circular ∧ ∃ o, w.heap.LeadsTo v o ∧ w.heap.OnCycle o) ∨
          e = .tooDeep maxExportDepth) ∧
      ((∃ o, w.heap.LeadsTo v o ∧ w.heap.OnCycle o) →
        r = .error .circular ∨ r = .error (.tooDeep maxExportDepth)) := by
  have yields := exportWithin_yields settled patient maxExportDepth [] v rfl (by simp)
  obtain ⟨h', grows, ⟨x, run, copy⟩ | ⟨e, run, fails⟩⟩ := yields w (.refl _)
  · refine ⟨.ok x, h', run, grows, ⟨fun _ => copy.2, fun _ => ⟨x, rfl⟩⟩, ?_, ?_, ?_⟩
    · intro y same
      cases same
      exact copy.1
    · intro e same
      cases same
    · intro reached
      obtain ⟨o, leads, cycle⟩ := reached
      obtain ⟨os, path, longer⟩ := leads.exists_path cycle maxExportDepth
      exact absurd (copy.2 os path) (Nat.not_le.mpr longer)
  · refine ⟨.error e, h', run, grows, ⟨?_, ?_⟩, ?_, ?_, ?_⟩
    · intro result
      obtain ⟨x, same⟩ := result
      cases same
    · intro within
      obtain ⟨os, path, longer⟩ := fails.longer
      exact absurd (within os path) (Nat.not_le.mpr longer)
    · intro x same
      cases same
    · intro e' same
      cases same
      cases fails with
      | circular leads cycle => exact .inl ⟨rfl, _, leads, cycle⟩
      | tooDeep path longer => exact .inr rfl
    · intro _
      cases fails with
      | circular leads cycle => exact .inl rfl
      | tooDeep path longer => exact .inr rfl

/-! ### Sharing and a cycle -/

/-- An array that holds a plain object twice, that object, and an array that holds itself. -/
def sharingHeap : Heap :=
  { Heap.empty with objects := #[
    .new (.array #[.object ⟨1⟩, .object ⟨1⟩]) none,
    (Object.new .plain none).withProperty "k" (.smi 1),
    .new (.array #[.object ⟨2⟩]) none] }

theorem Object.settled_new {payload : Payload} (prototype : Option ObjectId)
    (made : (Object.new payload prototype).isInitialized = true) :
    (Object.new payload prototype).Settled where
  made := made
  stored name slot found := by simp [Object.new] at found
  sound := PropertyTable.sound_empty

theorem Object.Settled.withProperty {obj : Object} (settled : obj.Settled) (name : String)
    (v : Value) : (obj.withProperty name v).Settled where
  made := settled.made
  stored key slot found := by
    rw [Object.withProperty, PropertyTable.get?_insert] at found
    split at found
    · cases found
      rfl
    · exact settled.stored key slot found
  sound := settled.sound.insert _ _

theorem sharingHeap_settled : sharingHeap.Settled
  | ⟨0⟩ | ⟨2⟩ => Object.settled_new none rfl
  | ⟨1⟩ => (Object.settled_new none rfl).withProperty "k" (.smi 1)
  | ⟨_ + 3⟩ => Object.settled_new none rfl

theorem exportAny_mirrors_on_sharing :
    let w : World Unit := ⟨sharingHeap, .start, #[], ()⟩
    let env : Embedding Unit := { (default : Embedding Unit) with patience := 1 }
    (∃ x h', exportAny env (.object ⟨0⟩) w = some (.ok x, { w with heap := h' }) ∧
        h'.Mirrors (.object ⟨0⟩) x) ∧
      ∃ e h', exportAny env (.object ⟨2⟩) w = some (.error e, { w with heap := h' }) ∧
        (e = .circular ∨ e = .tooDeep maxExportDepth) := by
  intro w env
  have settled : w.heap.Settled := sharingHeap_settled
  have patient : 0 < env.patience := by decide
  refine ⟨?_, ?_⟩
  · obtain ⟨r, h', run, -, within, mirrors, -⟩ := exportAny_mirrors settled patient (.object ⟨0⟩)
    have flat : w.heap.WithinDepth 2 (.object ⟨0⟩) := by
      refine Heap.withinDepth_of_parts fun v part => ?_
      have twice : v = .object ⟨1⟩ := by
        have mem := (Heap.part_array_iff rfl).mp part
        simpa using mem
      subst twice
      refine Heap.withinDepth_of_parts fun v part => ?_
      obtain ⟨name, a, found, -⟩ := (Heap.part_plain_iff rfl).mp part
      have one : v = .smi 1 := by
        have own := found
        rw [show w.heap.object ⟨1⟩ = (Object.new .plain none).withProperty "k" (.smi 1) from rfl,
          Object.withProperty, PropertyTable.get?_insert] at own
        split at own
        · cases own
          rfl
        · simp [Object.new] at own
      exact Heap.withinDepth_of_leaf (by simp [one]) 0
    obtain ⟨x, rfl⟩ := within.mpr fun os path => Nat.le_trans (flat os path) (by decide)
    exact ⟨x, h', run, mirrors x rfl⟩
  · obtain ⟨r, h', run, -, -, -, -, cyclic⟩ := exportAny_mirrors settled patient (.object ⟨2⟩)
    have loop : w.heap.GoesOn ⟨2⟩ ⟨2⟩ := (Heap.part_array_iff rfl).mpr (by simp)
    rcases cyclic ⟨⟨2⟩, ⟨⟨2⟩, rfl, .refl⟩, .single loop⟩ with rfl | rfl
    · exact ⟨_, h', run, .inl rfl⟩
    · exact ⟨_, h', run, .inr rfl⟩

end ScriptCore
