import ScriptCore.Proofs.Host.ExportRun
import ScriptCore.Proofs.Object.Operations

/-!
# ScriptCore.Proofs.Host.ExportShapes

**One object** is exported by its shape, if its parts are exported one level down.

Design points:

* The heap is settled: nothing in it runs code when it is looked at, so reading an object changes
  nothing.
* What else is known about the parts is a parameter (`Copies`), as are the reasons for which one of
  them may fail.
-/

namespace ScriptCore

variable {σ α β γ : Type}

/-- An object that has been made, and whose properties all have a value that is stored. -/
structure Object.Settled (obj : Object) : Prop where
  made : obj.isInitialized = true
  stored : ∀ name slot, obj.properties.get? name = some slot → slot.isAccessor = false
  sound : obj.properties.Sound

/-- There are no lazy objects and no accessors. -/
def Heap.Settled (h : Heap) : Prop := ∀ o, (h.object o).Settled

/-! ### Reading a settled heap -/

namespace Heap.Settled

variable {h : Heap} {env : Embedding σ} {o : ObjectId}

theorem materialize_apply (settled : h.Settled) (o : ObjectId) (w : World σ)
    (grows : h.Extends w.heap) : materialize env o w = some ((), w) := by
  refine materialize_of_ready fun number lazy => ?_
  have made := (settled o).made
  rw [← grows.object, Object.isInitialized] at made
  rw [Heap.payload] at lazy
  rw [lazy] at made
  cases made

theorem ownPropertyNames_apply (settled : h.Settled) (plain : h.payload o = .plain) (w : World σ)
    (grows : h.Extends w.heap) :
    ownPropertyNames env o w = some ((h.object o).properties.names.toList, w) := by
  rw [ownPropertyNames, Exec.bind_of_eq (settled.materialize_apply o w grows), Exec.asks_apply,
    Heap.ownNames, Heap.computedNames, grows.payload, plain, grows.object]
  rfl

theorem ownProperty_apply (plain : h.payload o = .plain) (name : Text) (w : World σ)
    (grows : h.Extends w.heap) :
    ownProperty env o name w = some ((h.object o).properties.get? name, w) := by
  have ordinary : (w.heap.payload o).isOrdinary = true := by
    rw [grows.payload, plain]
    rfl
  rw [ownProperty_ordinary ordinary, grows.object]

theorem getOrUndefined_apply (patient : 0 < env.patience) (plain : h.payload o = .plain)
    {name : Text} {v : Value} {a : Attributes}
    (own : (h.object o).properties.get? name = some (.data v a)) (w : World σ)
    (grows : h.Extends w.heap) : getOrUndefined env o name w = some (v, w) := by
  have ordinary : (w.heap.payload o).isOrdinary = true := by
    rw [grows.payload, plain]
    rfl
  rw [← grows.object] at own
  have read : (getProperty env o name).run w = some (.ok v, w) :=
    getProperty_own patient ordinary own
  rw [getOrUndefined, Exec.bind_of_eq read]
  rfl

end Heap.Settled

/-! ### One object -/

section Objects

variable {h : Heap} {env : Embedding σ} {child : Value → Exports σ HostValue} {o : ObjectId}
  {right : Value → Prop} {fails : ExportError → Prop}

/-- A copy of a value, about which something is known. -/
def Copies (right : Value → Prop) (v : Value) (h : Heap) (x : HostValue) : Prop :=
  h.Mirrors v x ∧ right v

theorem Copies.mono {h₁ h₂ : Heap} {v : Value} {x : HostValue} (copies : Copies right v h₁ x)
    (grows : h₁.Extends h₂) : Copies right v h₂ x := ⟨copies.1.mono grows, copies.2⟩

/-- The parts of an object are copied one level down. -/
def CopiesParts (h : Heap) (child : Value → Exports σ HostValue) (fails : ExportError → Prop)
    (o : ObjectId) (right : Value → Prop) : Prop :=
  ∀ v, h.Part o v → Yields h (child v) (Copies right v) fails

/-- The copy of an object, where something is known about all its parts. -/
def CopiesWhole (h : Heap) (right : Value → Prop) (o : ObjectId) (h' : Heap) (x : HostValue) :
    Prop :=
  h'.Mirrors (.object o) x ∧ ∀ v, h.Part o v → right v

/-- Where each item has a copy that is right for it, no item is without one. -/
theorem exists_copy {items : List α} {copies : List γ} {right : α → γ → Prop}
    (length : copies.length = items.length)
    (all : ∀ (i : Nat) (a : α) (c : γ), items[i]? = some a → copies[i]? = some c → right a c) {a : α}
    (mem : a ∈ items) : ∃ c, right a c := by
  obtain ⟨i, hi, rfl⟩ := List.getElem_of_mem mem
  have hc : i < copies.length := length ▸ hi
  exact ⟨copies[i], all i _ _ (List.getElem?_eq_getElem hi) (List.getElem?_eq_getElem hc)⟩

/-- Items are copied, in order, into a new slice. -/
theorem items_yield {items : List α} (value : α → Value)
    (each : ∀ a ∈ items, Yields h (child (value a)) (Copies right (value a)) fails) :
    Yields h (items.mapM (fun a => child (value a)) >>= newHostSlice)
      (fun h' x => ∃ (s : HostSliceId) (copies : List HostValue), x = .slice s ∧
        h'.hostSlices[s.index]? = some copies.toArray ∧ copies.length = items.length ∧
        ∀ (i : Nat) (a : α) (c : HostValue),
          items[i]? = some a → copies[i]? = some c → Copies right (value a) h' c) fails := by
  refine (Yields.mapM (fun h' a c => Copies right (value a) h' c) id
    (fun grows copies => copies.mono grows) items ?_).bind ?_
  · intro a mem
    exact (each a mem).imp fun _ x _ copy => ⟨x, rfl, copy⟩
  · intro h₁ items grows copied
    obtain ⟨copies, rfl, length, all⟩ := copied
    rw [List.map_id]
    refine (Yields.addSlice copies).imp ?_
    intro h₂ x grows₂ made
    obtain ⟨s, rfl, made⟩ := made
    exact ⟨s, copies, rfl, made, length, fun i a c ha hc => (all i a c ha hc).mono grows₂⟩

theorem array_yields (parts : CopiesParts h child fails o right) {elements : Array Value}
    (payload : h.payload o = .array elements) :
    Yields h (elements.toList.mapM child >>= newHostSlice) (CopiesWhole h right o) fails := by
  refine (items_yield id fun v mem => parts v (.element payload mem)).imp ?_
  intro h' x grows copied
  obtain ⟨s, copies, rfl, made, length, all⟩ := copied
  refine ⟨.array ((grows.payload o).trans payload) made length ?_, ?_⟩
  · intro i v x hv hx
    exact (all i v x hv hx).1
  · intro v part
    obtain ⟨x, -, known⟩ := exists_copy length all ((Heap.part_array_iff payload).mp part)
    exact known

theorem set_yields (parts : CopiesParts h child fails o right) {entries : Collection}
    (payload : h.payload o = .set entries) :
    Yields h (entries.toList.mapM (fun e => child e.1) >>= newHostSlice) (CopiesWhole h right o)
      fails := by
  refine (items_yield Prod.fst fun e mem => parts e.1 (.member payload mem)).imp ?_
  intro h' x grows copied
  obtain ⟨s, copies, rfl, made, length, all⟩ := copied
  refine ⟨.set ((grows.payload o).trans payload) made length ?_, ?_⟩
  · intro i e x he hx
    exact (all i e x he hx).1
  · intro v part
    obtain ⟨e, mem, rfl⟩ := (Heap.part_set_iff payload).mp part
    obtain ⟨x, -, known⟩ := exists_copy length all mem
    exact known

/-- The copy of an entry: a slice of its own that holds two copies. -/
structure CopiesEntry (right : Value → Prop) (e : Value × Option Value)
    (p : HostSliceId × HostValue × HostValue) (h : Heap) : Prop where
  paired : h.hostSlices[p.1.index]? = some #[p.2.1, p.2.2]
  key : Copies right e.1 h p.2.1
  value : ∀ v, e.2 = some v → Copies right v h p.2.2
  missing : e.2 = none → p.2.2 = .nil

theorem CopiesEntry.mono {e : Value × Option Value} {p : HostSliceId × HostValue × HostValue}
    {h₁ h₂ : Heap} (copies : CopiesEntry right e p h₁) (grows : h₁.Extends h₂) :
    CopiesEntry right e p h₂ where
  paired := grows.hostSlices _ _ copies.paired
  key := copies.key.mono grows
  value v stored := (copies.value v stored).mono grows
  missing := copies.missing

theorem entry_yields {entries : Collection} (parts : CopiesParts h child fails o right)
    (payload : h.payload o = .map entries) {e : Value × Option Value} (mem : e ∈ entries.toList) :
    Yields h (do
      let key ← child e.1
      let value ← match e.2 with
        | some v => child v
        | none => pure .nil
      newHostSlice [key, value])
      (fun h' x => ∃ p : HostSliceId × HostValue × HostValue,
        x = .slice p.1 ∧ CopiesEntry right e p h') fails := by
  refine (parts e.1 (.key payload mem)).bind ?_
  intro h₁ key grows copied
  cases stored : e.2 with
  | none =>
      refine Yields.after (fun w _ => rfl) ((Yields.addSlice [key, .nil]).imp ?_)
      intro h₂ x grows₂ made
      obtain ⟨s, rfl, made⟩ := made
      refine ⟨(s, key, .nil), rfl, made, copied.mono grows₂, ?_, fun _ => rfl⟩
      intro v found
      cases stored.symm.trans found
  | some v =>
      refine ((parts v (.value payload mem stored)).mono grows).bind ?_
      intro h₂ value grows₂ copy
      refine (Yields.addSlice [key, value]).imp ?_
      intro h₃ x grows₃ made
      obtain ⟨s, rfl, made⟩ := made
      refine ⟨(s, key, value), rfl, made, copied.mono (grows₂.trans grows₃), ?_, ?_⟩
      · intro u found
        cases stored.symm.trans found
        exact copy.mono grows₃
      · intro missing
        cases stored.symm.trans missing

theorem map_yields (parts : CopiesParts h child fails o right) {entries : Collection}
    (payload : h.payload o = .map entries) :
    Yields h (entries.toList.mapM (fun e => do
        let key ← child e.1
        let value ← match e.2 with
          | some v => child v
          | none => pure .nil
        newHostSlice [key, value]) >>= newHostSlice) (CopiesWhole h right o) fails := by
  refine (Yields.mapM (fun h' e p => CopiesEntry right e p h') (fun p => .slice p.1)
    (fun grows copies => copies.mono grows) entries.toList
    fun e mem => entry_yields parts payload mem).bind ?_
  intro h₁ items grows copied
  obtain ⟨pairs, rfl, length, all⟩ := copied
  refine (Yields.addSlice _).imp ?_
  intro h₂ x grows₂ made
  obtain ⟨s, rfl, made⟩ := made
  have grows₀ := grows.trans grows₂
  refine ⟨.map ((grows₀.payload o).trans payload) made length ?_ ?_ ?_ ?_, ?_⟩
  · intro p mem
    obtain ⟨i, hi, rfl⟩ := List.getElem_of_mem mem
    have he : i < entries.toList.length := length ▸ hi
    exact grows₂.hostSlices _ _
      (all i _ _ (List.getElem?_eq_getElem he) (List.getElem?_eq_getElem hi)).paired
  · intro i e p he hp
    exact ((all i e p he hp).key.mono grows₂).1
  · intro i e p v he hp stored
    exact (((all i e p he hp).value v stored).mono grows₂).1
  · intro i e p he hp
    exact (all i e p he hp).missing
  · intro v part
    obtain ⟨e, mem, rfl | stored⟩ := (Heap.part_map_iff payload).mp part
    · obtain ⟨p, copies⟩ := exists_copy length all mem
      exact copies.key.2
    · obtain ⟨p, copies⟩ := exists_copy length all mem
      exact (copies.value v stored).2

/-- The copies of the enumerable ones among some own properties. -/
structure CopiesProperties (h : Heap) (right : Value → Prop) (o : ObjectId) (names : List Text)
    (h' : Heap) (entries : List (String × HostValue)) : Prop where
  order : (entries.map Prod.fst).Sublist (names.map Text.toString)
  shown : ∀ e ∈ entries, ∃ name v, h.Shows o name v ∧ name.toString = e.1
  copied : ∀ name ∈ names, ∀ v, h.Shows o name v →
    ∃ x, (name.toString, x) ∈ entries ∧ Copies right v h' x

section Listed

variable {names : List Text} {name : Text} {h₁ h₂ : Heap} {entries : List (String × HostValue)}

theorem CopiesProperties.mono (copies : CopiesProperties h right o names h₁ entries)
    (grows : h₁.Extends h₂) : CopiesProperties h right o names h₂ entries where
  order := copies.order
  shown := copies.shown
  copied n mem v shows := by
    obtain ⟨x, listed, copy⟩ := copies.copied n mem v shows
    exact ⟨x, listed, copy.mono grows⟩

/-- A property that is not shown is passed over. -/
theorem CopiesProperties.pass (copies : CopiesProperties h right o names h₁ entries)
    (hidden : ∀ v, ¬h.Shows o name v) : CopiesProperties h right o (name :: names) h₁ entries where
  order := copies.order.cons _
  shown := copies.shown
  copied n mem v shows := by
    rcases List.mem_cons.mp mem with rfl | mem
    · exact absurd shows (hidden v)
    · exact copies.copied n mem v shows

/-- A property that is shown is added. -/
theorem CopiesProperties.add (copies : CopiesProperties h right o names h₁ entries) {v : Value}
    (shown : h.Shows o name v) {x : HostValue} (copy : Copies right v h₁ x) :
    CopiesProperties h right o (name :: names) h₁ ((name.toString, x) :: entries) where
  order := copies.order.cons_cons _
  shown e mem := by
    rcases List.mem_cons.mp mem with rfl | mem
    · exact ⟨name, v, shown, rfl⟩
    · exact copies.shown e mem
  copied n mem u shows := by
    rcases List.mem_cons.mp mem with rfl | mem
    · cases shows.unique shown
      exact ⟨x, List.mem_cons_self, copy⟩
    · obtain ⟨y, listed, copy⟩ := copies.copied n mem u shows
      exact ⟨y, List.mem_cons_of_mem _ listed, copy⟩

end Listed

theorem properties_yield (settled : h.Settled) (patient : 0 < env.patience)
    (parts : CopiesParts h child fails o right) (payload : h.payload o = .plain)
    (names : List Text) :
    Yields h (exportProperties env child o names) (CopiesProperties h right o names) fails := by
  induction names with
  | nil =>
      refine .pure fun _ _ => ⟨.slnil, ?_, ?_⟩
      · intro e mem
        cases mem
      · intro name mem
        cases mem
  | cons name names ih =>
      rw [exportProperties]
      refine Yields.after (fun w grows => Exports.lift_apply
        (Heap.Settled.ownProperty_apply payload name w grows)) ?_
      have passed (hidden : ∀ v, ¬h.Shows o name v) :
          Yields h (exportProperties env child o names) (CopiesProperties h right o (name :: names))
            fails := ih.imp fun _ _ _ copies => copies.pass hidden
      cases own : (h.object o).properties.get? name with
      | none =>
          refine passed fun v shown => ?_
          obtain ⟨a, found, -⟩ := shown
          cases own.symm.trans found
      | some slot =>
          cases slot with
          | accessor getter setter a => cases (settled o).stored name _ own
          | data v a =>
              dsimp only
              by_cases enumerable : (Slot.data v a).attributes.enumerable = true
              · rw [if_pos enumerable]
                have shown : h.Shows o name v := ⟨a, own, enumerable⟩
                refine Yields.after (fun w grows => Exports.lift_apply
                  (Heap.Settled.getOrUndefined_apply patient payload own w grows)) ?_
                refine (parts v (.property payload shown)).bind fun h₁ x grows₁ copy => ?_
                refine (ih.mono grows₁).bind fun h₂ entries grows₂ rest => ?_
                refine .pure fun h₃ grows₃ => ?_
                exact (rest.mono grows₃).add shown (copy.mono (grows₂.trans grows₃))
              · rw [if_neg enumerable]
                refine passed fun u shown => ?_
                obtain ⟨b, found, shownAs⟩ := shown
                cases own.symm.trans found
                exact enumerable shownAs

/-- The listed names, as texts, are all different. -/
theorem texts_differ (sound : (h.object o).properties.Sound) (named : h.WellNamed o) :
    ((h.object o).properties.names.toList.map Text.toString).Pairwise (· ≠ ·) := by
  rw [List.pairwise_map]
  have listed (n : Text) (mem : n ∈ (h.object o).properties.names.toList) :
      Utf16.isWellFormed n.units = true := named n ((sound.listed n).mpr ⟨n, mem, rfl⟩)
  refine sound.once.imp_of_mem fun {a b} ha hb different same => ?_
  exact different (Text.units_eq_of_toString_eq (listed a ha) (listed b hb) same)

/-- Every shown property is listed, though perhaps in another form of its name. -/
theorem exists_listed (sound : (h.object o).properties.Sound) {name : Text} {v : Value}
    (shown : h.Shows o name v) : ∃ n ∈ (h.object o).properties.names.toList,
      n.toString = name.toString ∧ h.Shows o n v := by
  obtain ⟨a, found, enumerable⟩ := shown
  obtain ⟨n, mem, same⟩ := (sound.listed name).mp (by rw [found]; rfl)
  refine ⟨n, mem, ?_, a, ?_, enumerable⟩
  · rw [Text.toString_eq, Text.toString_eq, same]
  · rw [PropertyTable.get?_congr _ same, found]

theorem plain_yields (settled : h.Settled) (patient : 0 < env.patience)
    (parts : CopiesParts h child fails o right) (payload : h.payload o = .plain) :
    Yields h (exportProperties env child o (h.object o).properties.names.toList >>= newHostMap)
      (CopiesWhole h right o) fails := by
  have sound := (settled o).sound
  refine (properties_yield settled patient parts payload _).bind ?_
  intro h₁ entries grows copied
  refine (Yields.addMap entries).imp ?_
  intro h₂ x grows₂ made
  obtain ⟨m, rfl, made⟩ := made
  refine ⟨.plain (((grows.trans grows₂).payload o).trans payload) made ?_ ?_, ?_⟩
  · intro named key
    rw [Std.TreeMap.mem_ofList, List.contains_iff_mem, List.mem_map]
    simp only [(grows.trans grows₂).shows]
    constructor
    · intro found
      obtain ⟨e, mem, rfl⟩ := found
      exact copied.shown e mem
    · intro found
      obtain ⟨name, v, shown, rfl⟩ := found
      obtain ⟨n, mem, same, shown⟩ := exists_listed sound shown
      obtain ⟨x, present, -⟩ := copied.copied n mem v shown
      exact ⟨_, present, same⟩
  · intro named name v x shown found
    rw [(grows.trans grows₂).wellNamed] at named
    rw [(grows.trans grows₂).shows] at shown
    obtain ⟨n, mem, same, shown⟩ := exists_listed sound shown
    obtain ⟨y, present, copies⟩ := copied.copied n mem v shown
    have different : entries.Pairwise fun a b => ¬compare a.1 b.1 = .eq := by
      have texts := (texts_differ sound named).sublist copied.order
      rw [List.pairwise_map] at texts
      refine texts.imp fun different same => ?_
      exact different (Std.LawfulEqCmp.eq_of_compare same)
    have own : (Std.TreeMap.ofList entries)[name.toString]? = some y :=
      Std.TreeMap.getElem?_ofList_of_mem (Std.LawfulEqCmp.compare_eq_iff_eq.mpr same) different
        present
    cases own.symm.trans found
    exact (copies.mono grows₂).1
  · intro v part
    obtain ⟨name, shown⟩ := (Heap.part_plain_iff payload).mp part
    obtain ⟨n, mem, -, shown⟩ := exists_listed sound shown
    obtain ⟨x, -, copies⟩ := copied.copied n mem v shown
    exact copies.2

theorem function_yields {f : Function} (payload : h.payload o = .function f) :
    Yields h (do return .function (← Exec.onHeap (·.addHostFunction (.exported o))) :
      Exports σ HostValue) (CopiesWhole h right o) fails := by
  intro w grows
  have grows' := Heap.Extends.addHostFunction w.heap (.exported o)
  refine ⟨_, grows', .inl ⟨_, rfl, .function (((grows.trans grows').payload o).trans payload) ?_, ?_⟩⟩
  · simp [Heap.addHostFunction]
  · intro v part
    exact absurd part (Heap.not_part_function payload)

/-- An object is copied by its shape, if its parts are. -/
theorem exportObject_yields (settled : h.Settled) (patient : 0 < env.patience)
    (own : ¬h.IsHostBacked o) (parts : CopiesParts h child fails o right) :
    Yields h (exportObject env child o) (CopiesWhole h right o) fails := by
  rw [exportObject]
  refine Yields.after (fun w grows => Exports.lift_apply (settled.materialize_apply o w grows)) ?_
  refine Yields.after (a := h.payload o) (fun w grows => congrArg some (by rw [← grows.payload])) ?_
  cases payload : h.payload o with
  | array elements => exact array_yields parts payload
  | map entries => exact map_yields parts payload
  | set entries => exact set_yields parts payload
  | function f => exact function_yields payload
  | boxed v =>
      refine (parts v (.boxed payload)).imp ?_
      intro h' x grows copy
      refine ⟨.boxed ((grows.payload o).trans payload) copy.1, ?_⟩
      intro u part
      exact (Heap.part_boxed_iff payload).mp part ▸ copy.2
  | date t =>
      refine .pure fun h' grows => ⟨.date ((grows.payload o).trans payload), ?_⟩
      intro v part
      exact absurd part (Heap.not_part_date payload)
  | proxy target handler =>
      cases target with
      | none =>
          refine .pure fun h' grows => ⟨.revoked ((grows.payload o).trans payload), ?_⟩
          intro v part
          obtain ⟨t, found, -⟩ := (Heap.part_proxy_iff payload).mp part
          cases found
      | some t =>
          refine (parts (.object t) (.target payload)).imp ?_
          intro h' x grows copy
          refine ⟨.proxy ((grows.payload o).trans payload) copy.1, ?_⟩
          intro v part
          obtain ⟨t', same, rfl⟩ := (Heap.part_proxy_iff payload).mp part
          cases same
          exact copy.2
  | plain =>
      refine Yields.after (fun w grows => Exports.lift_apply
        (settled.ownPropertyNames_apply payload w grows)) ?_
      exact plain_yields settled patient parts payload
  | lazy initializer =>
      have made := (settled o).made
      rw [Object.isInitialized, show (h.object o).payload = _ from payload] at made
      cases made
  | hostMap m prototypes | hostSlice s prototypes | hostData v =>
      rw [Heap.IsHostBacked, payload] at own
      exact absurd rfl own

end Objects

end ScriptCore
