import Mathlib.Logic.Relation
import ScriptCore.Host.Wrap
import ScriptCore.Proofs.Property.Table

/-!
# ScriptCore.Proofs.Host.ExportGraph

The **graph that an export follows** and the copy that it should make of it.

Design points:

* The parts of an object are said of its payload alone (`Heap.Part`); paths, reachability and cycles
  are built from them.
* A copy mirrors a value by the shape of each object (`Heap.Mirrors`). Copies are data of the host,
  which an export only adds to (`Heap.Extends`), so a copy that has been made stays one.
-/

namespace ScriptCore

namespace Heap

variable {h h' : Heap}

/-! ### Parts, paths and cycles -/

/-- An enumerable own property with a stored value. -/
def Shows (h : Heap) (o : ObjectId) (name : Text) (v : Value) : Prop :=
  ∃ a, (h.object o).properties.get? name = some (.data v a) ∧ a.enumerable = true

theorem Shows.unique {o : ObjectId} {name : Text} {u v : Value} (first : h.Shows o name u)
    (second : h.Shows o name v) : u = v := by
  obtain ⟨a, found, -⟩ := first
  obtain ⟨b, found', -⟩ := second
  cases found.symm.trans found'
  rfl

/-- All surrogates in the names of the own properties are paired. -/
def WellNamed (h : Heap) (o : ObjectId) : Prop :=
  ∀ name, ((h.object o).properties.get? name).isSome = true → Utf16.isWellFormed name.units = true

/-- The object shares data of the host. -/
def IsHostBacked (h : Heap) (o : ObjectId) : Prop := (h.payload o).toClass = .hostBacked

/-- What an export of an object goes on to. -/
inductive Part (h : Heap) (o : ObjectId) : Value → Prop where
  | element {elements : Array Value} {v : Value} (payload : h.payload o = .array elements)
      (mem : v ∈ elements.toList) : Part h o v
  | key {entries : Collection} {e : Value × Option Value} (payload : h.payload o = .map entries)
      (mem : e ∈ entries.toList) : Part h o e.1
  | value {entries : Collection} {e : Value × Option Value} {v : Value}
      (payload : h.payload o = .map entries) (mem : e ∈ entries.toList) (stored : e.2 = some v) :
      Part h o v
  | member {entries : Collection} {e : Value × Option Value} (payload : h.payload o = .set entries)
      (mem : e ∈ entries.toList) : Part h o e.1
  | boxed {v : Value} (payload : h.payload o = .boxed v) : Part h o v
  | target {t : ObjectId} {handler : Option ObjectId}
      (payload : h.payload o = .proxy (some t) handler) : Part h o (.object t)
  | property {name : Text} {v : Value} (payload : h.payload o = .plain)
      (shown : h.Shows o name v) : Part h o v

section Parts

variable {o : ObjectId} {v : Value}

theorem part_array_iff {elements : Array Value} (payload : h.payload o = .array elements) :
    h.Part o v ↔ v ∈ elements.toList := by
  refine ⟨fun part => ?_, .element payload⟩
  cases part <;> simp_all

theorem part_map_iff {entries : Collection} (payload : h.payload o = .map entries) :
    h.Part o v ↔ ∃ e ∈ entries.toList, v = e.1 ∨ e.2 = some v := by
  constructor
  · intro part
    cases part with
    | key payload' mem =>
        cases payload.symm.trans payload'
        exact ⟨_, mem, .inl rfl⟩
    | value payload' mem stored =>
        cases payload.symm.trans payload'
        exact ⟨_, mem, .inr stored⟩
    | _ => simp_all
  · intro found
    obtain ⟨e, mem, rfl | stored⟩ := found
    · exact .key payload mem
    · exact .value payload mem stored

theorem part_set_iff {entries : Collection} (payload : h.payload o = .set entries) :
    h.Part o v ↔ ∃ e ∈ entries.toList, v = e.1 := by
  constructor
  · intro part
    cases part with
    | member payload' mem =>
        cases payload.symm.trans payload'
        exact ⟨_, mem, rfl⟩
    | _ => simp_all
  · intro found
    obtain ⟨e, mem, rfl⟩ := found
    exact .member payload mem

theorem part_boxed_iff {u : Value} (payload : h.payload o = .boxed u) : h.Part o v ↔ v = u := by
  constructor
  · intro part
    cases part <;> simp_all
  · intro same
    exact same ▸ .boxed payload

theorem part_proxy_iff {target handler : Option ObjectId}
    (payload : h.payload o = .proxy target handler) :
    h.Part o v ↔ ∃ t, target = some t ∧ v = .object t := by
  constructor
  · intro part
    cases part <;> simp_all
  · intro found
    obtain ⟨t, rfl, rfl⟩ := found
    exact .target payload

theorem part_plain_iff (payload : h.payload o = .plain) :
    h.Part o v ↔ ∃ name, h.Shows o name v := by
  constructor
  · intro part
    cases part with
    | property payload' shown => exact ⟨_, shown⟩
    | _ => simp_all
  · intro found
    obtain ⟨name, shown⟩ := found
    exact .property payload shown

theorem not_part_date {t : Binary64} (payload : h.payload o = .date t) : ¬h.Part o v := by
  intro part
  cases part <;> simp_all

theorem not_part_function {f : Function} (payload : h.payload o = .function f) : ¬h.Part o v := by
  intro part
  cases part <;> simp_all

theorem Part.not_isHostBacked (part : h.Part o v) : ¬h.IsHostBacked o := by
  intro backed
  rw [IsHostBacked] at backed
  cases part <;> simp_all [Payload.toClass]

end Parts

/-- The objects that an export path passes through, data of the host apart. A path may stop
anywhere. -/
inductive ExportPath (h : Heap) : Value → List ObjectId → Prop where
  | here (v : Value) : ExportPath h v []
  | last {o : ObjectId} (own : ¬h.IsHostBacked o) : ExportPath h (.object o) [o]
  | through {o : ObjectId} {v : Value} {os : List ObjectId} (part : h.Part o v)
      (rest : ExportPath h v os) : ExportPath h (.object o) (o :: os)

/-- The export of one object goes on to another one. -/
def GoesOn (h : Heap) (o p : ObjectId) : Prop := h.Part o (.object p)

/-- An export path leads from a value to an object. -/
def LeadsTo (h : Heap) (v : Value) (o : ObjectId) : Prop :=
  ∃ p, v = .object p ∧ Relation.ReflTransGen h.GoesOn p o

/-- An export path leads from an object back to itself. -/
def OnCycle (h : Heap) (o : ObjectId) : Prop := Relation.TransGen h.GoesOn o o

theorem LeadsTo.of_part {o p : ObjectId} {v : Value} (part : h.Part o v) (rest : h.LeadsTo v p) :
    h.LeadsTo (.object o) p := by
  obtain ⟨q, rfl, path⟩ := rest
  exact ⟨o, rfl, path.head part⟩

/-- Whoever is on a cycle goes on to someone on a cycle. -/
theorem OnCycle.goesOn {o : ObjectId} (cycle : h.OnCycle o) : ∃ p, h.GoesOn o p ∧ h.OnCycle p := by
  obtain ⟨p, first, rest⟩ := Relation.TransGen.head'_iff.mp cycle
  exact ⟨p, first, Relation.TransGen.tail' rest first⟩

/-- Along a cycle there are paths of every length. -/
theorem OnCycle.exists_path {o : ObjectId} (cycle : h.OnCycle o) (n : Nat) :
    ∃ os, h.ExportPath (.object o) os ∧ os.length = n := by
  induction n generalizing o with
  | zero => exact ⟨[], .here _, rfl⟩
  | succ n ih =>
      obtain ⟨p, part, onward⟩ := cycle.goesOn
      obtain ⟨os, path, length⟩ := ih onward
      exact ⟨o :: os, .through part path, congrArg (· + 1) length⟩

/-- Whoever leads to a cycle has paths longer than any bound. -/
theorem LeadsTo.exists_path {v : Value} {o : ObjectId} (leads : h.LeadsTo v o)
    (cycle : h.OnCycle o) (n : Nat) : ∃ os, h.ExportPath v os ∧ n < os.length := by
  obtain ⟨p, rfl, lead⟩ := leads
  induction lead using Relation.ReflTransGen.head_induction_on with
  | refl =>
      obtain ⟨os, path, length⟩ := cycle.exists_path (n + 1)
      exact ⟨os, path, by omega⟩
  | head part _ ih =>
      obtain ⟨os, path, longer⟩ := ih
      exact ⟨_, .through part path, Nat.lt_succ_of_lt longer⟩

/-! ### Adding data of the host -/

/-- Nothing has changed but for new data of the host. -/
structure Extends (h h' : Heap) : Prop where
  rest : h' = { h with
    hostMaps := h'.hostMaps, hostSlices := h'.hostSlices, hostFunctions := h'.hostFunctions }
  hostMaps : ∀ (i : Nat) (m : HostMap), h.hostMaps[i]? = some m → h'.hostMaps[i]? = some m
  hostSlices : ∀ (i : Nat) (s : Array HostValue),
    h.hostSlices[i]? = some s → h'.hostSlices[i]? = some s
  hostFunctions : ∀ (i : Nat) (f : HostFunction),
    h.hostFunctions[i]? = some f → h'.hostFunctions[i]? = some f

namespace Extends

theorem refl (h : Heap) : h.Extends h where
  rest := rfl
  hostMaps _ _ found := found
  hostSlices _ _ found := found
  hostFunctions _ _ found := found

theorem trans {h₁ h₂ : Heap} (first : h.Extends h₁) (second : h₁.Extends h₂) : h.Extends h₂ where
  rest := by
    have same := second.rest
    rw [first.rest] at same
    exact same
  hostMaps i m found := second.hostMaps i m (first.hostMaps i m found)
  hostSlices i s found := second.hostSlices i s (first.hostSlices i s found)
  hostFunctions i f found := second.hostFunctions i f (first.hostFunctions i f found)

theorem object (grows : h.Extends h') (o : ObjectId) : h'.object o = h.object o := by
  rw [grows.rest]
  rfl

theorem payload (grows : h.Extends h') (o : ObjectId) : h'.payload o = h.payload o :=
  congrArg Object.payload (grows.object o)

theorem getElem?_push {α : Type} {row : Array α} {x : α} {i : Nat} {y : α}
    (found : row[i]? = some y) : (row.push x)[i]? = some y := by
  obtain ⟨place, -⟩ := Array.getElem?_eq_some_iff.mp found
  rw [Array.getElem?_push_lt place, ← found, Array.getElem?_eq_getElem place]

theorem addHostMap (h : Heap) (m : HostMap) : h.Extends (h.addHostMap m).2 where
  rest := rfl
  hostMaps _ _ found := getElem?_push found
  hostSlices _ _ found := found
  hostFunctions _ _ found := found

theorem addHostSlice (h : Heap) (s : Array HostValue) : h.Extends (h.addHostSlice s).2 where
  rest := rfl
  hostMaps _ _ found := found
  hostSlices _ _ found := getElem?_push found
  hostFunctions _ _ found := found

theorem addHostFunction (h : Heap) (f : HostFunction) : h.Extends (h.addHostFunction f).2 where
  rest := rfl
  hostMaps _ _ found := found
  hostSlices _ _ found := found
  hostFunctions _ _ found := getElem?_push found

theorem unwrap (grows : h.Extends h') (v : Value) : h'.unwrap v = h.unwrap v := by
  simp only [Heap.unwrap, grows.payload]

theorem isHostBacked (grows : h.Extends h') (o : ObjectId) :
    h'.IsHostBacked o ↔ h.IsHostBacked o := by
  rw [IsHostBacked, IsHostBacked, grows.payload]

theorem wellNamed (grows : h.Extends h') (o : ObjectId) : h'.WellNamed o ↔ h.WellNamed o := by
  rw [WellNamed, WellNamed, grows.object]

theorem shows (grows : h.Extends h') (o : ObjectId) (name : Text) (v : Value) :
    h'.Shows o name v ↔ h.Shows o name v := by
  rw [Shows, Shows, grows.object]

end Extends

/-! ### Copies -/

/-- A value of the host is the copy of a value. -/
inductive Mirrors (h : Heap) : Value → HostValue → Prop where
  | primitive {v : Value} (noObject : ∀ o, v ≠ .object o) : Mirrors h v (h.unwrap v)
  | hostBacked {o : ObjectId} (backed : h.IsHostBacked o) :
      Mirrors h (.object o) (h.unwrap (.object o))
  | array {o : ObjectId} {elements : Array Value} {s : HostSliceId} {items : List HostValue}
      (payload : h.payload o = .array elements)
      (made : h.hostSlices[s.index]? = some items.toArray)
      (length : items.length = elements.toList.length)
      (copies : ∀ (i : Nat) (v : Value) (x : HostValue),
        elements.toList[i]? = some v → items[i]? = some x → Mirrors h v x) :
      Mirrors h (.object o) (.slice s)
  | map {o : ObjectId} {entries : Collection} {s : HostSliceId}
      {pairs : List (HostSliceId × HostValue × HostValue)} (payload : h.payload o = .map entries)
      (made : h.hostSlices[s.index]? = some (pairs.map fun p => .slice p.1).toArray)
      (length : pairs.length = entries.toList.length)
      (paired : ∀ p ∈ pairs, h.hostSlices[p.1.index]? = some #[p.2.1, p.2.2])
      (keys : ∀ (i : Nat) (e : Value × Option Value) (p : HostSliceId × HostValue × HostValue),
        entries.toList[i]? = some e → pairs[i]? = some p → Mirrors h e.1 p.2.1)
      (values : ∀ (i : Nat) (e : Value × Option Value) (p : HostSliceId × HostValue × HostValue)
        (v : Value), entries.toList[i]? = some e → pairs[i]? = some p → e.2 = some v →
          Mirrors h v p.2.2)
      (missing : ∀ (i : Nat) (e : Value × Option Value) (p : HostSliceId × HostValue × HostValue),
        entries.toList[i]? = some e → pairs[i]? = some p → e.2 = none → p.2.2 = .nil) :
      Mirrors h (.object o) (.slice s)
  | set {o : ObjectId} {entries : Collection} {s : HostSliceId} {items : List HostValue}
      (payload : h.payload o = .set entries)
      (made : h.hostSlices[s.index]? = some items.toArray)
      (length : items.length = entries.toList.length)
      (copies : ∀ (i : Nat) (e : Value × Option Value) (x : HostValue),
        entries.toList[i]? = some e → items[i]? = some x → Mirrors h e.1 x) :
      Mirrors h (.object o) (.slice s)
  | boxed {o : ObjectId} {v : Value} {x : HostValue} (payload : h.payload o = .boxed v)
      (copy : Mirrors h v x) : Mirrors h (.object o) x
  | proxy {o t : ObjectId} {handler : Option ObjectId} {x : HostValue}
      (payload : h.payload o = .proxy (some t) handler) (copy : Mirrors h (.object t) x) :
      Mirrors h (.object o) x
  | revoked {o : ObjectId} {handler : Option ObjectId}
      (payload : h.payload o = .proxy none handler) : Mirrors h (.object o) .nil
  | date {o : ObjectId} {t : Binary64} (payload : h.payload o = .date t) :
      Mirrors h (.object o) (.float t)
  | function {o : ObjectId} {f : Function} {g : HostFunctionId}
      (payload : h.payload o = .function f)
      (made : h.hostFunctions[g.index]? = some (.exported o)) : Mirrors h (.object o) (.function g)
  | plain {o : ObjectId} {m : HostMapId} {table : HostMap} (payload : h.payload o = .plain)
      (made : h.hostMaps[m.index]? = some table)
      (keys : h.WellNamed o →
        ∀ key : String, key ∈ table ↔ ∃ name v, h.Shows o name v ∧ name.toString = key)
      (copies : h.WellNamed o →
        ∀ (name : Text) (v : Value) (x : HostValue),
          h.Shows o name v → table[name.toString]? = some x → Mirrors h v x) :
      Mirrors h (.object o) (.map m)

/-- Primitives, and data of the host, are handed over. -/
theorem Mirrors.of_leaf {v : Value} (leaf : ∀ o, v = .object o → h.IsHostBacked o) :
    h.Mirrors v (h.unwrap v) := by
  cases v with
  | object o => exact .hostBacked (leaf o rfl)
  | _ => exact .primitive (by simp)

/-- What has been copied stays a copy while host data is added. -/
theorem Mirrors.mono {v : Value} {x : HostValue} (mirrors : h.Mirrors v x) (grows : h.Extends h') :
    h'.Mirrors v x := by
  induction mirrors with
  | primitive noObject => exact grows.unwrap _ ▸ .primitive noObject
  | hostBacked backed => exact grows.unwrap _ ▸ .hostBacked ((grows.isHostBacked _).mpr backed)
  | array payload made length copies ih =>
      exact .array ((grows.payload _).trans payload) (grows.hostSlices _ _ made) length ih
  | map payload made length paired keys values missing ihKeys ihValues =>
      exact .map ((grows.payload _).trans payload) (grows.hostSlices _ _ made) length
        (fun p hp => grows.hostSlices _ _ (paired p hp)) ihKeys ihValues missing
  | set payload made length copies ih =>
      exact .set ((grows.payload _).trans payload) (grows.hostSlices _ _ made) length ih
  | boxed payload copy ih => exact .boxed ((grows.payload _).trans payload) ih
  | proxy payload copy ih => exact .proxy ((grows.payload _).trans payload) ih
  | revoked payload => exact .revoked ((grows.payload _).trans payload)
  | date payload => exact .date ((grows.payload _).trans payload)
  | function payload made =>
      exact .function ((grows.payload _).trans payload) (grows.hostFunctions _ _ made)
  | @plain o m table payload made keys copies ih =>
      refine .plain ((grows.payload o).trans payload) (grows.hostMaps _ _ made) ?_ ?_
      · intro named key
        simp only [grows.shows]
        exact keys ((grows.wellNamed o).mp named) key
      · intro named name v x shown found
        exact ih ((grows.wellNamed o).mp named) name v x ((grows.shows o name v).mp shown) found

end Heap

end ScriptCore
