import ScriptCore.Proofs.Text.Forms
import ScriptCore.Scope.Basic

/-!
# ScriptCore.Proofs.Scope.Frames

The bindings **of one frame**, read as names with values beside them.

A frame whose names are distinct declares at most one value for a name, so that a search for the first
place of a name finds the only one.
-/

namespace ScriptCore

namespace Frame

/-- The declared names. -/
def names (f : Frame) : Array Text := f.bindings.map (·.1)

/-- The values of the declared names. -/
def values (f : Frame) : Array Value := f.bindings.map (·.2)

/-- No name is declared twice. -/
def Distinct (f : Frame) : Prop :=
  ∀ ⦃i j : Nat⦄ ⦃a b : Text⦄, f.names[i]? = some a → f.names[j]? = some b → (a == b) = true → i = j

/-- A name is declared, and a value is in its place. -/
def Declares (f : Frame) (name : Text) (v : Value) : Prop :=
  ∃ (i : Nat) (a : Text), f.names[i]? = some a ∧ (a == name) = true ∧ f.values[i]? = some v

variable {f : Frame} {name key : Text} {i : Nat} {u v : Value}

/-- Names and values are parallel. -/
theorem size_names (f : Frame) : f.names.size = f.values.size := by
  rw [names, values, Array.size_map, Array.size_map]

theorem lt_size_of_name {a : Text} (at_i : f.names[i]? = some a) : i < f.values.size := by
  rw [← f.size_names]
  exact (Array.getElem?_eq_some_iff.mp at_i).1

theorem name?_eq (f : Frame) (i : Nat) : f.names[i]? = f.bindings[i]?.map (·.1) := by
  rw [names, Array.getElem?_map]

theorem value?_eq (f : Frame) (i : Nat) : f.values[i]? = f.bindings[i]?.map (·.2) := by
  rw [values, Array.getElem?_map]

/-! ### Places -/

theorem place?_eq_none : f.place? name = none ↔
    ∀ (i : Nat) a, f.names[i]? = some a → (a == name) = false := by
  rw [place?, Array.findIdx?_eq_none_iff]
  constructor
  · intro none i a at_i
    obtain ⟨b, hb, rfl⟩ := Option.map_eq_some_iff.mp (f.name?_eq i ▸ at_i)
    simpa using none b (Array.mem_of_getElem? hb)
  · intro none b hb
    obtain ⟨i, hi⟩ := Array.mem_iff_getElem?.mp hb
    simpa using none i b.1 (by rw [f.name?_eq, hi]; rfl)

theorem place?_eq_some (found : f.place? name = some i) :
    ∃ a, f.names[i]? = some a ∧ (a == name) = true := by
  obtain ⟨hlt, same, -⟩ := Array.findIdx?_eq_some_iff_getElem.mp found
  exact ⟨f.bindings[i].1, by rw [f.name?_eq, Array.getElem?_eq_getElem hlt]; rfl, same⟩

theorem Distinct.place? (hf : f.Distinct) {a : Text} (at_i : f.names[i]? = some a)
    (same : (a == name) = true) : f.place? name = some i := by
  cases found : f.place? name with
  | none => rw [place?_eq_none.mp found i a at_i] at same; cases same
  | some j =>
      obtain ⟨b, at_j, same'⟩ := place?_eq_some found
      rw [hf at_j at_i (BEq.trans same' (BEq.symm same))]

/-- The value of a name is the one that is declared for it. -/
theorem Distinct.value?_eq_some (hf : f.Distinct) :
    f.value? name = some v ↔ f.Declares name v := by
  constructor
  · intro found
    obtain ⟨i, hi, hv⟩ := Option.bind_eq_some_iff.mp found
    obtain ⟨a, at_i, same⟩ := place?_eq_some hi
    exact ⟨i, a, at_i, same, by rw [f.value?_eq]; exact hv⟩
  · rintro ⟨i, a, at_i, same, hv⟩
    rw [value?, hf.place? at_i same, Option.bind_some, ← f.value?_eq, hv]

theorem place?_eq_none_iff : f.place? name = none ↔ ∀ v, ¬f.Declares name v := by
  rw [place?_eq_none]
  constructor
  · rintro none v ⟨i, a, at_i, same, -⟩
    rw [none i a at_i] at same
    cases same
  · intro undeclared i a at_i
    by_contra same
    have hlt := lt_size_of_name at_i
    exact undeclared _ ⟨i, a, at_i, by simpa using same, Array.getElem?_eq_getElem hlt⟩

theorem value?_eq_none (undeclared : ∀ v, ¬f.Declares name v) : f.value? name = none := by
  rw [value?, place?_eq_none_iff.mpr undeclared, Option.bind_none]

/-! ### Changed values -/

theorem names_assign (f : Frame) (i : Nat) (v : Value) : (f.assign i v).names = f.names := by
  refine Array.ext_getElem? fun j => ?_
  rw [name?_eq, name?_eq, assign, Array.getElem?_modify]
  split
  · rw [Option.map_map]
    rfl
  · rfl

theorem values_assign (f : Frame) (i j : Nat) (v : Value) :
    (f.assign i v).values[j]? = if i = j then f.values[j]?.map fun _ => v else f.values[j]? := by
  rw [value?_eq, value?_eq, assign, Array.getElem?_modify]
  split
  · rw [Option.map_map, Option.map_map]
    rfl
  · rfl

/-- The frames declare the same names, with the same values but for one name. -/
structure SameBut (f f' : Frame) (name : Text) : Prop where
  names : f'.names = f.names
  declares : ∀ key v, (key == name) = false → (f'.Declares key v ↔ f.Declares key v)
  object : f'.object = f.object
  outer : f'.outer = f.outer

theorem declares_assign (found : f.place? name = some i) (v : Value) :
    (f.assign i v).Declares name v := by
  obtain ⟨a, at_i, same⟩ := place?_eq_some found
  refine ⟨i, a, by rw [names_assign]; exact at_i, same, ?_⟩
  rw [values_assign, if_pos rfl, Array.getElem?_eq_getElem (lt_size_of_name at_i)]
  rfl

theorem sameBut_assign (found : f.place? name = some i) (v : Value) :
    f.SameBut (f.assign i v) name where
  names := f.names_assign i v
  declares key u other := by
    obtain ⟨a, at_i, same⟩ := place?_eq_some found
    unfold Declares
    rw [names_assign]
    refine exists₂_congr fun j b => and_congr_right fun at_j => and_congr_right fun same' => ?_
    rw [values_assign, if_neg]
    rintro rfl
    rw [at_i] at at_j
    cases at_j
    rw [BEq.trans (BEq.symm same') same] at other
    cases other
  object := rfl
  outer := rfl

theorem Distinct.of_names {f' : Frame} (hf : f.Distinct) (same : f'.names = f.names) :
    f'.Distinct := by
  unfold Distinct
  rw [same]
  exact hf

/-! ### Declarations -/

theorem distinct_empty (empty : f.bindings = #[]) : f.Distinct := by
  intro i j a b at_i
  rw [names, empty] at at_i
  simp at at_i

/-- A new name is declared only if it is not there. -/
theorem Distinct.declare (hf : f.Distinct) (name : Text) (v : Value) :
    (f.declare name v).2.Distinct := by
  rw [Frame.declare]
  cases found : f.place? name with
  | some i => exact hf.of_names (f.names_assign i v)
  | none =>
      have new := place?_eq_none.mp found
      intro i j a b at_i at_j same
      simp only [names, Array.map_push, Array.getElem?_push] at at_i at_j
      split at at_i <;> split at at_j
      · omega
      · cases at_i
        rw [BEq.symm_false (new j b at_j)] at same
        cases same
      · cases at_j
        rw [new i a at_i] at same
        cases same
      · exact hf at_i at_j same

theorem declare_object (f : Frame) (name : Text) (v : Value) :
    (f.declare name v).2.object = f.object := by
  rw [Frame.declare]
  split <;> rfl

theorem declare_outer (f : Frame) (name : Text) (v : Value) :
    (f.declare name v).2.outer = f.outer := by
  rw [Frame.declare]
  split <;> rfl

end Frame

namespace Heap

variable {h : Heap} {f g : FrameId}

theorem frame_updateFrame_self (live : f.index < h.frames.size) (change : Frame → Frame) :
    (h.updateFrame f change).frame f = change (h.frame f) := by
  simp [frame, updateFrame, Array.getElem_modify, live]

theorem frame_updateFrame_of_ne (hne : g ≠ f) (change : Frame → Frame) :
    (h.updateFrame f change).frame g = h.frame g := by
  have hindex : f.index ≠ g.index := by
    intro heq
    cases f
    cases g
    exact hne (by rw [FrameId.mk.injEq]; exact heq.symm)
  simp [frame, updateFrame, Array.getElem?_modify, hindex]

/-- A frame changes in its own way or not at all. -/
theorem frame_updateFrame_cases (change : Frame → Frame) :
    (h.updateFrame f change).frame g = h.frame g ∨
      g = f ∧ (h.updateFrame f change).frame g = change (h.frame g) := by
  by_cases heq : g = f
  · cases heq
    rcases Nat.lt_or_ge f.index h.frames.size with live | gone
    · exact .inr ⟨rfl, frame_updateFrame_self live change⟩
    · exact .inl (by simp [frame, updateFrame, gone])
  · exact .inl (frame_updateFrame_of_ne heq change)

/-- Only frames that were given out declare names. -/
theorem lt_size_of_place {name : Text} {i : Nat} (found : (h.frame f).place? name = some i) :
    f.index < h.frames.size := by
  by_contra hle
  rw [frame, Array.getElem?_eq_none (Nat.le_of_not_lt hle), Option.getD_none, Frame.place?,
    show (default : Frame).bindings = #[] from rfl, Array.findIdx?_empty] at found
  cases found

theorem outer?_eq_some (outer : (h.frame f).outer = some g) (older : g.index < f.index) :
    h.outer? f = some ⟨g, older⟩ := by
  rw [outer?, outer]
  exact dif_pos older

theorem outer?_eq_none (last : (h.frame f).outer = none) : h.outer? f = none := by
  rw [outer?, last]

end Heap

end ScriptCore
