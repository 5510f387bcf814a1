import ScriptCore.Host.Export
import ScriptCore.Proofs.Host.ExportGraph

/-!
# ScriptCore.Proofs.Host.ExportRun

What a **run of an export** comes to, by one rule per way of building a run.

What is said of a run is said of every heap that extends the one it is about (`Yields`), so each
branch of a graph is judged alone, whatever its siblings have added before.
-/

namespace ScriptCore

variable {σ α β γ : Type}

/-- From a heap on, whatever data of the host has been added to it, a run ends. It only adds more,
and either gives what is right in the heap afterwards or fails for a good reason. -/
def Yields (h : Heap) (run : Exports σ α) (ok : Heap → α → Prop) (fails : ExportError → Prop) :
    Prop :=
  ∀ w : World σ, h.Extends w.heap → ∃ h', w.heap.Extends h' ∧
    ((∃ a, run w = some (.ok a, { w with heap := h' }) ∧ ok h' a) ∨
      ∃ e, run w = some (.error e, { w with heap := h' }) ∧ fails e)

namespace Exports

variable {w w' : World σ}

theorem bind_of_ok {x : Exports σ α} {a : α} (run : x w = some (.ok a, w'))
    (f : α → Exports σ β) : (x >>= f) w = f a w' := by
  show (x w).bind _ = _
  rw [run]
  rfl

theorem bind_of_error {x : Exports σ α} {e : ExportError} (run : x w = some (.error e, w'))
    (f : α → Exports σ β) : (x >>= f) w = some (.error e, w') := by
  show (x w).bind _ = _
  rw [run]
  rfl

theorem asks_apply (f : Heap → α) (w : World σ) :
    (Exec.asks f : Exports σ α) w = some (.ok (f w.heap), w) := rfl

/-- A step that cannot fail gives a result. -/
theorem lift_apply {x : Exec σ α} {a : α} (run : x w = some (a, w')) :
    (liftM x : Exports σ α) w = some (.ok a, w') := by
  show (x w).bind _ = _
  rw [run]
  rfl

end Exports

namespace Yields

variable {h h' : Heap} {ok mid : Heap → α → Prop} {ok' : Heap → β → Prop}
  {fails fails' : ExportError → Prop}

/-! ### Rules -/

theorem pure {a : α} (right : ∀ h', h.Extends h' → ok h' a) :
    Yields h (Pure.pure a : Exports σ α) ok fails := by
  intro w grows
  exact ⟨w.heap, .refl _, .inl ⟨a, rfl, right _ grows⟩⟩

theorem throw {e : ExportError} (reason : fails e) :
    Yields h (MonadExcept.throw e : Exports σ α) ok fails := by
  intro w _
  exact ⟨w.heap, .refl _, .inr ⟨e, rfl, reason⟩⟩

theorem bind {x : Exports σ α} {f : α → Exports σ β} (first : Yields h x mid fails)
    (rest : ∀ h₁ a, h.Extends h₁ → mid h₁ a → Yields h₁ (f a) ok' fails) :
    Yields h (x >>= f) ok' fails := by
  intro w grows
  obtain ⟨h₁, grows₁, ⟨a, run, right⟩ | ⟨e, run, reason⟩⟩ := first w grows
  · obtain ⟨h₂, grows₂, ends⟩ := rest h₁ a (grows.trans grows₁) right { w with heap := h₁ } (.refl _)
    rw [Exports.bind_of_ok run]
    exact ⟨h₂, grows₁.trans grows₂, ends⟩
  · exact ⟨h₁, grows₁, .inr ⟨e, Exports.bind_of_error run f, reason⟩⟩

/-- A step that changes nothing and always gives the same. -/
theorem after {x : Exports σ α} {f : α → Exports σ β} {a : α}
    (silent : ∀ w : World σ, h.Extends w.heap → x w = some (.ok a, w))
    (rest : Yields h (f a) ok' fails) : Yields h (x >>= f) ok' fails := by
  intro w grows
  rw [Exports.bind_of_ok (silent w grows)]
  exact rest w grows

theorem imp {x : Exports σ α} (yields : Yields h x ok fails)
    (weaker : ∀ h' a, h.Extends h' → ok h' a → mid h' a) : Yields h x mid fails := by
  intro w grows
  obtain ⟨h', grows', ⟨a, run, right⟩ | failed⟩ := yields w grows
  · exact ⟨h', grows', .inl ⟨a, run, weaker h' a (grows.trans grows') right⟩⟩
  · exact ⟨h', grows', .inr failed⟩

theorem excuse {x : Exports σ α} (yields : Yields h x ok fails)
    (excused : ∀ e, fails e → fails' e) : Yields h x ok fails' := by
  intro w grows
  obtain ⟨h', grows', done | ⟨e, run, reason⟩⟩ := yields w grows
  · exact ⟨h', grows', .inl done⟩
  · exact ⟨h', grows', .inr ⟨e, run, excused e reason⟩⟩

theorem congr {x y : Exports σ α} (same : ∀ w : World σ, h.Extends w.heap → x w = y w)
    (yields : Yields h y ok fails) : Yields h x ok fails := by
  intro w grows
  rw [same w grows]
  exact yields w grows

theorem mono {x : Exports σ α} (yields : Yields h x ok fails) (grows : h.Extends h') :
    Yields h' x ok fails := by
  intro w grows'
  exact yields w (grows.trans grows')

/-- One result per item, each right for its item. -/
theorem mapM {f : α → Exports σ β} (right : Heap → α → γ → Prop) (give : γ → β)
    (stays : ∀ {h₁ h₂ a c}, h₁.Extends h₂ → right h₁ a c → right h₂ a c) (items : List α)
    (each : ∀ a ∈ items, Yields h (f a) (fun h' b => ∃ c, b = give c ∧ right h' a c) fails) :
    Yields h (items.mapM f) (fun h' bs => ∃ cs : List γ, bs = cs.map give ∧
      cs.length = items.length ∧
      ∀ (i : Nat) (a : α) (c : γ), items[i]? = some a → cs[i]? = some c → right h' a c) fails := by
  induction items generalizing h with
  | nil =>
      rw [List.mapM_nil]
      refine pure fun _ _ => ⟨[], rfl, rfl, ?_⟩
      intro i a c found
      simp at found
  | cons a items ih =>
      rw [List.mapM_cons]
      refine bind (each a List.mem_cons_self) fun h₁ b grows first => ?_
      obtain ⟨c, rfl, first⟩ := first
      refine bind (ih fun a ha => (each a (List.mem_cons_of_mem _ ha)).mono grows)
        fun h₂ bs grows₂ rest => ?_
      obtain ⟨cs, rfl, length, rest⟩ := rest
      refine pure fun h₃ grows₃ => ⟨c :: cs, rfl, congrArg (· + 1) length, ?_⟩
      intro i a' c' hitem hc
      cases i with
      | zero =>
          cases hitem
          cases hc
          exact stays (grows₂.trans grows₃) first
      | succ i => exact stays grows₃ (rest i a' c' hitem hc)

/-! ### New data of the host -/

theorem addSlice (items : List HostValue) :
    Yields h (newHostSlice items : Exports σ HostValue) (fun h' x => ∃ s, x = .slice s ∧
      h'.hostSlices[s.index]? = some items.toArray) fails := by
  intro w _
  refine ⟨_, .addHostSlice _ items.toArray, .inl ⟨_, rfl, _, rfl, ?_⟩⟩
  simp [Heap.addHostSlice]

theorem addMap (entries : List (String × HostValue)) :
    Yields h (newHostMap entries : Exports σ HostValue) (fun h' x => ∃ m, x = .map m ∧
      h'.hostMaps[m.index]? = some (.ofList entries)) fails := by
  intro w _
  refine ⟨_, .addHostMap _ (.ofList entries), .inl ⟨_, rfl, _, rfl, ?_⟩⟩
  simp [Heap.addHostMap]

end Yields

end ScriptCore
