import ScriptCore.Proofs.Object.Ordinary

/-!
# ScriptCore.Proofs.Object.ProxyChains

**Chains of proxies** end, or have nothing behind them.

Design points:

* `Heap.ProxiesEnd` counts the links of a chain up to its end, which is an object that is no proxy or
  one that has been revoked. It does not mention a bound.
* No object is passed twice on the way to an end, so the bound that `Heap.behind` takes from the size
  of the heap is large enough for every chain that has one. What is asked of such a chain has an
  answer, and of any other it has none.
-/

namespace ScriptCore

namespace Heap

variable {h : Heap} {o : ObjectId} {k m n : Nat}

/-- A chain of proxies has so many links up to its end. -/
inductive ProxiesEnd (h : Heap) : Nat → ObjectId → Prop where
  /-- No proxy, or one without a target. -/
  | here {o : ObjectId} (last : ∀ target handler, h.payload o ≠ .proxy (some target) handler) :
      ProxiesEnd h 0 o
  | next {n : Nat} {o target : ObjectId} {handler : Option ObjectId}
      (link : h.payload o = .proxy (some target) handler) (rest : ProxiesEnd h n target) :
      ProxiesEnd h (n + 1) o

namespace ProxiesEnd

theorem unique (ends : h.ProxiesEnd m o) (other : h.ProxiesEnd n o) : m = n := by
  induction ends generalizing n with
  | here last =>
      cases other with
      | here => rfl
      | next link => exact absurd link (last _ _)
  | next link _ ih =>
      cases other with
      | here last => exact absurd link (last _ _)
      | next link' rest =>
          cases link.symm.trans link'
          rw [ih rest]

theorem exists_of_lt (ends : h.ProxiesEnd n o) (hm : m < n) :
    ∃ p, p.index < h.objects.size ∧ h.ProxiesEnd (m + 1) p := by
  induction ends with
  | here => omega
  | next link rest ih =>
      rename_i k o _ _
      rcases Nat.lt_succ_iff_lt_or_eq.mp hm with hlt | rfl
      · exact ih hlt
      · exact ⟨o, lt_size_of_payload (by simp [link]), .next link rest⟩

theorem le_size (ends : h.ProxiesEnd n o) : n ≤ h.objects.size :=
  le_size_of_distances (fun _ hm => ends.exists_of_lt hm) fun left right =>
    Nat.succ.inj (left.unique right)

end ProxiesEnd

/-- Something is found behind a chain exactly if it ends within the links that are followed. -/
theorem behindWithin_ne_endless_iff :
    h.behindWithin k o ≠ .endless ↔ ∃ n < k, h.ProxiesEnd n o := by
  induction k generalizing o with
  | zero => simp [behindWithin]
  | succ k ih =>
      rw [behindWithin]
      split
      · rename_i link
        rw [ih]
        constructor
        · intro ⟨n, hn, rest⟩
          exact ⟨n + 1, Nat.succ_lt_succ hn, .next link rest⟩
        · rintro ⟨n, hn, ends⟩
          cases ends with
          | here last => exact absurd link (last _ _)
          | next link' rest =>
              cases link.symm.trans link'
              exact ⟨_, Nat.lt_of_succ_lt_succ hn, rest⟩
      · rename_i revoked
        exact iff_of_true (by simp) ⟨0, Nat.succ_pos k, .here (by simp [revoked])⟩
      · rename_i direct _
        exact iff_of_true (by simp) ⟨0, Nat.succ_pos k, .here fun t p link => direct t p link⟩

/-- The size of the heap is bound enough. -/
theorem behind_ne_endless_iff : h.behind o ≠ .endless ↔ ∃ n, h.ProxiesEnd n o := by
  rw [behind, behindWithin_ne_endless_iff]
  constructor
  · exact fun ⟨n, _, ends⟩ => ⟨n, ends⟩
  · exact fun ⟨n, ends⟩ => ⟨n, Nat.lt_succ_of_le ends.le_size, ends⟩

/-- What can be called is a function, or has one behind it. -/
theorem isCallable_eq_true_iff :
    h.isCallable o = some true ↔ ∃ f fn, h.behind o = .object f ∧ h.payload f = .function fn := by
  rw [isCallable]
  cases h.behind o with
  | object f => cases hf : h.payload f <;> simp [hf]
  | _ => simp

/-- Whether an object can be called has an answer exactly if its chain of proxies ends. -/
theorem isSome_isCallable_iff : (h.isCallable o).isSome = true ↔ ∃ n, h.ProxiesEnd n o := by
  rw [← behind_ne_endless_iff, isCallable]
  cases h.behind o with
  | object f => cases hf : h.payload f <;> simp [hf]
  | _ => simp

/-- So has the type of a value, where one that is no object is always known by its kind. -/
theorem isSome_typeOf_iff {v : Value} :
    (h.typeOf v).isSome = true ↔ ∀ o, v = .object o → ∃ n, h.ProxiesEnd n o := by
  cases v with
  | object o => simp [typeOf, ← isSome_isCallable_iff]
  | _ => simp [typeOf]

end Heap

/-- A look-up with a result has come to the end of the proxies that it started from. -/
theorem proxiesEnd_of_getWithin {σ : Type} {env : Embedding σ} {w : World σ} {receiver o : ObjectId}
    {key : Text} {n : Nat} {r : Except Thrown Value × World σ}
    (run : getWithin env receiver key n o w = some r) : ∃ m, w.heap.ProxiesEnd m o := by
  induction n generalizing o with
  | zero => cases run
  | succ n ih =>
      by_cases link : ∃ target handler, w.heap.payload o = .proxy (some target) handler
      · obtain ⟨target, handler, link⟩ := link
        rw [getWithin, Throws.bind_of_ok (Throws.asks_apply _ _), link] at run
        obtain ⟨m, rest⟩ := ih run
        exact ⟨m + 1, .next link rest⟩
      · exact ⟨0, .here fun target handler hp => link ⟨target, handler, hp⟩⟩

end ScriptCore
