import Mathlib.Data.Set.Insert
import Mathlib.Order.Iterate

/-!
# Unsynchronised updates of one value

Clients update a value in two steps: each loads it, and later stores `g` of what it loaded if
that is a change. In between others store, so that a store can undo theirs. Where `g` is
monotone and never decreases a value, the outcome is still bounded on both sides: as if one of
the updates had been made, at least, and as if all had been made one after the other, at most.
-/
namespace Racing

variable {α : Type*} [Preorder α] {g : α → α} {a value v : α} {m : Nat} {pending : Set α}

/-- The value that started as `a` after `m` updates are complete, while `pending` are the values
that were loaded for others. -/
structure Between (g : α → α) (a : α) (m : Nat) (value : α) (pending : Set α) : Prop where
  /-- Either nothing was updated yet, or the value is past the first update. -/
  moved : (value = a ∧ m = 0 ∧ ∀ v ∈ pending, v = a) ∨ g a ≤ value
  le_iterate : value ≤ g^[m] a
  loaded : ∀ v ∈ pending, a ≤ v ∧ v ≤ g^[m] a

namespace Between

theorem start : Between g a 0 a ∅ where
  moved := .inl ⟨rfl, rfl, fun _ h => nomatch h⟩
  le_iterate := le_rfl
  loaded _ h := nomatch h

theorem mono (h : Between g a m value pending) {fewer : Set α} (hs : fewer ⊆ pending) :
    Between g a m value fewer where
  moved := h.moved.imp_left fun ⟨hv, hm, hp⟩ => ⟨hv, hm, fun v hv => hp v (hs hv)⟩
  le_iterate := h.le_iterate
  loaded v hv := h.loaded v (hs hv)

theorem load (hg : ∀ v, v ≤ g v) (h : Between g a m value pending) :
    Between g a m value (insert value pending) where
  moved := by
    rcases h.moved with ⟨hv, hm, hp⟩ | hle
    · exact .inl ⟨hv, hm, Set.forall_mem_insert.mpr ⟨hv, hp⟩⟩
    · exact .inr hle
  le_iterate := h.le_iterate
  loaded := by
    refine Set.forall_mem_insert.mpr ⟨⟨?_, h.le_iterate⟩, h.loaded⟩
    rcases h.moved with ⟨hv, -, -⟩ | hle
    · exact hv.ge
    · exact (hg a).trans hle

/-- Another update raises the upper bound. -/
theorem iterate_le (hg : ∀ v, v ≤ g v) (m : Nat) : g^[m] a ≤ g^[m + 1] a := by
  rw [Function.iterate_succ_apply']
  exact hg _

/-- A store of an update, however stale the value it was made from. -/
theorem store (hmono : Monotone g) (hg : ∀ v, v ≤ g v) (h : Between g a m value pending)
    (hv : v ∈ pending) : Between g a (m + 1) (g v) pending where
  moved := .inr (hmono (h.loaded v hv).1)
  le_iterate := by
    rw [Function.iterate_succ_apply']
    exact hmono (h.loaded v hv).2
  loaded u hu := ⟨(h.loaded u hu).1, (h.loaded u hu).2.trans (iterate_le hg m)⟩

/-- An update that is no change stores nothing. -/
theorem skip (hg : ∀ v, v ≤ g v) (h : Between g a m value pending) (hv : v ∈ pending)
    (hfixed : g v = v) : Between g a (m + 1) value pending where
  moved := by
    right
    rcases h.moved with ⟨hvalue, -, hp⟩ | hle
    · rw [hvalue, ← hp v hv, hfixed]
    · exact hle
  le_iterate := h.le_iterate.trans (iterate_le hg m)
  loaded u hu := ⟨(h.loaded u hu).1, (h.loaded u hu).2.trans (iterate_le hg m)⟩

/-- At least one update counts, and each at most once. -/
theorem result (h : Between g a m value pending) (hm : 0 < m) :
    g a ≤ value ∧ value ≤ g^[m] a := by
  rcases h.moved with ⟨-, hzero, -⟩ | hle
  · omega
  · exact ⟨hle, h.le_iterate⟩

end Between
end Racing
