import PriorityLfu.Shard.Basic

/-!
# Policy buckets and their hands

What the operations of a bucket do to its keys and that they keep the hand on the list.
-/
namespace PriorityLfu
open Keyed

namespace PolicyBucket

variable {κ : Type} [BEq κ]

/-- The hand is 0 on an empty list and a position of the list otherwise. -/
def HandOk (b : PolicyBucket κ) : Prop := (b.len = 0 → b.hand = 0) ∧ (0 < b.len → b.hand < b.len)

theorem handOk_iff {b : PolicyBucket κ} : b.HandOk ↔ b.hand < max 1 b.len := by
  unfold HandOk; omega

theorem handOk_new : (new : PolicyBucket κ).HandOk := by simp [HandOk, new, len]

theorem handOk_clear (b : PolicyBucket κ) : b.clear.HandOk := by simp [HandOk, clear, len]

@[simp] theorem contains_new {k : κ} : (new : PolicyBucket κ).list.contains k = false := rfl
@[simp] theorem contains_clear {b : PolicyBucket κ} {k : κ} : b.clear.list.contains k = false := rfl

theorem isEmpty_iff {b : PolicyBucket κ} : b.isEmpty = true ↔ b.len = 0 := by
  simp [isEmpty, IndexSet.isEmpty_iff, len, IndexSet.len]

variable [EquivBEq κ] {b : PolicyBucket κ} {key k k₀ : κ} {i : Nat} {t : IndexSet κ}

/-! ## `insert` -/

theorem contains_insert :
    (b.insert key).list.contains k = (b.list.contains k || key == k) := IndexSet.contains_insert

/-- A new key goes to the end and the hand does not move. -/
theorem insert_of_not_contains (hb : b.HandOk) (h : b.list.contains key = false) :
    (b.insert key).list.keys = b.list.keys ++ [key] ∧ (b.insert key).hand = b.hand := by
  have hkeys := IndexSet.keys_insert h
  have hlen : (b.list.insert key).len = b.len + 1 := by simp [IndexSet.len, hkeys, len]
  refine ⟨hkeys, ?_⟩
  have : b.hand < b.len + 1 := by
    have := handOk_iff.mp hb
    omega
  simp only [insert, hlen]
  rw [if_neg]
  simp
  omega

theorem handOk_insert (hb : b.HandOk) : (b.insert key).HandOk := by
  cases h : b.list.contains key with
  | false =>
    obtain ⟨hkeys, hhand⟩ := insert_of_not_contains hb h
    have hlen : (b.insert key).len = b.len + 1 := by simp [len, IndexSet.len, hkeys]
    have := handOk_iff.mp hb
    rw [handOk_iff, hhand, hlen]
    omega
  | true =>
    have hlist : (b.insert key).list = b.list := IndexSet.insert_of_contains h
    have := handOk_iff.mp hb
    simp only [handOk_iff, len, hlist]
    unfold insert
    dsimp only
    split
    · exact Nat.lt_of_lt_of_le Nat.one_pos (Nat.le_max_left _ _)
    · exact this

/-! ## `remove` -/

theorem remove_of_not_contains (h : b.list.contains key = false) : b.remove key = (false, b) := by
  simp [remove, IndexSet.swapRemoveFull_eq_none.mpr h]

/-- Removing a present key, by the positions involved. -/
theorem remove_of_swapRemoveFull (h : b.list.swapRemoveFull key = some (i, k₀, t)) :
    b.remove key = (true, ⟨t,
      if t.len = 0 then 0
      else if b.hand = b.len - 1 ∧ i ≠ b.len - 1 then i
      else if b.hand ≥ t.len then 0
      else b.hand⟩) := by
  simp only [remove, h]
  rfl

theorem len_of_swapRemoveFull (h : b.list.swapRemoveFull key = some (i, k₀, t)) :
    i < b.len ∧ t.len = b.len - 1 := by
  obtain ⟨hi, -, ht⟩ := IndexSet.swapRemoveFull_eq_some h
  obtain ⟨hlt, -⟩ := List.getElem?_eq_some_iff.mp hi
  exact ⟨hlt, by simp [IndexSet.len, ht, len]⟩

theorem exists_swapRemoveFull (h : b.list.contains key = true) :
    ∃ i k₀ t, b.list.swapRemoveFull key = some (i, k₀, t) := by
  cases hr : b.list.swapRemoveFull key with
  | none => rw [IndexSet.swapRemoveFull_eq_none.mp hr] at h; cases h
  | some r => exact ⟨r.1, r.2.1, r.2.2, rfl⟩

theorem contains_remove :
    (b.remove key).2.list.contains k = (b.list.contains k && !(key == k)) := by
  cases h : b.list.contains key with
  | true =>
    obtain ⟨i, k₀, t, ht⟩ := exists_swapRemoveFull h
    rw [remove_of_swapRemoveFull ht]
    exact IndexSet.contains_swapRemoveFull ht
  | false =>
    rw [remove_of_not_contains h]
    cases hk : key == k
    · simp
    · rw [← IndexSet.contains_congr hk, h, Bool.false_and]

theorem handOk_remove (hb : b.HandOk) : (b.remove key).2.HandOk := by
  cases h : b.list.contains key with
  | true =>
    obtain ⟨i, k₀, t, ht⟩ := exists_swapRemoveFull h
    obtain ⟨hi, hlen⟩ := len_of_swapRemoveFull ht
    have := handOk_iff.mp hb
    rw [remove_of_swapRemoveFull ht, handOk_iff]
    show (if t.len = 0 then 0 else _) < max 1 t.len
    split_ifs <;> omega
  | false => rwa [remove_of_not_contains h]

/-! ## The hand after a removal -/

/-- What a removal of `key` that returns `removed` makes of a bucket: it takes exactly that key
out, and the hand stays on its key as long as the key is there. -/
structure Removes (key : κ) (b : PolicyBucket κ) (removed : Bool) (t : PolicyBucket κ) : Prop where
  present : removed = true ↔ ∃ a ∈ b.list.keys, (key == a) = true
  absent : removed = false → t = b
  taken : removed = true → ∃ k₀, (key == k₀) = true ∧ b.list.keys.Perm (k₀ :: t.list.keys)
  gone : ∀ a ∈ t.list.keys, (key == a) = false
  once : ∀ a ∈ b.list.keys, (key == a) = false → t.list.keys.countP (a == ·) = 1
  hand : t.HandOk
  /-- The key under the hand was not removed. -/
  follows : ∀ a, b.list.getIndex b.hand = some a → (key == a) = false →
    t.list.getIndex t.hand = some a
  /-- The key under the hand was removed: the last one takes its place. -/
  replaced : ∀ a, b.list.getIndex b.hand = some a → (key == a) = true → b.hand ≠ b.len - 1 →
    t.list.getIndex t.hand = b.list.getIndex (b.len - 1)
  wraps : ∀ a, b.list.getIndex b.hand = some a → (key == a) = true → b.hand = b.len - 1 →
    t.hand = 0

/-- Where the keys are after a removal at position `i`. -/
theorem getIndex_swapRemoveFull (h : b.list.swapRemoveFull key = some (i, k₀, t)) {j : Nat}
    (hj : j < b.len - 1) :
    t.getIndex j = if j = i then b.list.getIndex (b.len - 1) else b.list.getIndex j := by
  obtain ⟨-, -, ht⟩ := IndexSet.swapRemoveFull_eq_some h
  rw [IndexSet.getIndex, ht]
  exact getElem?_swapRemove hj

/-- The hand follows its key, by the positions of the hand, of the removed key and of the last
one. -/
theorem hand_follows (hb : b.HandOk) (h : b.list.swapRemoveFull key = some (i, k₀, t))
    (hne : b.hand ≠ i) :
    (b.remove key).2.list.getIndex (b.remove key).2.hand = b.list.getIndex b.hand := by
  obtain ⟨hi, hlen⟩ := len_of_swapRemoveFull h
  have hh := hb.2 (by omega)
  have ht : t.len ≠ 0 := by omega
  rw [remove_of_swapRemoveFull h]
  simp only [if_neg ht]
  by_cases hlast : b.hand = b.len - 1
  · -- the key under the hand moves to the removed position
    have hcond : b.hand = b.len - 1 ∧ i ≠ b.len - 1 := ⟨hlast, by omega⟩
    rw [if_pos hcond, getIndex_swapRemoveFull h (by omega), if_pos rfl, hlast]
  · have hcond : ¬ (b.hand = b.len - 1 ∧ i ≠ b.len - 1) := fun hc => hlast hc.1
    have hin : ¬ b.hand ≥ t.len := by omega
    rw [if_neg hcond, if_neg hin, getIndex_swapRemoveFull h (by omega), if_neg hne]

/-- The last key takes the place of the removed one under the hand. -/
theorem hand_replaced (h : b.list.swapRemoveFull key = some (b.hand, k₀, t))
    (hlast : b.hand ≠ b.len - 1) :
    (b.remove key).2.list.getIndex (b.remove key).2.hand = b.list.getIndex (b.len - 1) := by
  obtain ⟨hi, hlen⟩ := len_of_swapRemoveFull h
  have ht : t.len ≠ 0 := by omega
  have hcond : ¬ (b.hand = b.len - 1 ∧ b.hand ≠ b.len - 1) := fun hc => hlast hc.1
  have hin : ¬ b.hand ≥ t.len := by omega
  rw [remove_of_swapRemoveFull h]
  simp only [if_neg ht, if_neg hcond, if_neg hin]
  rw [getIndex_swapRemoveFull h (by omega), if_pos rfl]

/-- A removed last key under the hand sends the hand back to the start. -/
theorem hand_wraps (h : b.list.swapRemoveFull key = some (b.hand, k₀, t))
    (hlast : b.hand = b.len - 1) : (b.remove key).2.hand = 0 := by
  obtain ⟨hi, hlen⟩ := len_of_swapRemoveFull h
  rw [remove_of_swapRemoveFull h]
  show (if t.len = 0 then 0 else _) = 0
  split_ifs <;> omega

/-- A key that is removed, by its position. -/
theorem removes_of_swapRemoveFull (hb : b.HandOk)
    (h : b.list.swapRemoveFull key = some (i, k₀, t)) :
    Removes key b true (b.remove key).2 := by
  obtain ⟨hi, hk₀, -⟩ := IndexSet.swapRemoveFull_eq_some h
  have hlist : (b.remove key).2.list = t := by rw [remove_of_swapRemoveFull h]
  have hperm := IndexSet.perm_swapRemoveFull h
  have hcontains : ∀ k, t.contains k = (b.list.contains k && !(key == k)) := fun k =>
    IndexSet.contains_swapRemoveFull h
  -- the key under the hand equals the removed one exactly if it is the removed one
  have hhand : ∀ a, b.list.getIndex b.hand = some a → ((key == a) = true ↔ b.hand = i) := by
    intro a ha
    constructor
    · intro hka
      refine IndexSet.index_eq_of_beq ha hi ?_
      rwa [← BEq.congr_left hka]
    · rintro rfl
      rw [IndexSet.getIndex, hi] at ha
      cases ha
      exact hk₀
  constructor
  · exact iff_of_true rfl ⟨k₀, List.mem_of_getElem? hi, hk₀⟩
  · exact fun hfalse => nomatch hfalse
  · exact fun _ => ⟨k₀, hk₀, hlist ▸ hperm⟩
  · intro a ha
    rw [hlist] at ha
    have hin := hcontains a
    rw [IndexSet.contains_of_mem ha] at hin
    simpa using (Bool.and_eq_true_iff.mp hin.symm).2
  · intro a ha hne
    rw [hlist]
    refine IndexSet.countP_eq_one ?_
    rw [hcontains, IndexSet.contains_of_mem ha, hne]
    rfl
  · exact handOk_remove hb
  · intro a ha hne
    have hmoved : b.hand ≠ i := fun e => by simp [(hhand a ha).mpr e] at hne
    rw [hand_follows hb h hmoved, ha]
  · intro a ha hka hlast
    obtain rfl := (hhand a ha).mp hka
    exact hand_replaced h hlast
  · intro a ha hka hlast
    obtain rfl := (hhand a ha).mp hka
    exact hand_wraps h hlast

/-- Every removal takes exactly its key out and leaves the hand on its key, on the last one in
its place, or at the start. -/
theorem remove_keeps_hand (hb : b.HandOk) (key : κ) :
    Removes key b (b.remove key).1 (b.remove key).2 := by
  cases h : b.list.contains key with
  | true =>
    obtain ⟨i, k₀, t, ht⟩ := exists_swapRemoveFull h
    have hremoved : (b.remove key).1 = true := by rw [remove_of_swapRemoveFull ht]
    rw [hremoved]
    exact removes_of_swapRemoveFull hb ht
  | false =>
    have hnone := IndexSet.not_contains_iff.mp h
    rw [remove_of_not_contains h]
    constructor
    · refine iff_of_false Bool.false_ne_true ?_
      rintro ⟨a, ha, hka⟩
      rw [hnone a ha] at hka
      cases hka
    · exact fun _ => rfl
    · exact fun htrue => nomatch htrue
    · exact hnone
    · exact fun a ha _ => IndexSet.countP_eq_one (IndexSet.contains_of_mem ha)
    · exact hb
    · exact fun a ha _ => ha
    all_goals
      intro a ha hka
      rw [hnone a (List.mem_of_getElem? ha)] at hka
      cases hka

/-- The hand stands on the last of four keys. -/
def fourKeys : PolicyBucket Nat := ⟨⟨[10, 11, 12, 13], by decide⟩, 3⟩

/-- The last key takes the place of the first, and the hand goes with it. -/
theorem remove_keeps_hand_fourKeys :
    (fourKeys.remove 10).2.list.keys = [13, 11, 12] ∧
      (fourKeys.remove 10).2.list.getIndex (fourKeys.remove 10).2.hand = some 13 :=
  ⟨by decide, (remove_keeps_hand ⟨by decide, by decide⟩ 10).follows 13 rfl rfl⟩

end PolicyBucket

end PriorityLfu
