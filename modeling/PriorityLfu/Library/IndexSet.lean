import Mathlib.Data.List.Perm.Basic
import Mathlib.Data.List.Rotate

/-!
# Index sets with swapping removal

The keys of an index map: a list without two equal keys, read by position. Insertion
appends an absent key and leaves a present one where it is. Removal is by swapping: the
last key moves into the vacated position and no other key moves.
-/
namespace Keyed

/-- Overwrite position `i` with the last element, then drop the last position. -/
def swapRemove {α : Type*} (l : List α) (i : Nat) : List α :=
  match l.getLast? with
  | none => []
  | some last => (l.set i last).dropLast

section swapRemove

variable {α : Type*} {l : List α} {i j : Nat}

theorem swapRemove_concat (l : List α) (a : α) (i : Nat) :
    swapRemove (l ++ [a]) i = l.set i a := by
  by_cases h : i < l.length
  · simp [swapRemove, h]
  · obtain rfl | h' : i = l.length ∨ l.length < i := by omega
    · simp [swapRemove, List.set_eq_of_length_le]
    · simp [swapRemove, List.set_append, h, List.set_eq_of_length_le (by omega : l.length ≤ i),
        List.set_eq_of_length_le (by simp; omega : [a].length ≤ i - l.length)]

@[simp] theorem length_swapRemove (l : List α) (i : Nat) :
    (swapRemove l i).length = l.length - 1 := by
  cases h : l.getLast? <;> simp_all [swapRemove]

/-- The last element sits at the removed position, every other one where it was. -/
theorem getElem?_swapRemove (hj : j < l.length - 1) :
    (swapRemove l i)[j]? = if j = i then l[l.length - 1]? else l[j]? := by
  obtain rfl | ⟨l, a, rfl⟩ := l.eq_nil_or_concat'
  · simp at hj
  · simp only [List.length_append, List.length_singleton, Nat.add_sub_cancel] at hj
    rw [swapRemove_concat, List.getElem?_set]
    by_cases h : i = j
    · subst h; simp [hj]
    · simp [h, Ne.symm h, List.getElem?_append_left hj]

/-- Removal by swapping takes exactly the element at the removed position out. -/
theorem perm_swapRemove (h : i < l.length) : l.Perm (l[i] :: swapRemove l i) := by
  obtain rfl | ⟨l, a, rfl⟩ := l.eq_nil_or_concat'
  · simp at h
  · rw [swapRemove_concat]
    by_cases hi : i < l.length
    · rw [List.getElem_append_left hi]
      have hset : (l.set i a).Perm (a :: l.eraseIdx i) := List.set_perm_cons_eraseIdx hi a
      have hget : l.Perm (l[i] :: l.eraseIdx i) := (List.getElem_cons_eraseIdx_perm hi).symm
      exact (List.perm_append_singleton a l).trans
        (((hget.cons a).trans (.swap _ _ _)).trans (hset.symm.cons _))
    · obtain rfl : i = l.length := by simp at h; omega
      simp [List.set_eq_of_length_le]

end swapRemove

/-- A set of keys with positions. -/
structure IndexSet (κ : Type*) [BEq κ] where
  keys : List κ
  distinct : keys.Pairwise fun a b => (a == b) = false

namespace IndexSet

variable {κ : Type*} [BEq κ]

def empty : IndexSet κ := ⟨[], .nil⟩

def len (s : IndexSet κ) : Nat := s.keys.length

def isEmpty (s : IndexSet κ) : Bool := s.keys.isEmpty

def getIndex (s : IndexSet κ) (i : Nat) : Option κ := s.keys[i]?

def contains (s : IndexSet κ) (key : κ) : Bool := s.keys.any (key == ·)

def indexOf? (s : IndexSet κ) (key : κ) : Option Nat := s.keys.findIdx? (key == ·)

variable {s t : IndexSet κ} {key k k₀ : κ} {i : Nat}

theorem contains_iff : s.contains k = true ↔ ∃ a ∈ s.keys, (k == a) = true := by
  simp [contains]

theorem not_contains_iff : s.contains k = false ↔ ∀ a ∈ s.keys, (k == a) = false := by
  simp [contains]

theorem indexOf?_lt (h : s.indexOf? key = some i) : i < s.keys.length :=
  (List.findIdx?_eq_some_iff_getElem.mp h).1

theorem isEmpty_iff : s.isEmpty = true ↔ s.keys = [] := List.isEmpty_iff

variable [EquivBEq κ]

theorem contains_congr (h : key == k) : s.contains key = s.contains k := by
  simp only [contains, BEq.congr_left h]

theorem contains_of_mem (h : k ∈ s.keys) : s.contains k = true :=
  contains_iff.mpr ⟨k, h, BEq.refl k⟩

/-- Equal keys of the set are the same key, at the same position. -/
theorem index_eq_of_beq {i j : Nat} {a b : κ} (ha : s.keys[i]? = some a) (hb : s.keys[j]? = some b)
    (h : (a == b) = true) : i = j := by
  obtain ⟨hi, rfl⟩ := List.getElem?_eq_some_iff.mp ha
  obtain ⟨hj, rfl⟩ := List.getElem?_eq_some_iff.mp hb
  have hd := List.pairwise_iff_getElem.mp s.distinct
  rcases Nat.lt_trichotomy i j with hlt | heq | hgt
  · rw [hd i j hi hj hlt] at h; cases h
  · exact heq
  · rw [BEq.comm, hd j i hj hi hgt] at h; cases h

theorem eq_of_beq {a b : κ} (ha : a ∈ s.keys) (hb : b ∈ s.keys) (h : (a == b) = true) : a = b := by
  obtain ⟨i, hi⟩ := List.mem_iff_getElem?.mp ha
  obtain ⟨j, hj⟩ := List.mem_iff_getElem?.mp hb
  obtain rfl := index_eq_of_beq hi hj h
  exact Option.some.inj (hi.symm.trans hj)

/-- A key of the set occurs in it once. -/
theorem countP_eq_one (h : s.contains k = true) : s.keys.countP (k == ·) = 1 := by
  obtain ⟨a, ha, hk⟩ := contains_iff.mp h
  obtain ⟨l₁, l₂, hl⟩ := List.append_of_mem ha
  have hd := s.distinct
  rw [hl, List.pairwise_append, List.pairwise_cons] at hd
  obtain ⟨-, ⟨h₂, -⟩, h₁⟩ := hd
  have hleft : l₁.countP (k == ·) = 0 := by
    refine List.countP_eq_zero.mpr fun b hb => ?_
    rw [BEq.congr_left hk, BEq.comm, h₁ b hb a List.mem_cons_self]
    exact Bool.false_ne_true
  have hright : l₂.countP (k == ·) = 0 := by
    refine List.countP_eq_zero.mpr fun b hb => ?_
    rw [BEq.congr_left hk, h₂ b hb]
    exact Bool.false_ne_true
  rw [hl, List.countP_append, List.countP_cons, hleft, hright, if_pos hk]

/-! ## `insert` -/

/-- Append an absent key; a present one keeps its position and its stored object. -/
def insert (s : IndexSet κ) (key : κ) : IndexSet κ :=
  if h : s.contains key then s
  else
    { keys := s.keys ++ [key]
      distinct := by
        refine List.pairwise_append.mpr ⟨s.distinct, List.pairwise_singleton _ _, ?_⟩
        intro a ha b hb
        rw [List.mem_singleton.mp hb, BEq.comm]
        exact not_contains_iff.mp (by simpa using h) a ha }

theorem keys_insert (h : s.contains key = false) : (s.insert key).keys = s.keys ++ [key] := by
  simp [insert, h]

theorem insert_of_contains (h : s.contains key = true) : s.insert key = s := by
  simp [insert, h]

theorem contains_insert : (s.insert key).contains k = (s.contains k || key == k) := by
  cases h : s.contains key with
  | true =>
    rw [insert_of_contains h]
    cases hk : key == k
    · simp
    · rw [← contains_congr hk, h, Bool.true_or]
  | false => simp [contains, keys_insert h, BEq.comm (a := k)]

/-! ## `swapRemoveFull` -/

/-- Remove `key` by swapping; returns its former position and the stored key. -/
def swapRemoveFull (s : IndexSet κ) (key : κ) : Option (Nat × κ × IndexSet κ) :=
  match h : s.indexOf? key with
  | none => none
  | some i =>
    some (i, s.keys.get ⟨i, indexOf?_lt h⟩,
      { keys := swapRemove s.keys i
        distinct := by
          have hp := (perm_swapRemove (indexOf?_lt h)).pairwise_iff
            (R := fun a b => (a == b) = false) fun hab => by rwa [BEq.comm]
          exact (List.pairwise_cons.mp (hp.mp s.distinct)).2 })

theorem swapRemoveFull_eq_none : s.swapRemoveFull key = none ↔ s.contains key = false := by
  unfold swapRemoveFull
  split
  · next h => simpa [indexOf?, not_contains_iff] using h
  · next i h =>
    obtain ⟨hi, hk, -⟩ := List.findIdx?_eq_some_iff_getElem.mp h
    simp [contains_iff.mpr ⟨_, List.getElem_mem hi, hk⟩]

theorem swapRemoveFull_eq_some (h : s.swapRemoveFull key = some (i, k₀, t)) :
    s.keys[i]? = some k₀ ∧ (key == k₀) = true ∧ t.keys = swapRemove s.keys i := by
  unfold swapRemoveFull at h
  split at h
  · cases h
  · next j hj =>
    obtain ⟨hlt, hk, -⟩ := List.findIdx?_eq_some_iff_getElem.mp hj
    cases h
    exact ⟨List.getElem?_eq_getElem hlt, hk, rfl⟩

theorem perm_swapRemoveFull (h : s.swapRemoveFull key = some (i, k₀, t)) :
    s.keys.Perm (k₀ :: t.keys) := by
  obtain ⟨hi, -, ht⟩ := swapRemoveFull_eq_some h
  obtain ⟨hlt, rfl⟩ := List.getElem?_eq_some_iff.mp hi
  exact ht ▸ perm_swapRemove hlt

theorem contains_swapRemoveFull (h : s.swapRemoveFull key = some (i, k₀, t)) :
    t.contains k = (s.contains k && !(key == k)) := by
  obtain ⟨-, hk₀, -⟩ := swapRemoveFull_eq_some h
  have hp := perm_swapRemoveFull h
  have hd := (hp.pairwise_iff (R := fun a b => (a == b) = false)
    fun hab => by rwa [BEq.comm]).mp s.distinct
  have hs : s.contains k = (k == k₀ || t.contains k) := by
    simp only [contains, hp.any_eq, List.any_cons]
  rw [hs, BEq.congr_left hk₀, BEq.comm (a := k₀)]
  cases hk : k == k₀
  · simp
  · have : t.contains k = false := by
      refine not_contains_iff.mpr fun a ha => ?_
      rw [BEq.congr_left hk]
      exact (List.pairwise_cons.mp hd).1 a ha
    simp [this]

end IndexSet

end Keyed
