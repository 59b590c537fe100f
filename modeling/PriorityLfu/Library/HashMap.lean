import Mathlib.Data.List.Perm.Basic
import Mathlib.Data.List.Sublists
import Mathlib.Algebra.BigOperators.Group.List.Basic
import Mathlib.Algebra.Order.BigOperators.Group.List
import Mathlib.Algebra.Order.Ring.Nat

/-!
# Hash maps up to an equivalence of keys

The observable content of a hash table: one pair for each live entry, no two keys equal
under `==`. Keys are only assumed to be compared by an equivalence (`EquivBEq`) that their
hash respects (`LawfulHashable`), so two keys may be equal without being the same object,
and unequal keys may share a hash. The order of the list stands for the unspecified order
in which a table is traversed.

A lookup by hash (`fromHash`) sees the entries that carry that hash and asks the given
predicate about each; a lookup by key is the instance at the key's own hash and equality.
-/
namespace Keyed

/-- A hash table, by its entries. -/
structure HashMap (κ ν : Type*) [BEq κ] where
  toList : List (κ × ν)
  distinct : toList.Pairwise fun a b => (a.1 == b.1) = false

namespace HashMap

variable {κ ν : Type*} [BEq κ]

def empty : HashMap κ ν := ⟨[], .nil⟩

def len (m : HashMap κ ν) : Nat := m.toList.length

def values (m : HashMap κ ν) : List ν := m.toList.map Prod.snd

/-- Replace the value under `key` by its image under `f`; the stored key stays. -/
def modify (m : HashMap κ ν) (key : κ) (f : ν → ν) : HashMap κ ν where
  toList := m.toList.map fun kv => if key == kv.1 then (kv.1, f kv.2) else kv
  distinct := by
    refine List.pairwise_map.mpr (m.distinct.imp ?_)
    intro a b h
    split <;> split <;> exact h

/-- Drop the entry under `key`. -/
def erase (m : HashMap κ ν) (key : κ) : HashMap κ ν where
  toList := m.toList.eraseP fun kv => key == kv.1
  distinct := m.distinct.sublist List.eraseP_sublist

variable {m : HashMap κ ν} {key k k₀ : κ} {v v₀ : ν}

@[simp] theorem values_empty : (empty : HashMap κ ν).values = [] := rfl
@[simp] theorem length_values : m.values.length = m.len := by simp [values, len]

/-- A change of the values that `g` does not see leaves the image under `g` as it is. -/
theorem map_values_modify {β : Type*} {g : ν → β} {f : ν → ν} (hf : ∀ v, g (f v) = g v)
    (m : HashMap κ ν) (key : κ) : (m.modify key f).values.map g = m.values.map g := by
  simp only [modify, values, List.map_map]
  congr 1
  funext kv
  simp only [Function.comp]
  split <;> simp [hf]

/-- Two changes of one value, one after the other. -/
theorem modify_modify (m : HashMap κ ν) (key : κ) (f g : ν → ν) :
    (m.modify key f).modify key g = m.modify key (g ∘ f) := by
  simp only [modify, mk.injEq, List.map_map]
  refine List.map_congr_left fun kv _ => ?_
  cases hk : key == kv.1 <;> simp [hk]

theorem toList_erase {l₁ l₂ : List (κ × ν)} (hk : (key == k₀) = true)
    (hl : m.toList = l₁ ++ (k₀, v) :: l₂) (hne : ∀ kv ∈ l₁ ++ l₂, (key == kv.1) = false) :
    (m.erase key).toList = l₁ ++ l₂ := by
  have h₁ : ∀ kv ∈ l₁, ¬ (key == kv.1) = true := fun kv hkv => by
    simp [hne kv (List.mem_append_left _ hkv)]
  simp [erase, hl, List.eraseP_append_right _ h₁, hk]

variable [Hashable κ]

/-- The entry with hash `hash` whose stored key satisfies `p`. -/
def fromHash (m : HashMap κ ν) (hash : UInt64) (p : κ → Bool) : Option (κ × ν) :=
  m.toList.find? fun kv => Hashable.hash kv.1 == hash && p kv.1

def getEntry? (m : HashMap κ ν) (key : κ) : Option (κ × ν) := m.fromHash (hash key) (key == ·)

def get? (m : HashMap κ ν) (key : κ) : Option ν := (m.getEntry? key).map Prod.snd

/-- Take the entry under `key` out of the table. -/
def removeEntry (m : HashMap κ ν) (key : κ) : Option ((κ × ν) × HashMap κ ν) :=
  (m.getEntry? key).map fun kv => (kv, m.erase key)

theorem removeEntry_eq_none : m.removeEntry key = none ↔ m.get? key = none := by
  simp [removeEntry, get?]

theorem removeEntry_eq_some {kv : κ × ν} {t : HashMap κ ν} :
    m.removeEntry key = some (kv, t) ↔ m.getEntry? key = some kv ∧ m.erase key = t := by
  rw [removeEntry, Option.map_eq_some_iff]
  constructor
  · rintro ⟨kv', hget, h⟩
    cases h
    exact ⟨hget, rfl⟩
  · rintro ⟨hget, rfl⟩
    exact ⟨kv, hget, rfl⟩

@[simp] theorem get?_empty : (empty : HashMap κ ν).get? key = none := rfl

theorem exists_getEntry? (h : m.get? key = some v) : ∃ k₀, m.getEntry? key = some (k₀, v) := by
  obtain ⟨⟨k₀, v'⟩, he, rfl⟩ := Option.map_eq_some_iff.mp h
  exact ⟨k₀, he⟩

variable [LawfulHashable κ]

theorem getEntry?_eq (m : HashMap κ ν) (key : κ) :
    m.getEntry? key = m.toList.find? fun kv => key == kv.1 := by
  unfold getEntry? fromHash
  congr 1
  funext kv
  cases h : key == kv.1
  · simp only [h, Bool.and_false]
  · simp [h, hash_eq h]

theorem get?_eq (m : HashMap κ ν) (key : κ) :
    m.get? key = (m.toList.find? fun kv => key == kv.1).map Prod.snd := by
  rw [get?, getEntry?_eq]

theorem get?_eq_none_iff : m.get? key = none ↔ ∀ kv ∈ m.toList, (key == kv.1) = false := by
  simp [get?_eq]

theorem erase_of_get?_none (h : m.get? key = none) : m.erase key = m := by
  have := get?_eq_none_iff.mp h
  have hl : (m.erase key).toList = m.toList :=
    List.eraseP_of_forall_not fun kv hkv => by simp [this kv hkv]
  cases m
  simpa [erase] using hl

variable [EquivBEq κ]

/-- Insert through the entry interface: an occupied entry gets the new value and keeps its
stored key, a vacant one stores the given key. Returns the value replaced. -/
def put (m : HashMap κ ν) (key : κ) (v : ν) : Option ν × HashMap κ ν :=
  match h : m.get? key with
  | some old => (some old, m.modify key fun _ => v)
  | none =>
    (none,
      { toList := m.toList ++ [(key, v)]
        distinct := by
          refine List.pairwise_append.mpr ⟨m.distinct, List.pairwise_singleton _ _, ?_⟩
          intro a ha b hb
          rw [List.mem_singleton.mp hb, BEq.comm]
          exact get?_eq_none_iff.mp h a ha })

theorem get?_congr (h : key == k) : m.get? key = m.get? k := by
  simp only [get?_eq, BEq.congr_left h]

/-- An entry under `key` splits the table: no other stored key equals `key`. -/
theorem split_of_getEntry? (h : m.getEntry? key = some (k₀, v)) :
    (key == k₀) = true ∧ ∃ l₁ l₂, m.toList = l₁ ++ (k₀, v) :: l₂ ∧
      ∀ kv ∈ l₁ ++ l₂, (key == kv.1) = false := by
  rw [getEntry?_eq, List.find?_eq_some_iff_append] at h
  obtain ⟨hk, l₁, l₂, hl, hl₁⟩ := h
  refine ⟨hk, l₁, l₂, hl, ?_⟩
  intro kv hkv
  rcases List.mem_append.mp hkv with h₁ | h₂
  · simpa using hl₁ kv h₁
  · have hd := m.distinct
    rw [hl, List.pairwise_append] at hd
    have := (List.pairwise_cons.mp hd.2.1).1 kv h₂
    rwa [BEq.congr_left hk]

theorem get?_of_mem {kv : κ × ν} (h : kv ∈ m.toList) : m.get? kv.1 = some kv.2 := by
  obtain ⟨l₁, l₂, hl⟩ := List.append_of_mem h
  have hd := m.distinct
  rw [hl, List.pairwise_append] at hd
  have hne : ∀ a ∈ l₁, (kv.1 == a.1) = false := by
    intro a ha
    rw [BEq.comm]
    exact hd.2.2 a ha kv List.mem_cons_self
  have hnone : (l₁.find? fun a => kv.1 == a.1) = none := by simpa using hne
  simp [get?_eq, hl, List.find?_append, hnone]

omit [Hashable κ] [LawfulHashable κ] in
/-- Equal keys of the table are the same key. -/
theorem key_eq_of_beq {a b : κ × ν} (ha : a ∈ m.toList) (hb : b ∈ m.toList)
    (h : (a.1 == b.1) = true) : a = b := by
  obtain ⟨i, hi, rfl⟩ := List.mem_iff_getElem.mp ha
  obtain ⟨j, hj, rfl⟩ := List.mem_iff_getElem.mp hb
  have hd := List.pairwise_iff_getElem.mp m.distinct
  rcases Nat.lt_trichotomy i j with hlt | rfl | hgt
  · rw [hd i j hi hj hlt] at h; cases h
  · rfl
  · rw [BEq.comm, hd j i hj hi hgt] at h; cases h

theorem mem_values_of_get? (h : m.get? key = some v) : v ∈ m.values := by
  obtain ⟨k₀, he⟩ := exists_getEntry? h
  obtain ⟨-, l₁, l₂, hl, -⟩ := split_of_getEntry? he
  simp [values, hl]

/-- What a lookup by hash finds is stored under its own key, with that hash. -/
theorem fromHash_eq_some {h : UInt64} {p : κ → Bool} (hf : m.fromHash h p = some (k₀, v)) :
    hash k₀ = h ∧ p k₀ = true ∧ m.get? k₀ = some v := by
  have hp := List.find?_some hf
  simp only [Bool.and_eq_true, beq_iff_eq] at hp
  exact ⟨hp.1, hp.2, get?_of_mem (List.mem_of_find?_eq_some hf)⟩

/-- A stored key occurs once. -/
theorem countP_keys (m : HashMap κ ν) (key : κ) :
    m.toList.countP (fun kv => key == kv.1) = (m.get? key).isSome.toNat := by
  cases h : m.get? key with
  | none =>
    have hne := get?_eq_none_iff.mp h
    exact List.countP_eq_zero.mpr fun kv hkv => by simp [hne kv hkv]
  | some v =>
    obtain ⟨k₀, he⟩ := exists_getEntry? h
    obtain ⟨hk, l₁, l₂, hl, hne⟩ := split_of_getEntry? he
    have hrest : (l₁ ++ l₂).countP (fun kv => key == kv.1) = 0 :=
      List.countP_eq_zero.mpr fun kv hkv => by simp [hne kv hkv]
    rw [List.countP_append] at hrest
    rw [hl, List.countP_append, List.countP_cons, if_pos hk, Option.isSome_some, Bool.toNat_true]
    omega

/-- A table whose keys all equal `key` has at most the entry under it. -/
theorem values_of_forall (h : ∀ kv ∈ m.toList, (key == kv.1) = true) :
    m.values = (m.get? key).toList := by
  cases hget : m.get? key with
  | none =>
    have hne := get?_eq_none_iff.mp hget
    have hnil : m.toList = [] := by
      refine List.eq_nil_iff_forall_not_mem.mpr fun kv hkv => ?_
      exact Bool.false_ne_true ((hne kv hkv).symm.trans (h kv hkv))
    simp [values, hnil]
  | some v =>
    obtain ⟨k₀, he⟩ := exists_getEntry? hget
    obtain ⟨-, l₁, l₂, hl, hne⟩ := split_of_getEntry? he
    have hnil : l₁ ++ l₂ = [] := by
      refine List.eq_nil_iff_forall_not_mem.mpr fun kv hkv => ?_
      have hmem : kv ∈ m.toList := by
        rw [hl]
        exact List.perm_middle.symm.subset (List.mem_cons_of_mem _ hkv)
      exact Bool.false_ne_true ((hne kv hkv).symm.trans (h kv hmem))
    obtain ⟨rfl, rfl⟩ := List.append_eq_nil_iff.mp hnil
    simp [values, hl]

/-! ## `modify` -/

theorem get?_modify (m : HashMap κ ν) (key : κ) (f : ν → ν) (k : κ) :
    (m.modify key f).get? k = if key == k then (m.get? k).map f else m.get? k := by
  have hp : ((fun kv : κ × ν => k == kv.1) ∘
      fun kv : κ × ν => if key == kv.1 then (kv.1, f kv.2) else kv) =
        fun kv => k == kv.1 := by
    funext kv
    simp only [Function.comp]
    split <;> rfl
  simp only [get?_eq, modify, List.find?_map, hp]
  cases h : m.toList.find? (fun kv : κ × ν => k == kv.1) with
  | none => simp
  | some kv =>
    have hk := List.find?_some h
    rw [BEq.congr_right hk]
    by_cases hkey : key == kv.1 <;> simp [hkey]

/-- A table is given by its keys, in the order of traversal, and what is found under them. -/
theorem eq_of_keys {m' : HashMap κ ν} (hkeys : m'.toList.map Prod.fst = m.toList.map Prod.fst)
    (hget : ∀ k, m'.get? k = m.get? k) : m' = m := by
  have hlist : ∀ t : HashMap κ ν, t.toList.map some =
      (t.toList.map Prod.fst).map fun k => (t.get? k).map fun v => (k, v) := by
    intro t
    rw [List.map_map]
    refine List.map_congr_left fun kv hkv => ?_
    simp [get?_of_mem hkv]
  have hsome : m'.toList.map some = m.toList.map some := by
    rw [hlist, hlist, hkeys]
    exact congrArg (fun f => List.map f _) (funext fun k => by rw [hget])
  have heq : m'.toList = m.toList := List.map_injective_iff.mpr (Option.some_injective _) hsome
  obtain ⟨l, hl⟩ := m
  obtain ⟨l', hl'⟩ := m'
  cases heq
  rfl

/-- Only the stored value matters to a change. -/
theorem modify_congr {f g : ν → ν} (h : m.get? key = some v) (hfg : f v = g v) :
    m.modify key f = m.modify key g := by
  obtain ⟨k₀, he⟩ := exists_getEntry? h
  obtain ⟨-, l₁, l₂, hl, hne⟩ := split_of_getEntry? he
  simp only [modify, mk.injEq]
  refine List.map_congr_left fun kv hkv => ?_
  rw [hl] at hkv
  rcases List.mem_append.mp hkv with h₁ | h₂
  · simp [hne kv (List.mem_append_left _ h₁)]
  · obtain rfl | h₂ := List.mem_cons.mp h₂
    · simp [hfg]
    · simp [hne kv (List.mem_append_right _ h₂)]

theorem perm_modify (h : m.get? key = some v) (f : ν → ν) :
    (v :: (m.modify key f).values).Perm (f v :: m.values) := by
  obtain ⟨k₀, he⟩ := exists_getEntry? h
  obtain ⟨hk, l₁, l₂, hl, hne⟩ := split_of_getEntry? he
  have fixed : ∀ l : List (κ × ν), (∀ kv ∈ l, (key == kv.1) = false) →
      l.map (fun kv => if key == kv.1 then (kv.1, f kv.2) else kv) = l := by
    intro l hnot
    refine (List.map_congr_left fun kv hkv => ?_).trans (List.map_id l)
    simp [hnot kv hkv]
  have h₁ := fixed l₁ fun kv hkv => hne kv (List.mem_append_left _ hkv)
  have h₂ := fixed l₂ fun kv hkv => hne kv (List.mem_append_right _ hkv)
  have hm : (m.modify key f).values = l₁.map Prod.snd ++ f v :: l₂.map Prod.snd := by
    simp only [values, modify, hl, List.map_append, List.map_cons, h₁, h₂, hk, if_true]
  have hv : m.values = l₁.map Prod.snd ++ v :: l₂.map Prod.snd := by simp [values, hl]
  rw [hm, hv]
  exact ((List.perm_middle.cons v).trans (.swap _ _ _)).trans (List.perm_middle.symm.cons (f v))

/-! ## `erase` -/

theorem get?_erase (m : HashMap κ ν) (key k : κ) :
    (m.erase key).get? k = if key == k then none else m.get? k := by
  cases h : m.get? key with
  | none =>
    rw [erase_of_get?_none h]
    split
    · next hk => rw [← get?_congr hk, h]
    · rfl
  | some v =>
    obtain ⟨k₀, he⟩ := exists_getEntry? h
    obtain ⟨hk₀, l₁, l₂, hl, hne⟩ := split_of_getEntry? he
    by_cases hk : key == k
    · rw [if_pos hk, get?_eq_none_iff, toList_erase hk₀ hl hne]
      intro kv hkv
      rw [← BEq.congr_left hk]
      exact hne kv hkv
    · have : (k == k₀) = false := by
        rw [BEq.comm, ← BEq.congr_left hk₀]
        simpa using hk
      rw [if_neg hk, get?_eq, get?_eq, toList_erase hk₀ hl hne, hl]
      simp [List.find?_append, this]

theorem get?_of_get?_erase (h : (m.erase key).get? k = some v) : m.get? k = some v := by
  rw [get?_erase] at h
  split at h
  · cases h
  · exact h

theorem perm_erase (h : m.get? key = some v) : m.values.Perm (v :: (m.erase key).values) := by
  obtain ⟨k₀, he⟩ := exists_getEntry? h
  obtain ⟨hk, l₁, l₂, hl, hne⟩ := split_of_getEntry? he
  simp [values, toList_erase hk hl hne, hl]

theorem mem_of_mem_erase {kv : κ × ν} (h : kv ∈ (m.erase key).toList) :
    kv ∈ m.toList ∧ (key == kv.1) = false := by
  refine ⟨List.mem_of_mem_eraseP h, ?_⟩
  have hget := get?_of_mem h
  rw [get?_erase] at hget
  split at hget
  · cases hget
  · next hne => simpa using hne

/-- A sum over the values, that under one key apart. -/
theorem sum_erase (m : HashMap κ ν) (key : κ) (f : ν → Nat) :
    (m.values.map f).sum = ((m.get? key).map f).getD 0 + ((m.erase key).values.map f).sum := by
  cases hget : m.get? key with
  | none => simp [erase_of_get?_none hget]
  | some v => simpa using ((perm_erase hget).map f).sum_eq

/-- A sum over the values that vanishes off a list of distinct keys is a sum over that list. -/
theorem sum_values_eq {f : ν → Nat} {ks : List κ}
    (hd : ks.Pairwise fun a b => (a == b) = false)
    (hf : ∀ kv ∈ m.toList, f kv.2 ≠ 0 → ∃ k ∈ ks, (k == kv.1) = true) :
    (m.values.map f).sum = (ks.map fun k => ((m.get? k).map f).getD 0).sum := by
  induction ks generalizing m with
  | nil =>
    refine List.sum_eq_zero fun x hx => ?_
    simp only [values, List.map_map, List.mem_map] at hx
    obtain ⟨kv, hkv, rfl⟩ := hx
    by_contra hne
    obtain ⟨k, hk, -⟩ := hf kv hkv hne
    cases hk
  | cons k ks ih =>
    obtain ⟨hk, hks⟩ := List.pairwise_cons.mp hd
    have hrest := ih (m := m.erase k) hks fun kv hkv hne => by
      obtain ⟨hin, hother⟩ := mem_of_mem_erase hkv
      obtain ⟨k', hk', heq⟩ := hf kv hin hne
      rcases List.mem_cons.mp hk' with rfl | hk'
      · rw [hother] at heq
        cases heq
      · exact ⟨k', hk', heq⟩
    have hsame : (ks.map fun k' => (((m.erase k).get? k').map f).getD 0) =
        ks.map fun k' => ((m.get? k').map f).getD 0 :=
      List.map_congr_left fun k' hk' => by rw [get?_erase, hk k' hk']; rfl
    rw [hsame] at hrest
    rw [List.map_cons, List.sum_cons, ← hrest]
    exact sum_erase m k f

/-! ## `put` -/

@[simp] theorem put_fst (m : HashMap κ ν) (key : κ) (v : ν) : (m.put key v).1 = m.get? key := by
  unfold put
  split <;> simp_all

theorem put_of_get?_some (h : m.get? key = some v₀) (v : ν) :
    (m.put key v).2 = m.modify key fun _ => v := by
  unfold put
  split <;> simp_all

theorem toList_put_of_get?_none (h : m.get? key = none) (v : ν) :
    (m.put key v).2.toList = m.toList ++ [(key, v)] := by
  unfold put
  split <;> simp_all

theorem get?_put (m : HashMap κ ν) (key : κ) (v : ν) (k : κ) :
    (m.put key v).2.get? k = if key == k then some v else m.get? k := by
  cases h : m.get? key with
  | some v₀ =>
    rw [put_of_get?_some h, get?_modify]
    split
    · next hk => rw [← get?_congr hk, h, Option.map_some]
    · rfl
  | none =>
    rw [get?_eq, toList_put_of_get?_none h, List.find?_append]
    by_cases hk : key == k
    · have hnone := h
      rw [get?_congr hk, get?_eq, Option.map_eq_none_iff] at hnone
      simp [hnone, hk, BEq.symm hk]
    · have hk' : (k == key) = false := by rw [BEq.comm]; simpa using hk
      simp [hk, hk', get?_eq]

/-- What `put` does to the values, as multisets. -/
theorem perm_put (m : HashMap κ ν) (key : κ) (v : ν) :
    ((m.get? key).toList ++ (m.put key v).2.values).Perm (v :: m.values) := by
  cases h : m.get? key with
  | some v₀ =>
    rw [put_of_get?_some h]
    simpa using perm_modify h fun _ => v
  | none =>
    simp only [values, toList_put_of_get?_none h, Option.toList_none, List.nil_append,
      List.map_append, List.map_cons, List.map_nil]
    exact List.perm_append_singleton _ _

end HashMap

/-- Amounts `f` on the elements of `xs`, each positive one on some entry of `es`, are together
at most the sum of the bounds `b`, if those on each entry are at most its bound. -/
theorem sum_le_sum_of_cover {α β : Type*} {xs : List α} {es : List β} {m : α → β → Bool}
    {f : α → Nat} {b : β → Nat} (hcover : ∀ x ∈ xs, f x ≠ 0 → ∃ e ∈ es, m x e = true)
    (hle : ∀ e ∈ es, (xs.map fun x => if m x e then f x else 0).sum ≤ b e) :
    (xs.map f).sum ≤ (es.map b).sum := by
  induction es generalizing f with
  | nil =>
    refine Nat.le_of_eq (List.sum_eq_zero fun y hy => ?_)
    obtain ⟨x, hx, rfl⟩ := List.mem_map.mp hy
    by_contra hne
    obtain ⟨e, he, -⟩ := hcover x hx hne
    cases he
  | cons e es ih =>
    have hsplit : (xs.map f).sum = (xs.map fun x => if m x e then f x else 0).sum +
        (xs.map fun x => if m x e then 0 else f x).sum := by
      rw [← List.sum_map_add]
      congr 2
      funext x
      split <;> simp
    have hrest : (xs.map fun x => if m x e then 0 else f x).sum ≤ (es.map b).sum := by
      refine ih (fun x hx hne => ?_) fun e' he' => ?_
      · obtain ⟨hoff, hne⟩ := ite_ne_left_iff.mp hne
        obtain ⟨e', he', hon⟩ := hcover x hx hne.symm
        rcases List.mem_cons.mp he' with rfl | he'
        · exact absurd hon hoff
        · exact ⟨e', he', hon⟩
      · refine le_trans (List.sum_le_sum fun x _ => ?_) (hle e' (List.mem_cons_of_mem _ he'))
        by_cases hon : m x e' = true <;> by_cases hoff : m x e = true <;> simp [hon, hoff]
    rw [hsplit, List.map_cons, List.sum_cons]
    exact Nat.add_le_add (hle e List.mem_cons_self) hrest

end Keyed
