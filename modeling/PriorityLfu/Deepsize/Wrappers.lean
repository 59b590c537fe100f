import PriorityLfu.Deepsize.Value
import PriorityLfu.Deepsize.Words
import Mathlib.Algebra.Order.BigOperators.Group.Finset

/-!
# Wrappers and the heap they hold

A call owns what it counts if it counts the same in every context that has seen none of its
allocations, and marks no others: `Sizing.Owns`. Calls that own disjoint allocations can be made
in any context one after the other, so that the amount a wrapper counts is settled by its type
and by the amounts of its parts. A build counts it if it is a word.
-/
namespace PriorityLfu.Deepsize
open Sizing

namespace Sizing

variable {f g : Sizing Nat} {n m : Nat} {p q : Set Pointer} {a b : Set Nat}

/-- Unless one of `pointers` was seen or one of `mutexes` is held, the call counts `heap`, and
marks nothing but `pointers`. -/
def Owns (f : Sizing Nat) (heap : Nat) (pointers : Set Pointer) (mutexes : Set Nat) : Prop :=
  ∀ held c, (∀ a ∈ mutexes, a ∉ held) → Disjoint pointers c.seen →
    ∃ d, f held c = some (heap, d) ∧ d.seen ⊆ c.seen ∪ pointers

theorem owns_const (n : Nat) : (const n).Owns n ∅ ∅ :=
  fun _ c _ _ => ⟨c, rfl, Set.subset_union_left⟩

theorem Owns.mono (h : f.Owns n p a) (hp : p ⊆ q) (ha : a ⊆ b) : f.Owns n q b := by
  intro held c hb hq
  obtain ⟨d, hd, hs⟩ := h held c (fun x hx => hb x (ha hx)) (hq.mono_left hp)
  exact ⟨d, hd, hs.trans (Set.union_subset_union_right _ hp)⟩

theorem Owns.add (hf : f.Owns n p a) (hg : g.Owns m q b) (hd : Disjoint p q) :
    (f + g).Owns (n + m) (p ∪ q) (a ∪ b) := by
  intro held c hheld hseen
  obtain ⟨hp, hq⟩ := Set.disjoint_union_left.mp hseen
  obtain ⟨d, hfd, hds⟩ := hf held c (fun x hx => hheld x (Or.inl hx)) hp
  have hqd : Disjoint q d.seen :=
    (Set.disjoint_union_right.mpr ⟨hq, hd.symm⟩).mono_right hds
  obtain ⟨e, hge, hes⟩ := hg held d (fun x hx => hheld x (Or.inr hx)) hqd
  refine ⟨e, add_eq_some hfd hge, fun x hx => ?_⟩
  have := hds
  have := hes hx
  grind

theorem Owns.sum {k : Nat} {f : Fin k → Sizing Nat} {n : Fin k → Nat} {p : Fin k → Set Pointer}
    {a : Fin k → Set Nat} (h : ∀ i, (f i).Owns (n i) (p i) (a i))
    (hd : ∀ i j, i ≠ j → Disjoint (p i) (p j)) :
    (List.ofFn f).sum.Owns (∑ i, n i) (⋃ i, p i) (⋃ i, a i) := by
  induction k with
  | zero =>
    simp only [List.ofFn_zero, List.sum_nil, Finset.univ_eq_empty, Finset.sum_empty]
    exact (owns_const 0).mono (Set.empty_subset _) (Set.empty_subset _)
  | succ k ih =>
    have htail := ih (fun i => h i.succ)
      (fun i j hij => hd i.succ j.succ fun e => hij (Fin.succ_injective _ e))
    have hhead : Disjoint (p 0) (⋃ i : Fin k, p i.succ) :=
      Set.disjoint_iUnion_right.mpr fun i => hd 0 i.succ (Fin.succ_ne_zero i).symm
    rw [List.ofFn_succ, List.sum_cons, Fin.sum_univ_succ]
    refine ((h 0).add htail hhead).mono ?_ ?_
    · exact Set.union_subset (Set.subset_iUnion p 0)
        (Set.iUnion_subset fun i => Set.subset_iUnion p i.succ)
    · exact Set.union_subset (Set.subset_iUnion a 0)
        (Set.iUnion_subset fun i => Set.subset_iUnion a i.succ)

end Sizing

/-- A mutex that is not within itself leaves the mutexes of its parts free. -/
theorem Shape.parts_free (s : Shape) {a : Fin s.arity → Set Nat} {held : Locks}
    (ha : ∀ i, Disjoint s.mutexes (a i)) (hheld : ∀ x ∈ s.mutexes ∪ ⋃ i, a i, x ∉ held) :
    ∀ x ∈ ⋃ i, a i, x ∉ s.locks ++ held := by
  intro x hx hmem
  obtain ⟨i, hi⟩ := Set.mem_iUnion.mp hx
  rcases List.mem_append.mp hmem with hs | hh
  · exact Set.disjoint_left.mp (ha i) hs hi
  · exact hheld x (Or.inr hx) hh

/-- The rule of a type that looks at its parts. -/
theorem Shape.owns {s : Shape} {parts : Fin s.arity → Component Nat} {n : Fin s.arity → Nat}
    {p : Fin s.arity → Set Pointer} {a : Fin s.arity → Set Nat} (hidle : s.Idle)
    (hpoison : s.poisoned = false) (hbound : s.isBound = false)
    (h : ∀ i, (parts i).children.Owns (n i) (p i) (a i))
    (hd : ∀ i j, i ≠ j → Disjoint (p i) (p j)) (ha : ∀ i, Disjoint s.mutexes (a i)) :
    (s.children parts).Owns (s.heap (fun i => (parts i).size) + ∑ i, n i) (⋃ i, p i)
      (s.mutexes ∪ ⋃ i, a i) := by
  intro held c hheld hseen
  obtain ⟨d, hsum, hd⟩ := Owns.sum h hd (s.locks ++ held) c (s.parts_free ha hheld) hseen
  exact ⟨d, Shape.children_eq_some hidle hpoison hbound (fun x hx => hheld x (Or.inl hx)) hsum,
    hd⟩

/-- The rule of a bound and of a poisoned lock. -/
theorem Shape.owns_zero {s : Shape} {parts : Fin s.arity → Component Nat}
    (h : s.poisoned = true ∨ s.isBound = true) : (s.children parts).Owns 0 ∅ s.mutexes :=
  fun _ c hheld _ => ⟨c, Shape.children_eq_zero hheld h, Set.subset_union_left⟩

/-! ## Wrappers in words -/

namespace Shape

variable {checks : Bool} {w : Nat} {s : Shape}

theorem sum_fit {k : Nat} (parts : Fin k → Component Nat) :
    (((List.ofFn parts).map Component.children).sum.fit : Sizing (Usize checks w)) =
      ((List.ofFn fun i => (parts i).fit).map Component.children).sum := by
  rw [fit_sum, List.map_ofFn, List.map_ofFn]
  rfl

/-- In a build a type counts what it counts exactly, as a word. -/
theorem children_fit {parts : Fin s.arity → Component Nat}
    (hsized : s.heap (fun i => (parts i).size) < 2 ^ w) :
    s.children (fun i => (parts i).fit) = ((s.children parts).fit : Sizing (Usize checks w)) := by
  cases s with
  | option isSome =>
    cases isSome with
    | true => rfl
    | false => exact fit_zero.symm
  | result isOk => cases isOk <;> rfl
  | tuple n =>
    have hfold {β : Type} [Amount β] (fields : List (Component β)) :
        Deepsize.tuple fields = (fields.map Component.children).sum :=
      (foldl_add_eq Component.children fields 0).trans (zero_add _)
    simp only [children, hfold]
    exact (sum_fit parts).symm
  | array n => exact (sum_fit parts).symm
  | slice n => exact (sum_fit parts).symm
  | refCell borrowed => cases borrowed <;> rfl
  | mutex addr state =>
    funext held c
    by_cases haddr : addr ∈ held
    · simp [children, Deepsize.mutex, fit, haddr]
    · cases state with
      | free => simp [children, Deepsize.mutex, fit, haddr, Component.fit]
      | locked => simp [children, Deepsize.mutex, fit, haddr]
      | poisoned =>
        have hcall : children (.mutex addr .poisoned) parts held c = some (0, c) := by
          simp [children, Deepsize.mutex, haddr, Amount.ofNat]
        have hzero : (fit 0 : Sizing (Usize checks w)) held c = some (Amount.ofNat 0, c) :=
          congrFun (congrFun fit_zero held) c
        rw [fit_apply (Sizing.zero_apply held c)] at hzero
        rw [fit_apply hcall]
        refine Eq.trans ?_ hzero.symm
        simp [children, Deepsize.mutex, haddr]
  | rwLock state =>
    cases state with
    | free => rfl
    | locked => rfl
    | poisoned => exact fit_zero.symm
  | bound isBounded => cases isBounded <;> exact fit_zero.symm
  | box =>
    have hbox {β : Type} [Amount β] (val : Component β) :
        Deepsize.box val = const val.size + val.children := rfl
    have hsize : (const (parts (0 : Fin 1)).size).fit = (const _ : Sizing (Usize checks w)) :=
      fit_const hsized
    simp only [children, hbox, fit_add, hsize]
    rfl
  | vec elem capacity len =>
    have hvec {β : Type} [Amount β] (items : List (Component β)) :
        Deepsize.vec elem capacity items =
          (items.map Component.children).sum + product capacity elem.size := rfl
    simp only [children, hvec, fit_add, fit_product hsized]
    rw [sum_fit]

/-- A cell that is borrowed mutably and a lock that is held do not let the call return. -/
theorem children_eq_none {β : Type} [Amount β] {parts : Fin s.arity → Component β} {held : Locks}
    {c : Context} (hbusy : ¬ (s.Idle ∧ ∀ a ∈ s.mutexes, a ∉ held)) :
    s.children parts held c = none := by
  cases s with
  | refCell borrowed =>
    cases borrowed with
    | true => rfl
    | false => exact absurd ⟨rfl, fun _ ha => absurd ha List.not_mem_nil⟩ hbusy
  | mutex addr state =>
    by_cases haddr : addr ∈ held
    · simp [children, Deepsize.mutex, haddr]
    · have hlocked : state = .locked := by
        by_contra hfree
        refine hbusy ⟨hfree, fun a ha => ?_⟩
        rwa [List.mem_singleton.mp ha]
      simp [children, Deepsize.mutex, haddr, hlocked]
  | rwLock state =>
    have hlocked : state = .locked := by
      by_contra hfree
      exact hbusy ⟨hfree, fun _ ha => absurd ha List.not_mem_nil⟩
    simp [children, Deepsize.rwLock, hlocked, diverge]
  | _ => exact absurd ⟨trivial, fun _ ha => absurd ha List.not_mem_nil⟩ hbusy

end Shape

/-! ## Values without sharing -/

/-- A component of any type that shares nothing: its call owns what it counts. -/
structure Owned (checks : Bool) (w : Nat) where
  component : Component (Usize checks w)
  heap : Nat
  pointers : Set Pointer
  mutexes : Set Nat
  owns : component.children.exact.Owns heap pointers mutexes

variable {checks : Bool} {w : Nat}

instance : Leaf (Owned checks w) where
  size l := l.component.size
  heap := Owned.heap
  pointers := Owned.pointers
  mutexes := Owned.mutexes

namespace Value

variable {s : Shape} {n : Nat} {parts : Fin s.arity → Value (Owned checks w)}

def children (v : Value (Owned checks w)) : Sizing (Usize checks w) :=
  (v.component fun l => l.component.children).children

/-- The call with exact sums. -/
def exact (v : Value (Owned checks w)) : Component Nat :=
  v.component fun l => l.component.children.exact

/-- A value in memory without sharing. -/
structure Exclusive (v : Value (Owned checks w)) : Prop where
  unshared : ∀ s n parts, (of s n parts).Within v →
    ∀ i j, i ≠ j → Disjoint (parts i).pointers (parts j).pointers
  nest : v.MutexesNest
  unpoisoned : v.Every fun s => s.poisoned = false
  sized : ∀ s n parts, (of s n parts).Within v → s.heap (fun i => (parts i).size) < 2 ^ w

/-- No lock within the value is held, and no cell is borrowed mutably. -/
def Quiet (held : Locks) (v : Value (Owned checks w)) : Prop :=
  v.Every fun s => s.Idle ∧ ∀ a ∈ s.mutexes, a ∉ held

/-- No `Bound` within the value holds heap. -/
def BoundsEmpty (v : Value (Owned checks w)) : Prop :=
  ∀ b n parts, (of (.bound b) n parts).Within v → ∀ i, (parts i).heap = 0

/-- A composite counts at least the sum of what its parts' own calls count. -/
def Covers (held : Locks) (c : Context) : Value (Owned checks w) → Prop
  | .leaf _ => True
  | .of s n parts => ∃ amount d, (of s n parts).children held c = some (amount, d) ∧
      ∃ amounts : Fin s.arity → Usize checks w,
        (∀ i, ∃ e, (parts i).children held c = some (amounts i, e)) ∧
          ∑ i, (amounts i).toNat ≤ amount.toNat

theorem Exclusive.part (h : (of s n parts).Exclusive) (i : Fin s.arity) :
    (parts i).Exclusive where
  unshared s' n' parts' hw := h.unshared s' n' parts' (hw.part i)
  nest := h.nest.part i
  unpoisoned := h.unpoisoned.part i
  sized s' n' parts' hw := h.sized s' n' parts' (hw.part i)

theorem Exclusive.leaf (l : Owned checks w) : (Value.leaf l).Exclusive where
  unshared _ _ _ hw := nomatch hw
  nest _ _ _ hw := nomatch hw
  unpoisoned _ _ _ hw := nomatch hw
  sized _ _ _ hw := nomatch hw

/-- A value is exclusive if its parts are and share nothing with each other. -/
theorem Exclusive.of (hparts : ∀ i, (parts i).Exclusive)
    (hd : ∀ i j, i ≠ j → Disjoint (parts i).pointers (parts j).pointers)
    (hn : ∀ i, Disjoint s.mutexes (parts i).mutexes) (hpoison : s.poisoned = false)
    (hsized : s.heap (fun i => (parts i).size) < 2 ^ w) : (Value.of s n parts).Exclusive where
  unshared s' n' parts' hw := by
    cases hw with
    | refl => exact hd
    | part i hw => exact (hparts i).unshared s' n' parts' hw
  nest s' n' parts' hw := by
    cases hw with
    | refl => exact hn
    | part i hw => exact (hparts i).nest s' n' parts' hw
  unpoisoned s' n' parts' hw := by
    cases hw with
    | refl => exact hpoison
    | part i hw => exact (hparts i).unpoisoned s' n' parts' hw
  sized s' n' parts' hw := by
    cases hw with
    | refl => exact hsized
    | part i hw => exact (hparts i).sized s' n' parts' hw

/-- A type around a single part, without a mutex of its own. -/
theorem Exclusive.wrap (hone : s.arity ≤ 1) (hfree : s.locks = []) (hpoison : s.poisoned = false)
    (hsized : s.heap (fun i => (parts i).size) < 2 ^ w) (hparts : ∀ i, (parts i).Exclusive) :
    (Value.of s n parts).Exclusive := by
  refine .of hparts (fun i j hij => ?_) (fun i => ?_) hpoison hsized
  · exact absurd (Fin.ext (by omega)) hij
  · have hnone : s.mutexes = ∅ := by simp [Shape.mutexes, hfree]
    rw [hnone]
    exact Set.empty_disjoint _

theorem BoundsEmpty.part (h : (of s n parts).BoundsEmpty) (i : Fin s.arity) :
    (parts i).BoundsEmpty :=
  fun b n' parts' hw => h b n' parts' (hw.part i)

section within

variable {u v : Value (Owned checks w)}

theorem Within.trans {t : Value (Owned checks w)} (htu : t.Within u) (huv : u.Within v) :
    t.Within v := by
  induction huv with
  | refl => exact htu
  | part i _ ih => exact ih.part i

/-- What lies within an exclusive value is exclusive. -/
theorem Exclusive.within (h : u.Within v) (hv : v.Exclusive) : u.Exclusive := by
  induction h with
  | refl => exact hv
  | part i _ ih => exact ih (hv.part i)

theorem BoundsEmpty.within (h : u.Within v) (hv : v.BoundsEmpty) : u.BoundsEmpty :=
  fun b n parts hw => hv b n parts (hw.trans h)

theorem Quiet.within {held : Locks} (h : u.Within v) (hv : v.Quiet held) : u.Quiet held :=
  fun s n parts hw => hv s n parts (hw.trans h)

theorem Within.pointers (h : u.Within v) : u.pointers ⊆ v.pointers := by
  induction h with
  | refl => exact subset_rfl
  | part i _ ih => exact ih.trans (Set.subset_iUnion_of_subset i subset_rfl)

/-- What lies within a value has no more heap. -/
theorem Within.heap_le (h : u.Within v) : u.heap ≤ v.heap := by
  induction h with
  | refl => exact le_rfl
  | @part s n parts i _ ih =>
    have hone : (parts i).heap ≤ ∑ j, (parts j).heap :=
      Finset.single_le_sum (fun j _ => Nat.zero_le (parts j).heap) (Finset.mem_univ i)
    have hall : (Value.of s n parts).heap =
      s.heap (fun i => (parts i).size) + ∑ j, (parts j).heap := rfl
    omega

end within

/-- The mutexes of a value are those of its types and of its leaves. -/
theorem mutexes_free {held : Locks} (v : Value (Owned checks w)) (hv : v.Quiet held)
    (hleaves : ∀ l, (Value.leaf l).Within v → ∀ a ∈ l.mutexes, a ∉ held) :
    ∀ a ∈ v.mutexes, a ∉ held := by
  induction v with
  | leaf l => exact hleaves l .refl
  | of s n parts ih =>
    rintro a (ha | ha)
    · exact hv.shape.2 a ha
    · obtain ⟨i, hi⟩ := Set.mem_iUnion.mp ha
      exact ih i (Every.part hv i) (fun l hw => hleaves l (hw.part i)) a hi

/-! ### Exact calls and calls in words -/

/-- As long as no bound hides any, a value counts the heap it holds. -/
theorem owns_heap (v : Value (Owned checks w)) (hv : v.Exclusive) (hidle : v.Every Shape.Idle)
    (hb : v.BoundsEmpty) : v.exact.children.Owns v.heap v.pointers v.mutexes := by
  induction v with
  | leaf l => exact l.owns
  | of s n parts ih =>
    have hparts : ∀ i, (parts i).exact.children.Owns (parts i).heap (parts i).pointers
        (parts i).mutexes := fun i => ih i (hv.part i) (hidle.part i) (hb.part i)
    cases hs : s.isBound with
    | false =>
      have hnode := Shape.owns hidle.shape hv.unpoisoned.shape hs hparts
        (hv.unshared s n parts .refl) hv.nest.disjoint
      simp only [exact, component_size] at hnode
      exact hnode
    | true =>
      obtain ⟨b, rfl⟩ : ∃ b, s = .bound b := by cases s <;> simp_all [Shape.isBound]
      have hzero : (of (.bound b) n parts).heap = 0 := by
        have hall : ∀ i, (parts i).heap = 0 := hb b n parts .refl
        simp [heap, Shape.heap, hall]
      rw [hzero]
      exact (Shape.owns_zero (Or.inr rfl)).mono (Set.empty_subset _) Set.subset_union_left

/-- What a value counts in a build is what it counts exactly, as a word. -/
theorem component_eq_fit (v : Value (Owned checks w)) (hv : v.Exclusive) :
    (v.component fun l => l.component.children) = v.exact.fit := by
  induction v with
  | leaf l => exact l.component.fit_exact.symm
  | of s n parts ih =>
    have hsized : s.heap (fun i => (parts i).exact.size) < 2 ^ w := by
      simp only [exact, component_size]
      exact hv.sized s n parts .refl
    have hparts : (fun i => (parts i).component fun l : Owned checks w => l.component.children) =
        fun i => (parts i).exact.fit := funext fun i => ih i (hv.part i)
    refine congrArg (Component.mk n) ?_
    rw [hparts]
    exact Shape.children_fit hsized

/-- A call that starts with nothing of the value seen counts its heap, as a word. -/
theorem children_eq_fit {held : Locks} {c : Context} (v : Value (Owned checks w))
    (hv : v.Exclusive) (hq : v.Quiet held) (hb : v.BoundsEmpty)
    (hleaves : ∀ l, (Value.leaf l).Within v → ∀ a ∈ l.mutexes, a ∉ held)
    (hc : Disjoint v.pointers c.seen) :
    ∃ d, v.children held c = (Usize.fit v.heap).map fun x => (x, d) := by
  have hidle : v.Every Shape.Idle := fun s n parts hw => (hq s n parts hw).1
  obtain ⟨d, hd, -⟩ := v.owns_heap hv hidle hb held c (v.mutexes_free hq hleaves) hc
  refine ⟨d, ?_⟩
  rw [children, v.component_eq_fit hv]
  exact fit_apply hd

/-! ### When components are covered -/

section covers

variable {held : Locks} {c : Context}

theorem children_eq_some {v : Value (Owned checks w)} (hv : v.Exclusive) (hq : v.Quiet held)
    (hb : v.BoundsEmpty) (hleaves : ∀ l, (Value.leaf l).Within v → ∀ a ∈ l.mutexes, a ∉ held)
    (hc : Disjoint v.pointers c.seen) (hfits : v.heap < 2 ^ w) :
    ∃ x d, v.children held c = some (x, d) ∧ x.toNat = v.heap := by
  obtain ⟨d, hd⟩ := v.children_eq_fit hv hq hb hleaves hc
  obtain ⟨x, hx, hheap⟩ := Usize.fit_of_lt (w := w) hfits
  exact ⟨x, d, hd.trans (congrArg _ hx), hheap⟩

theorem covers_of_fits (v : Value (Owned checks w)) (hv : v.Exclusive) (hq : v.Quiet held)
    (hb : v.BoundsEmpty) (hleaves : ∀ l, (Value.leaf l).Within v → ∀ a ∈ l.mutexes, a ∉ held)
    (hc : Disjoint v.pointers c.seen) (hfits : v.heap < 2 ^ w) : v.Covers held c := by
  have hcall : ∀ u : Value (Owned checks w), u.Within v →
      ∃ x d, u.children held c = some (x, d) ∧ x.toNat = u.heap := fun u hu =>
    children_eq_some (hv.within hu) (hq.within hu) (hb.within hu)
      (fun l hw => hleaves l (hw.trans hu)) (hc.mono_left hu.pointers)
      (hu.heap_le.trans_lt hfits)
  cases v with
  | leaf l => trivial
  | of s n parts =>
    obtain ⟨x, d, hx, hheap⟩ := hcall _ .refl
    choose amounts e hamounts hheaps using fun i => hcall (parts i) (.part i .refl)
    refine ⟨x, d, hx, amounts, fun i => ⟨e i, hamounts i⟩, ?_⟩
    simp only [hheaps, hheap]
    exact Nat.le_add_left ..

theorem children_bound {b : Bool} {parts : Fin (Shape.bound b).arity → Value (Owned checks w)} :
    (of (.bound b) n parts).children held c = some (Amount.ofNat 0, c) :=
  Shape.children_eq_zero (fun _ ha => nomatch ha) (Or.inr rfl)

/-- Parts that are known to count their heap own none if a bound that counts 0 covers them. -/
theorem heap_eq_zero_of_covers {b : Bool}
    {parts : Fin (Shape.bound b).arity → Value (Owned checks w)}
    (h : (of (.bound b) n parts).Covers held c)
    (hcall : ∀ i, ∃ x d, (parts i).children held c = some (x, d) ∧ x.toNat = (parts i).heap)
    (i : Fin (Shape.bound b).arity) : (parts i).heap = 0 := by
  obtain ⟨amount, d, hamount, amounts, hamounts, hle⟩ := h
  obtain ⟨e, he⟩ := hamounts i
  obtain ⟨x, e', he', hheap⟩ := hcall i
  rw [he] at he'
  cases he'
  rw [children_bound] at hamount
  cases hamount
  have hi : (amounts i).toNat ≤ ∑ i, (amounts i).toNat :=
    Finset.single_le_sum (fun j _ => Nat.zero_le (amounts j).toNat) (Finset.mem_univ i)
  have hzero : (Amount.ofNat 0 : Usize checks w).toNat = 0 := BitVec.toNat_zero
  omega

/-- Where all types return, no lock is held. -/
theorem quiet_of_covers (v : Value (Owned checks w))
    (h : ∀ u : Value (Owned checks w), u.Within v → u.Covers held c) : v.Quiet held := by
  intro s n parts hw
  by_contra hbusy
  obtain ⟨amount, d, hcall, -⟩ := h _ hw
  have hnone : (of s n parts).children held c = none := Shape.children_eq_none hbusy
  rw [hnone] at hcall
  cases hcall

/-- Where all types cover their parts, no bound hides any and no sum overflows. -/
theorem fits_of_covers (v : Value (Owned checks w)) (hv : v.Exclusive) (hq : v.Quiet held)
    (hleaves : ∀ l, (Value.leaf l).Within v → ∀ a ∈ l.mutexes, a ∉ held)
    (hc : Disjoint v.pointers c.seen)
    (h : ∀ u : Value (Owned checks w), u.Within v → u.Covers held c) :
    v.BoundsEmpty ∧ v.heap < 2 ^ w := by
  induction v with
  | leaf l =>
    refine ⟨fun _ _ _ hw => (nomatch hw), ?_⟩
    obtain ⟨d, hd, -⟩ := l.owns held c (hleaves l .refl) hc
    obtain ⟨⟨x, e⟩, -, hx⟩ := Option.map_eq_some_iff.mp hd
    have hheap : x.toNat = l.heap := congrArg Prod.fst hx
    exact hheap.symm.trans_lt (BitVec.isLt x)
  | of s n parts ih =>
    have hpointers : ∀ i, Disjoint (parts i).pointers c.seen := fun i =>
      hc.mono_left (Within.pointers (.part i .refl))
    have hparts : ∀ i, (parts i).BoundsEmpty ∧ (parts i).heap < 2 ^ w := fun i =>
      ih i (hv.part i) (Every.part hq i) (fun l hw => hleaves l (hw.part i)) (hpointers i)
        fun u hu => h u (hu.part i)
    have hcall : ∀ i, ∃ x d, (parts i).children held c = some (x, d) ∧
        x.toNat = (parts i).heap := fun i =>
      children_eq_some (hv.part i) (Every.part hq i) (hparts i).1
        (fun l hw => hleaves l (hw.part i)) (hpointers i) (hparts i).2
    have hempty : (of s n parts).BoundsEmpty := by
      intro b n' parts' hw
      cases hw with
      | part i hw => exact (hparts i).1 b n' parts' hw
      | refl => exact heap_eq_zero_of_covers (h _ .refl) hcall
    refine ⟨hempty, ?_⟩
    obtain ⟨d, hd⟩ := (of s n parts).children_eq_fit hv hq hempty hleaves hc
    obtain ⟨amount, d', hamount, amounts, hamounts, hle⟩ := h _ .refl
    have hheaps : ∀ i, (amounts i).toNat = (parts i).heap := by
      intro i
      obtain ⟨x, e, hx, hheap⟩ := hcall i
      obtain ⟨e', he'⟩ := hamounts i
      rw [hx] at he'
      cases he'
      exact hheap
    simp only [hheaps] at hle
    rw [hd] at hamount
    obtain ⟨x, hx, hsame⟩ := Option.map_eq_some_iff.mp hamount
    cases hsame
    exact Usize.lt_of_fit hx (hv.sized s n parts .refl) hle

/-- Every composite within a value counts at least what its parts count, exactly if no `Bound`
within the value holds heap, no lock is held and no cell borrowed mutably, and the heap of the value
is a word. -/
theorem covers_iff (v : Value (Owned checks w)) (hv : v.Exclusive)
    (hleaves : ∀ l, (Value.leaf l).Within v → ∀ a ∈ l.mutexes, a ∉ held)
    (hc : Disjoint v.pointers c.seen) :
    (∀ u : Value (Owned checks w), u.Within v → u.Covers held c) ↔
      v.BoundsEmpty ∧ v.Quiet held ∧ v.heap < 2 ^ w := by
  constructor
  · intro h
    have hq := v.quiet_of_covers h
    obtain ⟨hb, hfits⟩ := v.fits_of_covers hv hq hleaves hc h
    exact ⟨hb, hq, hfits⟩
  · rintro ⟨hb, hq, hfits⟩ u hu
    exact u.covers_of_fits (hv.within hu) (hq.within hu) (hb.within hu)
      (fun l hw => hleaves l (hw.trans hu)) (hc.mono_left hu.pointers)
      (hu.heap_le.trans_lt hfits)

end covers

/-- A value of a type without heap. -/
def plain (size : Nat) : Owned checks w where
  component := ⟨size, knownDeepSize 0⟩
  heap := 0
  pointers := ∅
  mutexes := ∅
  owns := exact_const (Nat.two_pow_pos w) ▸ owns_const 0

/-- `Some(Box::new(0u64))` -/
def someBox : Value (Owned true 64) :=
  .of (.option true) 8 fun (_ : Fin 1) => .of .box 8 fun (_ : Fin 1) => .leaf (plain 8)

/-- `Bound::Included(Box::new(0u64))` -/
def includedBox : Value (Owned true 64) :=
  .of (.bound true) 16 fun (_ : Fin 1) => .of .box 8 fun (_ : Fin 1) => .leaf (plain 8)

theorem exclusive_box :
    (Value.of .box 8 fun (_ : Fin 1) => .leaf (plain 8) : Value (Owned true 64)).Exclusive :=
  .wrap le_rfl rfl rfl (by decide) fun _ => .leaf _

theorem covers_iff_someBox : someBox.heap = 8 ∧
    ∀ u : Value (Owned true 64), u.Within someBox → u.Covers [] .new := by
  have hleaves : ∀ l : Owned true 64, (Value.leaf l).Within someBox → ∀ a ∈ l.mutexes, a ∉ [] :=
    fun _ _ _ _ => List.not_mem_nil
  have hseen : Disjoint someBox.pointers Context.new.seen := by simp
  have hexclusive : someBox.Exclusive := .wrap le_rfl rfl rfl (by decide) fun _ => exclusive_box
  refine ⟨rfl, (covers_iff someBox hexclusive hleaves hseen).mpr ⟨?_, ?_, by decide⟩⟩
  · rintro b n parts (_ | ⟨i, _ | ⟨j, hw⟩⟩)
    cases hw
  · rintro s n parts (_ | ⟨i, _ | ⟨j, hw⟩⟩)
    · exact ⟨trivial, fun _ ha => nomatch ha⟩
    · exact ⟨trivial, fun _ ha => nomatch ha⟩
    · cases hw

/-- The 8 bytes of the box are lost behind the bound. -/
theorem includedBox_hides_heap :
    includedBox.Exclusive ∧ includedBox.Quiet [] ∧ ¬ includedBox.Covers [] .new := by
  refine ⟨.wrap le_rfl rfl rfl (by decide) fun _ => exclusive_box, ?_, fun h => ?_⟩
  · rintro s n parts (_ | ⟨i, _ | ⟨j, hw⟩⟩)
    · exact ⟨trivial, fun _ ha => nomatch ha⟩
    · exact ⟨trivial, fun _ ha => nomatch ha⟩
    · cases hw
  · have hbox := heap_eq_zero_of_covers h (fun _ => ⟨_, _, rfl, rfl⟩) (0 : Fin 1)
    exact absurd hbox (by decide)

end Value
end PriorityLfu.Deepsize
