import PriorityLfu.Deepsize.Wrappers
import PriorityLfu.Library.Explore

/-!
# Shared memory

Graphs of values with `Arc` and `Rc` pointers, which may share allocations and form cycles. The
context makes the recursion of `deep_size_of_children` a depth-first search: `Follows` says of a
call what it counts by itself, and that for the rest it explores its pointers. The rules of
`Follows` build the claim for a whole graph from the implementations.
-/
namespace PriorityLfu.Deepsize
open Sizing Explore

/-! ## Object graphs -/

/-- What stands at the leaves of an object: values without pointers, strings, and pointers to
counted allocations. -/
inductive Part
  | known (size heap : Nat)
  | string (size capacity : Nat)
  | pointer (size : Nat) (target : Pointer)

instance : Leaf Part where
  size
    | .known n _ | .string n _ | .pointer n _ => n
  heap
    | .known _ heap => heap
    | .string _ capacity => capacity
    | .pointer .. => 0
  pointers
    | .pointer _ p => {p}
    | _ => ∅
  mutexes _ := ∅

/-- A value owned by its holder, and the values its pointers lead to. -/
structure Objects where
  root : Value Part
  content : Pointer → Value Part
  live : Finset Pointer

/-- Objects of one memory: pointers lead to live allocations, and no two mutexes are at one
address. -/
structure ObjectGraph extends Objects where
  root_live : ∀ p ∈ root.pointers, p ∈ live
  content_live : ∀ p ∈ live, ∀ q ∈ (content p).pointers, q ∈ live
  root_nest : root.MutexesNest
  content_nest : ∀ p ∈ live, (content p).MutexesNest
  root_apart : ∀ p ∈ live, Disjoint (content p).mutexes root.mutexes
  content_apart : ∀ p ∈ live, ∀ q ∈ live, p ≠ q →
    Disjoint (content p).mutexes (content q).mutexes

/-- The implementation of `Arc` or `Rc`. -/
def Pointer.children : Pointer → Component Nat → Sizing Nat
  | .arc addr, val => Deepsize.arc addr val
  | .rc addr, val => Deepsize.rc addr val

/-- The calls at the leaves. Pointers are followed `fuel` deep, and deeper ones do not return. -/
def call (content : Pointer → Value Part) : Nat → Part → Sizing Nat
  | _, .known _ heap => knownDeepSize heap
  | _, .string _ capacity => Deepsize.string capacity
  | 0, .pointer _ p => p.children ⟨(content p).size, diverge⟩
  | fuel + 1, .pointer _ p => p.children ((content p).component (call content fuel))

/-- The call of a value in the memory of the objects. -/
def Objects.children (o : Objects) (fuel : Nat) (v : Value Part) : Sizing Nat :=
  (v.component (call o.content fuel)).children

/-- `deep_size_of` of the root. -/
def Objects.deepSizeOf (o : Objects) (fuel : Nat) : Option Nat :=
  (o.root.component (call o.content fuel)).deepSizeOf

/-! ## What should be counted -/

namespace Objects

def succ (o : Objects) (p : Pointer) : Set Pointer := (o.content p).pointers

open Classical in
/-- The allocations that the root leads to. -/
noncomputable def reached (o : Objects) : Finset Pointer :=
  {p ∈ o.live | Reaches o.succ o.root.pointers p}

/-- An allocation and the heap its content owns. -/
def weight (o : Objects) (p : Pointer) : Nat := (o.content p).size + (o.content p).heap

/-- The root, the heap it owns and every allocation it leads to. -/
noncomputable def accounted (o : Objects) : Nat :=
  o.root.size + o.root.heap + ∑ p ∈ o.reached, o.weight p

end Objects

/-- A poisoned lock and a bound do not let their parts be seen. -/
def Shape.hides (s : Shape) : Bool := s.poisoned || s.isBound

/-- The value as it is seen: what hides its parts holds none. -/
def Value.drained {α : Type} : Value α → Value α
  | .leaf l => .leaf l
  | .of s n parts =>
    if s.hides then .of (.tuple 0) n Fin.elim0
    else .of s n fun i => (parts i).drained

def Objects.drained (o : Objects) : Objects where
  root := o.root.drained
  content p := (o.content p).drained
  live := o.live

namespace Value

variable {α : Type} [Leaf α] {s : Shape} {n : Nat} {parts : Fin s.arity → Value α}

omit [Leaf α] in
theorem drained_of_hides (h : s.hides = true) :
    (of s n parts).drained = of (.tuple 0) n Fin.elim0 :=
  if_pos h

omit [Leaf α] in
theorem drained_of_open (h : s.hides = false) :
    (of s n parts).drained = of s n fun i => (parts i).drained :=
  if_neg (by simp [h])

@[simp] theorem size_drained (v : Value α) : v.drained.size = v.size := by
  cases v with
  | leaf l => rfl
  | of s n parts => cases h : s.hides <;> simp [drained, h, size]

theorem pointers_drained (v : Value α) : v.drained.pointers ⊆ v.pointers := by
  induction v with
  | leaf l => exact subset_rfl
  | of s n parts ih =>
    cases h : s.hides with
    | true =>
      rw [drained_of_hides h]
      exact Set.iUnion_subset fun i => i.elim0
    | false =>
      rw [drained_of_open h]
      exact Set.iUnion_mono ih

omit [Leaf α] in
/-- Without poisoned locks and bounds everything is seen. -/
theorem drained_eq_self (v : Value α) (h : v.Every fun s => s.hides = false) :
    v.drained = v := by
  induction v with
  | leaf l => rfl
  | of s n parts ih =>
    rw [drained_of_open h.shape]
    exact congrArg _ (funext fun i => ih i (h.part i))

end Value

theorem Objects.drained_eq_self (o : Objects) (hroot : o.root.Every fun s => s.hides = false)
    (hcontent : ∀ p, (o.content p).Every fun s => s.hides = false) : o.drained = o := by
  have hroot' := o.root.drained_eq_self hroot
  have hcontent' := funext fun p => (o.content p).drained_eq_self (hcontent p)
  cases o
  simp only [drained] at hroot' hcontent' ⊢
  rw [hroot', hcontent']

/-! ## Calls as searches -/

/-- The context once the pointers of `new` are marked, the first one last. -/
def Context.marked (c : Context) (new : List Pointer) : Context :=
  new.foldr (fun p d => d.add p) c

theorem Context.seen_marked (c : Context) (new : List Pointer) :
    (c.marked new).seen = {p | p ∈ new} ∪ c.seen := by
  induction new with
  | nil => simp [marked]
  | cons p ps ih =>
    have hcons : c.marked (p :: ps) = (c.marked ps).add p := rfl
    rw [hcons, seen_add, ih]
    ext q
    simp [or_assoc]

theorem Context.marked_append (c : Context) (new later : List Pointer) :
    c.marked (later ++ new) = (c.marked new).marked later :=
  List.foldr_append

theorem Pointer.children_of_seen {p : Pointer} {c : Context} (h : p ∈ c.seen) (val : Component Nat)
    (held : Locks) : p.children val held c = some (0, c) := by
  cases p with
  | arc addr => exact if_pos h
  | rc addr => exact if_pos h

theorem Pointer.children_of_not_seen {p : Pointer} {c : Context} (h : p ∉ c.seen)
    (val : Component Nat) (held : Locks) :
    p.children val held c = (const val.size + val.children : Sizing Nat) held (c.add p) := by
  cases p with
  | arc addr => exact if_neg h
  | rc addr => exact if_neg h

namespace ObjectGraph

variable {g : ObjectGraph} {fuel : Nat} {f f' : Sizing Nat} {n m : Nat} {roots more : Set Pointer}
  {a b : Set Nat}

/-- The allocations that are not counted yet. -/
def unseen (g : ObjectGraph) (c : Context) : Finset Pointer := {p ∈ g.live | p ∉ c.seen}

/-- The mutexes of what is not counted yet are neither held nor among `a`. -/
def Clear (g : ObjectGraph) (held : Locks) (c : Context) (a : Set Nat) : Prop :=
  ∀ p ∈ g.unseen c, Disjoint (g.content p).mutexes ({x | x ∈ held} ∪ a)

/-- With fuel for all that is not counted yet, the call counts `heap` and explores `roots`. -/
def Follows (g : ObjectGraph) (fuel : Nat) (f : Sizing Nat) (heap : Nat) (roots : Set Pointer)
    (a : Set Nat) : Prop :=
  ∀ held c, (g.unseen c).card ≤ fuel → (∀ x ∈ a, x ∉ held) → g.Clear held c a →
    ∃ new, f held c = some (heap + (new.map g.drained.weight).sum, c.marked new) ∧
      Explores g.drained.succ roots c.seen new

theorem unseen_marked_subset (g : ObjectGraph) (c : Context) (new : List Pointer) :
    g.unseen (c.marked new) ⊆ g.unseen c := by
  intro p hp
  simp only [unseen, Finset.mem_filter, Context.seen_marked] at hp ⊢
  exact ⟨hp.1, fun h => hp.2 (Or.inr h)⟩

theorem Clear.mono {held : Locks} {c d : Context} (h : g.Clear held c a)
    (hs : g.unseen d ⊆ g.unseen c) (hb : b ⊆ a) : g.Clear held d b :=
  fun p hp => (h p (hs hp)).mono_right (Set.union_subset_union_right _ hb)

theorem follows_const (n : Nat) : g.Follows fuel (const n) n ∅ ∅ :=
  fun _ _ _ _ _ => ⟨[], rfl, .nil⟩

theorem Follows.mono (h : g.Follows fuel f n roots a) (ha : a ⊆ b) :
    g.Follows fuel f n roots b :=
  fun held c hcard hfree hclear =>
    h held c hcard (fun x hx => hfree x (ha hx)) (hclear.mono subset_rfl ha)

theorem Follows.add (hf : g.Follows fuel f n roots a) (hf' : g.Follows fuel f' m more b) :
    g.Follows fuel (f + f') (n + m) (roots ∪ more) (a ∪ b) := by
  intro held c hcard hfree hclear
  obtain ⟨new, hnew, hexp⟩ := hf held c hcard (fun x hx => hfree x (Or.inl hx))
    (hclear.mono subset_rfl Set.subset_union_left)
  have hsub := g.unseen_marked_subset c new
  obtain ⟨later, hlater, hexp'⟩ := hf' held (c.marked new)
    ((Finset.card_le_card hsub).trans hcard) (fun x hx => hfree x (Or.inr hx))
    (hclear.mono hsub Set.subset_union_right)
  rw [Context.seen_marked] at hexp'
  refine ⟨later ++ new, ?_, hexp.append hexp'⟩
  rw [add_eq_some hnew hlater, Context.marked_append, List.map_append, List.sum_append]
  congr 2
  omega

theorem Follows.sum {k : Nat} {f : Fin k → Sizing Nat} {n : Fin k → Nat}
    {roots : Fin k → Set Pointer} {a : Fin k → Set Nat}
    (h : ∀ i, g.Follows fuel (f i) (n i) (roots i) (a i)) :
    g.Follows fuel (List.ofFn f).sum (∑ i, n i) (⋃ i, roots i) (⋃ i, a i) := by
  induction k with
  | zero =>
    have hnone : ⋃ i, roots i = ∅ := Set.iUnion_of_empty roots
    rw [List.ofFn_zero, List.sum_nil, Fin.sum_univ_zero, hnone]
    exact (follows_const 0).mono (Set.empty_subset _)
  | succ k ih =>
    have htail := ih fun i => h i.succ
    have hroots : ⋃ i, roots i = roots 0 ∪ ⋃ i : Fin k, roots i.succ := by
      ext p
      simp [Fin.exists_fin_succ]
    rw [List.ofFn_succ, List.sum_cons, Fin.sum_univ_succ, hroots]
    exact ((h 0).add htail).mono (Set.union_subset (Set.subset_iUnion a 0)
      (Set.iUnion_subset fun i => Set.subset_iUnion a i.succ))

/-- A pointer that is not counted yet is marked before its content is measured. -/
theorem follows_pointer {p : Pointer} {val : Component Nat} (hp : p ∈ g.live)
    (hsize : val.size = (g.content p).size)
    (h : ∀ k, fuel = k + 1 → g.Follows k val.children (g.content p).drained.heap
      (g.content p).drained.pointers (g.content p).mutexes) :
    g.Follows fuel (p.children val) 0 {p} ∅ := by
  intro held c hcard _ hclear
  by_cases hseen : p ∈ c.seen
  · exact ⟨[], Pointer.children_of_seen hseen val held, .skip hseen⟩
  · have hmem : p ∈ g.unseen c := Finset.mem_filter.mpr ⟨hp, hseen⟩
    have hunseen : g.unseen (c.add p) = (g.unseen c).erase p := by
      ext q
      simp only [unseen, Finset.mem_filter, Finset.mem_erase, Context.seen_add,
        Set.mem_insert_iff]
      tauto
    have hless : (g.unseen (c.add p)).card < (g.unseen c).card :=
      hunseen ▸ Finset.card_erase_lt_of_mem hmem
    obtain ⟨k, rfl⟩ : ∃ k, fuel = k + 1 := Nat.exists_eq_succ_of_ne_zero (by omega)
    have hfree : ∀ x ∈ (g.content p).mutexes, x ∉ held := fun x hx hh =>
      Set.disjoint_left.mp (hclear p hmem) hx (Or.inl hh)
    have hclear' : g.Clear held (c.add p) (g.content p).mutexes := by
      intro q hq
      rw [hunseen, Finset.mem_erase] at hq
      have hlive := (Finset.mem_filter.mp hq.2).1
      refine Set.disjoint_union_right.mpr ⟨?_, g.content_apart q hlive p hp hq.1⟩
      exact (hclear q hq.2).mono_right Set.subset_union_left
    obtain ⟨new, hnew, hexp⟩ := h k rfl held (c.add p) (by omega) hfree hclear'
    rw [Context.seen_add] at hexp
    refine ⟨new ++ [p], ?_, hexp.enter hseen⟩
    have hsize' : (const val.size : Sizing Nat) held (c.add p) = some (val.size, c.add p) := rfl
    rw [Pointer.children_of_not_seen hseen, add_eq_some hsize' hnew, Context.marked_append]
    have hweight : g.drained.weight p = val.size + (g.content p).drained.heap := by
      simp [Objects.weight, Objects.drained, hsize]
    simp only [List.map_append, List.sum_append, List.map_cons, List.map_nil, List.sum_singleton,
      hweight]
    congr 2
    omega

/-- A type that lets its parts be seen. -/
theorem follows_shape {s : Shape} {parts : Fin s.arity → Component Nat} {n : Fin s.arity → Nat}
    {roots : Fin s.arity → Set Pointer} {a : Fin s.arity → Set Nat} (hidle : s.Idle)
    (hopen : s.hides = false)
    (h : ∀ i, g.Follows fuel (parts i).children (n i) (roots i) (a i))
    (hnest : ∀ i, Disjoint s.mutexes (a i)) :
    g.Follows fuel (s.children parts) (s.heap (fun i => (parts i).size) + ∑ i, n i)
      (⋃ i, roots i) (s.mutexes ∪ ⋃ i, a i) := by
  intro held c hcard hfree hclear
  obtain ⟨hpoison, hbound⟩ := Bool.or_eq_false_iff.mp hopen
  have hclear' : g.Clear (s.locks ++ held) c (⋃ i, a i) := by
    intro p hp
    refine (hclear p hp).mono_right ?_
    rintro x (hx | hx)
    · rcases List.mem_append.mp hx with hs | hh
      · exact Or.inr (Or.inl hs)
      · exact Or.inl hh
    · exact Or.inr (Or.inr hx)
  obtain ⟨new, hnew, hexp⟩ := Follows.sum h (s.locks ++ held) c hcard
    (s.parts_free hnest hfree) hclear'
  refine ⟨new, ?_, hexp⟩
  rw [Nat.add_assoc]
  exact Shape.children_eq_some hidle hpoison hbound (fun x hx => hfree x (Or.inl hx)) hnew

/-- A type that hides its parts. -/
theorem follows_hidden {s : Shape} {parts : Fin s.arity → Component Nat} (h : s.hides = true) :
    g.Follows fuel (s.children parts) 0 ∅ s.mutexes :=
  fun _ _ _ hfree _ => ⟨[], Shape.children_eq_zero hfree (Bool.or_eq_true_iff.mp h), .nil⟩

/-- The induction over a value, once the pointers in it are known to be followed. -/
theorem follows_value (v : Value Part) (hlive : ∀ p ∈ v.pointers, p ∈ g.live)
    (hnest : v.MutexesNest) (hidle : v.Every Shape.Idle)
    (hpointer : ∀ size, ∀ p ∈ g.live,
      g.Follows fuel (call g.content fuel (.pointer size p)) 0 {p} ∅) :
    g.Follows fuel (g.children fuel v) v.drained.heap v.drained.pointers v.mutexes := by
  induction v with
  | leaf l =>
    cases l with
    | known size heap => cases fuel <;> exact follows_const heap
    | string size capacity => cases fuel <;> exact follows_const capacity
    | pointer size p => exact hpointer size p (hlive p rfl)
  | of s n parts ih =>
    have hparts : ∀ i, g.Follows fuel (g.children fuel (parts i)) (parts i).drained.heap
        (parts i).drained.pointers (parts i).mutexes := fun i =>
      ih i (fun p hp => hlive p (Set.mem_iUnion_of_mem i hp)) (hnest.part i) (hidle.part i)
    cases h : s.hides with
    | true =>
      rw [Value.drained_of_hides h]
      have hnone : (Value.of (.tuple 0) n Fin.elim0 : Value Part).pointers = ∅ :=
        Set.iUnion_of_empty _
      rw [hnone]
      exact (follows_hidden h).mono Set.subset_union_left
    | false =>
      rw [Value.drained_of_open h]
      have hnode := follows_shape hidle.shape h hparts hnest.disjoint
      have hheap : (Value.of s n fun i => (parts i).drained).heap =
          s.heap (fun i => (parts i).size) + ∑ i, (parts i).drained.heap := by
        simp only [Value.heap, Value.size_drained]
      simp only [Value.component_size] at hnode
      rw [hheap]
      exact hnode

/-- A call of any value of the memory. -/
theorem follows (hidle : ∀ p ∈ g.live, (g.content p).Every Shape.Idle) (v : Value Part)
    (hlive : ∀ p ∈ v.pointers, p ∈ g.live) (hnest : v.MutexesNest) (hv : v.Every Shape.Idle) :
    g.Follows fuel (g.children fuel v) v.drained.heap v.drained.pointers v.mutexes := by
  induction fuel generalizing v with
  | zero =>
    refine follows_value v hlive hnest hv fun size p hp => ?_
    exact follows_pointer hp rfl fun k hk => nomatch hk
  | succ fuel ih =>
    refine follows_value v hlive hnest hv fun size p hp => ?_
    refine follows_pointer hp (Value.component_size _) fun k hk => ?_
    cases hk
    exact ih (g.content p) (g.content_live p hp) (g.content_nest p hp) (hidle p hp)

/-! ## The result -/

/-- Nobody else uses the locks and cells of the objects during the call. -/
structure Idle (g : ObjectGraph) : Prop where
  root : g.root.Every Shape.Idle
  content : ∀ p ∈ g.live, (g.content p).Every Shape.Idle

theorem mem_reached_drained {p : Pointer} : p ∈ g.drained.reached ↔
    Reaches g.drained.succ g.drained.root.pointers p := by
  classical
  rw [Objects.reached, Finset.mem_filter]
  refine and_iff_right_of_imp fun h => ?_
  refine h.mem_of_closed (s := {q | q ∈ g.live}) ?_ fun q hq r hr => ?_
  · exact fun q hq => g.root_live q (Value.pointers_drained _ hq)
  · exact g.content_live q hq r (Value.pointers_drained _ hr)

def mutexes (g : ObjectGraph) : Set Nat := g.root.mutexes ∪ ⋃ p ∈ g.live, (g.content p).mutexes

/-- A call of the root that has seen nothing of what the root leads to enters all of it, each
allocation once. -/
theorem root_call (hidle : g.Idle) (hfuel : g.live.card ≤ fuel) (held : Locks) (c : Context)
    (hfree : ∀ a ∈ g.mutexes, a ∉ held) (hseen : Disjoint {p | p ∈ g.drained.reached} c.seen) :
    ∃ entered : List Pointer, entered.Nodup ∧ entered.toFinset = g.drained.reached ∧
      g.children fuel g.root held c = some (g.root.drained.heap +
        ∑ p ∈ g.drained.reached, g.drained.weight p, c.marked entered) := by
  have hcard : (g.unseen c).card ≤ fuel := (Finset.card_filter_le _ _).trans hfuel
  have hclear : g.Clear held c g.root.mutexes := by
    intro p hp
    have hlive := (Finset.mem_filter.mp hp).1
    refine Set.disjoint_union_right.mpr ⟨?_, g.root_apart p hlive⟩
    exact Set.disjoint_left.mpr fun a ha => hfree a (Or.inr (Set.mem_biUnion hlive ha))
  obtain ⟨entered, hcall, hexp⟩ := follows hidle.content g.root g.root_live g.root_nest
    hidle.root held c hcard (fun a ha => hfree a (Or.inl ha)) hclear
  have hmem : entered.toFinset = g.drained.reached := by
    ext p
    rw [List.mem_toFinset, mem_reached_drained]
    exact hexp.mem_iff fun q hq hr => Set.disjoint_left.mp hseen (mem_reached_drained.mpr hr) hq
  refine ⟨entered, hexp.nodup, hmem, ?_⟩
  rw [hcall, ← hmem, List.sum_toFinset _ hexp.nodup]

theorem deepSizeOf_eq (hidle : g.Idle) (hfuel : g.live.card ≤ fuel) :
    g.deepSizeOf fuel = some g.drained.accounted := by
  obtain ⟨entered, -, -, hcall⟩ := root_call hidle hfuel [] .new (by simp) (by simp)
  have hsum : (const g.root.size + g.children fuel g.root : Sizing Nat) [] .new =
      some (g.root.size + _, _) := add_eq_some rfl hcall
  simp only [Objects.deepSizeOf, Component.deepSizeOf, Value.component_size]
  have haccounted : g.drained.accounted = g.root.size + (g.root.drained.heap +
      ∑ p ∈ g.drained.reached, g.drained.weight p) := by
    simp [Objects.accounted, Objects.drained, Nat.add_assoc]
  rw [haccounted]
  exact congrArg (Option.map Prod.fst) hsum

end ObjectGraph

/-! ## The order of visits -/

/-- The same value with the parts of each type in it in another order. -/
inductive Value.Reordered {α : Type} : Value α → Value α → Prop
  | leaf {l : α} : Reordered (.leaf l) (.leaf l)
  | of {s : Shape} {n : Nat} {parts parts' : Fin s.arity → Value α}
      (σ : Equiv.Perm (Fin s.arity)) (h : ∀ i, Reordered (parts i) (parts' (σ i))) :
      Reordered (.of s n parts) (.of s n parts')

namespace Value.Reordered

variable {α : Type} [Leaf α] {u v : Value α}

omit [Leaf α] in
theorem refl (v : Value α) : v.Reordered v := by
  induction v with
  | leaf l => exact .leaf
  | of s n parts ih => exact .of (Equiv.refl _) ih

theorem size_eq (h : u.Reordered v) : u.size = v.size := by
  cases h <;> rfl

theorem pointers_eq (h : u.Reordered v) : u.pointers = v.pointers := by
  induction h with
  | leaf => rfl
  | @of s n parts parts' σ _ ih =>
    exact (Set.iUnion_congr ih).trans (σ.surjective.iUnion_comp fun i => (parts' i).pointers)

omit [Leaf α] in
theorem shape_heap_eq {s : Shape} (σ : Equiv.Perm (Fin s.arity)) {n m : Fin s.arity → Nat}
    (h : ∀ i, n i = m (σ i)) : s.heap n = s.heap m := by
  cases s with
  | box => exact (h _).trans (congrArg m (Subsingleton.elim (α := Fin 1) _ _))
  | _ => rfl

theorem heap_eq (h : u.Reordered v) : u.heap = v.heap := by
  induction h with
  | leaf => rfl
  | @of s n parts parts' σ hparts ih =>
    have hshape : s.heap (fun i => (parts i).size) = s.heap fun i => (parts' i).size :=
      shape_heap_eq σ fun i => (hparts i).size_eq
    have hsum : ∑ i, (parts i).heap = ∑ i, (parts' i).heap :=
      (Fintype.sum_congr _ _ ih).trans (Equiv.sum_comp σ fun i => (parts' i).heap)
    rw [heap, heap, hshape, hsum]

omit [Leaf α] in
theorem drained (h : u.Reordered v) : u.drained.Reordered v.drained := by
  induction h with
  | leaf => exact .leaf
  | @of s n _ _ σ _ ih =>
    cases hs : s.hides with
    | true =>
      rw [drained_of_hides hs, drained_of_hides hs]
      exact refl _
    | false =>
      rw [drained_of_open hs, drained_of_open hs]
      exact .of σ ih

omit [Leaf α] in
theorem every {P : Shape → Prop} (h : u.Reordered v) (hu : u.Every P) : v.Every P := by
  induction h with
  | leaf => exact hu
  | of σ _ ih =>
    intro s n parts hw
    cases hw with
    | refl => exact hu.shape
    | part i hw =>
      obtain ⟨j, rfl⟩ := σ.surjective i
      exact ih j (hu.part j) s n parts hw

end Value.Reordered

/-- The same objects, visited in another order. -/
structure Objects.Reordered (o o' : Objects) : Prop where
  root : o.root.Reordered o'.root
  content : ∀ p, (o.content p).Reordered (o'.content p)
  live : o.live = o'.live

namespace Objects.Reordered

variable {o o' : Objects}

theorem accounted_eq (h : o.Reordered o') : o.accounted = o'.accounted := by
  have hsucc : o.succ = o'.succ := funext fun p => (h.content p).pointers_eq
  have hweight : o.weight = o'.weight :=
    funext fun p => by rw [weight, weight, (h.content p).size_eq, (h.content p).heap_eq]
  have hreached : o.reached = o'.reached := by
    classical
    ext p
    rw [reached, reached, Finset.mem_filter, Finset.mem_filter, hsucc, h.live,
      h.root.pointers_eq]
  rw [accounted, accounted, hreached, hweight, h.root.size_eq, h.root.heap_eq]

theorem drained (h : o.Reordered o') : o.drained.Reordered o'.drained where
  root := h.root.drained
  content p := (h.content p).drained
  live := h.live

end Objects.Reordered

namespace ObjectGraph

variable {g : ObjectGraph} {fuel : Nat}

theorem Idle.reordered {g' : ObjectGraph} (hidle : g.Idle)
    (h : g.toObjects.Reordered g'.toObjects) : g'.Idle where
  root := h.root.every hidle.root
  content p hp := (h.content p).every (hidle.content p (h.live ▸ hp))

/-- A call with fuel for the live allocations returns. It enters each allocation that the root
leads to once, and counts the root and all of these once, whatever the order of visits. Behind
a poisoned lock there is nothing to be seen. -/
theorem deepSizeOf_eq_accounted (g : ObjectGraph) (hidle : g.Idle) (hfuel : g.live.card ≤ fuel) :
    (∃ entered : List Pointer, entered.Nodup ∧ entered.toFinset = g.drained.reached ∧
      g.children fuel g.root [] .new = some (g.root.drained.heap +
        ∑ p ∈ g.drained.reached, g.drained.weight p, Context.new.marked entered)) ∧
    g.deepSizeOf fuel = some g.drained.accounted ∧
    ∀ g' : ObjectGraph, g.toObjects.Reordered g'.toObjects →
      g'.deepSizeOf fuel = some g.drained.accounted := by
  refine ⟨root_call hidle hfuel [] .new (by simp) (by simp), deepSizeOf_eq hidle hfuel,
    fun g' h => ?_⟩
  rw [h.drained.accounted_eq]
  exact deepSizeOf_eq (hidle.reordered h) (h.live ▸ hfuel)

/-- Two pointers to an allocation with a mutex around a pointer to the same allocation. -/
def cyclic : ObjectGraph where
  root := .of (.tuple 2) 16 fun _ => .leaf (.pointer 8 (.arc 1))
  content _ := .of (.mutex 0 .free) 16 fun _ => .leaf (.pointer 8 (.arc 1))
  live := {.arc 1}
  root_live p hp := by simpa [Value.pointers, Leaf.pointers] using hp
  content_live _ _ q hq := by simpa [Value.pointers, Leaf.pointers] using hq
  root_nest := by
    rintro s n parts (_ | ⟨_, hw⟩) i
    · exact Set.disjoint_left.mpr fun _ ha => nomatch ha
    · cases hw
  content_nest := by
    rintro p - s n parts (_ | ⟨_, hw⟩) i
    · exact Set.disjoint_empty _
    · cases hw
  root_apart _ _ := by simp [Value.mutexes, Shape.mutexes, Shape.locks, Leaf.mutexes]
  content_apart p hp q hq h := by
    rw [Finset.mem_singleton] at hp hq
    exact absurd (hp.trans hq.symm) h

/-- The mutex is locked once, and its allocation counted once. -/
theorem deepSizeOf_eq_accounted_cyclic :
    cyclic.deepSizeOf 1 = some 32 ∧ cyclic.accounted = 32 := by
  have hidle : cyclic.Idle := by
    constructor
    · rintro s n parts (_ | ⟨_, hw⟩)
      · trivial
      · cases hw
    · rintro p - s n parts (_ | ⟨_, hw⟩)
      · exact LockState.noConfusion
      · cases hw
  have hopen : cyclic.drained = cyclic.toObjects := by
    refine Objects.drained_eq_self _ ?_ fun p => ?_ <;>
      rintro s n parts (_ | ⟨_, hw⟩) <;> first | rfl | cases hw
  have hfuel : cyclic.live.card ≤ 1 := le_rfl
  obtain ⟨-, hcall, -⟩ := deepSizeOf_eq_accounted cyclic hidle hfuel
  have hrun : cyclic.deepSizeOf 1 = some 32 := rfl
  rw [hopen] at hcall
  exact ⟨hrun, (Option.some.inj (hrun.symm.trans hcall)).symm⟩

/-- A string of 10 bytes in a type that holds it inline. -/
def stringIn (s : Shape) : ObjectGraph where
  root := .of s 32 fun _ => .leaf (.string 24 10)
  content _ := .leaf (.known 0 0)
  live := ∅
  root_live p hp := by simp [Value.pointers, Leaf.pointers] at hp
  content_live p hp := absurd hp (Finset.notMem_empty p)
  root_nest := by
    rintro s n parts (_ | ⟨_, hw⟩) i
    · exact Set.disjoint_empty _
    · cases hw
  content_nest p hp := absurd hp (Finset.notMem_empty p)
  root_apart p hp := absurd hp (Finset.notMem_empty p)
  content_apart p hp := absurd hp (Finset.notMem_empty p)

/-- Behind a poisoned mutex the string is not counted, and in a mutex or a cell that is in use
the call does not return. -/
theorem string_not_counted :
    ((stringIn (.mutex 0 .poisoned)).deepSizeOf 0 = some 32 ∧
      (stringIn (.mutex 0 .poisoned)).accounted = 42) ∧
    ∀ fuel, (stringIn (.mutex 0 .locked)).deepSizeOf fuel = none ∧
      (stringIn (.refCell true)).deepSizeOf fuel = none := by
  refine ⟨⟨rfl, ?_⟩, fun fuel => ⟨rfl, rfl⟩⟩
  have hreached : (stringIn (.mutex 0 .poisoned)).reached = ∅ := by
    classical
    exact Finset.filter_empty _
  rw [Objects.accounted, hreached]
  rfl

end ObjectGraph
end PriorityLfu.Deepsize
