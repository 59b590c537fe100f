import PriorityLfu.Deepsize.Basic
import Mathlib.Algebra.BigOperators.Fin
import Mathlib.Data.Set.Lattice
import Mathlib.Order.CompletePartialOrder

/-!
# Nested values

Values built from leaves by the types that hold their parts inline or in memory of their own.
What a call of a nested value does is read off its parts (`Shape.children_eq_some`); what it
should count is its `heap`.
-/
namespace PriorityLfu.Deepsize
open Sizing

/-- A type around its parts, with what its implementation reads beside them. -/
inductive Shape
  | option (isSome : Bool)
  | result (isOk : Bool)
  | tuple (fields : Nat)
  | array (len : Nat)
  | slice (len : Nat)
  | refCell (mutablyBorrowed : Bool)
  | mutex (addr : Nat) (state : LockState)
  | rwLock (state : LockState)
  | bound (isBounded : Bool)
  | box
  | vec (elem : Layout) (capacity len : Nat)

namespace Shape

@[reducible] def arity : Shape → Nat
  | .option held | .bound held => if held then 1 else 0
  | .result _ | .refCell _ | .mutex .. | .rwLock _ | .box => 1
  | .tuple n | .array n | .slice n | .vec _ _ n => n

/-- The implementation of the type. -/
def children {β : Type} [Amount β] : (s : Shape) → (Fin s.arity → Component β) → Sizing β
  | .option true, parts => Deepsize.option (some (parts (0 : Fin 1)))
  | .option false, _ => Deepsize.option none
  | .result true, parts => Deepsize.result (.inl (parts (0 : Fin 1)))
  | .result false, parts => Deepsize.result (.inr (parts (0 : Fin 1)))
  | .tuple _, parts => Deepsize.tuple (List.ofFn parts)
  | .array _, parts => Deepsize.slice (List.ofFn parts)
  | .slice _, parts => Deepsize.slice (List.ofFn parts)
  | .refCell borrowed, parts => Deepsize.refCell borrowed (parts (0 : Fin 1))
  | .mutex addr state, parts => Deepsize.mutex addr state (parts (0 : Fin 1))
  | .rwLock state, parts => Deepsize.rwLock state (parts (0 : Fin 1))
  | .bound true, parts => Deepsize.bound (some (parts (0 : Fin 1)))
  | .bound false, _ => Deepsize.bound none
  | .box, parts => Deepsize.box (parts (0 : Fin 1))
  | .vec elem capacity _, parts => Deepsize.vec elem capacity (List.ofFn parts)

/-- The memory a type owns beside what its parts own. -/
def heap : (s : Shape) → (Fin s.arity → Nat) → Nat
  | .box, sizes => sizes (0 : Fin 1)
  | .vec elem capacity _, _ => capacity * elem.size
  | _, _ => 0

/-- What is locked while the parts are measured. -/
def locks : Shape → Locks
  | .mutex addr _ => [addr]
  | _ => []

def mutexes (s : Shape) : Set Nat := {a | a ∈ s.locks}

/-- Nobody else holds the lock or borrows the cell mutably. -/
def Idle : Shape → Prop
  | .refCell borrowed => borrowed = false
  | .mutex _ state | .rwLock state => state ≠ .locked
  | _ => True

def poisoned : Shape → Bool
  | .mutex _ state | .rwLock state => state = .poisoned
  | _ => false

def isBound : Shape → Bool
  | .bound _ => true
  | _ => false

variable {β : Type} [Amount β] {s : Shape} {parts : Fin s.arity → Component Nat} {held : Locks}
  {c d : Context} {m : Nat}

theorem sum_one (f : Fin 1 → Sizing β) : (List.ofFn f).sum = f 0 := by
  rw [List.ofFn_succ, List.ofFn_zero, List.sum_cons, List.sum_nil, add_zero]

/-- The parts' calls in order, under the mutex if there is one, and the type's own memory. -/
theorem children_eq_some (hidle : s.Idle) (hpoison : s.poisoned = false)
    (hbound : s.isBound = false) (hfree : ∀ a ∈ s.mutexes, a ∉ held)
    (hsum : (List.ofFn fun i => (parts i).children).sum (s.locks ++ held) c = some (m, d)) :
    s.children parts held c = some (s.heap (fun i => (parts i).size) + m, d) := by
  cases s with
  | option isSome =>
    cases isSome with
    | true => simpa [children, heap, locks, Deepsize.option, sum_one] using hsum
    | false =>
      simpa [children, heap, locks, Deepsize.option, const_apply, Sizing.zero_apply] using hsum
  | result isOk => cases isOk <;> simpa [children, heap, locks, Deepsize.result, sum_one] using hsum
  | tuple n =>
    have hfold : Deepsize.tuple (List.ofFn parts) =
        0 + ((List.ofFn parts).map Component.children).sum :=
      foldl_add_eq Component.children _ _
    simpa [children, heap, locks, hfold, List.map_ofFn, Function.comp_def] using hsum
  | array n =>
    simpa [children, heap, locks, Deepsize.slice, List.map_ofFn, Function.comp_def] using hsum
  | slice n =>
    simpa [children, heap, locks, Deepsize.slice, List.map_ofFn, Function.comp_def] using hsum
  | refCell borrowed =>
    have hb : borrowed = false := hidle
    simpa [children, heap, locks, Deepsize.refCell, hb, sum_one] using hsum
  | mutex addr state =>
    have haddr : addr ∉ held := hfree addr (List.mem_singleton_self addr)
    cases state with
    | free => simpa [children, heap, locks, Deepsize.mutex, haddr, sum_one] using hsum
    | locked => exact absurd rfl hidle
    | poisoned => cases hpoison
  | rwLock state =>
    cases state with
    | free => simpa [children, heap, locks, Deepsize.rwLock, sum_one] using hsum
    | locked => exact absurd rfl hidle
    | poisoned => cases hpoison
  | bound isBounded => cases hbound
  | box =>
    rw [sum_one] at hsum
    exact add_eq_some rfl hsum
  | vec elem capacity len =>
    have hvec : Deepsize.vec elem capacity (List.ofFn parts) =
        (List.ofFn fun i => (parts i).children).sum + product capacity elem.size := by
      simp [Deepsize.vec, List.map_ofFn, Function.comp_def]
    rw [Nat.add_comm]
    exact (congrFun (congrFun hvec held) c).trans (add_eq_some hsum rfl)

/-- A bound and a poisoned lock do not look at what they hold. -/
theorem children_eq_zero {parts : Fin s.arity → Component β} (hfree : ∀ a ∈ s.mutexes, a ∉ held)
    (h : s.poisoned = true ∨ s.isBound = true) :
    s.children parts held c = some (Amount.ofNat 0, c) := by
  cases s with
  | mutex addr state =>
    have haddr : addr ∉ held := hfree addr (List.mem_singleton_self addr)
    have hstate : state = .poisoned := by simpa [poisoned, isBound] using h
    simp [children, Deepsize.mutex, haddr, hstate]
  | rwLock state =>
    have hstate : state = .poisoned := by simpa [poisoned, isBound] using h
    simp [children, Deepsize.rwLock, hstate, const_apply]
  | bound isBounded => cases isBounded <;> rfl
  | _ => simp [poisoned, isBound] at h

end Shape

/-! ## Values -/

/-- Values over leaves of any kind. -/
inductive Value (α : Type)
  | leaf (l : α)
  | of (s : Shape) (size : Nat) (parts : Fin s.arity → Value α)

/-- What a leaf adds to the values around it: its inline size, the heap it owns, the
reference-counted allocations it leads to and the mutexes it contains. -/
class Leaf (α : Type) where
  size : α → Nat
  heap : α → Nat
  pointers : α → Set Pointer
  mutexes : α → Set Nat

namespace Value

variable {α : Type} [Leaf α]

def size : Value α → Nat
  | .leaf l => Leaf.size l
  | .of _ n _ => n

def heap : Value α → Nat
  | .leaf l => Leaf.heap l
  | .of s _ parts => s.heap (fun i => (parts i).size) + ∑ i, (parts i).heap

def pointers : Value α → Set Pointer
  | .leaf l => Leaf.pointers l
  | .of _ _ parts => ⋃ i, (parts i).pointers

def mutexes : Value α → Set Nat
  | .leaf l => Leaf.mutexes l
  | .of s _ parts => s.mutexes ∪ ⋃ i, (parts i).mutexes

/-- The value behind the trait, with the calls of its leaves. -/
def component {β : Type} [Amount β] (call : α → Sizing β) : Value α → Component β
  | .leaf l => ⟨Leaf.size l, call l⟩
  | .of s n parts => ⟨n, s.children fun i => (parts i).component call⟩

omit [Leaf α] in
/-- The value itself and what lies within it. -/
inductive Within : Value α → Value α → Prop
  | refl {v : Value α} : Within v v
  | part {u : Value α} {s : Shape} {n : Nat} {parts : Fin s.arity → Value α} (i : Fin s.arity)
      (h : Within u (parts i)) : Within u (.of s n parts)

/-- All types within the value satisfy `P`. -/
def Every (P : Shape → Prop) (v : Value α) : Prop :=
  ∀ s n parts, (of s n parts).Within v → P s

/-- No mutex lies within itself. -/
def MutexesNest (v : Value α) : Prop :=
  ∀ s n parts, (of s n parts).Within v → ∀ i, Disjoint s.mutexes (parts i).mutexes

variable {β : Type} [Amount β] {call : α → Sizing β} {s : Shape} {n : Nat}
  {parts : Fin s.arity → Value α}

@[simp] theorem component_size (v : Value α) : (v.component call).size = v.size := by
  cases v <;> rfl

omit [Leaf α] in
theorem Every.part {P : Shape → Prop} (h : (of s n parts).Every P) (i : Fin s.arity) :
    (parts i).Every P :=
  fun s' n' parts' hw => h s' n' parts' (hw.part i)

omit [Leaf α] in
theorem Every.shape {P : Shape → Prop} (h : (of s n parts).Every P) : P s :=
  h s n parts .refl

theorem MutexesNest.part (h : (of s n parts).MutexesNest) (i : Fin s.arity) :
    (parts i).MutexesNest :=
  fun s' n' parts' hw => h s' n' parts' (hw.part i)

theorem MutexesNest.disjoint (h : (of s n parts).MutexesNest) (i : Fin s.arity) :
    Disjoint s.mutexes (parts i).mutexes :=
  h s n parts .refl i

end Value
end PriorityLfu.Deepsize
