import Mathlib.Algebra.BigOperators.Group.List.Basic
import Mathlib.Algebra.Order.Ring.Nat
import Mathlib.Data.Set.Insert
import PriorityLfu.Deepsize.Amount

/-!
# Measuring values: `DeepSizeOf` and its implementations

A value behind the trait is a `Component`: its inline size and what its
`deep_size_of_children` does with the context it is passed. The implementations for the
standard types are functions of the components they call.

They are over any type of sizes: the words of a build, in which sums may overflow, or the natural
numbers. `Sizing.fit` relates the two.
-/
namespace PriorityLfu.Deepsize

/-! ## Layouts -/

/-- `size_of` and `align_of` of a type. -/
structure Layout where
  size : Nat
  align : Nat
  align_pos : 0 < align
  align_dvd : align ∣ size

/-- The least multiple of `align` from `n` on. -/
def roundUp (n align : Nat) : Nat := (n + align - 1) / align * align

namespace Layout

/-- The fields together, rounded up to the alignment. -/
def tuple (fields : List Layout) : Layout where
  size := roundUp (fields.map size).sum (fields.foldr (max ·.align ·) 1)
  align := fields.foldr (max ·.align ·) 1
  align_pos := by
    induction fields with
    | nil => exact Nat.one_pos
    | cons f fs ih => exact lt_max_of_lt_right ih
  align_dvd := Nat.dvd_mul_left ..

def array (elem : Layout) (n : Nat) : Layout where
  size := n * elem.size
  align := elem.align
  align_pos := elem.align_pos
  align_dvd := elem.align_dvd.mul_left n

def u16 : Layout := ⟨2, 2, by decide, by decide⟩

end Layout

/-- `target_pointer_width` -/
inductive PointerWidth
  | bits16 | bits32 | bits64
  deriving DecidableEq

def PointerWidth.usize : PointerWidth → Layout
  | bits16 => ⟨2, 2, by decide, by decide⟩
  | bits32 => ⟨4, 4, by decide, by decide⟩
  | bits64 => ⟨8, 8, by decide, by decide⟩

def PointerWidth.bits : PointerWidth → Nat
  | bits16 => 16
  | bits32 => 32
  | bits64 => 64

/-! ## The context -/

/-- A reference-counted pointer, by the address of the data it points to. -/
inductive Pointer
  | arc (addr : Nat)
  | rc (addr : Nat)
  deriving DecidableEq

/-- The addresses added so far, the latest first: an address that was added twice stands there
twice. -/
structure Context where
  arcs : List Nat
  rcs : List Nat

namespace Context

def new : Context where
  arcs := []
  rcs := []

def addArc (self : Context) (addr : Nat) : Context :=
  { self with arcs := addr :: self.arcs }

def containsArc (self : Context) (addr : Nat) : Bool := self.arcs.contains addr

def addRc (self : Context) (addr : Nat) : Context :=
  { self with rcs := addr :: self.rcs }

def containsRc (self : Context) (addr : Nat) : Bool := self.rcs.contains addr

def add (self : Context) : Pointer → Context
  | .arc addr => self.addArc addr
  | .rc addr => self.addRc addr

def contains (self : Context) : Pointer → Bool
  | .arc addr => self.containsArc addr
  | .rc addr => self.containsRc addr

/-- The pointers that are counted already. -/
def seen (self : Context) : Set Pointer := {p | self.contains p = true}

instance (self : Context) (p : Pointer) : Decidable (p ∈ self.seen) :=
  inferInstanceAs (Decidable (self.contains p = true))

@[simp] theorem seen_new : new.seen = ∅ := by
  ext p
  cases p <;> simp [seen, new, contains, containsArc, containsRc]

@[simp] theorem seen_add (self : Context) (p : Pointer) :
    (self.add p).seen = insert p self.seen := by
  ext q
  cases p <;> cases q <;>
    simp [seen, add, addArc, addRc, contains, containsArc, containsRc]

end Context

/-! ## Calls -/

/-- The addresses of the mutexes that the calling thread holds. -/
abbrev Locks := List Nat

/-- A call of `deep_size_of_children`: the heap bytes counted and the context it leaves behind,
or `none` if it does not return, because it waits for a lock, panics or runs on forever. -/
def Sizing (α : Type) := Locks → Context → Option (α × Context)

namespace Sizing

variable {α : Type} [Amount α] {f g : Sizing α} {held : Locks} {c d e : Context} {x : α}

def const (n : Nat) : Sizing α := fun _ c => some (Amount.ofNat n, c)

/-- The product of two sizes. -/
def product (m n : Nat) : Sizing α := fun _ c =>
  (Amount.mul (Amount.ofNat m) (Amount.ofNat n)).map fun x : α => (x, c)

omit [Amount α] in
/-- The call that does not return. -/
def diverge : Sizing α := fun _ _ => none

instance : Zero (Sizing α) := ⟨const 0⟩

/-- Both calls, one after the other, with the context passed along. -/
instance : Add (Sizing α) where
  add f g := fun held c =>
    match f held c with
    | none => none
    | some (x, d) =>
      match g held d with
      | none => none
      | some (y, e) => (Amount.add x y).map fun z => (z, e)

theorem const_apply (n : Nat) (held : Locks) (c : Context) :
    (const n : Sizing α) held c = some (Amount.ofNat n, c) := rfl

protected theorem zero_apply (held : Locks) (c : Context) :
    (0 : Sizing α) held c = some (Amount.ofNat 0, c) := rfl

protected theorem add_apply (f g : Sizing α) (held : Locks) (c : Context) : (f + g) held c =
    (f held c).bind fun (x, d) => (g held d).bind fun (y, e) =>
      (Amount.add x y).map fun z => (z, e) := by
  simp only [HAdd.hAdd, Add.add]
  cases f held c with
  | none => rfl
  | some p =>
    dsimp only [Option.bind_some]
    cases g held p.2 <;> rfl

theorem apply_add_iff : (f + g) held c = some (x, e) ↔
    ∃ a b d, f held c = some (a, d) ∧ g held d = some (b, e) ∧ Amount.add a b = some x := by
  rw [Sizing.add_apply]
  constructor
  · intro h
    obtain ⟨⟨a, d⟩, hf, h⟩ := Option.bind_eq_some_iff.mp h
    obtain ⟨⟨b, e'⟩, hg, h⟩ := Option.bind_eq_some_iff.mp h
    obtain ⟨z, hz, heq⟩ := Option.map_eq_some_iff.mp h
    cases heq
    exact ⟨a, b, d, hf, hg, hz⟩
  · rintro ⟨a, b, d, hf, hg, hab⟩
    simp only [hf, hg, hab, Option.bind_some, Option.map_some]

omit [Amount α] in
theorem ext_some (h : ∀ held c x d, f held c = some (x, d) ↔ g held c = some (x, d)) :
    f = g := by
  funext held c
  exact Option.ext fun ⟨x, d⟩ => h held c x d

instance : AddMonoid (Sizing α) where
  add_assoc f g h := by
    refine ext_some fun held c x d => ?_
    have hassoc : ∀ a b b', (∃ y, Amount.add a b = some y ∧ Amount.add y b' = some x) ↔
        ∃ y, Amount.add b b' = some y ∧ Amount.add a y = some x := fun a b b' => by
      rw [← Option.bind_eq_some_iff, Amount.add_assoc, Option.bind_eq_some_iff]
    simp only [apply_add_iff]
    constructor
    · rintro ⟨y, b', d', ⟨a, b, e, hf, hg, hab⟩, hh, hsum⟩
      obtain ⟨z, hbb, hz⟩ := (hassoc a b b').mp ⟨y, hab, hsum⟩
      exact ⟨a, z, e, hf, ⟨b, b', d', hg, hh, hbb⟩, hz⟩
    · rintro ⟨a, z, e, hf, ⟨b, b', d', hg, hh, hbb⟩, hz⟩
      obtain ⟨y, hab, hsum⟩ := (hassoc a b b').mpr ⟨z, hbb, hz⟩
      exact ⟨y, b', d', ⟨a, b, e, hf, hg, hab⟩, hh, hsum⟩
  zero_add f := by
    refine ext_some fun held c x d => ?_
    simp [apply_add_iff, Sizing.zero_apply, Amount.zero_add]
  add_zero f := by
    refine ext_some fun held c x d => ?_
    simp [apply_add_iff, Sizing.zero_apply, Amount.add_zero]
  nsmul := nsmulRec

/-- The folds of the source are sums. -/
theorem foldl_add_eq {ι : Type} (f : ι → Sizing α) (items : List ι) (acc : Sizing α) :
    items.foldl (fun sum i => sum + f i) acc = acc + (items.map f).sum := by
  induction items generalizing acc with
  | nil => simp
  | cons i is ih =>
    calc is.foldl (fun sum j => sum + f j) (acc + f i)
        = acc + f i + (is.map f).sum := ih _
      _ = acc + ((i :: is).map f).sum := by rw [List.map_cons, List.sum_cons, add_assoc]

/-! ### Exact results -/

section exact

variable {f g : Sizing Nat} {n m : Nat}

theorem add_eq_some_iff : (f + g) held c = some (n, e) ↔
    ∃ a b d, f held c = some (a, d) ∧ g held d = some (b, e) ∧ n = a + b := by
  rw [apply_add_iff]
  simp [Amount.add, eq_comm]

theorem add_eq_some (hf : f held c = some (n, d)) (hg : g held d = some (m, e)) :
    (f + g) held c = some (n + m, e) :=
  add_eq_some_iff.mpr ⟨n, m, d, hf, hg, rfl⟩

end exact

end Sizing

/-- A value of some type that implements `DeepSizeOf`. -/
structure Component (α : Type) where
  size : Nat
  children : Sizing α

variable {α : Type} [Amount α]

/-- `deep_size_of` -/
def Component.deepSizeOf (self : Component α) : Option α :=
  ((Sizing.const self.size + self.children : Sizing α) [] Context.new).map Prod.fst

/-! ## Implementations -/

open Sizing

/-- `known_deep_size!` -/
def knownDeepSize (size : Nat) : Sizing α := const size

/-- `String`, `PathBuf` and `OsString` -/
def string (capacity : Nat) : Sizing α := const capacity

def cString (len : Nat) : Sizing α := const (len + 1)

def vec (elem : Layout) (capacity : Nat) (items : List (Component α)) : Sizing α :=
  (items.map fun child => child.children).sum + product capacity elem.size

def vecDeque (elem : Layout) (capacity : Nat) (items : List (Component α)) : Sizing α :=
  (items.map fun child => child.children).sum + product capacity elem.size

def linkedList (w : PointerWidth) (items : List (Component α)) : Sizing α :=
  items.foldl (fun sum child =>
    sum + const child.size + child.children + const (w.usize.size * 2)) 0

def hashMap (key value : Layout) (capacity : Nat) (entries : List (Component α × Component α)) :
    Sizing α :=
  entries.foldl (fun sum entry => sum + entry.1.children + entry.2.children) 0 +
    product capacity (Layout.tuple [key, value]).size

def hashSet (key : Layout) (capacity : Nat) (items : List (Component α)) : Sizing α :=
  items.foldl (fun sum item => sum + item.children) 0 + product capacity key.size

def BTREE_B : Nat := 6
def BTREE_MIN : Nat := 2 * BTREE_B - 1
def BTREE_MAX : Nat := BTREE_B - 1

/-- The size of a node, as both B-trees take it. -/
def overhead (w : PointerWidth) (elem : Layout) : Nat :=
  (Layout.tuple [w.usize, .u16, .u16, elem.array BTREE_MAX, w.usize.array BTREE_B]).size

/-- `len * overhead * 2 / (BTREE_MAX + BTREE_MIN)` -/
def bTreeNodes (len overhead : Nat) : Sizing α := fun _ c =>
  ((Amount.mul (Amount.ofNat len) (Amount.ofNat overhead)).bind fun x : α =>
    Amount.mul x (Amount.ofNat 2)).map fun x => (Amount.div x (BTREE_MAX + BTREE_MIN), c)

def bTreeMap (w : PointerWidth) (key value : Layout)
    (entries : List (Component α × Component α)) : Sizing α :=
  entries.foldl (fun sum entry => sum + entry.1.children + entry.2.children) 0 +
    bTreeNodes entries.length (overhead w (.tuple [key, value]))

def bTreeSet (w : PointerWidth) (key : Layout) (items : List (Component α)) : Sizing α :=
  items.foldl (fun sum item => sum + item.children) 0 +
    bTreeNodes items.length (overhead w key)

def box (val : Component α) : Sizing α := const val.size + val.children

def arc (addr : Nat) (val : Component α) : Sizing α := fun held context =>
  if context.containsArc addr then
    some (Amount.ofNat 0, context)
  else
    (const val.size + val.children : Sizing α) held (context.addArc addr)

def rc (addr : Nat) (val : Component α) : Sizing α := fun held context =>
  if context.containsRc addr then
    some (Amount.ofNat 0, context)
  else
    (const val.size + val.children : Sizing α) held (context.addRc addr)

/-- Slices and arrays. -/
def slice (items : List (Component α)) : Sizing α :=
  (items.map fun child => child.children).sum

def option : Option (Component α) → Sizing α
  | some t => t.children
  | none => const 0

omit [Amount α] in
def result : Component α ⊕ Component α → Sizing α
  | .inl r => r.children
  | .inr e => e.children

omit [Amount α] in
/-- A cell that is borrowed mutably panics. -/
def refCell (mutablyBorrowed : Bool) (val : Component α) : Sizing α :=
  if mutablyBorrowed then diverge else val.children

inductive LockState
  | free | locked | poisoned
  deriving DecidableEq

/-- The call waits for a mutex that another thread holds, and for one that its own thread holds
it waits forever. A poisoned mutex is locked, too, before it counts as 0. -/
def mutex (addr : Nat) (state : LockState) (val : Component α) : Sizing α := fun held context =>
  if addr ∈ held then none
  else match state with
    | .free => val.children (addr :: held) context
    | .locked => none
    | .poisoned => some (Amount.ofNat 0, context)

/-- Reading goes together with other reads. -/
def rwLock (state : LockState) (val : Component α) : Sizing α :=
  match state with
  | .free => val.children
  | .locked => diverge
  | .poisoned => const 0

def tuple (fields : List (Component α)) : Sizing α :=
  fields.foldl (fun sum field => sum + field.children) (const 0)

/-- `known_deep_size!(0; {T} core::ops::Bound<T>)`, whatever the bound holds. -/
def bound (_ : Option (Component α)) : Sizing α := knownDeepSize 0

end PriorityLfu.Deepsize
