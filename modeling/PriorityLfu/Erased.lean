import PriorityLfu.Traits

/-!
# Type-erased keys and entries

`Any` is a value together with its `TypeId`. An `ErasedKey` keeps its key in an `Arc`; the
allocation an `Arc` points to never changes while it is alive, so a `Heap` gives the
content of every allocation of a run once and for all, and an `Arc` is an address in it.
Two keys may then be equal and still be different objects, at different addresses.

The fields of an `ErasedKey` can only be filled by `ErasedKey::new`; the last three fields
record that, and with them erased equality is equality of the keys behind the erasure.
-/
namespace PriorityLfu

/-! ## `dyn Any` -/

/-- A value of one of the types `C i`, with the identity of its type. -/
structure Any {ι : Type} (C : ι → Type) where
  typeId : ι
  value : C typeId

/-- `downcast_ref` and `downcast`: the value, if it has the type asked for. -/
def Any.downcast {ι : Type} [DecidableEq ι] {C : ι → Type} (a : Any C) (t : ι) : Option (C t) :=
  if h : a.typeId = t then some (h ▸ a.value) else none

@[simp] theorem Any.downcast_mk {ι : Type} [DecidableEq ι] {C : ι → Type} (t : ι) (x : C t) :
    (Any.mk t x).downcast t = some x := by simp [Any.downcast]

theorem Any.downcast_eq_some {ι : Type} [DecidableEq ι] {C : ι → Type} {a : Any C} {t : ι}
    {x : C t} : a.downcast t = some x ↔ a = ⟨t, x⟩ := by
  obtain ⟨s, y⟩ := a
  by_cases h : s = t
  · subst h; simp [Any.downcast]
  · simp only [Any.downcast, h, dite_false, reduceCtorEq, false_iff]
    exact fun he => h (congrArg Any.typeId he)

theorem Any.map_mk_downcast {ι : Type} [DecidableEq ι] {C : ι → Type} {a : Any C} {t : ι}
    (h : a.typeId = t) : (a.downcast t).map (Any.mk t) = some a := by
  subst h
  simp [Any.downcast]

theorem Any.downcast_of_ne {ι : Type} [DecidableEq ι] {C : ι → Type} {a : Any C} {t : ι}
    (h : a.typeId ≠ t) : a.downcast t = none := by simp [Any.downcast, h]

variable {w : Nat} {T : Types w}

/-! ## Allocations -/

/-- The content of every allocation that holds a key. -/
abbrev Heap (T : Types w) : Type := Nat → Any T.Key

/-- `Arc<dyn Any>`. -/
structure Arc (H : Heap T) where
  addr : Nat
  deriving DecidableEq, Repr

def Arc.get {H : Heap T} (a : Arc H) : Any T.Key := H a.addr

/-- `Arc::ptr_eq`. -/
def Arc.ptrEq {H : Heap T} (a b : Arc H) : Bool := a.addr == b.addr

/-! ## Equality and hash of keys under their types -/

/-- Equality of keys of all types: the same type, and equal there. -/
def Any.keyEq (a b : Any T.Key) : Bool :=
  match a.downcast b.typeId with
  | some x => T.eq x b.value
  | none => false

theorem Any.keyEq_iff {a b : Any T.Key} :
    a.keyEq b = true ↔ ∃ t, ∃ x y : T.Key t, a = ⟨t, x⟩ ∧ b = ⟨t, y⟩ ∧ T.eq x y = true := by
  obtain ⟨t, y⟩ := b
  unfold Any.keyEq
  cases h : a.downcast t with
  | none =>
    simp only [Bool.false_eq_true, false_iff, not_exists, not_and]
    rintro s x z rfl he
    cases he
    simp at h
  | some x =>
    obtain rfl := Any.downcast_eq_some.mp h
    constructor
    · exact fun he => ⟨t, x, y, rfl, rfl, he⟩
    · rintro ⟨s, x', y', hx, hy, he⟩
      cases hx; cases hy
      exact he

theorem Any.keyEq_refl (a : Any T.Key) : a.keyEq a = true :=
  Any.keyEq_iff.mpr ⟨_, _, _, rfl, rfl, T.eq_refl _⟩

theorem Any.keyEq_symm {a b : Any T.Key} (h : a.keyEq b = true) : b.keyEq a = true := by
  obtain ⟨t, x, y, rfl, rfl, he⟩ := Any.keyEq_iff.mp h
  exact Any.keyEq_iff.mpr ⟨t, y, x, rfl, rfl, T.eq_symm he⟩

theorem Any.keyEq_trans {a b c : Any T.Key} (h : a.keyEq b = true) (h' : b.keyEq c = true) :
    a.keyEq c = true := by
  obtain ⟨t, x, y, rfl, rfl, he⟩ := Any.keyEq_iff.mp h
  obtain ⟨s, y', z, hy, rfl, he'⟩ := Any.keyEq_iff.mp h'
  cases hy
  exact Any.keyEq_iff.mpr ⟨_, x, z, rfl, rfl, T.eq_trans he he'⟩

theorem Any.keyEq_congr_right {a b c : Any T.Key} (h : b.keyEq c = true) :
    a.keyEq b = a.keyEq c := by
  cases hb : a.keyEq b with
  | true => exact (Any.keyEq_trans hb h).symm
  | false =>
    by_contra hne
    have := Any.keyEq_trans (Bool.eq_true_of_not_eq_false (Ne.symm hne)) (Any.keyEq_symm h)
    rw [hb] at this
    cases this

theorem Any.keyEq_comm (a b : Any T.Key) : a.keyEq b = b.keyEq a := by
  cases h : a.keyEq b with
  | true => exact (Any.keyEq_symm h).symm
  | false =>
    by_contra hne
    rw [Any.keyEq_symm (Bool.eq_true_of_not_eq_false (Ne.symm hne))] at h
    cases h

/-- `ErasedKey::compute_hash`. -/
def computeHash (t : T.KeyId) (key : T.Key t) : UInt64 :=
  let hasher := T.hasher
  let hasher := T.hashTypeId t hasher
  let hasher := T.hashKey key hasher
  T.finish hasher

/-! ## `ErasedKey` -/

/-- `eq_impl::<K>`: downcast both sides to `K` and compare. -/
def eqImpl {H : Heap T} (t : T.KeyId) (a b : Arc H) : Bool :=
  match a.get.downcast t, b.get.downcast t with
  | some aKey, some bKey => T.eq aKey bKey
  | _, _ => false

structure ErasedKey (H : Heap T) where
  typeId : T.KeyId
  hash : UInt64
  data : Arc H
  eqFn : Arc H → Arc H → Bool
  typeId_eq : typeId = data.get.typeId
  hash_eq : hash = computeHash data.get.typeId data.get.value
  eqFn_eq : eqFn = eqImpl typeId

namespace ErasedKey

variable {H : Heap T}

/-- `ErasedKey::new`, given the allocation that holds the clone of the key. -/
def new (data : Arc H) : ErasedKey H where
  typeId := data.get.typeId
  hash := computeHash data.get.typeId data.get.value
  data := data
  eqFn := eqImpl data.get.typeId
  typeId_eq := rfl
  hash_eq := rfl
  eqFn_eq := rfl

/-- `PartialEq::eq`: hash and type first, then the pointers, then the keys. -/
def eq (self other : ErasedKey H) : Bool :=
  if self.hash != other.hash || self.typeId != other.typeId then false
  else if self.data.ptrEq other.data then true
  else self.eqFn self.data other.data

instance : BEq (ErasedKey H) := ⟨eq⟩

instance : Hashable (ErasedKey H) := ⟨hash⟩

theorem eqImpl_eq {t : T.KeyId} {a b : Arc H} (h : t = a.get.typeId) :
    eqImpl t a b = a.get.keyEq b.get := by
  subst h
  unfold eqImpl Any.keyEq
  by_cases h : b.get.typeId = a.get.typeId
  · have ha : a.get.downcast a.get.typeId = some a.get.value := Any.downcast_mk _ _
    have hb : b.get.downcast b.get.typeId = some b.get.value := Any.downcast_mk _ _
    generalize a.get = x at *
    generalize b.get = y at *
    obtain ⟨s, x⟩ := x
    obtain ⟨t, y⟩ := y
    cases h
    simp
  · simp [Any.downcast_of_ne h, Any.downcast_of_ne (Ne.symm h)]

/-- Erased equality is equality of the keys: the two fast paths change nothing. -/
theorem beq_eq (a b : ErasedKey H) : (a == b) = a.data.get.keyEq b.data.get := by
  show eq a b = _
  have hfn : a.eqFn a.data b.data = a.data.get.keyEq b.data.get := by
    rw [a.eqFn_eq, eqImpl_eq a.typeId_eq]
  unfold eq
  by_cases hslow : (a.hash != b.hash || a.typeId != b.typeId) = true
  · rw [if_pos hslow]
    by_contra hne
    obtain ⟨t, x, y, hx, hy, he⟩ := Any.keyEq_iff.mp (Bool.eq_true_of_not_eq_false (Ne.symm hne))
    have hhash : a.hash = b.hash := by
      rw [a.hash_eq, b.hash_eq, hx, hy]; exact T.hash_eq he
    have htype : a.typeId = b.typeId := by rw [a.typeId_eq, b.typeId_eq, hx, hy]
    simp [hhash, htype] at hslow
  · rw [if_neg hslow]
    by_cases hptr : a.data.ptrEq b.data = true
    · have : a.data.get = b.data.get := congrArg H (by simpa [Arc.ptrEq] using hptr)
      rw [if_pos hptr, this, Any.keyEq_refl]
    · rw [if_neg hptr, hfn]

instance : EquivBEq (ErasedKey H) where
  rfl := by intro a; rw [beq_eq]; exact Any.keyEq_refl _
  symm := by intro a b h; rw [beq_eq] at *; exact Any.keyEq_symm h
  trans := by intro a b c h h'; rw [beq_eq] at *; exact Any.keyEq_trans h h'

instance : LawfulHashable (ErasedKey H) where
  hash_eq a b h := by
    rw [beq_eq] at h
    obtain ⟨t, x, y, hx, hy, he⟩ := Any.keyEq_iff.mp h
    show a.hash = b.hash
    rw [a.hash_eq, b.hash_eq, hx, hy]
    exact T.hash_eq he

end ErasedKey

/-! ## Borrowed keys -/

structure ErasedKeyRef (T : Types w) where
  typeId : T.KeyId
  hash : UInt64
  key : T.Key typeId

namespace ErasedKeyRef

def new {t : T.KeyId} (key : T.Key t) : ErasedKeyRef T := ⟨t, computeHash t key, key⟩

def equals {H : Heap T} (self : ErasedKeyRef T) (other : ErasedKey H) : Bool :=
  if self.hash != other.hash || self.typeId != other.typeId then false
  else
    match other.data.get.downcast self.typeId with
    | some otherKey => T.eq self.key otherKey
    | none => false

theorem typeId_of_equals {H : Heap T} {self : ErasedKeyRef T} {other : ErasedKey H}
    (h : self.equals other = true) : other.data.get.typeId = self.typeId := by
  unfold equals at h
  rw [← other.typeId_eq]
  split at h
  · cases h
  · next hslow => simp_all

/-- The lookup by reference compares the keys as erased equality does. -/
theorem equals_new {H : Heap T} (key : Any T.Key) (other : ErasedKey H) :
    (new key.value).equals other = key.keyEq other.data.get := by
  have hother := other.typeId_eq
  have hhash := other.hash_eq
  unfold equals new
  generalize other.data.get = b at *
  obtain ⟨t, x⟩ := key
  obtain ⟨u, y⟩ := b
  by_cases htype : t = u
  · subst htype
    simp only [hother, hhash, bne_self_eq_false, Bool.or_false, Any.downcast_mk, Any.keyEq]
    by_cases he : T.eq x y = true
    · have : computeHash t x = computeHash t y := T.hash_eq he
      simp [this]
    · have : T.eq x y = false := by simpa using he
      simp [this]
  · have : (Any.mk t x : Any T.Key).keyEq ⟨u, y⟩ = false := by
      simp [Any.keyEq, Any.downcast, htype]
    simp [hother, htype, this]

end ErasedKeyRef

structure ErasedKeyLookup (T : Types w) where
  typeId : T.KeyId
  hash : UInt64
  key : CacheKeyLookup T typeId

namespace ErasedKeyLookup

def new {t : T.KeyId} (key : CacheKeyLookup T t) : ErasedKeyLookup T :=
  let hasher := T.hasher
  let hasher := T.hashTypeId t hasher
  let hasher := key.hash hasher
  ⟨t, T.finish hasher, key⟩

def equals {H : Heap T} (self : ErasedKeyLookup T) (other : ErasedKey H) : Bool :=
  if self.hash != other.hash || self.typeId != other.typeId then false
  else
    match other.data.get.downcast self.typeId with
    | some otherKey => self.key.eqKey otherKey
    | none => false

theorem typeId_of_equals {H : Heap T} {self : ErasedKeyLookup T} {other : ErasedKey H}
    (h : self.equals other = true) : other.data.get.typeId = self.typeId := by
  unfold equals at h
  rw [← other.typeId_eq]
  split at h
  · cases h
  · next hslow => simp_all

end ErasedKeyLookup

/-! ## `Entry` -/

/-- A stored value with its size, its policy and its access statistics. -/
structure Entry (ν : Type) (w : Nat) where
  value : ν
  size : BitVec w
  policy : CachePolicy
  /-- LFU frequency counter. -/
  frequency : UInt8
  /-- Clock reference bit. -/
  clockBit : Bool
  deriving DecidableEq, Repr

namespace Entry

variable {ν : Type}

/-- `Entry::new`, with `size` the value's `deep_size_of()`. -/
def new (value : ν) (size : BitVec w) (policy : CachePolicy) : Entry ν w where
  value := value
  size := size
  policy := policy
  frequency := 0
  clockBit := false

/-- The fields that never change after creation. -/
def content (e : Entry ν w) : ν × BitVec w × CachePolicy := (e.value, e.size, e.policy)

theorem size_eq {e f : Entry ν w} (h : e.content = f.content) : e.size = f.size :=
  congrArg (·.2.1) h

theorem policy_eq {e f : Entry ν w} (h : e.content = f.content) : e.policy = f.policy :=
  congrArg (·.2.2) h

theorem value_eq {e f : Entry ν w} (h : e.content = f.content) : e.value = f.value :=
  congrArg (·.1) h

/-- What a hit does: set the clock bit and increment the frequency, saturating at 255. -/
def touch (e : Entry ν w) : Entry ν w :=
  let e := { e with clockBit := true }
  if e.frequency < 255 then { e with frequency := e.frequency + 1 } else e

@[simp] theorem content_touch (e : Entry ν w) : e.touch.content = e.content := by
  unfold touch
  dsimp only
  split <;> rfl

/-- Neither the clock bit nor the frequency protects the entry. -/
def cold (e : Entry ν w) : Bool := !e.clockBit && e.frequency == 0

/-- What a sweep does to an entry it passes over: clear the clock bit, or else decrement
the frequency. -/
def age (e : Entry ν w) : Entry ν w :=
  if e.clockBit then { e with clockBit := false } else { e with frequency := e.frequency - 1 }

@[simp] theorem content_age (e : Entry ν w) : e.age.content = e.content := by
  unfold age
  split <;> rfl

end Entry

end PriorityLfu
