import Mathlib.Data.BitVec

/-!
# Policies, key types and value types

A cache stores keys and values of any number of types behind `dyn Any`. `Types` is the
collection of those types, named by their `TypeId`, together with what the trait
implementations of the program say about them: equality, hashing, the value type of each
key type, the policy of each key, the deep size of each value. Its laws are those of `Eq`
(an equivalence) and of `Hash` (equal keys hash equally); nothing excludes collisions.
-/
namespace PriorityLfu

/-- Cache eviction policy. Lower discriminants are evicted last. -/
inductive CachePolicy where
  | critical
  | standard
  | volatile
  deriving DecidableEq, Repr

def CachePolicy.discriminant : CachePolicy → Nat
  | .critical => 0
  | .standard => 1
  | .volatile => 2

def NUM_POLICY_BUCKETS : Nat := 3

/-- The buckets in the order `(0..NUM_POLICY_BUCKETS).rev()` of the eviction loop. -/
def CachePolicy.evictionOrder : List CachePolicy := [.volatile, .standard, .critical]

theorem CachePolicy.discriminant_evictionOrder :
    evictionOrder.map discriminant = (List.range NUM_POLICY_BUCKETS).reverse := rfl

theorem CachePolicy.mem_evictionOrder (p : CachePolicy) : p ∈ evictionOrder := by
  cases p <;> simp [evictionOrder]

/-- The types a program caches, on a machine with words of `w` bits. -/
structure Types (w : Nat) where
  /-- `TypeId`s of the key types. -/
  KeyId : Type
  /-- `TypeId`s of the value types. -/
  ValueId : Type
  decKey : DecidableEq KeyId
  decValue : DecidableEq ValueId
  Key : KeyId → Type
  Val : ValueId → Type
  /-- `CacheKey::Value`. -/
  Value : KeyId → ValueId
  /-- `CacheKey::policy`. -/
  policy : {t : KeyId} → Key t → CachePolicy
  /-- `PartialEq::eq` of a key type. -/
  eq : {t : KeyId} → Key t → Key t → Bool
  /-- `DeepSizeOf::deep_size_of` of a value type. -/
  deepSizeOf : {v : ValueId} → Val v → BitVec w
  /-- States of `ahash::AHasher`. -/
  Hasher : Type
  /-- `AHasher::default()`. -/
  hasher : Hasher
  hashTypeId : KeyId → Hasher → Hasher
  /-- `Hash::hash` of a key type. -/
  hashKey : {t : KeyId} → Key t → Hasher → Hasher
  finish : Hasher → UInt64
  eq_refl : ∀ {t} (a : Key t), eq a a = true
  eq_symm : ∀ {t} {a b : Key t}, eq a b = true → eq b a = true
  eq_trans : ∀ {t} {a b c : Key t}, eq a b = true → eq b c = true → eq a c = true
  hash_eq : ∀ {t} {a b : Key t}, eq a b = true →
    finish (hashKey a (hashTypeId t hasher)) = finish (hashKey b (hashTypeId t hasher))

attribute [instance] Types.decKey Types.decValue

/-- A borrowed key of some type `Q: CacheKeyLookup<K>`: how it hashes and which keys of
type `K` its `eq_key` accepts. -/
structure CacheKeyLookup {w : Nat} (T : Types w) (t : T.KeyId) where
  hash : T.Hasher → T.Hasher
  eqKey : T.Key t → Bool

/-- The blanket implementation: every key looks itself up. -/
def CacheKeyLookup.ofKey {w : Nat} {T : Types w} {t : T.KeyId} (key : T.Key t) :
    CacheKeyLookup T t where
  hash := T.hashKey key
  eqKey := T.eq key

end PriorityLfu
