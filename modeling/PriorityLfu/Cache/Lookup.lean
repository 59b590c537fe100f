import PriorityLfu.Cache.Refinement

/-!
# All lookup paths agree

Presence is decided in three ways: by equality of erased keys (`insert`, `remove`), by a
borrowed key of the stored type (`get`, `get_clone`, `contains`), and by a borrowed key of
another type (`get_by`, `get_clone_by`, `contains_by`). The first two decide as `view` does; the
third is the second where the borrowed key hashes and compares as its owned key does.
-/
namespace PriorityLfu
open Keyed

variable {w n : Nat} {T : Types w} {H : Heap T}

/-- The borrowed key has the hash of `key` and accepts the keys that equal it. -/
structure CacheKeyLookup.Represents {t : T.KeyId} (q : CacheKeyLookup T t) (key : T.Key t) :
    Prop where
  hash : (ErasedKeyLookup.new q).hash = computeHash t key
  eqKey : ∀ k, q.eqKey k = T.eq key k

/-- The two lookups by reference accept the same stored keys. -/
theorem CacheKeyLookup.Represents.equals {t : T.KeyId} {q : CacheKeyLookup T t} {key : T.Key t}
    (h : q.Represents key) : ((ErasedKeyLookup.new q).equals : ErasedKey H → Bool) =
      (ErasedKeyRef.new key).equals := by
  funext other
  unfold ErasedKeyLookup.equals ErasedKeyRef.equals
  rw [h.hash]
  simp only [ErasedKeyLookup.new, ErasedKeyRef.new, h.eqKey]
  cases other.data.get.downcast t <;> rfl

namespace Cache

variable [NeZero n] {c d : Cache (ErasedKey H) (Any T.Val) w n} {checks : Bool}

/-- A lookup through a borrowed key is the lookup of its owned key: the same result, and the
same cache after it. -/
theorem getBy_eq {t : T.KeyId} {q : CacheKeyLookup T t} {key : T.Key t} (h : q.Represents key)
    (c : Cache (ErasedKey H) (Any T.Val) w n) :
    c.getBy q = c.get key ∧ c.getCloneBy q = c.getClone key ∧ c.containsBy q = c.contains key := by
  have hhash : (ErasedKeyLookup.new q).hash = (ErasedKeyRef.new key).hash := h.hash
  simp only [getBy, getCloneBy, containsBy, get, getClone, contains, hhash, h.equals, and_self]

theorem contains_eq (c : Cache (ErasedKey H) (Any T.Val) w n) (key : Any T.Key) :
    c.contains key.value = (c.view key).isSome := by
  simp [contains, containsEntry, Shard.containsHash, view]

theorem remove_view {key : Arc H} {r : Option (T.Val (T.Value key.get.typeId))}
    {hooks : List (Hook (Any T.Key))} (hc : c.Typed)
    (h : c.remove checks key = .ok (r, hooks) d) : r.map (Any.mk _) = c.view key.get := by
  rcases remove_cases hc h with ⟨rfl, -, -, hnone⟩ | ⟨k₀, e, hr, -, -, -, hview⟩
  · rw [hnone, Option.map_none]
  · rw [hview, hr]

theorem Typed.of_run {maxSizeBytes : BitVec w} {ops : List (CacheOp H)} {rs : List (CacheReply T)}
    (h : Outcome.run (step checks) (withShardsAndLifecycleInternal maxSizeBytes n) ops =
      .ok rs c) : c.Typed := (run_refines (typed_new maxSizeBytes) h).1

/-- In every reachable cache `contains`, `get`, `get_clone`, `remove` and `insert` agree on
whether a key is present and on the value they return, whatever hashes collide. A borrowed key
that represents an owned one gives the same results as that and leaves the same cache behind,
access statistics and counters included. -/
theorem lookups_agree {maxSizeBytes : BitVec w} {ops : List (CacheOp H)}
    {rs : List (CacheReply T)}
    (h : Outcome.run (step checks) (withShardsAndLifecycleInternal maxSizeBytes n) ops =
      .ok rs c) :
    (∀ key : Any T.Key,
      c.contains key.value = (c.view key).isSome ∧
      (c.get key.value).1.map (Any.mk _) = c.view key ∧
      (c.getClone key.value).1.map (Any.mk _) = c.view key ∧
      ∀ a : Arc H, a.get = key →
        (∀ r hooks d, c.remove checks a = .ok (r, hooks) d → r.map (Any.mk _) = c.view key) ∧
        ∀ value old hooks d, c.insert checks a value = .ok (old, hooks) d →
          old.map (Any.mk _) = c.view key) ∧
    ∀ (t : T.KeyId) (q : CacheKeyLookup T t) (key : T.Key t), q.Represents key →
      c.getBy q = c.get key ∧ c.getCloneBy q = c.getClone key ∧
        c.containsBy q = c.contains key := by
  have hc := Typed.of_run h
  refine ⟨fun key => ⟨contains_eq c key, (get_refines hc key).1, (get_refines hc key).1, ?_⟩,
    fun t q key hq => getBy_eq hq c⟩
  rintro a rfl
  refine ⟨fun r hooks d hr => remove_view hc hr, fun value old hooks d hi => ?_⟩
  obtain ⟨_, -, -, hold, -⟩ := insert_cases hc hi
  exact hold

/-- The same number under two key types with colliding hashes, in the cache under one of them
only: a borrowed key for each type gets what the owned key gets. -/
theorem lookups_agree_twoTypes :
    ∃ rs, ∃ c : Cache (ErasedKey alternating) (Any colliding.Val) 64 2,
      Outcome.run (step false) (withShardsAndLifecycleInternal 900 2) twoTypes = .ok rs c ∧
      c.getBy (.ofKey (t := false) (0 : Nat)) = c.get (T := colliding) (t := false) (0 : Nat) ∧
      c.getBy (.ofKey (t := true) (0 : Nat)) = c.get (T := colliding) (t := true) (0 : Nat) := by
  obtain ⟨rs, c, h⟩ := run_unchecked (H := alternating)
    (withShardsAndLifecycleInternal 900 2 : Cache _ _ 64 2) twoTypes
  have hagree := (lookups_agree h).2
  exact ⟨rs, c, h, (hagree false _ (0 : Nat) ⟨rfl, fun _ => rfl⟩).1,
    (hagree true _ (0 : Nat) ⟨rfl, fun _ => rfl⟩).1⟩

end Cache

end PriorityLfu
