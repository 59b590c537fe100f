import Mathlib.Data.Nat.Log
import PriorityLfu.Shard.Run

/-!
# The cache

The shards behind their locks, the two global counters and the metrics. An operation changes
one shard under its lock (`clear`: every shard in turn) and the counters by a list of atomic
updates, and notifies the lifecycle; what it notifies is part of what it returns. Here
operations are made one after the other.

`insertEntry`, `removeEntry` and `lookup` work on erased keys and entries of any kind; the
typed operations erase their arguments and downcast the results.
-/
namespace PriorityLfu
open Keyed

/-! ## Hooks, metrics and counter updates -/

/-- A call of a lifecycle hook with its key. -/
inductive Hook (κ : Type) where
  | onEvict (key : κ)
  | onRemove (key : κ)
  | onClear (key : κ)
  deriving DecidableEq, Repr

def Hook.key {κ : Type} : Hook κ → κ
  | .onEvict key => key
  | .onRemove key => key
  | .onClear key => key

def Hook.map {κ κ' : Type} (f : κ → κ') : Hook κ → Hook κ'
  | .onEvict key => .onEvict (f key)
  | .onRemove key => .onRemove (f key)
  | .onClear key => .onClear (f key)

/-- The counters of the `metrics` feature. -/
inductive Metric where
  | hits | misses | inserts | updates | evictions | removals
  deriving DecidableEq, Repr

/-- One atomic update of a counter. -/
inductive Update (w : Nat) where
  /-- `current_size.fetch_add` and `fetch_sub`. -/
  | addSize (x : BitVec w)
  | subSize (x : BitVec w)
  /-- `entry_count.fetch_add` and `fetch_sub`. -/
  | addCount (k : Nat)
  | subCount (k : Nat)
  | addMetric (m : Metric) (k : Nat)
  | resetMetric (m : Metric)
  deriving DecidableEq, Repr

/-! ## The number of shards -/

def MIN_SHARD_SIZE : Nat := 4096

def DEFAULT_SHARD_COUNT : Nat := 64

/-- `usize::next_power_of_two`. -/
def nextPowerOfTwo (k : Nat) : Nat := 2 ^ Nat.clog 2 k

def computeShardCount (capacity desiredShards : Nat) : Nat :=
  let maxShards := max (capacity / MIN_SHARD_SIZE) 1
  max (nextPowerOfTwo (min desiredShards maxShards)) 1

instance (capacity desiredShards : Nat) : NeZero (computeShardCount capacity desiredShards) :=
  ⟨Nat.one_le_iff_ne_zero.mp (Nat.le_max_right _ _)⟩

/-- The index of the shard for a hash: `(hash as usize) & (shard_count - 1)`. -/
def getShard (w n : Nat) [NeZero n] (hash : UInt64) : Fin n :=
  ⟨(hash.toNat % 2 ^ w) &&& (n - 1),
    Nat.lt_of_le_of_lt Nat.and_le_right (Nat.sub_lt (NeZero.pos n) Nat.one_pos)⟩

/-! ## The cache -/

structure Cache (κ ν : Type) (w n : Nat) [BEq κ] where
  shards : Fin n → Shard κ ν w
  currentSize : BitVec w
  entryCount : BitVec w
  maxSizeBytes : BitVec w
  counters : Metric → BitVec 64

/-- A snapshot of the metrics. -/
structure CacheMetrics (w : Nat) where
  hits : BitVec 64
  misses : BitVec 64
  inserts : BitVec 64
  updates : BitVec 64
  evictions : BitVec 64
  removals : BitVec 64
  currentSizeBytes : BitVec w
  capacityBytes : BitVec w
  entryCount : BitVec w
  deriving DecidableEq, Repr

namespace CacheMetrics

/-- Hits and misses, or `none` where an overflow check fires. -/
def totalAccesses {w : Nat} (self : CacheMetrics w) (checks : Bool) : Option (BitVec 64) :=
  Word.add checks self.hits self.misses

def totalWrites {w : Nat} (self : CacheMetrics w) (checks : Bool) : Option (BitVec 64) :=
  Word.add checks self.inserts self.updates

end CacheMetrics

namespace Cache

variable {κ ν : Type} {w n : Nat} [BEq κ]

/-- The constructor behind all others: the capacity is divided per shard. -/
def withShardsAndLifecycleInternal (maxSizeBytes : BitVec w) (shardCount : Nat) :
    Cache κ ν w shardCount where
  shards := fun _ => .new (BitVec.ofNat w (maxSizeBytes.toNat / shardCount))
  currentSize := 0
  entryCount := 0
  maxSizeBytes := maxSizeBytes
  counters := fun _ => 0

def withShards (maxSizeBytes : BitVec w) (shardCount : Nat) :
    Cache κ ν w (computeShardCount maxSizeBytes.toNat shardCount) :=
  withShardsAndLifecycleInternal maxSizeBytes _

def new (maxSizeBytes : BitVec w) :
    Cache κ ν w (computeShardCount maxSizeBytes.toNat DEFAULT_SHARD_COUNT) :=
  withShardsAndLifecycleInternal maxSizeBytes _

def setShard (self : Cache κ ν w n) (i : Fin n) (shard : Shard κ ν w) : Cache κ ν w n :=
  { self with shards := Function.update self.shards i shard }

def apply (self : Cache κ ν w n) : Update w → Cache κ ν w n
  | .addSize x => { self with currentSize := self.currentSize + x }
  | .subSize x => { self with currentSize := self.currentSize - x }
  | .addCount k => { self with entryCount := self.entryCount + BitVec.ofNat w k }
  | .subCount k => { self with entryCount := self.entryCount - BitVec.ofNat w k }
  | .addMetric m k =>
    { self with counters := Function.update self.counters m (self.counters m + BitVec.ofNat 64 k) }
  | .resetMetric m => { self with counters := Function.update self.counters m 0 }

def applyAll (self : Cache κ ν w n) (updates : List (Update w)) : Cache κ ν w n :=
  updates.foldl apply self

def size (self : Cache κ ν w n) : BitVec w := self.currentSize

def len (self : Cache κ ν w n) : BitVec w := self.entryCount

def metrics (self : Cache κ ν w n) : CacheMetrics w where
  hits := self.counters .hits
  misses := self.counters .misses
  inserts := self.counters .inserts
  updates := self.counters .updates
  evictions := self.counters .evictions
  removals := self.counters .removals
  currentSizeBytes := self.currentSize
  capacityBytes := self.maxSizeBytes
  entryCount := self.entryCount

end Cache

/-! ## What an operation does to the counters -/

variable {κ ν : Type} {w n : Nat}

/-- The updates for the inserted entry. For a replacement the difference of the sizes is
taken as a signed number. -/
def insertUpdates (checks : Bool) (entrySize : BitVec w) (old : Option (Entry ν w)) :
    Option (List (Update w)) :=
  match old with
  | some old =>
    (Word.ssub checks entrySize old.size).bind fun sizeDiff =>
    if (0#w).slt sizeDiff then some [.addSize sizeDiff, .addMetric .updates 1]
    else (Word.neg checks sizeDiff).map fun d => [.subSize d, .addMetric .updates 1]
  | none => some [.addSize entrySize, .addCount 1, .addMetric .inserts 1]

/-- The updates for the evicted entries. -/
def evictUpdates (stats : EvictionStats w) : List (Update w) :=
  if stats.count > 0 then
    [.subCount stats.count, .subSize stats.size, .addMetric .evictions stats.count]
  else []

def evictHooks (stats : EvictionStats w) (evicted : List (EvictedEntry κ ν w)) : List (Hook κ) :=
  if stats.count > 0 then evicted.map fun e => .onEvict e.key else []

def removeUpdates (entry : Entry ν w) : List (Update w) :=
  [.subSize entry.size, .subCount 1, .addMetric .removals 1]

def drainUpdates (drainedSize : BitVec w) (drainedCount : Nat) : List (Update w) :=
  [.subSize drainedSize, .subCount drainedCount]

def resetUpdates : List (Update w) :=
  [.resetMetric .hits, .resetMetric .misses, .resetMetric .inserts, .resetMetric .updates,
    .resetMetric .evictions, .resetMetric .removals]

/-! ## Operations on erased keys -/

namespace Cache

variable [BEq κ] [Hashable κ] [EquivBEq κ] [LawfulHashable κ] [NeZero n]

/-- What `insert` does under the lock. -/
def insertShard (self : Cache κ ν w n) (checks : Bool) (key : κ) (entry : Entry ν w) :
    Outcome (Cache κ ν w n) (Option (Entry ν w) × EvictionStats w × List (EvictedEntry κ ν w)) :=
  let i := getShard w n (hash key)
  ((self.shards i).insert checks key entry).mapState (self.setShard i)

def insertEntry (self : Cache κ ν w n) (checks : Bool) (key : κ) (entry : Entry ν w) :
    Outcome (Cache κ ν w n) (Option (Entry ν w) × List (Hook κ)) :=
  (self.insertShard checks key entry).bind fun (old, stats, evicted) self =>
  (Outcome.check (insertUpdates checks entry.size old) self).bind fun updates self =>
  .ok (old, evictHooks stats evicted) (self.applyAll (updates ++ evictUpdates stats))

/-- What `remove` does to the shard. -/
def removeShard (self : Cache κ ν w n) (checks : Bool) (key : κ) :
    Outcome (Cache κ ν w n) (Option (κ × Entry ν w)) :=
  let i := getShard w n (hash key)
  ((self.shards i).remove checks key).mapState (self.setShard i)

def removeEntry (self : Cache κ ν w n) (checks : Bool) (key : κ) :
    Outcome (Cache κ ν w n) (Option (Entry ν w) × List (Hook κ)) :=
  (self.removeShard checks key).bind fun r self =>
  match r with
  | none => .ok (none, []) self
  | some (storedKey, entry) =>
    .ok (some entry, [.onRemove storedKey]) (self.applyAll (removeUpdates entry))

/-- What `clear` does to one shard. -/
def drainShard (self : Cache κ ν w n) (i : Fin n) :
    (List (EvictedEntry κ ν w) × BitVec w × Nat) × Cache κ ν w n :=
  let (drained, shard) := (self.shards i).drain
  (drained, self.setShard i shard)

/-- The loop of `clear` over the shards that are left. -/
def drainShards : List (Fin n) → Cache κ ν w n → List (EvictedEntry κ ν w) →
    List (EvictedEntry κ ν w) × Cache κ ν w n
  | [], self, allEntries => (allEntries, self)
  | i :: is, self, allEntries =>
    let ((entries, drainedSize, drainedCount), self) := self.drainShard i
    let self := self.applyAll (drainUpdates drainedSize drainedCount)
    drainShards is self (allEntries ++ entries)

def clear (self : Cache κ ν w n) : List (Hook κ) × Cache κ ν w n :=
  let (allEntries, self) := drainShards (List.finRange n) self []
  (allEntries.map fun e => .onClear e.key, self.applyAll resetUpdates)

/-- The lookup shared by the `get` family: the entry found, touched, with a hit or a miss
counted. -/
def lookup (self : Cache κ ν w n) (hash : UInt64) (equals : κ → Bool) :
    Option (Entry ν w) × Cache κ ν w n :=
  let i := getShard w n hash
  let (entry, shard) := (self.shards i).getHash hash equals
  let self := self.setShard i shard
  match entry with
  | none => (none, self.apply (.addMetric .misses 1))
  | some entry => (some entry, self.apply (.addMetric .hits 1))

def containsEntry (self : Cache κ ν w n) (hash : UInt64) (equals : κ → Bool) : Bool :=
  (self.shards (getShard w n hash)).containsHash hash equals

/-! ## Typed operations -/

variable {T : Types w} {H : Heap T}

/-- `insert`. The clone of the key that the cache stores is in the allocation `key`. -/
def insert (self : Cache (ErasedKey H) (Any T.Val) w n) (checks : Bool) (key : Arc H)
    (value : T.Val (T.Value key.get.typeId)) : Outcome (Cache (ErasedKey H) (Any T.Val) w n)
      (Option (T.Val (T.Value key.get.typeId)) × List (Hook (Any T.Key))) :=
  let erasedKey := ErasedKey.new key
  let policy := T.policy key.get.value
  let entry := Entry.new (Any.mk _ value) (T.deepSizeOf value) policy
  (self.insertEntry checks erasedKey entry).bind fun (oldEntry, hooks) self =>
  .ok (oldEntry.bind fun e => e.value.downcast _, hooks.map (Hook.map fun k => k.data.get)) self

/-- `remove`. The lookup key is cloned into the allocation `key`. -/
def remove (self : Cache (ErasedKey H) (Any T.Val) w n) (checks : Bool) (key : Arc H) :
    Outcome (Cache (ErasedKey H) (Any T.Val) w n)
      (Option (T.Val (T.Value key.get.typeId)) × List (Hook (Any T.Key))) :=
  let erasedKey := ErasedKey.new key
  (self.removeEntry checks erasedKey).bind fun (entry, hooks) self =>
  .ok (entry.bind fun e => e.value.downcast _, hooks.map (Hook.map fun k => k.data.get)) self

/-- The body of the `get` family: look up and downcast. -/
def lookupAs (self : Cache (ErasedKey H) (Any T.Val) w n) (v : T.ValueId) (hash : UInt64)
    (equals : ErasedKey H → Bool) :
    Option (T.Val v) × Cache (ErasedKey H) (Any T.Val) w n :=
  let (entry, self) := self.lookup hash equals
  (entry.bind fun e => e.value.downcast v, self)

/-- `get`: the value the guard gives access to. -/
def get {t : T.KeyId} (self : Cache (ErasedKey H) (Any T.Val) w n) (key : T.Key t) :
    Option (T.Val (T.Value t)) × Cache (ErasedKey H) (Any T.Val) w n :=
  let keyRef := ErasedKeyRef.new key
  self.lookupAs (T.Value t) keyRef.hash keyRef.equals

/-- `get_clone`: a clone of the value. -/
def getClone {t : T.KeyId} (self : Cache (ErasedKey H) (Any T.Val) w n) (key : T.Key t) :
    Option (T.Val (T.Value t)) × Cache (ErasedKey H) (Any T.Val) w n :=
  let keyRef := ErasedKeyRef.new key
  self.lookupAs (T.Value t) keyRef.hash keyRef.equals

def getBy {t : T.KeyId} (self : Cache (ErasedKey H) (Any T.Val) w n) (key : CacheKeyLookup T t) :
    Option (T.Val (T.Value t)) × Cache (ErasedKey H) (Any T.Val) w n :=
  let keyRef := ErasedKeyLookup.new key
  self.lookupAs (T.Value t) keyRef.hash keyRef.equals

def getCloneBy {t : T.KeyId} (self : Cache (ErasedKey H) (Any T.Val) w n)
    (key : CacheKeyLookup T t) :
    Option (T.Val (T.Value t)) × Cache (ErasedKey H) (Any T.Val) w n :=
  let keyRef := ErasedKeyLookup.new key
  self.lookupAs (T.Value t) keyRef.hash keyRef.equals

def contains {t : T.KeyId} (self : Cache (ErasedKey H) (Any T.Val) w n) (key : T.Key t) : Bool :=
  let keyRef := ErasedKeyRef.new key
  self.containsEntry keyRef.hash keyRef.equals

def containsBy {t : T.KeyId} (self : Cache (ErasedKey H) (Any T.Val) w n)
    (key : CacheKeyLookup T t) : Bool :=
  let keyRef := ErasedKeyLookup.new key
  self.containsEntry keyRef.hash keyRef.equals

end Cache

end PriorityLfu
