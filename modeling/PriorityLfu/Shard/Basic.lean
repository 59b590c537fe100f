import PriorityLfu.Library.Word
import PriorityLfu.Library.Outcome
import PriorityLfu.Library.HashMap
import PriorityLfu.Library.IndexSet
import PriorityLfu.Erased

/-!
# The shard

One partition of the cache: the entry table, one policy bucket for each policy with its
clock hand, and the running total of sizes. A shard uses its keys only through `==` and
`hash`, and its values not at all, so both types are parameters here; the cache takes
erased keys and `dyn Any` values for them.

Sizes are words of `w` bits. `checks` says whether the program was built with overflow
checks: with them an overflow panics and leaves the shard as it is at that point, without
them it wraps. Lengths and positions of lists held in memory are natural numbers.
-/
namespace PriorityLfu
open Keyed

/-- Eviction statistics returned from insert operations. -/
structure EvictionStats (w : Nat) where
  count : Nat
  size : BitVec w
  deriving DecidableEq, Repr

/-- An evicted entry with its key. -/
structure EvictedEntry (κ ν : Type) (w : Nat) where
  key : κ
  entry : Entry ν w
  deriving DecidableEq, Repr

/-! ## Policy buckets -/

/-- A single policy bucket: the keys in sweep order and the clock hand. -/
structure PolicyBucket (κ : Type) [BEq κ] where
  list : IndexSet κ
  hand : Nat

namespace PolicyBucket

variable {κ : Type} [BEq κ]

def new : PolicyBucket κ := ⟨.empty, 0⟩

def len (self : PolicyBucket κ) : Nat := self.list.len

def isEmpty (self : PolicyBucket κ) : Bool := self.list.isEmpty

def clear (_self : PolicyBucket κ) : PolicyBucket κ := ⟨.empty, 0⟩

variable [EquivBEq κ]

def insert (self : PolicyBucket κ) (key : κ) : PolicyBucket κ :=
  let list := self.list.insert key
  let hand := if self.hand ≥ list.len && !list.isEmpty then 0 else self.hand
  ⟨list, hand⟩

/-- Remove a key by `swap_remove` and adjust the hand. -/
def remove (self : PolicyBucket κ) (key : κ) : Bool × PolicyBucket κ :=
  let oldLen := self.list.len
  match self.list.swapRemoveFull key with
  | none => (false, self)
  | some (removedIdx, _, list) =>
    let newLen := list.len
    let hand :=
      if newLen = 0 then 0
      -- the hand pointed at the last key, which moved to `removedIdx`
      else if self.hand = oldLen - 1 ∧ removedIdx ≠ oldLen - 1 then removedIdx
      -- the hand pointed at the removed key, which was the last one
      else if self.hand ≥ newLen then 0
      else self.hand
    (true, ⟨list, hand⟩)

end PolicyBucket

/-- `hand += 1`, wrapping to 0 at the bucket's length. -/
def advance (bucketLen hand : Nat) : Nat := if hand + 1 ≥ bucketLen then 0 else hand + 1

/-! ## The clock sweep -/

/-- How phase 1 of `evict_from_bucket` ends: on an entry that is not there, on a victim,
or with the hand back after a full lap. -/
inductive Sweep (κ ν : Type) (w : Nat) [BEq κ] where
  | missing (entries : HashMap κ (Entry ν w))
  | victim (entries : HashMap κ (Entry ν w)) (hand : Nat) (key : κ)
  | lap (entries : HashMap κ (Entry ν w)) (hand : Nat)

variable {κ ν : Type} {w : Nat} [BEq κ] [Hashable κ]

/-- Phase 1 of `evict_from_bucket`, with the number of steps left of
`for _ in 0..bucket_len`. -/
def sweep (list : IndexSet κ) (bucketLen : Nat) :
    Nat → HashMap κ (Entry ν w) → Nat → Sweep κ ν w
  | 0, entries, hand => .lap entries hand
  | n + 1, entries, hand =>
    match list.getIndex hand with
    | none => .missing entries
    | some keyRef =>
      match entries.get? keyRef with
      | none => .missing entries
      | some entry =>
        if entry.clockBit then
          let entries := entries.modify keyRef fun e => { e with clockBit := false }
          sweep list bucketLen n entries (advance bucketLen hand)
        else if entry.frequency = 0 then .victim entries hand keyRef
        else
          let entries := entries.modify keyRef fun e => { e with frequency := e.frequency - 1 }
          sweep list bucketLen n entries (advance bucketLen hand)

/-! ## The shard -/

structure Shard (κ ν : Type) (w : Nat) [BEq κ] where
  entries : HashMap κ (Entry ν w)
  /-- The array of buckets, indexed by the policies' discriminants. -/
  buckets : CachePolicy → PolicyBucket κ
  sizeCurrent : BitVec w
  sizeCapacity : BitVec w

namespace Shard

def new (sizeCapacity : BitVec w) : Shard κ ν w where
  entries := .empty
  buckets := fun _ => .new
  sizeCurrent := 0
  sizeCapacity := sizeCapacity

def setBucket (self : Shard κ ν w) (p : CachePolicy) (b : PolicyBucket κ) : Shard κ ν w :=
  { self with buckets := Function.update self.buckets p b }

def setHand (self : Shard κ ν w) (p : CachePolicy) (hand : Nat) : Shard κ ν w :=
  self.setBucket p { self.buckets p with hand := hand }

variable [EquivBEq κ]

/-- `self.buckets[p].remove(key); self.size_current -= size`. -/
def release (self : Shard κ ν w) (checks : Bool) (p : CachePolicy) (key : κ)
    (size : BitVec w) : Outcome (Shard κ ν w) Unit :=
  let self := self.setBucket p ((self.buckets p).remove key).2
  (Outcome.check (Word.sub checks self.sizeCurrent size) self).bind fun sizeCurrent self =>
  .ok () { self with sizeCurrent }

/-- The common end of both phases of `evict_from_bucket`: take `key` out. -/
def takeVictim (self : Shard κ ν w) (checks : Bool) (p : CachePolicy) (key : κ) :
    Outcome (Shard κ ν w) (Option (EvictedEntry κ ν w)) :=
  match self.entries.removeEntry key with
  | none => .ok none self
  | some ((_, evicted), entries) =>
    ({ self with entries }.release checks p key evicted.size).bind fun _ self =>
    .ok (some { key, entry := evicted }) self

/-- Evict one entry from a bucket by the clock algorithm. -/
def evictFromBucket (self : Shard κ ν w) (checks : Bool) (p : CachePolicy) :
    Outcome (Shard κ ν w) (Option (EvictedEntry κ ν w)) :=
  let bucket := self.buckets p
  if bucket.isEmpty then .ok none self
  else
    match sweep bucket.list bucket.len bucket.len self.entries bucket.hand with
    | .missing entries => .ok none { self with entries }
    | .victim entries hand key => ({ self with entries }.setHand p hand).takeVictim checks p key
    | .lap entries hand =>
      let self := { self with entries }.setHand p hand
      match bucket.list.getIndex hand with
      | none => .ok none self
      | some key => self.takeVictim checks p key

/-- The `while` loop of `evict_until_space` on one bucket. Each round takes an entry out of
the table, so as many rounds as there are entries are enough; with none left the bucket
gives nothing and the loop breaks. -/
def evictWhile (checks : Bool) (neededSize : BitVec w) (p : CachePolicy) :
    Nat → Shard κ ν w → EvictionStats w → List (EvictedEntry κ ν w) →
    Outcome (Shard κ ν w) (EvictionStats w × List (EvictedEntry κ ν w))
  | rounds, self, stats, evicted =>
    (Outcome.check (Word.add checks self.sizeCurrent neededSize) self).bind fun total self =>
    if total > self.sizeCapacity then
      match rounds with
      | 0 => .ok (stats, evicted) self
      | rounds + 1 =>
        (self.evictFromBucket checks p).bind fun e self =>
        match e with
        | none => .ok (stats, evicted) self
        | some e =>
          (Outcome.check (Word.add checks stats.size e.entry.size) self).bind fun size self =>
          evictWhile checks neededSize p rounds self { count := stats.count + 1, size }
            (evicted ++ [e])
    else .ok (stats, evicted) self

/-- The `for` loop of `evict_until_space` over the buckets that are left. -/
def evictBuckets (checks : Bool) (neededSize : BitVec w) :
    List CachePolicy → Shard κ ν w → EvictionStats w → List (EvictedEntry κ ν w) →
    Outcome (Shard κ ν w) (EvictionStats w × List (EvictedEntry κ ν w))
  | [], self, stats, evicted => .ok (stats, evicted) self
  | p :: ps, self, stats, evicted =>
    (evictWhile checks neededSize p self.entries.len self stats evicted).bind
      fun (stats, evicted) self =>
    (Outcome.check (Word.add checks self.sizeCurrent neededSize) self).bind fun total self =>
    if total ≤ self.sizeCapacity then .ok (stats, evicted) self
    else evictBuckets checks neededSize ps self stats evicted

/-- Evict entries until there is space for `neededSize` bytes. -/
def evictUntilSpace (self : Shard κ ν w) (checks : Bool) (neededSize : BitVec w) :
    Outcome (Shard κ ν w) (EvictionStats w × List (EvictedEntry κ ν w)) :=
  evictBuckets checks neededSize CachePolicy.evictionOrder self ⟨0, 0⟩ []

/-- The first part of `insert`: a present key leaves its bucket and the total. -/
def detach (self : Shard κ ν w) (checks : Bool) (key : κ) : Outcome (Shard κ ν w) Unit :=
  match self.entries.get? key with
  | none => .ok () self
  | some old => self.release checks old.policy key old.size

variable [LawfulHashable κ]

/-- Insert an entry. Returns the previous entry, the statistics and the evicted entries. -/
def insert (self : Shard κ ν w) (checks : Bool) (key : κ) (entry : Entry ν w) :
    Outcome (Shard κ ν w)
      (Option (Entry ν w) × EvictionStats w × List (EvictedEntry κ ν w)) :=
  (self.detach checks key).bind fun _ self =>
  (self.evictUntilSpace checks entry.size).bind fun (stats, evicted) self =>
  let (old, entries) := self.entries.put key entry
  let self := { self with entries }
  let self := self.setBucket entry.policy ((self.buckets entry.policy).insert key)
  (Outcome.check (Word.add checks self.sizeCurrent entry.size) self).bind fun sizeCurrent self =>
  .ok (old, stats, evicted) { self with sizeCurrent }

/-- The body of `get_ref` and `get_ref_by`: find an entry by hash and touch it. -/
def getHash (self : Shard κ ν w) (hash : UInt64) (equals : κ → Bool) :
    Option (Entry ν w) × Shard κ ν w :=
  match self.entries.fromHash hash equals with
  | none => (none, self)
  | some (key, entry) =>
    (some entry.touch, { self with entries := self.entries.modify key Entry.touch })

/-- The body of `contains_ref` and `contains_ref_by`. -/
def containsHash (self : Shard κ ν w) (hash : UInt64) (equals : κ → Bool) : Bool :=
  (self.entries.fromHash hash equals).isSome

/-- Remove an entry by key. Returns the stored key and the entry. -/
def remove (self : Shard κ ν w) (checks : Bool) (key : κ) :
    Outcome (Shard κ ν w) (Option (κ × Entry ν w)) :=
  match self.entries.removeEntry key with
  | none => .ok none self
  | some ((storedKey, entry), entries) =>
    ({ self with entries }.release checks entry.policy storedKey entry.size).bind fun _ self =>
    .ok (some (storedKey, entry)) self

/-- Clear all entries without returning them. -/
def clear (self : Shard κ ν w) : Shard κ ν w :=
  { self with
    entries := .empty
    buckets := fun p => (self.buckets p).clear
    sizeCurrent := 0 }

/-- Drain all entries, with the total size and the count. -/
def drain (self : Shard κ ν w) : (List (EvictedEntry κ ν w) × BitVec w × Nat) × Shard κ ν w :=
  let drainedSize := self.sizeCurrent
  let drainedCount := self.entries.len
  let entries := self.entries.toList.map fun kv => { key := kv.1, entry := kv.2 }
  ((entries, drainedSize, drainedCount), self.clear)

end Shard

end PriorityLfu
