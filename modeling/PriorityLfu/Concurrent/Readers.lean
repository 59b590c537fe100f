import PriorityLfu.Concurrent.Run
import PriorityLfu.Concurrent.RwLock
import PriorityLfu.Library.Atomic
import PriorityLfu.Library.Parallel

/-!
# Lookups and guards beside the calls

The cache as its users share it: the calls that change it, and lookups that run beside them.
A lookup takes the read lock of its shard, finds its entry, stores the access statistics in
three accesses, counts a hit or a miss, and answers. `get_clone` and `contains` give the lock
back as they return; `get` returns a guard, which holds the lock until it is dropped. A call
that changes a shard waits until no lookup or guard holds its lock.

A waiting writer may keep new lookups out. Here a lookup may take the lock whenever no
writer holds it, and a guard may be dropped at any moment, which only adds to the orders of steps.
Which thread drops it, and when it can, matters for progress and is said there (`Threaded.Turn`).
-/
namespace PriorityLfu
open Keyed

/-! ## Lookups -/

inductive LookupKind where
  | get | getClone | contains
  deriving DecidableEq, Repr

/-- A lookup is given by the hash it probes and the keys it accepts. -/
structure Lookup (κ : Type) where
  kind : LookupKind
  hash : UInt64
  equals : κ → Bool

inductive Found (ν : Type) where
  | value (v : Option ν)
  | present (b : Bool)
  deriving DecidableEq, Repr

/-- How far a lookup has come. It holds the read lock from `locked` on. -/
inductive Phase (κ ν : Type) where
  | waiting
  | locked
  /-- It found the entry under `key` and is storing the access statistics. -/
  | found (key : κ) (stage : Stage)
  /-- It has still to count a hit. -/
  | hit (key : κ)
  | counted (key : κ)
  /-- It found nothing and has still to count a miss. -/
  | missed
  /-- `get` returned, and its guard gives access to the entry under `key`. The value is the one
  that the entry had then. -/
  | guarded (key : κ) (value : ν)
  /-- It returns its answer, and then the lock is free. -/
  | done (answer : Found ν)
  deriving DecidableEq, Repr

def Phase.holds {κ ν : Type} : Phase κ ν → Bool
  | .waiting => false
  | _ => true

/-- The key of the entry that a lookup points to. -/
def Phase.slot {κ ν : Type} : Phase κ ν → Option κ
  | .found key _ | .hit key | .counted key | .guarded key _ => some key
  | _ => none

structure Reader (κ ν : Type) where
  op : Lookup κ
  phase : Phase κ ν

/-- What is asked of the cache and what it answers. -/
inductive Request (κ ν : Type) (w : Nat) where
  | call (op : CallOp κ ν w)
  | look (op : Lookup κ)

inductive Answer (ν : Type) (w : Nat) where
  | result (old : Option (Entry ν w))
  | found (answer : Found ν)
  deriving DecidableEq, Repr

/-- What can be observed: requests, hooks and answers. -/
abbrev CacheNote (κ ν : Type) (w : Nat) : Type := Note (Request κ ν w) (Answer ν w) (Hook κ)

def Event.note {κ ν : Type} {w : Nat} : Event κ ν w → CacheNote κ ν w
  | .hook h => .shown h
  | .returned op result => .returned (.call op) (.result result)

/-- A choice of the scheduler. -/
inductive Move (κ ν : Type) (w : Nat) where
  | start (op : CallOp κ ν w)
  /-- The call at position `j` makes its next action, or returns. -/
  | advance (j : Nat)
  | look (op : Lookup κ)
  /-- The lookup at position `j` makes its next step; a guard is dropped. -/
  | read (j : Nat)

variable {κ ν : Type} {w n : Nat} [BEq κ]

/-- The cache with the calls and the lookups in progress. -/
structure Shared (κ ν : Type) (w n : Nat) [BEq κ] where
  system : System κ ν w n
  readers : List (Reader κ ν)

/-- What a step of a lookup does. Without a next phase the lookup is over. -/
structure Reading (κ ν : Type) (w n : Nat) [BEq κ] where
  cache : Cache κ ν w n
  phase : Option (Phase κ ν)
  shown : List (CacheNote κ ν w) := []

variable [Hashable κ] [NeZero n]

/-- The shard whose write lock an action takes. -/
def Action.lock : Action κ ν w n → Option (Fin n)
  | .insert key _ | .remove key => some (getShard w n (hash key))
  | .drain i => some i
  | _ => none

namespace Reader

/-- The shard that a lookup probes. -/
def shard (w n : Nat) [NeZero n] (self : Reader κ ν) : Fin n := getShard w n self.op.hash

/-- Write to the entry under `key`. -/
def modify (self : Reader κ ν) (cache : Cache κ ν w n) (key : κ) (f : Entry ν w → Entry ν w) :
    Cache κ ν w n :=
  let shard := cache.shards (self.shard w n)
  cache.setShard (self.shard w n) { shard with entries := shard.entries.modify key f }

/-- The next step of a lookup; none where it has to wait for the lock. -/
def perform (cache : Cache κ ν w n) (locked : Fin n → Bool) (self : Reader κ ν) :
    Option (Reading κ ν w n) :=
  let shard := cache.shards (self.shard w n)
  match self.phase with
  | .waiting => if locked (self.shard w n) then none else some { cache, phase := some .locked }
  | .locked =>
    match self.op.kind with
    | .contains => some
      { cache, phase := some (.done (.present (shard.containsHash self.op.hash self.op.equals))) }
    | _ =>
      match shard.entries.fromHash self.op.hash self.op.equals with
      | none => some { cache, phase := some .missed }
      | some (key, _) => some { cache, phase := some (.found key .found) }
  | .found key .found => some
    { cache := self.modify cache key Entry.mark, phase := some (.found key .marked) }
  | .found key .marked => (shard.entries.get? key).map fun e =>
    { cache, phase := some (.found key (.loaded e.frequency)) }
  | .found key (.loaded freq) => some
    { cache := self.modify cache key (Entry.increment freq), phase := some (.hit key) }
  | .hit key => some { cache := cache.apply (.addMetric .hits 1), phase := some (.counted key) }
  | .counted key => (shard.entries.get? key).map fun e =>
    match self.op.kind with
    | .get =>
      { cache, phase := some (.guarded key e.value)
        shown := [.returned (.look self.op) (.found (.value (some e.value)))] }
    | _ => { cache, phase := some (.done (.value (some e.value))) }
  | .missed => some
    { cache := cache.apply (.addMetric .misses 1), phase := some (.done (.value none)) }
  | .guarded _ _ => some { cache, phase := none }
  | .done answer => some
    { cache, phase := none, shown := [.returned (.look self.op) (.found answer)] }

/-- A step of a lookup, with what has to hold for it. -/
inductive Performs (c : Cache κ ν w n) (locked : Fin n → Bool) (r : Reader κ ν) :
    Reading κ ν w n → Prop
  | lock (hp : r.phase = .waiting) (hfree : locked (r.shard w n) = false) :
    Performs c locked r ⟨c, some .locked, []⟩
  | test (hp : r.phase = .locked) (hk : r.op.kind = .contains) :
    Performs c locked r ⟨c, some (.done (.present
      ((c.shards (r.shard w n)).containsHash r.op.hash r.op.equals))), []⟩
  | miss (hp : r.phase = .locked) (hk : r.op.kind ≠ .contains)
    (hnone : (c.shards (r.shard w n)).entries.fromHash r.op.hash r.op.equals = none) :
    Performs c locked r ⟨c, some .missed, []⟩
  | find {key : κ} {e : Entry ν w} (hp : r.phase = .locked) (hk : r.op.kind ≠ .contains)
    (hsome : (c.shards (r.shard w n)).entries.fromHash r.op.hash r.op.equals = some (key, e)) :
    Performs c locked r ⟨c, some (.found key .found), []⟩
  | mark {key : κ} (hp : r.phase = .found key .found) :
    Performs c locked r ⟨r.modify c key Entry.mark, some (.found key .marked), []⟩
  | load {key : κ} {e : Entry ν w} (hp : r.phase = .found key .marked)
    (he : (c.shards (r.shard w n)).entries.get? key = some e) :
    Performs c locked r ⟨c, some (.found key (.loaded e.frequency)), []⟩
  | store {key : κ} {freq : UInt8} (hp : r.phase = .found key (.loaded freq)) :
    Performs c locked r ⟨r.modify c key (Entry.increment freq), some (.hit key), []⟩
  | countHit {key : κ} (hp : r.phase = .hit key) :
    Performs c locked r ⟨c.apply (.addMetric .hits 1), some (.counted key), []⟩
  | guard {key : κ} {e : Entry ν w} (hp : r.phase = .counted key) (hk : r.op.kind = .get)
    (he : (c.shards (r.shard w n)).entries.get? key = some e) :
    Performs c locked r ⟨c, some (.guarded key e.value),
      [.returned (.look r.op) (.found (.value (some e.value)))]⟩
  | clone {key : κ} {e : Entry ν w} (hp : r.phase = .counted key) (hk : r.op.kind ≠ .get)
    (he : (c.shards (r.shard w n)).entries.get? key = some e) :
    Performs c locked r ⟨c, some (.done (.value (some e.value))), []⟩
  | countMiss (hp : r.phase = .missed) :
    Performs c locked r ⟨c.apply (.addMetric .misses 1), some (.done (.value none)), []⟩
  | drop {key : κ} {value : ν} (hp : r.phase = .guarded key value) :
    Performs c locked r ⟨c, none, []⟩
  | finish {answer : Found ν} (hp : r.phase = .done answer) :
    Performs c locked r ⟨c, none, [.returned (.look r.op) (.found answer)]⟩

variable {c : Cache κ ν w n} {locked : Fin n → Bool} {r : Reader κ ν} {e : Reading κ ν w n}

theorem performs (h : r.perform c locked = some e) : Performs c locked r e := by
  unfold perform at h
  split at h
  · next hp =>
    split at h
    · cases h
    · next hfree =>
      cases h
      exact .lock hp (by simpa using hfree)
  · next hp =>
    split at h
    · next hk =>
      cases h
      exact .test hp hk
    · next hk =>
      dsimp only at h
      split at h <;> cases h
      · next hnone => exact .miss hp hk hnone
      · next hsome => exact .find hp hk hsome
  · next hp => cases h; exact .mark hp
  · next hp =>
    obtain ⟨en, hen, rfl⟩ := Option.map_eq_some_iff.mp h
    exact .load hp hen
  · next hp => cases h; exact .store hp
  · next hp => cases h; exact .countHit hp
  · next hp =>
    obtain ⟨en, hen, hret⟩ := Option.map_eq_some_iff.mp h
    split at hret <;> cases hret
    · next hk => exact .guard hp hk hen
    · next hk => exact .clone hp hk hen
  · next hp => cases h; exact .countMiss hp
  · next hp => cases h; exact .drop hp
  · next hp => cases h; exact .finish hp

end Reader

namespace Shared

/-- No call and no lookup is in progress. -/
def start (maxSizeBytes : BitVec w) : Shared κ ν w n where
  system := .start maxSizeBytes
  readers := []

/-- A lookup or a guard holds the read lock of shard `i`. -/
def reads (s : Shared κ ν w n) (i : Fin n) : Bool :=
  s.readers.any fun r => r.phase.holds && r.shard w n == i

/-- The next action of the call at position `j` takes a lock that is read. -/
def blocked (s : Shared κ ν w n) (j : Nat) : Bool :=
  (((s.system.next j).bind Action.lock).map s.reads).getD false

variable [EquivBEq κ] [LawfulHashable κ]

def step (checks : Bool) (s : Shared κ ν w n) :
    Move κ ν w → Option (List (CacheNote κ ν w) × Shared κ ν w n)
  | .start op => some ([.invoked (.call op)], { s with system := s.system.begin op })
  | .advance j =>
    if s.blocked j then none
    else (s.system.step checks (.advance j)).map fun (shown, system) =>
      (shown.map Event.note, { s with system })
  | .look op => some ([.invoked (.look op)], { s with readers := s.readers ++ [⟨op, .waiting⟩] })
  | .read j =>
    s.readers[j]?.bind fun r =>
    (r.perform s.system.cache s.system.locked).map fun e =>
      (e.shown,
        { system := { s.system with cache := e.cache }
          readers :=
            match e.phase with
            | some phase => s.readers.set j ⟨r.op, phase⟩
            | none => s.readers.eraseIdx j })

variable {checks : Bool} {s t : Shared κ ν w n} {move : Move κ ν w}
  {shown : List (CacheNote κ ν w)}

/-- A step, with the lookups taken apart at the one that makes it. -/
theorem step_cases (h : step checks s move = some (shown, t)) :
    (∃ op, move = .start op ∧ shown = [.invoked (.call op)] ∧
      t = { s with system := s.system.begin op }) ∨
    (∃ j events system, move = .advance j ∧ s.blocked j = false ∧
      s.system.step checks (.advance j) = some (events, system) ∧
      shown = events.map Event.note ∧ t = { s with system }) ∨
    (∃ op, move = .look op ∧ shown = [.invoked (.look op)] ∧
      t = { s with readers := s.readers ++ [⟨op, .waiting⟩] }) ∨
    ∃ before r after e, move = .read before.length ∧ s.readers = before ++ r :: after ∧
      r.Performs s.system.cache s.system.locked e ∧ shown = e.shown ∧
      t = { system := { s.system with cache := e.cache }
            readers := before ++ (e.phase.map (Reader.mk r.op)).toList ++ after } := by
  cases move with
  | start op =>
    cases h
    exact .inl ⟨op, rfl, rfl, rfl⟩
  | advance j =>
    rw [step] at h
    split at h
    · cases h
    · next hfree =>
      obtain ⟨⟨events, system⟩, hstep, hret⟩ := Option.map_eq_some_iff.mp h
      cases hret
      exact .inr (.inl ⟨j, events, system, rfl, by simpa using hfree, hstep, rfl, rfl⟩)
  | look op =>
    cases h
    exact .inr (.inr (.inl ⟨op, rfl, rfl, rfl⟩))
  | read j =>
    obtain ⟨r, hr, h⟩ := Option.bind_eq_some_iff.mp h
    obtain ⟨e, he, hret⟩ := Option.map_eq_some_iff.mp h
    cases hret
    obtain ⟨before, after, hreaders, rfl, hset, herase⟩ := List.getElem?_split hr
    refine .inr (.inr (.inr ⟨before, r, after, e, rfl, hreaders, Reader.performs he, rfl, ?_⟩))
    cases hphase : e.phase with
    | none => simp [herase]
    | some phase => simp [hset]

end Shared

end PriorityLfu
