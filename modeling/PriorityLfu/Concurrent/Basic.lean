import PriorityLfu.Cache.Totals
import PriorityLfu.Library.Execution

/-!
# Concurrent calls

Any number of calls are in progress at once. Each has the list of its atomic actions still
to be made: the change of a shard under its write lock, then one update of a counter after
the other, the release of the lock where it is still held, the lifecycle hooks, and at last
the return. A scheduler picks the call that makes its next action; `insert` releases its
lock before it touches a counter, `remove` and `clear` after.

Readers only store access statistics, at any time when nobody holds the write lock of the
shard. A call that panics makes no step here; what it leaves is the subject of a module of its own.
-/
namespace PriorityLfu
open Keyed

/-- A call that changes the cache. -/
inductive CallOp (κ ν : Type) (w : Nat) where
  | insert (key : κ) (entry : Entry ν w)
  | remove (key : κ)
  | clear
  deriving DecidableEq, Repr

/-- An atomic action of a call. -/
inductive Action (κ ν : Type) (w n : Nat) where
  /-- `insert`, from taking the lock to releasing it. -/
  | insert (key : κ) (entry : Entry ν w)
  /-- `remove` takes the lock and takes the entry out. -/
  | remove (key : κ)
  /-- `clear` takes the lock of a shard and drains it. -/
  | drain (i : Fin n)
  /-- An update for the entry that was inserted under `key`. -/
  | enter (key : κ) (u : Update w)
  /-- An update for entries that left. -/
  | update (u : Update w)
  | unlock (i : Fin n)
  | hook (h : Hook κ)

/-- Actions that change a shard. -/
def Action.onShard {κ ν : Type} {w n : Nat} : Action κ ν w n → Bool
  | .insert _ _ | .remove _ | .drain _ => true
  | _ => false

/-- A call in progress: what it will return and what it has still to do. -/
structure Call (κ ν : Type) (w n : Nat) where
  op : CallOp κ ν w
  result : Option (Entry ν w)
  todo : List (Action κ ν w n)

/-- What can be observed of a call. -/
inductive Event (κ ν : Type) (w : Nat) where
  | hook (h : Hook κ)
  | returned (op : CallOp κ ν w) (result : Option (Entry ν w))
  deriving DecidableEq, Repr

/-- A choice of the scheduler. -/
inductive Choice (κ ν : Type) (w n : Nat) where
  | start (op : CallOp κ ν w)
  /-- The call at position `j` makes its next action, or returns. -/
  | advance (j : Nat)
  /-- A reader stores access statistics. -/
  | access (i : Fin n) (key : κ) (clockBit : Bool) (frequency : UInt8)

variable {κ ν : Type} {w n : Nat}

/-- The actions a call starts with. -/
def CallOp.actions : CallOp κ ν w → List (Action κ ν w n)
  | .insert key entry => [.insert key entry]
  | .remove key => [.remove key]
  | .clear => (List.finRange n).map .drain ++ resetUpdates.map .update

variable [BEq κ]

/-- All shards with their locks and counters, and the calls in progress. -/
structure System (κ ν : Type) (w n : Nat) [BEq κ] where
  cache : Cache κ ν w n
  /-- The write locks that are held between actions. -/
  locked : Fin n → Bool
  calls : List (Call κ ν w n)

/-- What an action does: to the shards, the counters and the locks, what it shows, the
result it fixes, and the actions it adds before and after those still to be made. -/
structure Effect (κ ν : Type) (w n : Nat) [BEq κ] where
  cache : Cache κ ν w n
  locked : Fin n → Bool
  shown : List (Event κ ν w) := []
  result : Option (Option (Entry ν w)) := none
  front : List (Action κ ν w n) := []
  back : List (Action κ ν w n) := []

/-- What a call becomes with an action. -/
def Call.after (c : Call κ ν w n) (todo : List (Action κ ν w n)) (e : Effect κ ν w n) :
    Call κ ν w n := ⟨c.op, e.result.getD c.result, e.front ++ todo ++ e.back⟩

/-- Store access statistics of the entry under `key`, if there is one. -/
def Cache.access [Hashable κ] (self : Cache κ ν w n) (i : Fin n) (key : κ) (clockBit : Bool)
    (frequency : UInt8) : Cache κ ν w n :=
  let shard := self.shards i
  self.setShard i
    { shard with entries := shard.entries.modify key fun e => { e with clockBit, frequency } }

namespace System

/-- No call is in progress. -/
def start (maxSizeBytes : BitVec w) : System κ ν w n where
  cache := .withShardsAndLifecycleInternal maxSizeBytes n
  locked := fun _ => false
  calls := []

/-- The actions that calls in progress have still to make. -/
def inFlight (s : System κ ν w n) : List (Action κ ν w n) := s.calls.flatMap Call.todo

/-- The next action of the call at position `j`. -/
def next (s : System κ ν w n) (j : Nat) : Option (Action κ ν w n) :=
  s.calls[j]?.bind fun call => call.todo.head?

def begin (s : System κ ν w n) (op : CallOp κ ν w) : System κ ν w n :=
  { s with calls := s.calls ++ [⟨op, none, op.actions⟩] }

def finish (s : System κ ν w n) (j : Nat) : System κ ν w n :=
  { s with calls := s.calls.eraseIdx j }

/-- The call at position `j` goes on after an action. -/
def resume (s : System κ ν w n) (j : Nat) (call : Call κ ν w n) (todo : List (Action κ ν w n))
    (e : Effect κ ν w n) : System κ ν w n where
  cache := e.cache
  locked := e.locked
  calls := s.calls.set j ⟨call.op, e.result.getD call.result, e.front ++ todo ++ e.back⟩

variable [Hashable κ] [EquivBEq κ] [LawfulHashable κ] [NeZero n]

/-- One atomic action; none where it has to wait for a lock, or where it panics (`unwind`). -/
def perform (checks : Bool) (cache : Cache κ ν w n) (locked : Fin n → Bool) :
    Action κ ν w n → Option (Effect κ ν w n)
  | .insert key entry =>
    if locked (getShard w n (hash key)) then none
    else
      match cache.insertShard checks key entry with
      | .panic _ => none
      | .ok (old, stats, evicted) cache =>
        (insertUpdates checks entry.size old).map fun updates =>
        { cache, locked, result := some old
          front := updates.map (.enter key) ++ (evictUpdates stats).map .update ++
            (evictHooks stats evicted).map .hook }
  | .remove key =>
    let i := getShard w n (hash key)
    if locked i then none
    else
      match cache.removeShard checks key with
      | .panic _ => none
      | .ok none cache => some { cache, locked }
      | .ok (some (storedKey, entry)) cache => some
        { cache, locked := Function.update locked i true, result := some (some entry)
          front := (removeUpdates entry).map .update ++ [.unlock i, .hook (.onRemove storedKey)] }
  | .drain i =>
    if locked i then none
    else
      let ((entries, drainedSize, drainedCount), cache) := cache.drainShard i
      some
        { cache, locked := Function.update locked i true
          front := (drainUpdates drainedSize drainedCount).map .update ++ [.unlock i]
          back := entries.map fun e => .hook (.onClear e.key) }
  | .enter _ u | .update u => some { cache := cache.apply u, locked }
  | .unlock i => some { cache, locked := Function.update locked i false }
  | .hook h => some { cache, locked, shown := [.hook h] }

def step (checks : Bool) (s : System κ ν w n) :
    Choice κ ν w n → Option (List (Event κ ν w) × System κ ν w n)
  | .start op => some ([], s.begin op)
  | .advance j =>
    match s.calls[j]? with
    | none => none
    | some call =>
      match call.todo with
      | [] => some ([.returned call.op call.result], s.finish j)
      | a :: todo =>
        (perform checks s.cache s.locked a).map fun e => (e.shown, s.resume j call todo e)
  | .access i key clockBit frequency =>
    if s.locked i then none
    else some ([], { s with cache := s.cache.access i key clockBit frequency })

end System

end PriorityLfu
