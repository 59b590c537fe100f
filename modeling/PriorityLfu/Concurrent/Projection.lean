import PriorityLfu.Concurrent.Guards
import PriorityLfu.Concurrent.Counters
import PriorityLfu.Concurrent.Capacity

/-!
# The calls without the lookups

To the calls a lookup is no more than some stores of access statistics and an increment of one
of two metrics. So what the calls do in an execution with lookups they do in one without, up to
the numbers of hits and misses, and what holds there of the counters and the sizes holds here.
-/
namespace PriorityLfu
open Keyed

variable {κ ν : Type} {w n : Nat} [BEq κ]

/-- What can be observed of the calls. -/
def CacheNote.event? : CacheNote κ ν w → Option (Event κ ν w)
  | .shown h => some (.hook h)
  | .returned (.call op) (.result old) => some (.returned op old)
  | _ => none

namespace Cache

/-- The caches differ at most in the numbers of hits and misses. -/
structure Agrees (c d : Cache κ ν w n) : Prop where
  shards : c.shards = d.shards
  currentSize : c.currentSize = d.currentSize
  entryCount : c.entryCount = d.entryCount
  maxSizeBytes : c.maxSizeBytes = d.maxSizeBytes
  counters : ∀ m, m ≠ .hits → m ≠ .misses → c.counters m = d.counters m

variable {c d : Cache κ ν w n}

theorem Agrees.refl (c : Cache κ ν w n) : c.Agrees c := ⟨rfl, rfl, rfl, rfl, fun _ _ _ => rfl⟩

theorem Agrees.setShard (h : c.Agrees d) (i : Fin n) (s : Shard κ ν w) :
    (c.setShard i s).Agrees (d.setShard i s) where
  shards := by rw [shards_setShard, shards_setShard, h.shards]
  currentSize := h.currentSize
  entryCount := h.entryCount
  maxSizeBytes := h.maxSizeBytes
  counters := h.counters

theorem Agrees.apply (h : c.Agrees d) (u : Update w) : (c.apply u).Agrees (d.apply u) := by
  cases u with
  | addSize x =>
    exact ⟨h.shards, congrArg (· + x) h.currentSize, h.entryCount, h.maxSizeBytes, h.counters⟩
  | subSize x =>
    exact ⟨h.shards, congrArg (· - x) h.currentSize, h.entryCount, h.maxSizeBytes, h.counters⟩
  | addCount k =>
    exact ⟨h.shards, h.currentSize, congrArg (· + _) h.entryCount, h.maxSizeBytes, h.counters⟩
  | subCount k =>
    exact ⟨h.shards, h.currentSize, congrArg (· - _) h.entryCount, h.maxSizeBytes, h.counters⟩
  | addMetric m k =>
    refine ⟨h.shards, h.currentSize, h.entryCount, h.maxSizeBytes, fun m' hhits hmisses => ?_⟩
    by_cases hm : m' = m
    · subst hm
      simp [Cache.apply, h.counters m' hhits hmisses]
    · simp [Cache.apply, Function.update_of_ne hm, h.counters m' hhits hmisses]
  | resetMetric m =>
    refine ⟨h.shards, h.currentSize, h.entryCount, h.maxSizeBytes, fun m' hhits hmisses => ?_⟩
    by_cases hm : m' = m
    · subst hm
      simp [Cache.apply]
    · simp [Cache.apply, Function.update_of_ne hm, h.counters m' hhits hmisses]

/-- A lookup counts itself where the calls do not look. -/
theorem Agrees.count (h : c.Agrees d) {m : Metric} (hm : m = .hits ∨ m = .misses) (k : Nat) :
    (c.apply (.addMetric m k)).Agrees d := by
  refine ⟨h.shards, h.currentSize, h.entryCount, h.maxSizeBytes, fun m' hhits hmisses => ?_⟩
  have hne : m' ≠ m := by rintro rfl; exact hm.elim hhits hmisses
  simp [Cache.apply, Function.update_of_ne hne, h.counters m' hhits hmisses]

end Cache

variable [Hashable κ] [EquivBEq κ] [LawfulHashable κ] [NeZero n] {checks : Bool}

namespace System

variable {c d : Cache κ ν w n} {locked : Fin n → Bool} {a : Action κ ν w n} {e : Effect κ ν w n}

/-- An action does the same to caches that agree. -/
theorem perform_agrees (h : c.Agrees d) (he : perform checks c locked a = some e) :
    ∃ d', perform checks d locked a = some { e with cache := d' } ∧ e.cache.Agrees d' := by
  cases a with
  | insert key entry =>
    have hshard : d.insertShard checks key entry =
        ((c.shards (getShard w n (hash key))).insert checks key entry).mapState
          (d.setShard (getShard w n (hash key))) := by rw [Cache.insertShard, h.shards]
    rw [perform] at he ⊢
    split at he
    · cases he
    · next hfree =>
      rw [if_neg hfree, hshard]
      cases hins : (c.shards (getShard w n (hash key))).insert checks key entry with
      | panic s => simp [Cache.insertShard, hins, Outcome.mapState] at he
      | ok r s =>
        simp only [Cache.insertShard, hins, Outcome.mapState] at he ⊢
        obtain ⟨us, hus, rfl⟩ := Option.map_eq_some_iff.mp he
        exact ⟨_, by rw [hus]; rfl, h.setShard _ s⟩
  | remove key =>
    have hshard : d.removeShard checks key =
        ((c.shards (getShard w n (hash key))).remove checks key).mapState
          (d.setShard (getShard w n (hash key))) := by rw [Cache.removeShard, h.shards]
    rw [perform] at he ⊢
    split at he
    · cases he
    · next hfree =>
      rw [if_neg hfree, hshard]
      cases hrem : (c.shards (getShard w n (hash key))).remove checks key with
      | panic s => simp [Cache.removeShard, hrem, Outcome.mapState] at he
      | ok r s =>
        simp only [Cache.removeShard, hrem, Outcome.mapState] at he ⊢
        cases r <;> cases he <;> exact ⟨_, rfl, h.setShard _ s⟩
  | drain i =>
    have hdrain : (d.drainShard i).1 = (c.drainShard i).1 := by
      simp [Cache.drainShard, h.shards]
    have hcache : (c.drainShard i).2.Agrees (d.drainShard i).2 := by
      have := h.setShard i (c.shards i).drain.2
      rwa [Cache.drainShard, Cache.drainShard, ← h.shards]
    obtain rfl := perform_drain he
    rw [perform] at he ⊢
    split at he
    · cases he
    · next hfree =>
      rw [if_neg hfree]
      refine ⟨(d.drainShard i).2, ?_, hcache⟩
      simp only [← hdrain]
  | enter key u | update u =>
    cases he
    exact ⟨_, rfl, h.apply u⟩
  | unlock i | hook h' =>
    cases he
    exact ⟨_, rfl, h⟩

/-- The same calls, locks and shards. -/
structure Agrees (s t : System κ ν w n) : Prop where
  cache : s.cache.Agrees t.cache
  locked : s.locked = t.locked
  calls : s.calls = t.calls

/-- A call goes on in the same way. -/
theorem advance_agrees {s t s' : System κ ν w n} {j : Nat} {shown : List (Event κ ν w)}
    (h : s.Agrees t) (hs : step checks s (.advance j) = some (shown, s')) :
    ∃ t', step checks t (.advance j) = some (shown, t') ∧ s'.Agrees t' := by
  rcases step_cases hs with ⟨op, hmove, -⟩ | ⟨j', call, hmove, hj, htodo, rfl, rfl⟩ |
    ⟨j', call, a, todo, e, hmove, hj, htodo, he, rfl, rfl⟩ | ⟨i, key, _, _, hmove, -⟩
  · cases hmove
  · cases hmove
    refine ⟨t.finish j, ?_, h.cache, h.locked, by simp [finish, h.calls]⟩
    rw [h.calls] at hj
    simp [step, hj, htodo]
  · cases hmove
    obtain ⟨d', hd, hcache⟩ := perform_agrees h.cache he
    refine ⟨t.resume j call todo { e with cache := d' }, ?_, hcache, rfl, by
      simp [resume, h.calls]⟩
    rw [h.calls] at hj
    rw [h.locked] at hd
    simp [step, hj, htodo, hd]
  · cases hmove

end System

/-- The calls that are started satisfy `p`. Stores of access statistics may be made at any time. -/
def Choice.Starts (p : CallOp κ ν w → Prop) : Choice κ ν w n → Prop
  | .start op => p op
  | _ => True

def Move.Starts (p : CallOp κ ν w → Prop) : Move κ ν w → Prop
  | .start op => p op
  | _ => True

instance (p : CallOp κ ν w → Prop) [DecidablePred p] (move : Move κ ν w) :
    Decidable (move.Starts p) :=
  match move with
  | .start op => inferInstanceAs (Decidable (p op))
  | .advance _ | .look _ | .read _ => isTrue trivial

/-- A step of a lookup is at most one store of access statistics, for the calls. -/
theorem Reader.Performs.agrees {p : CallOp κ ν w → Prop} {s t : System κ ν w n}
    {r : Reader κ ν} {e : Reading κ ν w n} (h : r.Performs s.cache s.locked e)
    (hfree : r.phase.holds = true → s.locked (r.shard w n) = false)
    (hsees : r.Sees (s.cache.shards (r.shard w n))) (hagrees : s.Agrees t) :
    ∃ t', Execution (System.step checks) (fun _ choice => choice.Starts p) t [] t' ∧
      System.Agrees { s with cache := e.cache } t' := by
  have hstore : ∀ {key : κ} (f : Entry ν w → Entry ν w), r.phase.slot = some key →
      r.phase.holds = true → (∀ x, ∃ clockBit frequency, f x = { x with clockBit, frequency }) →
      ∃ t', Execution (System.step checks) (fun _ choice => choice.Starts p) t [] t' ∧
        System.Agrees { s with cache := r.modify s.cache key f } t' := by
    intro key f hslot hholds hf
    obtain ⟨-, -, x, hx, -⟩ := hsees key hslot
    obtain ⟨en, hen, -⟩ := Option.map_eq_some_iff.mp hx
    obtain ⟨clockBit, frequency, hstored⟩ := hf en
    have hmodify : r.modify s.cache key f =
        s.cache.access (r.shard w n) key clockBit frequency := by
      have hcongr := HashMap.modify_congr (g := fun x => { x with clockBit, frequency }) hen hstored
      rw [modify, Cache.access, hcongr]
    have hlocked := hfree hholds
    rw [hagrees.locked] at hlocked
    refine ⟨{ t with cache := t.cache.access (r.shard w n) key clockBit frequency },
      .single (.access (r.shard w n) key clockBit frequency) trivial ?_, ?_, hagrees.locked,
      hagrees.calls⟩
    · simp [System.step, hlocked]
    · rw [hmodify, Cache.access, Cache.access, ← hagrees.cache.shards]
      exact hagrees.cache.setShard _ _
  cases h with
  | mark hp => exact hstore _ (by rw [hp]; rfl) (by rw [hp]; rfl) fun x => ⟨true, _, rfl⟩
  | @store key freq hp =>
    refine hstore _ (by rw [hp]; rfl) (by rw [hp]; rfl) fun x => ?_
    unfold Entry.increment
    split
    · exact ⟨_, _, rfl⟩
    · exact ⟨x.clockBit, x.frequency, rfl⟩
  | countHit hp =>
    exact ⟨t, .start, hagrees.cache.count (.inl rfl) 1, hagrees.locked, hagrees.calls⟩
  | countMiss hp =>
    exact ⟨t, .start, hagrees.cache.count (.inr rfl) 1, hagrees.locked, hagrees.calls⟩
  | _ => exact ⟨t, .start, hagrees⟩

namespace Shared

variable {p : CallOp κ ν w → Prop} {s : Shared κ ν w n} {trace : List (CacheNote κ ν w)}

omit [BEq κ] [Hashable κ] [EquivBEq κ] [LawfulHashable κ] in
theorem events_note (events : List (Event κ ν w)) :
    (events.map Event.note).filterMap CacheNote.event? = events := by
  rw [List.filterMap_map]
  refine (List.filterMap_congr fun ev _ => ?_).trans List.filterMap_some
  cases ev <;> rfl

/-- A step with the lookups is at most one step without. -/
theorem step_agrees {t : Shared κ ν w n} {move : Move κ ν w} {shown : List (CacheNote κ ν w)}
    {a : System κ ν w n} (hs : s.Held) (hagrees : s.system.Agrees a) (hmove : move.Starts p)
    (h : Shared.step checks s move = some (shown, t)) :
    ∃ b, Execution (System.step checks) (fun _ choice => choice.Starts p) a
      (shown.filterMap CacheNote.event?) b ∧ t.system.Agrees b := by
  rcases step_cases h with ⟨op, rfl, rfl, rfl⟩ | ⟨j, events, system, rfl, -, hstep, rfl, rfl⟩ |
    ⟨op, -, rfl, rfl⟩ | ⟨before, r, after, e, -, hreaders, he, rfl, rfl⟩
  · exact ⟨a.begin op, .single (.start op) hmove rfl, hagrees.cache, hagrees.locked,
      by simp [System.begin, hagrees.calls]⟩
  · obtain ⟨b, hb, hagrees'⟩ := System.advance_agrees hagrees hstep
    rw [events_note]
    exact ⟨b, .single (.advance j) trivial hb, hagrees'⟩
  · exact ⟨a, .start, hagrees⟩
  · have hr : r ∈ s.readers := by simp [hreaders]
    have hshown : e.shown.filterMap CacheNote.event? = [] := by
      cases he <;> rfl
    rw [hshown]
    exact he.agrees (hs.free r hr) (hs.sees r hr) hagrees

theorem projection {maxSizeBytes : BitVec w}
    (h : Execution (Shared.step checks) (fun _ move => move.Starts p) (start maxSizeBytes)
      trace s) :
    ∃ a, Execution (System.step checks) (fun _ choice => choice.Starts p) (.start maxSizeBytes)
      (trace.filterMap CacheNote.event?) a ∧ s.system.Agrees a := by
  obtain ⟨a, ha, -, hagrees⟩ := Execution.simulation
    (R := fun (s : Shared κ ν w n) a => s.Held ∧ s.system.Agrees a) CacheNote.event?
    ⟨held_start maxSizeBytes, .refl _, rfl, rfl⟩ (fun s a _ shown t hR hmove hstep => by
      obtain ⟨b, hb, hagrees⟩ := step_agrees hR.1 hR.2 hmove hstep
      exact ⟨b, hb, hR.1.step hstep, hagrees⟩) h
  exact ⟨a, ha, hagrees⟩

/-- Whenever no call is in progress, though lookups may be and guards may live, the counters are
the totals, as words. -/
theorem settled_beside {maxSizeBytes : BitVec w}
    (h : Execution (Shared.step checks) (fun _ move => move.Starts p) (start maxSizeBytes)
      trace s) (hrest : s.system.calls = []) :
    s.system.cache.Settled ∧
      ((∀ op, p op → (Choice.start op : Choice κ ν w n).Fits
        (Cache.sizePerShard maxSizeBytes n)) → s.system.cache.size ≤ maxSizeBytes) := by
  obtain ⟨a, ha, hagrees⟩ := projection h
  rw [hagrees.calls] at hrest
  obtain ⟨hsize, hcount⟩ := (System.accounted ha).settled hrest
  refine ⟨⟨?_, ?_⟩, fun hp => ?_⟩
  · rw [hagrees.cache.currentSize, hsize, Cache.byteTotal_congr hagrees.cache.shards]
  · rw [hagrees.cache.entryCount, hcount, Cache.entryTotal_congr hagrees.cache.shards]
  · rw [Cache.size, hagrees.cache.currentSize]
    refine System.size_le (ha.mono fun _ choice hchoice => ?_) hrest
    cases choice with
    | start op => exact hp op hchoice
    | advance j | access i key clockBit frequency => trivial

/-- To the calls, lookups and guards are nothing but stores of access statistics: what the calls do
in an execution in which none of them panics, they do in one of calls and such stores. So whenever
no call is in progress, though lookups may be and guards may live, `size()` and `len()` are the
sizes of all entries and their number modulo the word, and where every inserted value fits the
share of a shard the cache is within its maximum. -/
theorem lookups_unseen {maxSizeBytes : BitVec w}
    (h : Execution (stepOrPanic checks) (fun s move => s.Calm checks move ∧ move.Starts p)
      (start maxSizeBytes) trace s) :
    (∃ a, Execution (System.step checks) (fun _ choice => choice.Starts p) (.start maxSizeBytes)
      (trace.filterMap CacheNote.event?) a ∧ s.system.Agrees a) ∧
    (s.system.calls = [] →
      s.system.cache.size.toNat =
        (∑ i, ((s.system.cache.shards i).entries.values.map fun e => e.size.toNat).sum) % 2 ^ w ∧
      s.system.cache.len.toNat = (∑ i, (s.system.cache.shards i).entries.len) % 2 ^ w ∧
      ((∀ op, p op → (Choice.start op : Choice κ ν w n).Fits
          (Cache.sizePerShard maxSizeBytes n)) → s.system.cache.size ≤ maxSizeBytes)) := by
  replace h := execution_of_calm (fun _ _ hmove => hmove) h
  refine ⟨projection h, fun hrest => ?_⟩
  obtain ⟨⟨hsize, hcount⟩, hle⟩ := settled_beside h hrest
  refine ⟨?_, ?_, hle⟩
  · rw [Cache.size, hsize, BitVec.natCast_eq_ofNat, BitVec.toNat_ofNat]
    rfl
  · rw [Cache.len, hcount, BitVec.natCast_eq_ofNat, BitVec.toNat_ofNat]
    rfl

/-- An insertion and a removal beside a lookup whose guard lives on. -/
def beside : List (Move Nat Nat 8) :=
  .start (.insert 0 (.new 7 3 .standard)) :: List.replicate 5 (.advance 0) ++
    [.start (.insert 1 (.new 8 2 .standard)), .look ⟨.get, hash 0, (0 == ·)⟩] ++
    List.replicate 7 (.read 0) ++ List.replicate 5 (.advance 0)

theorem lookups_unseen_beside :
    ∃ trace, ∃ s : Shared Nat Nat 8 2,
      Execution (stepOrPanic true) (fun s move => s.Calm true move ∧ move.Starts fun op =>
        (Choice.start op : Choice Nat Nat 8 2).Fits (Cache.sizePerShard 20 2)) (start 20) trace s ∧
      (s.readers.map fun r => r.phase) = [.guarded 0 7] ∧
      s.system.cache.size.toNat =
        (∑ i, ((s.system.cache.shards i).entries.values.map fun e => e.size.toNat).sum) % 2 ^ 8 ∧
      s.system.cache.size ≤ 20 := by
  have hfacts : ((Execution.play (stepOrPanic true) (fun s move => s.Calm true move ∧
      move.Starts fun op => (Choice.start op : Choice Nat Nat 8 2).Fits (Cache.sizePerShard 20 2))
      (start 20 : Shared Nat Nat 8 2) beside).map fun r =>
        (r.2.system.calls.isEmpty, r.2.readers.map fun r => r.phase)) =
      some (true, [.guarded 0 7]) := by decide +kernel
  obtain ⟨⟨trace, s⟩, hplay, hs⟩ := Option.map_eq_some_iff.mp hfacts
  obtain ⟨hcalls, hreaders⟩ := Prod.mk.inj hs
  have hrun := Execution.of_play hplay
  obtain ⟨hsize, -, hle⟩ := (lookups_unseen hrun).2 (List.isEmpty_iff.mp hcalls)
  exact ⟨trace, s, hrun, hreaders, hsize, hle fun _ hop => hop⟩

end Shared

end PriorityLfu
