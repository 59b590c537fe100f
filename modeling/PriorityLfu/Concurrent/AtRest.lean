import PriorityLfu.Concurrent.Counters
import PriorityLfu.Concurrent.Panic
import PriorityLfu.Shard.Overflow

/-!
# The counters at rest where calls panic

An insertion that panics after it changed its shard leaves the counters behind for ever. It does
so only where it replaces an entry, in a build with overflow checks, and a sum or a difference
leaves the word. Where no insertion does, a panic changes nothing at all, and the counters agree
with the shards whenever no call is in progress.
-/
namespace PriorityLfu
open Keyed

variable {κ ν : Type} {w n : Nat} [BEq κ] [Hashable κ] [NeZero n]

/-- What an insertion computes about the entry it replaces stays in the word: the bytes of the
shard with the new size in place of the old, and the difference of the two as signed numbers. -/
def Cache.Accommodates (c : Cache κ ν w n) (key : κ) (x : BitVec w) : Prop :=
  match c.oldEntry key with
  | none => True
  | some old =>
    (c.shards (getShard w n (hash key))).demand key x < 2 ^ w ∧
      |x.toInt - old.size.toInt| < 2 ^ (w - 1)

instance (c : Cache κ ν w n) (key : κ) (x : BitVec w) : Decidable (c.Accommodates key x) := by
  unfold Cache.Accommodates
  split <;> infer_instance

/-- With overflow checks, what is inserted stays in the word. -/
def Action.accommodated (checks : Bool) (c : Cache κ ν w n) : Action κ ν w n → Prop
  | .insert key entry => checks = true → c.Accommodates key entry.size
  | _ => True

instance (checks : Bool) (c : Cache κ ν w n) (a : Action κ ν w n) :
    Decidable (a.accommodated checks c) :=
  match a with
  | .insert _ _ => inferInstanceAs (Decidable (_ → _))
  | .remove _ | .drain _ | .enter _ _ | .update _ | .unlock _ | .hook _ => isTrue trivial

namespace System

/-- With overflow checks, an insertion that is made stays in the word. -/
def Accommodates (checks : Bool) (s : System κ ν w n) : Choice κ ν w n → Prop
  | .advance j => ∀ a ∈ s.next j, a.accommodated checks s.cache
  | _ => True

instance (checks : Bool) (s : System κ ν w n) (choice : Choice κ ν w n) :
    Decidable (s.Accommodates checks choice) :=
  match choice with
  | .advance j => inferInstanceAs (Decidable (∀ a ∈ s.next j, a.accommodated checks s.cache))
  | .start _ | .access _ _ _ _ => isTrue trivial

variable [EquivBEq κ] [LawfulHashable κ] {checks : Bool} {s t : System κ ν w n}
  {choice : Choice κ ν w n} {shown : List (Event κ ν w)}

/-- The counters and the updates in flight account for all that is stored; with overflow checks
the shards are sound. -/
structure Consistent (checks : Bool) (s : System κ ν w n) : Prop where
  accounted : s.Accounted
  fresh : s.Fresh
  sound : checks = true → ∀ i, (s.cache.shards i).Sound

omit [EquivBEq κ] [LawfulHashable κ] in
theorem consistent_start (maxSizeBytes : BitVec w) :
    (start maxSizeBytes : System κ ν w n).Consistent checks where
  accounted := accounted_start maxSizeBytes
  fresh _ hcall := nomatch hcall
  sound _ _ := Shard.sound_new _

/-- A step keeps sound shards sound: an insertion that is not exact panics. -/
theorem step_sound (hs : ∀ i, (s.cache.shards i).Sound)
    (h : step true s choice = some (shown, t)) (i : Fin n) : (t.cache.shards i).Sound := by
  rcases step_inFlight h with ⟨op, -, hc, -⟩ | ⟨hc, -⟩ | ⟨j, a, rest, e, -, -, he, hc, -⟩ |
    ⟨i', key, clockBit, frequency, hc, -⟩
  · rw [hc]
    exact hs i
  · rw [hc]
    exact hs i
  · rw [hc]
    refine perform_shards hs (fun key entry r s' _ hok => (hs _).insert_checked hok)
      (fun i key r s' hok => ?_) (fun s _ => Shard.sound_clear s) he i
    obtain ⟨r', u, hok', hu, -⟩ := Shard.remove_returns (hs i) true key
    rw [hok] at hok'
    cases hok'
    exact hu
  · rw [hc]
    exact Cache.access_shards hs (fun s hs => hs.access _ _ _) i

/-- An insertion whose sums and differences are words does not panic. -/
theorem unwind_insert {c : Cache κ ν w n} {locked : Fin n → Bool} {key : κ} {entry : Entry ν w}
    (hs : (c.shards (getShard w n (hash key))).Sound)
    (hdemand : (c.shards (getShard w n (hash key))).demand key entry.size < 2 ^ w)
    (hnear : ∀ old, c.oldEntry key = some old →
      |entry.size.toInt - old.size.toInt| < 2 ^ (w - 1)) :
    unwind checks c locked (.insert key entry) = none := by
  obtain ⟨old, stats, evicted, u, hok, -⟩ :=
    Shard.insert_returns_of_fits hs checks key hdemand
  rw [Option.eq_none_iff_forall_ne_some]
  intro d hd
  rcases unwind_cases hd with ⟨_, _, heq, hins | ⟨old', stats', evicted', hins, hnone⟩⟩ |
    ⟨_, heq, -⟩ <;> cases heq
  · obtain ⟨s', hpanic, -⟩ := Outcome.mapState_eq_panic.mp hins
    rw [hok] at hpanic
    cases hpanic
  · obtain ⟨s', hok', -⟩ := Outcome.mapState_eq_ok.mp hins
    obtain ⟨-, -, -, -, hold, -⟩ := Shard.insert_cases hs.linked hok'
    obtain ⟨us, hus⟩ := Cache.insertUpdates_returns checks
      fun e (he : old' = some e) => hnear e (hold.symm.trans he)
    rw [hus] at hnone
    cases hnone

theorem unwind_remove {c : Cache κ ν w n} {locked : Fin n → Bool} {key : κ}
    (hs : (c.shards (getShard w n (hash key))).Sound) :
    unwind checks c locked (.remove key) = none := by
  rw [Option.eq_none_iff_forall_ne_some]
  intro d hd
  rcases unwind_cases hd with ⟨_, _, heq, -⟩ | ⟨_, heq, hrem⟩ <;> cases heq
  obtain ⟨s', hpanic, -⟩ := Outcome.mapState_eq_panic.mp hrem
  obtain ⟨r, u, hok, -⟩ := Shard.remove_returns hs checks key
  rw [hok] at hpanic
  cases hpanic

/-- A call that panics all the same has inserted nothing and changed nothing. -/
theorem unwound_harmless (hs : ∀ i, (s.cache.shards i).Sound)
    (hfits : s.Accommodates true choice) (h : s.unwound true choice = some t) :
    ∃ j key entry, s.next j = some (.insert key entry) ∧ t = s.finish j := by
  cases choice with
  | start op | access i key clockBit frequency => cases h
  | advance j =>
    obtain ⟨a, ha, h⟩ := Option.bind_eq_some_iff.mp h
    obtain ⟨d, hd, rfl⟩ := Option.map_eq_some_iff.mp h
    rcases unwind_cases hd with ⟨key, entry, rfl, hins⟩ | ⟨key, rfl, -⟩
    · refine ⟨j, key, entry, ha, ?_⟩
      have hfits : s.cache.Accommodates key entry.size := hfits _ ha rfl
      unfold Cache.Accommodates at hfits
      cases hold : s.cache.oldEntry key with
      | some old =>
        rw [hold] at hfits
        have hnear : ∀ e, s.cache.oldEntry key = some e →
            |entry.size.toInt - e.size.toInt| < 2 ^ (w - 1) := fun e he => by
          cases hold.symm.trans he
          exact hfits.2
        rw [unwind_insert (hs _) hfits.1 hnear] at hd
        cases hd
      | none =>
        -- the shard panicked: there was nothing to detach
        rcases hins with hins | ⟨old, stats, evicted, hins, hnone⟩
        · obtain ⟨s', hpanic, rfl⟩ := Outcome.mapState_eq_panic.mp hins
          obtain rfl := Shard.eq_of_insert_panics (hs _) hold hpanic
          rw [Cache.setShard_self]
          rfl
        · obtain ⟨s', hok, -⟩ := Outcome.mapState_eq_ok.mp hins
          obtain ⟨-, -, -, -, heq, -⟩ := Shard.insert_cases (hs _).linked hok
          cases heq.trans hold
          cases hnone
    · rw [unwind_remove (hs _)] at hd
      cases hd

omit [EquivBEq κ] [LawfulHashable κ] in
/-- What is in flight is the same without a call that only had to insert. -/
theorem Consistent.finish (hs : s.Consistent checks) {j : Nat} {key : κ} {entry : Entry ν w}
    (hnext : s.next j = some (.insert key entry)) : (s.finish j).Consistent checks := by
  have hflight := hs.fresh.inFlight_finish hnext
  refine ⟨⟨hs.accounted.routed, ?_, ?_⟩, hs.fresh.finish j, hs.sound⟩
  · have hsize := hs.accounted.size
    rw [Weight.sum_perm hflight, Weight.sum_cons] at hsize
    simp only [Weight.of, zero_add] at hsize
    exact hsize
  · have hcount := hs.accounted.count
    rw [Weight.sum_perm hflight, Weight.sum_cons] at hcount
    simp only [Weight.of, zero_add] at hcount
    exact hcount

theorem stepOrPanic_consistent (hs : s.Consistent checks) (hfits : s.Accommodates checks choice)
    (h : stepOrPanic checks s choice = some (shown, t)) : t.Consistent checks := by
  rw [stepOrPanic, Execution.withFailures] at h
  split at h
  · next u hpanic =>
    cases h
    cases checks with
    | false =>
      rw [calm_unchecked s choice] at hpanic
      cases hpanic
    | true =>
      obtain ⟨j, key, entry, hnext, rfl⟩ := unwound_harmless (hs.sound rfl) hfits hpanic
      exact hs.finish hnext
  · refine ⟨step_accounted hs.accounted h, step_fresh hs.fresh h, ?_⟩
    rintro rfl
    exact step_sound (hs.sound rfl) h

/-- Whatever the interleaving of any number of calls, where every insertion that replaces an entry
stays in the word or there are no overflow checks: whenever no call is in progress `size()` is the
sum of the sizes of all entries in all shards modulo the word, and `len()` is the number of
entries. -/
theorem counters_agree_at_rest (checks : Bool) (maxSizeBytes : BitVec w)
    {trace : List (Event κ ν w)} {s : System κ ν w n}
    (h : Execution (stepOrPanic checks) (Accommodates checks) (start maxSizeBytes) trace s)
    (hrest : s.calls = []) :
    s.cache.size.toNat =
      (∑ i, ((s.cache.shards i).entries.values.map fun e => e.size.toNat).sum) % 2 ^ w ∧
    s.cache.len.toNat = (∑ i, (s.cache.shards i).entries.len) % 2 ^ w ∧
    (∑ i, (s.cache.shards i).entries.len < 2 ^ w →
      s.cache.len.toNat = ∑ i, (s.cache.shards i).entries.len) := by
  have hs : s.Consistent checks := h.state_invariant (consistent_start maxSizeBytes)
    fun _ _ _ _ hs hfits hstep => stepOrPanic_consistent hs hfits hstep
  obtain ⟨hsize, hcount⟩ := hs.accounted.settled hrest
  have hlen : s.cache.len.toNat = (∑ i, (s.cache.shards i).entries.len) % 2 ^ w := by
    rw [Cache.len, hcount, BitVec.natCast_eq_ofNat, BitVec.toNat_ofNat]
    rfl
  refine ⟨?_, hlen, fun hfits => by rw [hlen, Nat.mod_eq_of_lt hfits]⟩
  rw [Cache.size, hsize, BitVec.natCast_eq_ofNat, BitVec.toNat_ofNat]
  rfl

/-- Two insertions of one key, a removal and a `clear` that overlap, and an insertion that panics
before it changes anything, until all calls have ended. -/
def overlap : List (Choice Nat Unit 64 2) :=
  [.start (.insert 0 (.new () 10 .standard)), .start (.insert 0 (.new () 4 .volatile)),
    .start (.insert 2 (.new () (2 ^ 64 - 3) .standard)), .advance 0, .advance 1, .advance 2,
    .start (.remove 0), .advance 2, .start .clear, .advance 1, .advance 2, .advance 2, .advance 2,
    .advance 2, .advance 3] ++ List.replicate 22 (.advance 0)

theorem counters_agree_at_rest_overlap :
    ∃ trace s, Execution (stepOrPanic true) (Accommodates true)
        (start 100 : System Nat Unit 64 2) trace s ∧ s.calls = [] ∧
      s.cache.len.toNat = (∑ i, (s.cache.shards i).entries.len) % 2 ^ 64 := by
  have hreturned : ((Execution.play (stepOrPanic true) (Accommodates true) (start 100) overlap).map
      fun r => r.2.calls.isEmpty) = some true := by decide +kernel
  obtain ⟨⟨trace, s⟩, hplay, hcalls⟩ := Option.map_eq_some_iff.mp hreturned
  have hrest : s.calls = [] := List.isEmpty_iff.mp hcalls
  have hs := Execution.of_play hplay
  exact ⟨trace, s, hs, hrest, (counters_agree_at_rest true 100 hs hrest).2.1⟩

/-- A value is replaced by one that is larger by more than half the address space of a 32-bit
machine. -/
def regrown : List (Choice Nat Unit 32 2) :=
  .start (.insert 0 (.new () 600000000 .standard)) :: List.replicate 5 (.advance 0) ++
    [.start (.insert 0 (.new () 2400000000 .standard)), .advance 0]

/-- With overflow checks the second insertion panics after the shard has changed. No call is in
progress, and the size is that of the value before. -/
theorem panicked_insert_uncounted :
    ∃ trace s, Execution (stepOrPanic true) (fun _ _ => True)
        (start 4000000000 : System Nat Unit 32 2) trace s ∧ s.calls = [] ∧
      s.cache.size.toNat = 600000000 ∧
      (∑ i, ((s.cache.shards i).entries.values.map fun e => e.size.toNat).sum) % 2 ^ 32 =
        2400000000 := by
  have hend : ((Execution.play (stepOrPanic true) (fun _ _ => True)
      (start 4000000000 : System Nat Unit 32 2) regrown).map fun r =>
        (r.2.calls.isEmpty, r.2.cache.size.toNat,
          (∑ i, ((r.2.cache.shards i).entries.values.map fun e => e.size.toNat).sum) % 2 ^ 32)) =
      some (true, 600000000, 2400000000) := by decide +kernel
  obtain ⟨⟨trace, s⟩, hplay, hs⟩ := Option.map_eq_some_iff.mp hend
  simp only [Prod.mk.injEq] at hs
  exact ⟨trace, s, Execution.of_play hplay, List.isEmpty_iff.mp hs.1, hs.2⟩

end System

end PriorityLfu
