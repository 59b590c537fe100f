import Mathlib.Algebra.Order.BigOperators.Group.Finset
import PriorityLfu.Concurrent.Counters
import PriorityLfu.Shard.Capacity

/-!
# The capacity

A shard is within its capacity after every insertion that is not oversized, and no other
call takes it out of it. The shares of the shards add up to at most the whole, so that at
rest the size of the cache is within its maximum if every value fits the share of a shard.
-/
namespace PriorityLfu
open Keyed

variable {κ ν : Type} {w n : Nat} [BEq κ] [Hashable κ]

/-! ## A shard within its capacity -/

namespace Shard

/-- A sound shard of capacity `cap` that is within it. -/
structure Within (cap : BitVec w) (s : Shard κ ν w) : Prop where
  sound : s.Sound
  capacity : s.sizeCapacity = cap
  size : s.sizeCurrent.toNat ≤ cap.toNat

/-- A size that fits beside the capacity fits beside every stored size. -/
theorem Within.admits {cap x : BitVec w} {s : Shard κ ν w} (hs : s.Within cap)
    (hx : cap.toNat + x.toNat < 2 ^ w) : s.Admits x where
  capacity := by rwa [hs.capacity]
  stored y hy := by
    obtain ⟨e, he, rfl⟩ := List.mem_map.mp hy
    have hle := le_totalSize he
    have := hs.sound.size
    have := hs.size
    omega

theorem within_new (cap : BitVec w) : (new cap : Shard κ ν w).Within cap :=
  ⟨sound_new cap, rfl, Nat.zero_le _⟩

theorem Within.clear {cap : BitVec w} {s : Shard κ ν w} (hs : s.Within cap) :
    s.clear.Within cap :=
  ⟨sound_clear s, hs.capacity, Nat.zero_le _⟩

variable [EquivBEq κ] [LawfulHashable κ] {checks : Bool} {cap : BitVec w} {s t : Shard κ ν w}

theorem Within.insert {key : κ} {entry : Entry ν w}
    {r : Option (Entry ν w) × EvictionStats w × List (EvictedEntry κ ν w)} (hs : s.Within cap)
    (hsize : entry.size ≤ cap) (hfits : cap.toNat + entry.size.toNat < 2 ^ w)
    (h : s.insert checks key entry = .ok r t) : t.Within cap := by
  obtain ⟨old, stats, evicted, u, hok, hu, hle⟩ :=
    insert_returns hs.sound checks key (hs.admits hfits)
  rw [hok] at h
  cases h
  obtain ⟨d, u', vs, hsteps, -⟩ := insert_cases hs.sound.linked hok
  have hcap := (hsteps.sizeCapacity_eq hs.sound.linked).trans hs.capacity
  rw [hcap] at hle
  exact ⟨hu, hcap, hle hsize⟩

theorem Within.remove {key : κ} {r : Option (κ × Entry ν w)} (hs : s.Within cap)
    (h : s.remove checks key = .ok r t) : t.Within cap := by
  obtain ⟨r', u, hok, hu, hcap, c, hperm⟩ := remove_returns hs.sound checks key
  rw [hok] at h
  cases h
  refine ⟨hu, hcap.trans hs.capacity, ?_⟩
  have hsum := (hperm.map (·.2.1.toNat)).sum_eq
  rw [List.map_append, List.sum_append, ← totalSize_eq, ← totalSize_eq] at hsum
  have := hs.sound.size
  have := hu.size
  have := hs.size
  omega

theorem Within.access (hs : s.Within cap) (key : κ) (clockBit : Bool) (frequency : UInt8) :
    ({ s with entries := s.entries.modify key fun e => { e with clockBit, frequency } } :
      Shard κ ν w).Within cap :=
  ⟨hs.sound.access key clockBit frequency, hs.capacity, hs.size⟩

/-- After an insertion that was the last call of a run the entry is stored. -/
theorem mem_values_of_insert {key : κ} {entry : Entry ν w} {rs : List (ShardReply κ ν w)}
    (hl : s.Linked nowhere) (h : Outcome.run (step checks) s [.insert key entry] = .ok rs t) :
    entry ∈ t.entries.values := by
  obtain ⟨r, u, rs', hstep, hnil, -⟩ := Outcome.run_cons_eq_ok.mp h
  cases hnil
  obtain ⟨⟨old, stats, evicted⟩, t', hins, hret⟩ := Outcome.bind_eq_ok.mp hstep
  cases hret
  obtain ⟨d, u', vs, hsteps, -⟩ := insert_cases hl hins
  exact HashMap.mem_values_of_get? hsteps.get?_key

end Shard

/-! ## All shards together -/

namespace Cache

/-- The share of each of the shards. -/
def sizePerShard (maxSizeBytes : BitVec w) (n : Nat) : BitVec w :=
  BitVec.ofNat w (maxSizeBytes.toNat / n)

theorem toNat_sizePerShard (maxSizeBytes : BitVec w) (n : Nat) :
    (sizePerShard maxSizeBytes n).toNat = maxSizeBytes.toNat / n := by
  rw [sizePerShard, BitVec.toNat_ofNat, Nat.mod_eq_of_lt]
  exact Nat.lt_of_le_of_lt (Nat.div_le_self _ _) maxSizeBytes.isLt

/-- The shares add up to at most the whole. -/
theorem byteTotal_le {c : Cache κ ν w n} {maxSizeBytes : BitVec w}
    (h : ∀ i, (c.shards i).Within (sizePerShard maxSizeBytes n)) :
    c.byteTotal ≤ maxSizeBytes.toNat := by
  calc c.byteTotal ≤ ∑ _ : Fin n, maxSizeBytes.toNat / n :=
        Finset.sum_le_sum fun i _ => by
          rw [← (h i).sound.size, ← toNat_sizePerShard]
          exact (h i).size
    _ = n * (maxSizeBytes.toNat / n) := by simp
    _ ≤ maxSizeBytes.toNat := Nat.mul_div_le _ _

end Cache

variable {checks : Bool} {cap : BitVec w}

/-- An inserted value fits the share of a shard, and a sum of the two fits in a word. -/
def Choice.Fits (cap : BitVec w) : Choice κ ν w n → Prop
  | .start (.insert _ entry) => entry.size ≤ cap ∧ cap.toNat + entry.size.toNat < 2 ^ w
  | _ => True

instance (choice : Choice κ ν w n) : Decidable (choice.Fits cap) :=
  match choice with
  | .start (.insert _ entry) =>
    inferInstanceAs (Decidable (entry.size ≤ cap ∧ cap.toNat + entry.size.toNat < 2 ^ w))
  | .start (.remove _) | .start .clear | .advance _ | .access _ _ _ _ => isTrue trivial

namespace System

variable [EquivBEq κ] [LawfulHashable κ] [NeZero n]

/-- Every shard is within its share, and so will the insertions in progress leave it. -/
structure Roomy (cap : BitVec w) (s : System κ ν w n) : Prop where
  within : ∀ i, (s.cache.shards i).Within cap
  inserts : ∀ key entry, .insert key entry ∈ s.inFlight →
    entry.size ≤ cap ∧ cap.toNat + entry.size.toNat < 2 ^ w

theorem perform_within {c : Cache κ ν w n} {locked : Fin n → Bool} {a : Action κ ν w n}
    {e : Effect κ ν w n} (hc : ∀ i, (c.shards i).Within cap)
    (ha : ∀ key entry, a = .insert key entry →
      entry.size ≤ cap ∧ cap.toNat + entry.size.toNat < 2 ^ w)
    (h : perform checks c locked a = some e) (i : Fin n) : (e.cache.shards i).Within cap := by
  refine perform_shards hc (fun key entry r s' hins hok => ?_) (fun i key r s' hok => ?_)
    (fun s hs => hs.clear) h i
  · obtain ⟨hsize, hfits⟩ := ha key entry hins
    exact (hc _).insert hsize hfits hok
  · exact (hc i).remove hok

theorem step_roomy {s t : System κ ν w n} {choice : Choice κ ν w n} {shown : List (Event κ ν w)}
    (hs : s.Roomy cap) (hchoice : choice.Fits cap) (h : step checks s choice = some (shown, t)) :
    t.Roomy cap := by
  rcases step_inFlight h with ⟨op, rfl, hc, hf⟩ | ⟨hc, hf⟩ |
    ⟨j, a, rest, e, -, -, he, hc, hf, hf'⟩ |
    ⟨i, key, clockBit, frequency, hc, hf⟩
  · refine ⟨by rw [hc]; exact hs.within, fun key entry hin => ?_⟩
    rw [hf, List.mem_append] at hin
    rcases hin with hin | hin
    · exact hs.inserts key entry hin
    · cases op with
      | insert key' entry' =>
        cases List.mem_singleton.mp hin
        exact hchoice
      | remove key' => simp [CallOp.actions] at hin
      | clear => simp [CallOp.actions] at hin
  · refine ⟨by rw [hc]; exact hs.within, fun key entry hin => ?_⟩
    exact hs.inserts key entry (hf.symm.subset hin)
  · refine ⟨?_, fun key entry hin => ?_⟩
    · rw [hc]
      refine perform_within hs.within (fun key entry ha => ?_) he
      exact hs.inserts key entry (hf.symm.subset (ha ▸ List.mem_cons_self))
    · rcases List.mem_append.mp (hf'.subset hin) with hnew | hold
      · cases perform_adds he _ hnew
      · exact hs.inserts key entry (hf.symm.subset (List.mem_cons_of_mem _ hold))
  · refine ⟨?_, fun key entry hin => hs.inserts key entry (hf ▸ hin)⟩
    rw [hc]
    exact Cache.access_shards hs.within fun s hs => hs.access _ _ _

/-- Insertions that all fit leave every shard within its share. -/
theorem roomy {maxSizeBytes : BitVec w} {trace : List (Event κ ν w)} {s : System κ ν w n}
    (h : Execution (step checks)
      (fun _ choice => choice.Fits (Cache.sizePerShard maxSizeBytes n)) (start maxSizeBytes)
      trace s) :
    s.Roomy (Cache.sizePerShard maxSizeBytes n) :=
  h.state_invariant ⟨fun i => Shard.within_new _, by simp [start, inFlight]⟩
    fun _ _ _ _ hs hfits hstep => step_roomy hs hfits hstep

/-- At rest, after insertions that all fit, the size is within the maximum. -/
theorem size_le {maxSizeBytes : BitVec w} {trace : List (Event κ ν w)} {s : System κ ν w n}
    (h : Execution (step checks)
      (fun _ choice => choice.Fits (Cache.sizePerShard maxSizeBytes n)) (start maxSizeBytes)
      trace s)
    (hrest : s.calls = []) : s.cache.size ≤ maxSizeBytes := by
  have hle := Cache.byteTotal_le (roomy h).within
  have hsize := ((accounted h).settled hrest).size
  show s.cache.currentSize.toNat ≤ maxSizeBytes.toNat
  rw [hsize, BitVec.natCast_eq_ofNat, BitVec.toNat_ofNat]
  exact (Nat.mod_le _ _).trans hle

/-- The capacity over whole runs. After every run of calls on a shard whose sizes fit, the
total is within the capacity or the shard holds one entry which alone is larger; an
insertion that is not oversized leaves it within the capacity, whatever was there before.
So for a cache of any number of shards, whatever the interleaving, the size at rest is
within the maximum if each inserted value fits the share of a shard. -/
theorem capacity_bound (checks : Bool) :
    (∀ (cap : BitVec w) (ops : List (ShardOp κ ν w)), SizesFit cap ops →
      ∃ rs s, Outcome.run (Shard.step checks) (.new cap) ops = .ok rs s ∧
        (s.sizeCurrent ≤ cap ∨ ∃ e, s.entries.values = [e] ∧ cap < e.size)) ∧
    (∀ (cap : BitVec w) (ops : List (ShardOp κ ν w)) (key : κ) (entry : Entry ν w),
      SizesFit cap (ops ++ [.insert key entry]) → entry.size ≤ cap →
      ∃ rs s, Outcome.run (Shard.step checks) (.new cap) (ops ++ [.insert key entry]) = .ok rs s ∧
        s.sizeCurrent ≤ cap) ∧
    ∀ (maxSizeBytes : BitVec w) (trace : List (Event κ ν w)) (s : System κ ν w n),
      Execution (step checks) (fun _ choice => choice.Fits (Cache.sizePerShard maxSizeBytes n))
        (start maxSizeBytes) trace s → s.calls = [] → s.cache.size ≤ maxSizeBytes := by
  refine ⟨fun cap ops hfit => ?_, fun cap ops key entry hfit hsize => ?_,
    fun maxSizeBytes trace s => size_le⟩
  · obtain ⟨rs, s, hrun, hs, hcap⟩ := Shard.run_returns checks hfit
    refine ⟨rs, s, hrun, ?_⟩
    rw [← hcap]
    exact hs.bounded
  · obtain ⟨rs, s, hrun, hs, hcap⟩ := Shard.run_returns checks hfit
    obtain ⟨rs₁, u, rs₂, hbefore, hlast, rfl⟩ := Outcome.run_append_eq_ok.mp hrun
    refine ⟨rs₁ ++ rs₂, s, hrun, ?_⟩
    rcases hs.bounded with hle | ⟨e, he, hlt⟩
    · rwa [hcap] at hle
    · -- the one entry left would be the inserted one
      have hin := Shard.mem_values_of_insert (Shard.Reachable.linked ⟨ops, rs₁, hbefore⟩) hlast
      rw [he, List.mem_singleton] at hin
      rw [hcap, ← hin] at hlt
      exact absurd hsize (BitVec.not_le.mpr hlt)

/-- Two insertions of the share of a shard each and one that evicts, overlapping. -/
def crowded : List (Choice Nat Unit 8 2) :=
  [.start (.insert 0 (.new () 3 .standard)), .start (.insert 2 (.new () 2 .volatile)),
    .advance 0, .advance 1, .start (.insert 1 (.new () 3 .critical)), .advance 2] ++
    List.replicate 16 (.advance 0)

theorem capacity_bound_crowded :
    (∃ rs s, Outcome.run (Shard.step true) (.new (5 : BitVec 8))
      ([.insert 0 (.new () 9 .critical)] ++ [.insert 1 (.new () 2 .volatile)] :
        List (ShardOp Nat Unit 8)) = .ok rs s ∧ s.sizeCurrent ≤ 5) ∧
    ∃ trace s, Execution (step false) (fun _ choice => choice.Fits (Cache.sizePerShard 6 2))
      (start 6 : System Nat Unit 8 2) trace s ∧ s.calls = [] ∧ s.cache.size ≤ 6 := by
  refine ⟨(capacity_bound (n := 2) true).2.1 5 _ 1 _ ⟨by decide, by decide⟩ (by decide), ?_⟩
  have hreturned : ((Execution.play (step false) (fun _ choice => choice.Fits
      (Cache.sizePerShard 6 2)) (start 6) crowded).map fun r => r.2.calls.isEmpty) = some true := by
    decide +kernel
  obtain ⟨⟨trace, s⟩, hplay, hcalls⟩ := Option.map_eq_some_iff.mp hreturned
  have hs := Execution.of_play hplay
  exact ⟨trace, s, hs, List.isEmpty_iff.mp hcalls, 
    (capacity_bound false).2.2 6 trace s hs (List.isEmpty_iff.mp hcalls)⟩

end System

end PriorityLfu
