import PriorityLfu.Concurrent.Stored
import PriorityLfu.Deepsize.Memory

/-!
# The memory that the cache keeps alive

What the limit of the cache is for. Every insertion measures its value by `deep_size_of` once, in
the memory of that moment and with a context of its own. The shards count these sizes, so the memory
behind all stored values is within the limit at every moment, and not only the sum that `size()`
shows at rest, up to what values have grown since they were measured.
-/
namespace PriorityLfu
open Keyed Deepsize

variable {κ ν : Type} {w n : Nat}

/-- The size of an entry is what `deep_size_of` measured of its value in one of the memories of the
past. -/
def CallOp.Measured (past : Set (Memory ν)) : CallOp κ ν w → Prop
  | .insert _ entry => ∃ μ ∈ past, μ.Measures entry.value entry.size.toNat
  | _ => True

namespace Cache

variable [BEq κ]

/-- All values, shard after shard. -/
def values (c : Cache κ ν w n) : List ν := c.stored.map fun kv => kv.2.value

/-- What the stored values account for beyond the sizes that were measured of them. -/
noncomputable def growth (c : Cache κ ν w n) (now : Memory ν) : Nat :=
  Sharing.excess (fun kv => now.account kv.2.value) (fun kv => kv.2.size.toNat) c.stored

/-- What is missing to these sizes. -/
noncomputable def shrinkage (c : Cache κ ν w n) (now : Memory ν) : Nat :=
  Sharing.excess (fun kv => kv.2.size.toNat) (fun kv => now.account kv.2.value) c.stored

variable [Hashable κ] [EquivBEq κ] [LawfulHashable κ] [NeZero n] {c : Cache κ ν w n}
  {now : Memory ν}

theorem contentAt_of_mem_stored (hc : c.Routed) {kv : κ × Entry ν w} (h : kv ∈ c.stored) :
    c.contentAt kv.1 = some kv.2.content := by
  obtain ⟨i, -, hmem⟩ := List.mem_flatMap.mp h
  have hcontent := Shard.contentOf_of_get? (HashMap.get?_of_mem hmem)
  rw [hc.contentAt_eq (by rw [hcontent]; simp), hcontent]

omit [Hashable κ] [EquivBEq κ] [LawfulHashable κ] [NeZero n] in
theorem byteTotal_eq_sum (c : Cache κ ν w n) :
    c.byteTotal = (c.stored.map fun kv => kv.2.size.toNat).sum := by
  rw [byteTotal_eq, ← sum_stored]
  rfl

omit [Hashable κ] [EquivBEq κ] [LawfulHashable κ] [NeZero n] in
/-- The memory behind the values is what the shards count, up to growth. -/
theorem kept_le (c : Cache κ ν w n) (now : Memory ν) :
    now.kept c.values ≤ c.byteTotal + c.growth now := by
  refine now.kept_le_accounts c.values |>.trans ?_
  rw [byteTotal_eq_sum, values, List.map_map]
  exact Sharing.sum_le_add_excess _ _ _

omit [Hashable κ] [EquivBEq κ] [LawfulHashable κ] [NeZero n] in
/-- It is no less than that, up to sharing and to what went away. -/
theorem byteTotal_le_kept {k : Nat} (hk : 0 < k) (h : ∀ p, now.holders c.values p ≤ k) :
    c.byteTotal ≤ k * now.kept c.values + c.shrinkage now := by
  have haccounts := now.accounts_le_kept hk h
  rw [values, List.map_map] at haccounts
  rw [byteTotal_eq_sum]
  exact (Sharing.sum_le_add_excess _ _ _).trans (Nat.add_le_add_right haccounts _)

omit [Hashable κ] [EquivBEq κ] [LawfulHashable κ] [NeZero n] in
/-- Where all values are as they were measured. -/
theorem unchanged (h : ∀ kv ∈ c.stored, kv.2.size.toNat = now.account kv.2.value) :
    c.growth now = 0 ∧ c.shrinkage now = 0 :=
  ⟨Sharing.excess_eq_zero fun kv hkv => (h kv hkv).ge,
    Sharing.excess_eq_zero fun kv hkv => (h kv hkv).le⟩

end Cache

namespace Shared

variable [BEq κ] [Hashable κ] [EquivBEq κ] [LawfulHashable κ] [NeZero n] {checks : Bool}
  {s : Shared κ ν w n} {trace : List (CacheNote κ ν w)} {past : Set (Memory ν)}

/-- The limit bounds memory. Let each value be measured when it is inserted, in the memory of that
moment, and fit the share of a shard. Then no call panics; in every interleaving, at every moment,
the size of each stored entry is what its value accounted for then, and what the stored values keep alive now is
within the limit, up to what they have grown since. At rest `size()` is no less than that, and no
more than `k` times of it, up to what they have lost since, where no allocation is shared by more
than `k` values. In a memory that does not change they neither grow nor lose. -/
theorem memory_bounded (now : Memory ν) {maxSizeBytes : BitVec w}
    (h : Execution (stepOrPanic checks)
      (fun _ move => move.Starts fun op => op.Measured past ∧
        (Choice.start op : Choice κ ν w n).Fits (Cache.sizePerShard maxSizeBytes n))
      (start maxSizeBytes) trace s) :
    (∀ kv ∈ s.system.cache.stored, ∃ μ ∈ past, kv.2.size.toNat = μ.account kv.2.value) ∧
    now.kept s.system.cache.values ≤ maxSizeBytes.toNat + s.system.cache.growth now ∧
    (s.system.calls = [] →
      now.kept s.system.cache.values ≤ s.system.cache.size.toNat + s.system.cache.growth now ∧
      ∀ k, 0 < k → (∀ p, now.holders s.system.cache.values p ≤ k) →
        s.system.cache.size.toNat ≤
          k * now.kept s.system.cache.values + s.system.cache.shrinkage now) ∧
    ((∀ μ ∈ past, μ = now) → s.system.cache.growth now = 0 ∧ s.system.cache.shrinkage now = 0) := by
  have h := execution_of_fits (fun _ hop => hop.2) h
  obtain ⟨hcontent, -⟩ := stored (P := fun _ x => ∃ μ ∈ past, μ.Measures x.1 x.2.1.toNat)
    (fun _ _ => True) (fun _ _ _ _ hx => hx) (fun _ _ hop => hop.1)
    (fun _ _ _ _ _ _ _ _ _ _ => trivial) h
  obtain ⟨a, ha, hagrees⟩ := projection h
  have hfits : Execution (System.step checks)
      (fun _ choice => choice.Fits (Cache.sizePerShard maxSizeBytes n)) (.start maxSizeBytes)
      (trace.filterMap CacheNote.event?) a := ha.mono fun _ choice hchoice => by
    cases choice with
    | start op => exact hchoice.2
    | advance j | access i key clockBit frequency => trivial
  have hrouted := (held (h.mono fun _ _ _ => trivial)).routed
  have hmeasured : ∀ kv ∈ s.system.cache.stored,
      ∃ μ ∈ past, kv.2.size.toNat = μ.account kv.2.value := fun kv hkv => by
    have hat := Cache.contentAt_of_mem_stored hrouted hkv
    obtain ⟨μ, hμ, hmeasures⟩ := hcontent kv.1 _ hat
    exact ⟨μ, hμ, hmeasures.eq_account⟩
  have hlimit : s.system.cache.byteTotal ≤ maxSizeBytes.toNat :=
    (Cache.byteTotal_congr hagrees.cache.shards).trans_le (Cache.byteTotal_le (System.roomy hfits).within)
  have hkept := s.system.cache.kept_le now
  refine ⟨hmeasured, hkept.trans (Nat.add_le_add_right hlimit _), fun hrest => ?_, fun hsame => ?_⟩
  · have hsize : s.system.cache.size.toNat = s.system.cache.byteTotal := by
      rw [Cache.size, (settled_beside h hrest).1.size, BitVec.natCast_eq_ofNat, BitVec.toNat_ofNat]
      exact Nat.mod_eq_of_lt (hlimit.trans_lt maxSizeBytes.isLt)
    rw [hsize]
    exact ⟨hkept, fun k hk hholders => Cache.byteTotal_le_kept hk hholders⟩
  · refine Cache.unchanged fun kv hkv => ?_
    obtain ⟨μ, hμ, hsize⟩ := hmeasured kv hkv
    rw [hsize, hsame μ hμ]

/-- A pointer to a string. -/
def pointerToString : ObjectGraph where
  root := .leaf (.pointer 8 (.arc 0))
  content _ := .leaf (.string 24 10)
  live := {.arc 0}
  root_live p hp := Finset.mem_singleton.mpr (show p = .arc 0 from hp)
  content_live _ _ _ hq := hq.elim
  root_nest _ _ _ hw := by cases hw
  content_nest _ _ _ _ _ hw := by cases hw
  root_apart _ _ := Set.disjoint_empty _
  content_apart _ _ _ _ _ := Set.disjoint_empty _

/-- All values share the string. -/
def sharedString : Memory Unit where
  graph _ := pointerToString
  content := pointerToString.content
  content_eq _ := rfl

theorem measures_sharedString : sharedString.Measures () 42 := by
  refine ⟨⟨?_, ?_⟩, 1, le_rfl, rfl⟩
  · rintro _ _ _ ⟨⟩
  · rintro _ _ _ _ _ ⟨⟩

/-- Two values that share the string. -/
def sharing : List (Move Nat Unit 8) :=
  [.start (.insert 0 (.new () 42 .standard)), .start (.insert 1 (.new () 42 .standard))] ++
    List.replicate 5 (.advance 1) ++ List.replicate 5 (.advance 0)

theorem memory_bounded_sharing :
    ∃ trace, ∃ s : Shared Nat Unit 8 2,
      Execution (stepOrPanic true) (fun _ move => move.Starts fun op =>
        op.Measured {sharedString} ∧
          (Choice.start op : Choice Nat Unit 8 2).Fits (Cache.sizePerShard 100 2))
        (start 100) trace s ∧
      s.system.cache.size.toNat = 84 ∧ sharedString.kept s.system.cache.values ≤ 84 ∧
      84 ≤ 2 * sharedString.kept s.system.cache.values := by
  have hfacts : ((Execution.play (stepOrPanic true) (fun _ _ => True)
      (start 100 : Shared Nat Unit 8 2) sharing).map fun r =>
        (r.2.system.calls.isEmpty, r.2.system.cache.size.toNat, r.2.system.cache.values)) =
      some (true, 84, [(), ()]) := by decide +kernel
  obtain ⟨⟨trace, s⟩, hplay, hs⟩ := Option.map_eq_some_iff.mp hfacts
  simp only [Prod.mk.injEq] at hs
  obtain ⟨hcalls, hsize, hvalues⟩ := hs
  have hrun : Execution (stepOrPanic true) (fun _ move => move.Starts fun op =>
      op.Measured {sharedString} ∧
        (Choice.start op : Choice Nat Unit 8 2).Fits (Cache.sizePerShard 100 2))
      (start 100) trace s := by
    refine Execution.of_play_mem hplay fun _ move hmove _ => ?_
    simp only [sharing, List.mem_append, List.mem_cons, List.mem_replicate, List.not_mem_nil,
      or_false] at hmove
    rcases hmove with ((rfl | rfl) | ⟨-, rfl⟩) | ⟨-, rfl⟩
    · exact ⟨⟨_, rfl, measures_sharedString⟩, by decide⟩
    · exact ⟨⟨_, rfl, measures_sharedString⟩, by decide⟩
    · trivial
    · trivial
  obtain ⟨-, -, hrest, hsame⟩ := memory_bounded sharedString hrun
  obtain ⟨hgrowth, hshrinkage⟩ := hsame fun _ hμ => hμ
  obtain ⟨hle, hge⟩ := hrest (List.isEmpty_iff.mp hcalls)
  rw [hsize, hgrowth] at hle
  refine ⟨trace, s, hrun, hsize, hle, ?_⟩
  have htwo := hge 2 (by decide) fun p => by
    rw [hvalues]
    exact List.countP_le_length
  rwa [hsize, hshrinkage] at htwo

end Shared

end PriorityLfu
