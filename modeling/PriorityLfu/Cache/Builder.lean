import Mathlib.Algebra.BigOperators.Fin
import Mathlib.Data.Int.CardIntervalMod
import PriorityLfu.Cache.Basic

/-!
# The number of shards and their capacity

`compute_shard_count` takes the smaller of the requested count and of the count that leaves
`MIN_SHARD_SIZE` bytes to each shard, and then rounds it up to a power of two. Rounding
comes last, so it can step over the bound again: `RoundsWithin` says when it does not.
-/
namespace PriorityLfu
open Keyed

/-! ## The builder -/

structure CacheBuilder (w : Nat) where
  maxSize : BitVec w
  shardCount : Option Nat

namespace CacheBuilder

variable {w : Nat}

def new (maxSizeBytes : BitVec w) : CacheBuilder w where
  maxSize := maxSizeBytes
  shardCount := none

def shards (self : CacheBuilder w) (count : Nat) : CacheBuilder w :=
  { self with shardCount := some count }

/-- Build the cache, with its number of shards. -/
def build (self : CacheBuilder w) (κ ν : Type) [BEq κ] : (n : Nat) × Cache κ ν w n :=
  match self.shardCount with
  | some count => ⟨_, Cache.withShards self.maxSize count⟩
  | none => ⟨_, Cache.new self.maxSize⟩

end CacheBuilder

/-! ## The count -/

/-- The least power of two from `desired` on leaves the minimum to each shard, or the largest
count that does is a power of two itself. -/
def RoundsWithin (capacity desired : Nat) : Prop :=
  (∃ j, desired ≤ 2 ^ j ∧ 2 ^ j * MIN_SHARD_SIZE ≤ capacity) ∨
    ∃ j, capacity / MIN_SHARD_SIZE = 2 ^ j

theorem computeShardCount_eq (capacity desired : Nat) : computeShardCount capacity desired =
    nextPowerOfTwo (min desired (max (capacity / MIN_SHARD_SIZE) 1)) := by
  have : 0 < nextPowerOfTwo (min desired (max (capacity / MIN_SHARD_SIZE) 1)) :=
    Nat.two_pow_pos _
  simp only [computeShardCount]
  omega

theorem nextPowerOfTwo_le_iff {k m : Nat} :
    nextPowerOfTwo k ≤ m ↔ ∃ j, k ≤ 2 ^ j ∧ 2 ^ j ≤ m := by
  constructor
  · intro h
    exact ⟨Nat.clog 2 k, Nat.le_pow_clog Nat.one_lt_two k, h⟩
  · rintro ⟨j, hk, hm⟩
    have : Nat.clog 2 k ≤ j := Nat.clog_le_of_le_pow hk
    exact (Nat.pow_le_pow_right Nat.two_pos this).trans hm

variable {capacity desired : Nat}

/-- The share of each shard, by the rounded count. -/
theorem min_le_share_iff (hcap : MIN_SHARD_SIZE ≤ capacity) :
    MIN_SHARD_SIZE ≤ capacity / computeShardCount capacity desired ↔
      RoundsWithin capacity desired := by
  have hmin : 0 < MIN_SHARD_SIZE := by decide
  have hmax : 1 ≤ capacity / MIN_SHARD_SIZE := (Nat.one_le_div_iff hmin).mpr hcap
  have hfits : ∀ n, n ≤ capacity / MIN_SHARD_SIZE ↔ n * MIN_SHARD_SIZE ≤ capacity :=
    fun n => Nat.le_div_iff_mul_le hmin
  rw [Nat.le_div_iff_mul_le (NeZero.pos _), Nat.mul_comm, ← hfits, computeShardCount_eq,
    Nat.max_eq_left hmax, nextPowerOfTwo_le_iff]
  constructor
  · rintro ⟨j, hj, hle⟩
    by_cases hd : desired ≤ capacity / MIN_SHARD_SIZE
    · exact .inl ⟨j, by rwa [Nat.min_eq_left hd] at hj, (hfits _).mp hle⟩
    · right
      rw [Nat.min_eq_right (by omega)] at hj
      exact ⟨j, by omega⟩
  · rintro (⟨j, hj, hle⟩ | ⟨j, hj⟩)
    · exact ⟨j, (Nat.min_le_left _ _).trans hj, (hfits _).mpr hle⟩
    · exact ⟨j, (Nat.min_le_right _ _).trans hj.le, hj.ge⟩

theorem computeShardCount_pow (capacity desired : Nat) :
    ∃ j, computeShardCount capacity desired = 2 ^ j :=
  ⟨_, computeShardCount_eq capacity desired⟩

/-! ## Constructed caches -/

variable {κ ν : Type} {w : Nat} [BEq κ]

theorem withShards_sizeCapacity (maxSizeBytes : BitVec w) (desired : Nat)
    (i : Fin (computeShardCount maxSizeBytes.toNat desired)) :
    ((Cache.withShards maxSizeBytes desired : Cache κ ν w _).shards i).sizeCapacity.toNat =
      maxSizeBytes.toNat / computeShardCount maxSizeBytes.toNat desired := by
  have hle : maxSizeBytes.toNat / computeShardCount maxSizeBytes.toNat desired < 2 ^ w :=
    Nat.lt_of_le_of_lt (Nat.div_le_self _ _) maxSizeBytes.isLt
  simp only [Cache.withShards, Cache.withShardsAndLifecycleInternal, Shard.new,
    BitVec.toNat_ofNat, Nat.mod_eq_of_lt hle]

/-- What a builder builds: the requested count, or the default one, goes through
`compute_shard_count`. -/
theorem CacheBuilder.build_eq (self : CacheBuilder w) : self.build κ ν =
    ⟨_, Cache.withShards self.maxSize (self.shardCount.getD DEFAULT_SHARD_COUNT)⟩ := by
  obtain ⟨maxSize, _ | count⟩ := self <;> rfl

/-- A builder's count is that of `compute_shard_count` and each shard gets an equal share. For
every capacity and every request the count is a power of two that leaves the minimum to each
shard exactly when the rounding stays within the bound. -/
theorem CacheBuilder.build_min_iff (self : CacheBuilder w)
    (hcap : MIN_SHARD_SIZE ≤ self.maxSize.toNat) :
    (self.build κ ν).1 =
        computeShardCount self.maxSize.toNat (self.shardCount.getD DEFAULT_SHARD_COUNT) ∧
      (∀ i, (((self.build κ ν).2.shards i).sizeCapacity.toNat =
        self.maxSize.toNat / (self.build κ ν).1)) ∧
      (((∃ j, (self.build κ ν).1 = 2 ^ j) ∧
          MIN_SHARD_SIZE ≤ self.maxSize.toNat / (self.build κ ν).1) ↔
        RoundsWithin self.maxSize.toNat (self.shardCount.getD DEFAULT_SHARD_COUNT)) := by
  rw [self.build_eq]
  refine ⟨rfl, withShards_sizeCapacity _ _, ?_⟩
  exact (and_iff_right (computeShardCount_pow _ _)).trans (min_le_share_iff hcap)

/-- By default 64 KiB are split into 16 shards. -/
theorem CacheBuilder.build_min_iff_default :
    ∃ j, ((CacheBuilder.new (65536#64)).build Nat Unit).1 = 2 ^ j := by
  refine ((CacheBuilder.build_min_iff (.new 65536#64) (by decide)).2.2.mpr ?_).1
  exact .inr ⟨4, by decide⟩

/-- A capacity of three minimal shards is split into four shards of 3072 bytes. -/
theorem CacheBuilder.shards_below_min :
    ¬ ∀ self : CacheBuilder 64, MIN_SHARD_SIZE ≤ self.maxSize.toNat →
      (∃ j, (self.build Nat Unit).1 = 2 ^ j) ∧
        MIN_SHARD_SIZE ≤ self.maxSize.toNat / (self.build Nat Unit).1 := by
  intro h
  have hshare := (h (.new 12288#64) (by decide)).2
  have hcount : ((CacheBuilder.new (12288#64)).build Nat Unit).1 = 4 := by decide
  rw [hcount] at hshare
  revert hshare
  decide

/-! ## The split among the shards -/

/-- A count has no more shards than there are words. -/
theorem computeShardCount_le (maxSizeBytes : BitVec w) (desired : Nat) :
    ∃ j ≤ w, computeShardCount maxSizeBytes.toNat desired = 2 ^ j := by
  obtain ⟨j, hj⟩ := computeShardCount_pow maxSizeBytes.toNat desired
  refine ⟨j, ?_, hj⟩
  have hmax : max (maxSizeBytes.toNat / MIN_SHARD_SIZE) 1 ≤ 2 ^ w :=
    Nat.max_le.mpr ⟨(Nat.div_le_self _ _).trans maxSizeBytes.isLt.le, Nat.one_le_two_pow⟩
  have hle : 2 ^ j ≤ 2 ^ w := by
    rw [← hj, computeShardCount_eq]
    exact nextPowerOfTwo_le_iff.mpr ⟨w, (Nat.min_le_right _ _).trans hmax, le_rfl⟩
  exact (Nat.pow_le_pow_iff_right Nat.one_lt_two).mp hle

/-- With a power of two the mask takes the remainder, whether or not the hash was cut to the
word before. -/
theorem getShard_val {n j : Nat} [NeZero n] (hn : n = 2 ^ j) (hj : j ≤ w) (hash : UInt64) :
    (getShard w n hash).val = hash.toNat % n := by
  subst hn
  show (hash.toNat % 2 ^ w) &&& (2 ^ j - 1) = _
  rw [Nat.and_two_pow_sub_one_eq_mod, Nat.mod_mod_of_dvd _ (Nat.pow_dvd_pow 2 hj)]

/-- Every cache splits hashes and bytes evenly: of the `2 ^ 64` hashes each shard gets the same
number, each shard gets the same share of the capacity, and less than a byte for each shard is
given to none. -/
theorem Cache.even_split (hw : w ≤ 64) (maxSizeBytes : BitVec w) (desired : Nat)
    {c : Cache κ ν w (computeShardCount maxSizeBytes.toNat desired)}
    (hc : c = .withShards maxSizeBytes desired) :
    (∀ i, Nat.count (fun x => getShard w (computeShardCount maxSizeBytes.toNat desired) (.ofNat x)
        = i) (2 ^ 64) * computeShardCount maxSizeBytes.toNat desired = 2 ^ 64) ∧
      (∀ i i', (c.shards i).sizeCapacity = (c.shards i').sizeCapacity) ∧
      ∑ i, (c.shards i).sizeCapacity.toNat ≤ maxSizeBytes.toNat ∧
      maxSizeBytes.toNat < ∑ i, (c.shards i).sizeCapacity.toNat +
        computeShardCount maxSizeBytes.toNat desired := by
  have hshares : ∑ i, (c.shards i).sizeCapacity.toNat =
      computeShardCount maxSizeBytes.toNat desired *
        (maxSizeBytes.toNat / computeShardCount maxSizeBytes.toNat desired) := by
    simp [hc, withShards_sizeCapacity]
  have hpos : 0 < computeShardCount maxSizeBytes.toNat desired := NeZero.pos _
  rw [hshares]
  refine ⟨fun i => ?_, fun i i' => by subst hc; rfl, Nat.mul_div_le _ _,
    Nat.lt_mul_div_succ _ hpos⟩
  obtain ⟨j, hj, hn⟩ := computeShardCount_le maxSizeBytes desired
  have hdvd : 2 ^ j ∣ 2 ^ 64 := pow_dvd_pow 2 (hj.trans hw)
  rw [← hn] at hdvd
  have hcount : Nat.count (fun x => getShard w (computeShardCount maxSizeBytes.toNat desired)
      (.ofNat x) = i) (2 ^ 64) =
        Nat.count (· ≡ i [MOD computeShardCount maxSizeBytes.toNat desired]) (2 ^ 64) := by
    rw [Nat.count_eq_card_filter_range, Nat.count_eq_card_filter_range]
    refine congrArg Finset.card (Finset.filter_congr fun x _ => ?_)
    rw [Fin.ext_iff, getShard_val hn hj, UInt64.toNat_ofNat', Nat.mod_mod_of_dvd _ hdvd,
      Nat.ModEq, Nat.mod_eq_of_lt i.isLt]
  rw [hcount, Nat.count_modEq_card _ hpos, Nat.mod_eq_zero_of_dvd hdvd,
    if_neg (Nat.not_lt_zero _), add_zero, Nat.div_mul_cancel hdvd]

/-- A capacity of 10 KB and a request of three shards on a machine of 32 bits: two shards. -/
theorem Cache.even_split_two :
    ∃ i, Nat.count (fun x => getShard 32 (computeShardCount (10000#32).toNat 3) (.ofNat x) = i)
      (2 ^ 64) * computeShardCount (10000#32).toNat 3 = 2 ^ 64 :=
  ⟨0, (Cache.even_split (κ := Nat) (ν := Unit) (by decide) (10000#32) 3 rfl).1 0⟩

end PriorityLfu
