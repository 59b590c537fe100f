import Mathlib.Algebra.Order.BigOperators.Group.Finset
import PriorityLfu.Cache.Run

/-!
# Totals over all shards

The bytes and the entries of all shards together, what each operation does to them, and
that the counter updates which accompany it say the same (`Books`). Nothing here depends on
when the updates are made.
-/
namespace PriorityLfu
open Keyed

variable {κ ν : Type} {w n : Nat} [BEq κ]

/-! ## What updates add to the counters -/

/-- What an update adds to `current_size`. -/
def Update.size : Update w → BitVec w
  | .addSize x => x
  | .subSize x => -x
  | _ => 0

/-- What an update adds to `entry_count`. -/
def Update.count : Update w → BitVec w
  | .addCount k => (k : BitVec w)
  | .subCount k => -(k : BitVec w)
  | _ => 0

namespace Cache

@[simp] theorem currentSize_setShard (c : Cache κ ν w n) (i : Fin n) (s : Shard κ ν w) :
    (c.setShard i s).currentSize = c.currentSize := rfl

@[simp] theorem entryCount_setShard (c : Cache κ ν w n) (i : Fin n) (s : Shard κ ν w) :
    (c.setShard i s).entryCount = c.entryCount := rfl

theorem currentSize_apply (c : Cache κ ν w n) (u : Update w) :
    (c.apply u).currentSize = c.currentSize + u.size := by
  cases u <;> simp [apply, Update.size, sub_eq_add_neg]

theorem entryCount_apply (c : Cache κ ν w n) (u : Update w) :
    (c.apply u).entryCount = c.entryCount + u.count := by
  cases u <;> simp [apply, Update.count, sub_eq_add_neg]

theorem currentSize_applyAll (c : Cache κ ν w n) (us : List (Update w)) :
    (c.applyAll us).currentSize = c.currentSize + (us.map Update.size).sum := by
  induction us generalizing c with
  | nil => simp [applyAll]
  | cons u us ih =>
    rw [List.map_cons, List.sum_cons, ← add_assoc, ← currentSize_apply]
    exact ih (c.apply u)

theorem entryCount_applyAll (c : Cache κ ν w n) (us : List (Update w)) :
    (c.applyAll us).entryCount = c.entryCount + (us.map Update.count).sum := by
  induction us generalizing c with
  | nil => simp [applyAll]
  | cons u us ih =>
    rw [List.map_cons, List.sum_cons, ← add_assoc, ← entryCount_apply]
    exact ih (c.apply u)

end Cache

/-- The updates for an inserted entry add its size less that of the entry it replaces. -/
theorem size_insertUpdates {checks : Bool} {x : BitVec w} {old : Option (Entry ν w)}
    {us : List (Update w)} (h : insertUpdates checks x old = some us) :
    (us.map Update.size).sum = x - (old.map Entry.size).getD 0 := by
  cases old with
  | none =>
    cases h
    simp [Update.size]
  | some old =>
    obtain ⟨diff, hdiff, h⟩ := Option.bind_eq_some_iff.mp h
    obtain rfl := Word.eq_ssub hdiff
    split at h
    · cases h
      simp [Update.size]
    · obtain ⟨neg, hneg, rfl⟩ := Option.map_eq_some_iff.mp h
      obtain rfl := Word.eq_neg hneg
      simp [Update.size]

/-- They count the entry exactly if it replaces none. -/
theorem count_insertUpdates {checks : Bool} {x : BitVec w} {old : Option (Entry ν w)}
    {us : List (Update w)} (h : insertUpdates checks x old = some us) :
    (us.map Update.count).sum = 1 - (old.toList.length : BitVec w) := by
  cases old with
  | none =>
    cases h
    simp [Update.count]
  | some old =>
    obtain ⟨diff, hdiff, h⟩ := Option.bind_eq_some_iff.mp h
    split at h
    · cases h
      simp [Update.count]
    · obtain ⟨neg, hneg, rfl⟩ := Option.map_eq_some_iff.mp h
      simp [Update.count]

theorem size_evictUpdates (vs : List (Eviction κ ν w)) :
    ((evictUpdates ⟨vs.length, Shard.evictedSize vs⟩).map Update.size).sum =
      -Shard.evictedSize vs := by
  cases vs <;> simp [evictUpdates, Update.size, Shard.evictedSize]

theorem count_evictUpdates (vs : List (Eviction κ ν w)) :
    ((evictUpdates ⟨vs.length, Shard.evictedSize vs⟩).map Update.count).sum =
      -(vs.length : BitVec w) := by
  cases vs <;> simp [evictUpdates, Update.count]

/-! ## Totals -/

namespace Shard

variable {checks : Bool} {s t u s' : Shard κ ν w}

/-- The sum of a weight over all entries. -/
def weigh (g : ν × BitVec w × CachePolicy → Nat) (s : Shard κ ν w) : Nat := (s.contents.map g).sum

theorem len_eq_weigh (s : Shard κ ν w) : s.entries.len = s.weigh fun _ => 1 := by
  simp [weigh, contents, Function.comp_def]

theorem cast_totalSize (s : Shard κ ν w) : (s.totalSize : BitVec w) = s.sizes.sum := by
  simp [totalSize, sizes, Nat.cast_list_sum, Function.comp_def]

/-- The sum of a weight over the victims. -/
def weighVictims (g : ν × BitVec w × CachePolicy → Nat) (vs : List (Eviction κ ν w)) : Nat :=
  (vs.map fun v => g v.victim.entry.content).sum

theorem weighVictims_one (vs : List (Eviction κ ν w)) :
    weighVictims (fun _ => 1) vs = vs.length := by
  simp [weighVictims]

theorem cast_weighVictims (vs : List (Eviction κ ν w)) :
    (weighVictims (fun x => x.2.1.toNat) vs : BitVec w) = evictedSize vs := by
  simp [weighVictims, evictedSize, Nat.cast_list_sum, Function.comp_def, Entry.content]

/-- What an insertion does to a sum of weights. -/
theorem InsertSteps.weigh [Hashable κ] [EquivBEq κ] [LawfulHashable κ] {key : κ}
    {entry : Entry ν w} {vs : List (Eviction κ ν w)}
    (h : InsertSteps checks key entry s u t vs s') (hl : s.Linked nowhere)
    (g : ν × BitVec w × CachePolicy → Nat) :
    s'.weigh g + weighVictims g vs + ((s.contentOf key).map g).getD 0 =
      s.weigh g + g entry.content := by
  have := ((h.perm_contents hl).map g).sum_eq
  simp only [List.map_append, List.map_map, List.sum_append, List.map_cons, List.sum_cons,
    Function.comp_def] at this
  have hold : ((s.entries.get? key).toList.map fun e => g e.content).sum =
      ((s.contentOf key).map g).getD 0 := by
    rw [contentOf]
    cases s.entries.get? key <;> simp
  simp only [Shard.weigh, weighVictims]
  omega

end Shard

namespace Cache

/-- The sum of a weight over all entries in all shards. -/
def total (g : ν × BitVec w × CachePolicy → Nat) (c : Cache κ ν w n) : Nat :=
  ∑ i, (c.shards i).weigh g

/-- The number of entries in all shards. -/
def entryTotal (c : Cache κ ν w n) : Nat := ∑ i, (c.shards i).entries.len

/-- The sum of the sizes of all entries in all shards. -/
def byteTotal (c : Cache κ ν w n) : Nat := ∑ i, (c.shards i).totalSize

variable {c d : Cache κ ν w n} {checks : Bool}

theorem entryTotal_eq (c : Cache κ ν w n) : c.entryTotal = c.total fun _ => 1 := by
  simp only [entryTotal, total, Shard.len_eq_weigh]

theorem byteTotal_eq (c : Cache κ ν w n) : c.byteTotal = c.total fun x => x.2.1.toNat := by
  simp only [byteTotal, total, Shard.weigh, Shard.totalSize_eq]

theorem total_congr (hd : d.shards = c.shards) (g : ν × BitVec w × CachePolicy → Nat) :
    d.total g = c.total g := by
  rw [total, hd, total]

theorem byteTotal_congr (hd : d.shards = c.shards) : d.byteTotal = c.byteTotal := by
  rw [byteTotal, hd, byteTotal]

theorem entryTotal_congr (hd : d.shards = c.shards) : d.entryTotal = c.entryTotal := by
  rw [entryTotal, hd, entryTotal]

/-- A total after one shard changed. -/
theorem total_update {i : Fin n} {s : Shard κ ν w} (hd : d.shards = Function.update c.shards i s)
    (g : ν × BitVec w × CachePolicy → Nat) :
    d.total g + (c.shards i).weigh g = c.total g + s.weigh g := by
  have hrest : ∑ j ∈ Finset.univ.erase i, (d.shards j).weigh g =
      ∑ j ∈ Finset.univ.erase i, (c.shards j).weigh g :=
    Finset.sum_congr rfl fun j hj => by
      rw [hd, Function.update_of_ne (Finset.ne_of_mem_erase hj)]
  rw [total, total, ← Finset.add_sum_erase _ _ (Finset.mem_univ i), hrest,
    ← Finset.add_sum_erase _ (fun j => (c.shards j).weigh g) (Finset.mem_univ i), hd,
    Function.update_self]
  omega

/-- All entries with their keys, shard after shard. -/
def stored (c : Cache κ ν w n) : List (κ × Entry ν w) :=
  (List.finRange n).flatMap fun i => (c.shards i).entries.toList

theorem sum_stored (c : Cache κ ν w n) (g : ν × BitVec w × CachePolicy → Nat) :
    (c.stored.map fun kv => g kv.2.content).sum = c.total g := by
  rw [stored, List.map_flatMap, List.flatMap_def, List.sum_flatten, total, Fin.sum_univ_def]
  simp only [Shard.weigh, Shard.contents, HashMap.values, List.map_map, Function.comp_def]

/-- What the updates `us` say about the change from the shards of `c` to those of `d`. -/
structure Books (c d : Cache κ ν w n) (us : List (Update w)) : Prop where
  size : (d.byteTotal : BitVec w) = c.byteTotal + (us.map Update.size).sum
  count : (d.entryTotal : BitVec w) = c.entryTotal + (us.map Update.count).sum

theorem Books.of_shards {d' : Cache κ ν w n} {us : List (Update w)} (h : Books c d us)
    (hd : d'.shards = d.shards) : Books c d' us :=
  ⟨by rw [byteTotal_congr hd, h.size], by rw [entryTotal_congr hd, h.count]⟩

variable [Hashable κ] [NeZero n]

/-- The weight of the entry under `key`, 0 where there is none. -/
def weighAt (g : ν × BitVec w × CachePolicy → Nat) (c : Cache κ ν w n) (key : κ) : Nat :=
  ((c.contentAt key).map g).getD 0

theorem weighAt_eq_oldEntry (g : ν × BitVec w × CachePolicy → Nat) (c : Cache κ ν w n) (key : κ) :
    c.weighAt g key = ((c.oldEntry key).map fun e => g e.content).getD 0 := by
  rw [weighAt, contentAt_eq_oldEntry, Option.map_map]
  rfl

theorem weighAt_one (c : Cache κ ν w n) (key : κ) :
    c.weighAt (fun _ => 1) key = (c.oldEntry key).toList.length := by
  rw [weighAt, contentAt_eq_oldEntry]
  cases c.oldEntry key <;> rfl

theorem cast_weighAt (c : Cache κ ν w n) (key : κ) :
    (c.weighAt (fun x => x.2.1.toNat) key : BitVec w) =
      ((c.oldEntry key).map Entry.size).getD 0 := by
  rw [weighAt, contentAt_eq_oldEntry]
  cases c.oldEntry key <;> simp [Entry.content]

variable [EquivBEq κ] [LawfulHashable κ]

theorem weighAt_le_total (c : Cache κ ν w n) (g : ν × BitVec w × CachePolicy → Nat) (k : κ) :
    c.weighAt g k ≤ c.total g := by
  have hshard : c.weighAt g k ≤ (c.shards (getShard w n (hash k))).weigh g := by
    rw [weighAt_eq_oldEntry]
    cases hget : c.oldEntry k with
    | none => exact Nat.zero_le _
    | some e =>
      have hmem := List.mem_map_of_mem (f := Entry.content) (HashMap.mem_values_of_get? hget)
      exact List.single_le_sum (by simp) _ (List.mem_map_of_mem (f := g) hmem)
  exact hshard.trans (Finset.single_le_sum (f := fun i => (c.shards i).weigh g)
    (fun _ _ => Nat.zero_le _) (Finset.mem_univ _))

theorem weighAt_congr_key (c : Cache κ ν w n) (g : ν × BitVec w × CachePolicy → Nat) {k k' : κ}
    (h : (k == k') = true) : c.weighAt g k = c.weighAt g k' := by
  rw [weighAt, weighAt, contentAt, contentAt, hash_eq h, Shard.contentOf_congr h]

/-- A stored entry is the one under its key. -/
theorem weighAt_of_mem_stored (hc : c.Routed) (g : ν × BitVec w × CachePolicy → Nat)
    {kv : κ × Entry ν w} (h : kv ∈ c.stored) : c.weighAt g kv.1 = g kv.2.content := by
  obtain ⟨i, -, hmem⟩ := List.mem_flatMap.mp h
  have hcontent := Shard.contentOf_of_get? (HashMap.get?_of_mem hmem)
  rw [weighAt, hc.contentAt_eq (by rw [hcontent]; simp), hcontent, Option.map_some,
    Option.getD_some]

omit [EquivBEq κ] in
theorem mem_stored_of_weighAt {g : ν × BitVec w × CachePolicy → Nat} {k : κ}
    (h : c.weighAt g k ≠ 0) : ∃ kv ∈ c.stored, (k == kv.1) = true := by
  by_contra hnone
  refine h ?_
  have hget : (c.shards (getShard w n (hash k))).entries.get? k = none :=
    HashMap.get?_eq_none_iff.mpr fun kv hkv => by
      by_contra hk
      exact hnone ⟨kv, List.mem_flatMap.mpr ⟨_, List.mem_finRange _, hkv⟩, by simpa using hk⟩
  rw [weighAt, contentAt, Shard.contentOf_eq_none.mpr hget, Option.map_none, Option.getD_none]

namespace Inserts

variable {key : κ} {entry : Entry ν w} {vs : List (Eviction κ ν w)}

/-- A total after an insertion. -/
theorem total (h : Inserts checks key entry c vs d) (hc : c.Routed)
    (g : ν × BitVec w × CachePolicy → Nat) :
    d.total g + Shard.weighVictims g vs + c.weighAt g key = c.total g + g entry.content := by
  obtain ⟨u, t, s', hsteps, hd⟩ := h.shard
  have hshard := hsteps.weigh (hc.linked _) g
  have hsum := total_update hd g
  simp only [weighAt, contentAt] at hshard ⊢
  omega

/-- The victims were stored before. -/
theorem weighVictims_le (h : Inserts checks key entry c vs d) (hc : c.Routed)
    (g : ν × BitVec w × CachePolicy → Nat) : Shard.weighVictims g vs ≤ c.total g := by
  have htotal := h.total hc g
  have hkey := d.weighAt_le_total g key
  rw [weighAt, h.contentAt_eq hc, if_pos BEq.rfl, Option.map_some, Option.getD_some] at hkey
  omega

theorem entryTotal (h : Inserts checks key entry c vs d) (hc : c.Routed) :
    d.entryTotal + vs.length + (c.oldEntry key).toList.length = c.entryTotal + 1 := by
  have := h.total hc fun _ => 1
  rwa [Shard.weighVictims_one, weighAt_one, ← entryTotal_eq, ← entryTotal_eq] at this

theorem books (h : Inserts checks key entry c vs d) (hc : c.Routed) {us : List (Update w)}
    (hus : insertUpdates checks entry.size (c.oldEntry key) = some us) :
    Books c d (us ++ evictUpdates ⟨vs.length, Shard.evictedSize vs⟩) := by
  have hbytes := congrArg (Nat.cast (R := BitVec w)) (h.total hc fun x => x.2.1.toNat)
  have hentries := congrArg (Nat.cast (R := BitVec w)) (h.entryTotal hc)
  push_cast [Shard.cast_weighVictims, cast_weighAt, ← byteTotal_eq] at hbytes hentries
  constructor
  · rw [List.map_append, List.sum_append, size_insertUpdates hus, size_evictUpdates]
    simp only [Entry.content, BitVec.natCast_eq_ofNat, BitVec.ofNat_toNat,
      BitVec.setWidth_eq] at hbytes ⊢
    linear_combination hbytes
  · rw [List.map_append, List.sum_append, count_insertUpdates hus, count_evictUpdates]
    linear_combination hentries

end Inserts

namespace Removes

variable {key k₀ : κ} {e : Entry ν w}

theorem total (h : Removes checks key k₀ e c d) (g : ν × BitVec w × CachePolicy → Nat) :
    d.total g + g e.content = c.total g := by
  obtain ⟨s', he, -, -, -, hd⟩ := h.shard
  have hshard := ((Shard.contents_erase h.entry he).map g).sum_eq
  rw [List.map_cons, List.sum_cons] at hshard
  have hsum := total_update hd g
  simp only [Shard.weigh] at hsum
  omega

theorem entryTotal (h : Removes checks key k₀ e c d) : d.entryTotal + 1 = c.entryTotal := by
  have := h.total fun _ => 1
  rwa [← entryTotal_eq, ← entryTotal_eq] at this

theorem books (h : Removes checks key k₀ e c d) : Books c d (removeUpdates e) := by
  have hbytes := congrArg (Nat.cast (R := BitVec w)) (h.total fun x => x.2.1.toNat)
  have hentries := congrArg (Nat.cast (R := BitVec w)) h.entryTotal
  push_cast [← byteTotal_eq] at hbytes hentries
  constructor
  · simp only [Entry.content, BitVec.natCast_eq_ofNat, BitVec.ofNat_toNat,
      BitVec.setWidth_eq] at hbytes ⊢
    simp only [removeUpdates, Update.size, List.map_cons, List.map_nil, List.sum_cons, List.sum_nil]
    linear_combination hbytes
  · simp only [removeUpdates, Update.count, List.map_cons, List.map_nil, List.sum_cons,
      List.sum_nil, Nat.cast_one]
    linear_combination hentries

end Removes

omit [EquivBEq κ] [LawfulHashable κ] [Hashable κ] [NeZero n] in
/-- A total after a shard was drained. -/
theorem total_drainShard (c : Cache κ ν w n) (i : Fin n) (g : ν × BitVec w × CachePolicy → Nat) :
    (c.drainShard i).2.total g + (c.shards i).weigh g = c.total g :=
  total_update (d := (c.drainShard i).2) (s := (c.shards i).clear) rfl g

omit [EquivBEq κ] [LawfulHashable κ] in
theorem books_drainShard (hc : c.Routed) (i : Fin n) :
    Books c (c.drainShard i).2 (drainUpdates (c.drainShard i).1.2.1 (c.drainShard i).1.2.2) := by
  have hbytes := congrArg (Nat.cast (R := BitVec w)) (total_drainShard c i fun x => x.2.1.toNat)
  have hentries := congrArg (Nat.cast (R := BitVec w)) (total_drainShard c i fun _ => 1)
  have hsize : (c.drainShard i).1.2.1 = ((c.shards i).weigh fun x => x.2.1.toNat : Nat) := by
    rw [Shard.weigh, ← Shard.totalSize_eq, Shard.cast_totalSize]
    exact hc.total i
  have hcount : (c.drainShard i).1.2.2 = (c.shards i).weigh fun _ => 1 := Shard.len_eq_weigh _
  rw [Nat.cast_add, ← byteTotal_eq, ← byteTotal_eq] at hbytes
  rw [Nat.cast_add, ← entryTotal_eq, ← entryTotal_eq] at hentries
  rw [hsize, hcount]
  constructor <;> simp only [drainUpdates, Update.size, Update.count, List.map_cons, List.map_nil,
    List.sum_cons, List.sum_nil]
  · linear_combination hbytes
  · linear_combination hentries

/-! ## The counters of a cache at rest -/

/-- The counters are the totals, as words. -/
structure Settled (c : Cache κ ν w n) : Prop where
  size : c.currentSize = (c.byteTotal : BitVec w)
  count : c.entryCount = (c.entryTotal : BitVec w)

omit [Hashable κ] [NeZero n] [EquivBEq κ] [LawfulHashable κ] in
theorem Settled.applyAll (h : c.Settled) {us : List (Update w)} (hb : Books c d us)
    (hsize : d.currentSize = c.currentSize) (hcount : d.entryCount = c.entryCount) :
    (d.applyAll us).Settled where
  size := by
    rw [currentSize_applyAll, hsize, h.size, byteTotal_congr (shards_applyAll d us), hb.size]
  count := by
    rw [entryCount_applyAll, hcount, h.count, entryTotal_congr (shards_applyAll d us), hb.count]

omit [Hashable κ] [NeZero n] [EquivBEq κ] [LawfulHashable κ] in
theorem byteTotal_new (maxSizeBytes : BitVec w) :
    (withShardsAndLifecycleInternal maxSizeBytes n : Cache κ ν w n).byteTotal = 0 :=
  Finset.sum_eq_zero fun _ _ => rfl

omit [Hashable κ] [NeZero n] [EquivBEq κ] [LawfulHashable κ] in
theorem entryTotal_new (maxSizeBytes : BitVec w) :
    (withShardsAndLifecycleInternal maxSizeBytes n : Cache κ ν w n).entryTotal = 0 :=
  Finset.sum_eq_zero fun _ _ => rfl

omit [Hashable κ] [NeZero n] [EquivBEq κ] [LawfulHashable κ] in
theorem settled_new (maxSizeBytes : BitVec w) :
    (withShardsAndLifecycleInternal maxSizeBytes n : Cache κ ν w n).Settled where
  size := by rw [byteTotal_new, Nat.cast_zero]; rfl
  count := by rw [entryTotal_new, Nat.cast_zero]; rfl

theorem settled_insertEntry {key : κ} {entry : Entry ν w}
    {r : Option (Entry ν w) × List (Hook κ)} (hc : c.Routed) (hs : c.Settled)
    (h : c.insertEntry checks key entry = .ok r d) : d.Settled := by
  obtain ⟨vs, s', us, hi, hus, rfl, -⟩ := insertEntry_cases hc h
  have hb := hi.books hc hus
  exact hs.applyAll (hb.of_shards (shards_applyAll _ _).symm) rfl rfl

theorem settled_removeEntry {key : κ} {r : Option (Entry ν w) × List (Hook κ)} (hc : c.Routed)
    (hs : c.Settled) (h : c.removeEntry checks key = .ok r d) : d.Settled := by
  obtain ⟨r, hooks⟩ := r
  rcases removeEntry_cases hc h with ⟨-, -, rfl, -⟩ | ⟨k₀, e, s', -, -, hr, rfl⟩
  · exact hs
  · exact hs.applyAll (hr.books.of_shards (shards_applyAll _ _).symm) rfl rfl

omit [EquivBEq κ] [LawfulHashable κ] in
theorem routed_drainShard (hc : c.Routed) (i : Fin n) : (c.drainShard i).2.Routed := by
  refine hc.update (i := i) (s := (c.shards i).clear) rfl (Shard.linked_clear _) rfl fun k hk => ?_
  simp [Shard.clear, Shard.contentOf] at hk

omit [EquivBEq κ] [LawfulHashable κ] in
theorem settled_drainShards (is : List (Fin n)) (hc : c.Routed) (hs : c.Settled)
    (all : List (EvictedEntry κ ν w)) : (drainShards is c all).2.Settled := by
  induction is generalizing c all with
  | nil => exact hs
  | cons i is ih =>
    exact ih ((routed_drainShard hc i).of_shards (shards_applyAll _ _))
      (hs.applyAll (books_drainShard hc i) rfl rfl) _

omit [EquivBEq κ] [LawfulHashable κ] in
theorem settled_clear (hc : c.Routed) (hs : c.Settled) : c.clear.2.Settled :=
  (settled_drainShards (List.finRange n) hc hs []).applyAll
    ⟨by simp [resetUpdates, Update.size], by simp [resetUpdates, Update.count]⟩ rfl rfl

omit [EquivBEq κ] [LawfulHashable κ] in
theorem total_lookup (c : Cache κ ν w n) (hash : UInt64) (equals : κ → Bool)
    (g : ν × BitVec w × CachePolicy → Nat) : (c.lookup hash equals).2.total g = c.total g := by
  have hd := congrArg (fun r => r.2.shards) (lookup_eq c hash equals)
  simp only [shards_apply, shards_setShard] at hd
  have hsum := total_update hd g
  rw [Shard.weigh, Shard.weigh, Shard.contents_getHash] at hsum
  omega

omit [EquivBEq κ] [LawfulHashable κ] in
theorem settled_lookup (hs : c.Settled) (hash : UInt64) (equals : κ → Bool) :
    (c.lookup hash equals).2.Settled := by
  refine ⟨?_, ?_⟩
  · rw [byteTotal_eq, total_lookup, ← byteTotal_eq, ← hs.size, lookup_eq]
    rfl
  · rw [entryTotal_eq, total_lookup, ← entryTotal_eq, ← hs.count, lookup_eq]
    rfl

end Cache

end PriorityLfu
