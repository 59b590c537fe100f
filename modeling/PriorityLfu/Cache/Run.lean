import Mathlib.Algebra.BigOperators.Fin
import PriorityLfu.Cache.Basic

/-!
# What a cache operation does

`Routed` is the invariant of the shards together: each is linked, and a key is stored in the
shard its hash selects. Every operation is described by what it does to the content under
every key, to the counters and to the lifecycle; the typed operations are instances.
-/
namespace PriorityLfu
open Keyed

variable {κ ν : Type} {w n : Nat} [BEq κ] [Hashable κ]

namespace Cache

/-! ## Counter updates leave the shards alone -/

omit [Hashable κ] in
@[simp] theorem shards_apply (c : Cache κ ν w n) (u : Update w) :
    (c.apply u).shards = c.shards := by
  cases u <;> rfl

omit [Hashable κ] in
@[simp] theorem shards_applyAll (c : Cache κ ν w n) (us : List (Update w)) :
    (c.applyAll us).shards = c.shards := by
  induction us generalizing c with
  | nil => rfl
  | cons u us ih => exact (ih (c.apply u)).trans (shards_apply c u)

omit [Hashable κ] in
theorem applyAll_append (c : Cache κ ν w n) (us vs : List (Update w)) :
    c.applyAll (us ++ vs) = (c.applyAll us).applyAll vs := List.foldl_append

omit [Hashable κ] in
@[simp] theorem shards_setShard (c : Cache κ ν w n) (i : Fin n) (s : Shard κ ν w) :
    (c.setShard i s).shards = Function.update c.shards i s := rfl

/-! ## The invariant of the shards -/

variable [NeZero n]

/-- Every shard is linked, its running total is the sum of its sizes, and it holds only keys
whose hash selects it. -/
structure Routed (c : Cache κ ν w n) : Prop where
  linked : ∀ i, (c.shards i).Linked Shard.nowhere
  total : ∀ i, (c.shards i).sizeCurrent = (c.shards i).sizes.sum
  routed : ∀ i k, (c.shards i).contentOf k ≠ none → getShard w n (hash k) = i

/-- The value, the size and the policy stored under `k`. -/
def contentAt (c : Cache κ ν w n) (k : κ) : Option (ν × BitVec w × CachePolicy) :=
  (c.shards (getShard w n (hash k))).contentOf k

variable {c d : Cache κ ν w n} {checks : Bool}

/-- A key that is stored anywhere is found where its hash selects. -/
theorem Routed.contentAt_eq (h : c.Routed) {i : Fin n} {k : κ}
    (hk : (c.shards i).contentOf k ≠ none) : c.contentAt k = (c.shards i).contentOf k := by
  rw [contentAt, h.routed i k hk]

theorem Routed.of_shards (h : c.Routed) (hd : d.shards = c.shards) : d.Routed := by
  obtain ⟨hl, ht, hr⟩ := h
  exact ⟨by rwa [hd], by rwa [hd], by rwa [hd]⟩

/-- A change of one shard that keeps the shard linked and routed. -/
theorem Routed.update (h : c.Routed) {i : Fin n} {s : Shard κ ν w}
    (hd : d.shards = Function.update c.shards i s) (hl : s.Linked Shard.nowhere)
    (ht : s.sizeCurrent = s.sizes.sum)
    (hk : ∀ k, s.contentOf k ≠ none → getShard w n (hash k) = i) : d.Routed := by
  refine ⟨fun j => ?_, fun j => ?_, fun j k => ?_⟩ <;> rw [hd] <;> by_cases hj : j = i
  · subst hj; simpa using hl
  · simpa [hj] using h.linked j
  · subst hj; simpa using ht
  · simpa [hj] using h.total j
  · subst hj; simpa using hk k
  · simpa [hj] using h.routed j k

theorem contentAt_congr (hd : d.shards = c.shards) (k : κ) : d.contentAt k = c.contentAt k := by
  rw [contentAt, hd, contentAt]

theorem contentAt_update {i : Fin n} {s : Shard κ ν w}
    (hd : d.shards = Function.update c.shards i s) (k : κ) :
    d.contentAt k = if getShard w n (hash k) = i then s.contentOf k else c.contentAt k := by
  unfold contentAt
  rw [hd]
  split
  · next h => rw [h, Function.update_self]
  · next h => rw [Function.update_of_ne h]

theorem routed_new (maxSizeBytes : BitVec w) :
    (withShardsAndLifecycleInternal maxSizeBytes n : Cache κ ν w n).Routed where
  linked i := Shard.linked_new _ _
  total i := rfl
  routed i k hk := by simp [withShardsAndLifecycleInternal, Shard.new, Shard.contentOf] at hk

variable [EquivBEq κ] [LawfulHashable κ]

/-! ## Insertion -/

/-- An insertion with the evictions `vs`: what it does to the shards. -/
structure Inserts (checks : Bool) (key : κ) (entry : Entry ν w) (c : Cache κ ν w n)
    (vs : List (Eviction κ ν w)) (d : Cache κ ν w n) : Prop where
  shard : ∃ u t s',
    Shard.InsertSteps checks key entry (c.shards (getShard w n (hash key))) u t vs s' ∧
    d.shards = Function.update c.shards (getShard w n (hash key)) s'

/-- The entry an insertion of `key` replaces. -/
def oldEntry (c : Cache κ ν w n) (key : κ) : Option (Entry ν w) :=
  (c.shards (getShard w n (hash key))).entries.get? key

omit [EquivBEq κ] [LawfulHashable κ] in
theorem contentAt_eq_oldEntry (c : Cache κ ν w n) (key : κ) :
    c.contentAt key = (c.oldEntry key).map Entry.content := rfl

theorem insertShard_cases {key : κ} {entry : Entry ν w} {old : Option (Entry ν w)}
    {stats : EvictionStats w} {evicted : List (EvictedEntry κ ν w)} (hc : c.Routed)
    (h : c.insertShard checks key entry = .ok (old, stats, evicted) d) :
    ∃ vs s', Inserts checks key entry c vs d ∧ d = c.setShard (getShard w n (hash key)) s' ∧
      old = c.oldEntry key ∧ stats = ⟨vs.length, Shard.evictedSize vs⟩ ∧
      evicted = vs.map (·.victim) := by
  obtain ⟨s', hins, rfl⟩ := Outcome.mapState_eq_ok.mp h
  obtain ⟨u, t, vs, hsteps, rfl, rfl, rfl⟩ := Shard.insert_cases (hc.linked _) hins
  exact ⟨vs, s', ⟨u, t, s', hsteps, rfl⟩, rfl, rfl, rfl, rfl⟩

omit [Hashable κ] [EquivBEq κ] [LawfulHashable κ] in
theorem evictHooks_eq (vs : List (Eviction κ ν w)) :
    evictHooks (⟨vs.length, Shard.evictedSize vs⟩ : EvictionStats w) (vs.map (·.victim)) =
      vs.map fun v => .onEvict v.victim.key := by
  cases vs <;> simp [evictHooks]

theorem insertEntry_cases {key : κ} {entry : Entry ν w} {old : Option (Entry ν w)}
    {hooks : List (Hook κ)} (hc : c.Routed)
    (h : c.insertEntry checks key entry = .ok (old, hooks) d) :
    ∃ vs s' us, Inserts checks key entry c vs d ∧
      insertUpdates checks entry.size (c.oldEntry key) = some us ∧
      d = (c.setShard (getShard w n (hash key)) s').applyAll
        (us ++ evictUpdates ⟨vs.length, Shard.evictedSize vs⟩) ∧
      old = c.oldEntry key ∧ hooks = vs.map fun v => .onEvict v.victim.key := by
  simp only [insertEntry, Outcome.bind_eq_ok, Outcome.check_eq_ok] at h
  obtain ⟨⟨old', stats, evicted⟩, d', hins, us, _, ⟨hus, rfl⟩, hret⟩ := h
  obtain ⟨vs, s', hi, rfl, rfl, rfl, rfl⟩ := insertShard_cases hc hins
  cases hret
  refine ⟨vs, s', us, ⟨?_⟩, hus, rfl, rfl, evictHooks_eq vs⟩
  obtain ⟨u, t, s', hsteps, hd⟩ := hi.shard
  exact ⟨u, t, s', hsteps, by rw [shards_applyAll, hd]⟩

theorem insertUpdates_unchecked (x : BitVec w) (old : Option (Entry ν w)) :
    ∃ us, insertUpdates false x old = some us := by
  unfold insertUpdates
  split
  · simp only [Word.ssub_unchecked, Option.bind_some]
    split <;> simp
  · exact ⟨_, rfl⟩

omit [BEq κ] [Hashable κ] [EquivBEq κ] [LawfulHashable κ] in
/-- The updates of an insertion whose size differs from the old one by less than half a word. -/
theorem insertUpdates_returns (checks : Bool) {x : BitVec w} {old : Option (Entry ν w)}
    (hold : ∀ e, old = some e → |x.toInt - e.size.toInt| < 2 ^ (w - 1)) :
    ∃ us, insertUpdates checks x old = some us := by
  unfold insertUpdates
  cases old with
  | none => exact ⟨_, rfl⟩
  | some e =>
    obtain ⟨hsub, hneg⟩ := Word.ssub_fits checks (hold e rfl)
    simp only [hsub, hneg, Option.bind_some, Option.map_some]
    split <;> exact ⟨_, rfl⟩

/-- Without overflow checks an insertion returns. -/
theorem insertShard_unchecked (c : Cache κ ν w n) (key : κ) (entry : Entry ν w) :
    ∃ r d, c.insertShard false key entry = .ok r d := by
  obtain ⟨r, s', hins⟩ :=
    Shard.insert_unchecked (c.shards (getShard w n (hash key))) key entry
  simp [insertShard, hins, Outcome.mapState]

theorem insertEntry_unchecked (c : Cache κ ν w n) (key : κ) (entry : Entry ν w) :
    ∃ r d, c.insertEntry false key entry = .ok r d := by
  obtain ⟨⟨old, stats, evicted⟩, d, hins⟩ := insertShard_unchecked c key entry
  obtain ⟨us, hus⟩ := insertUpdates_unchecked entry.size old
  simp [insertEntry, hins, hus]

namespace Inserts

variable {key : κ} {entry : Entry ν w} {vs : List (Eviction κ ν w)}

theorem routed (h : Inserts checks key entry c vs d) (hc : c.Routed) : d.Routed := by
  obtain ⟨u, t, s', hsteps, hd⟩ := h.shard
  have hl := hc.linked (getShard w n (hash key))
  refine hc.update hd (hsteps.linked hl) (hsteps.balanced hl (hc.total _)) fun k hk => ?_
  rw [hsteps.contentOf_eq hl] at hk
  split at hk
  · next hkey => rw [hash_eq hkey]
  · split at hk
    · exact absurd rfl hk
    · exact hc.routed _ k hk

/-- Each victim was present, under a key other than the inserted one. -/
theorem victim (h : Inserts checks key entry c vs d) (hc : c.Routed) {v : Eviction κ ν w}
    (hv : v ∈ vs) : c.contentAt v.victim.key = some v.victim.entry.content ∧
      (key == v.victim.key) = false := by
  obtain ⟨u, t, s', hsteps, -⟩ := h.shard
  obtain ⟨hcontent, hne, -⟩ := hsteps.victim (hc.linked _) hv
  rw [hc.contentAt_eq (by rw [hcontent]; simp), hcontent]
  exact ⟨rfl, hne⟩

/-- The victims have distinct keys. -/
theorem distinct (h : Inserts checks key entry c vs d) (hc : c.Routed) :
    vs.Pairwise fun a b => (a.victim.key == b.victim.key) = false := by
  obtain ⟨u, t, s', hsteps, -⟩ := h.shard
  exact hsteps.evictions.distinct (hsteps.linked_detached (hc.linked _))

/-- The content under every key after an insertion. -/
theorem contentAt_eq (h : Inserts checks key entry c vs d) (hc : c.Routed) (k : κ) :
    d.contentAt k = if key == k then some entry.content
      else if vs.any fun v => v.victim.key == k then none else c.contentAt k := by
  obtain ⟨u, t, s', hsteps, hd⟩ := h.shard
  have hl := hc.linked (getShard w n (hash key))
  rw [contentAt_update hd]
  split
  · next hroute => rw [hsteps.contentOf_eq hl, contentAt, hroute]
  · next hroute =>
    -- neither the key nor a victim is stored elsewhere
    have hkey : ¬ (key == k) = true := fun hk => hroute (by rw [hash_eq hk])
    have hvs : ¬ (vs.any fun v => v.victim.key == k) = true := by
      intro hany
      obtain ⟨v, hv, hvk⟩ := List.any_eq_true.mp hany
      have hcontent := (hsteps.victim hl hv).1
      refine hroute ?_
      rw [← hash_eq hvk]
      exact hc.routed _ _ (by rw [hcontent]; simp)
    rw [if_neg hkey, if_neg hvs]

end Inserts

/-! ## Removal -/

omit [Hashable κ] [EquivBEq κ] [LawfulHashable κ] [NeZero n] in
@[simp] theorem setShard_self (c : Cache κ ν w n) (i : Fin n) : c.setShard i (c.shards i) = c := by
  simp [setShard]

/-- A removal that found the entry `e` under the stored key `k₀`. -/
structure Removes (checks : Bool) (key k₀ : κ) (e : Entry ν w) (c d : Cache κ ν w n) : Prop where
  key_eq : (key == k₀) = true
  entry : c.oldEntry key = some e
  shard : ∃ s', s'.entries = (c.shards (getShard w n (hash key))).entries.erase key ∧
    s'.Linked Shard.nowhere ∧
    Word.sub checks (c.shards (getShard w n (hash key))).sizeCurrent e.size = some s'.sizeCurrent ∧
    s'.sizeCapacity = (c.shards (getShard w n (hash key))).sizeCapacity ∧
    d.shards = Function.update c.shards (getShard w n (hash key)) s'

theorem removeShard_cases {key : κ} {r : Option (κ × Entry ν w)} (hc : c.Routed)
    (h : c.removeShard checks key = .ok r d) :
    (r = none ∧ d = c ∧ c.contentAt key = none) ∨
      ∃ k₀ e s', r = some (k₀, e) ∧ Removes checks key k₀ e c d ∧
        d = c.setShard (getShard w n (hash key)) s' := by
  obtain ⟨s', hrem, rfl⟩ := Outcome.mapState_eq_ok.mp h
  rcases Shard.remove_cases hrem with ⟨rfl, rfl, hnone⟩ | ⟨k₀, e, rfl, hk, hget, he, hb, hsub, hcap⟩
  · exact .inl ⟨rfl, setShard_self _ _, Shard.contentOf_eq_none.mpr hnone⟩
  · exact .inr ⟨k₀, e, s', rfl, ⟨hk, hget, s', he,
      Shard.remove_linked (hc.linked _) hk hget he hb, hsub, hcap, rfl⟩, rfl⟩

theorem removeEntry_cases {key : κ} {r : Option (Entry ν w)} {hooks : List (Hook κ)}
    (hc : c.Routed) (h : c.removeEntry checks key = .ok (r, hooks) d) :
    (r = none ∧ hooks = [] ∧ d = c ∧ c.contentAt key = none) ∨
      ∃ k₀ e s', r = some e ∧ hooks = [.onRemove k₀] ∧ Removes checks key k₀ e c d ∧
        d = (c.setShard (getShard w n (hash key)) s').applyAll (removeUpdates e) := by
  obtain ⟨r', d', hrem, hret⟩ := Outcome.bind_eq_ok.mp h
  rcases removeShard_cases hc hrem with ⟨rfl, rfl, hnone⟩ | ⟨k₀, e, s', rfl, hr, rfl⟩
  · cases hret
    exact .inl ⟨rfl, rfl, rfl, hnone⟩
  · cases hret
    refine .inr ⟨k₀, e, s', rfl, rfl, ⟨hr.key_eq, hr.entry, ?_⟩, rfl⟩
    obtain ⟨s', he, hl, hsub, hcap, hd⟩ := hr.shard
    exact ⟨s', he, hl, hsub, hcap, by rw [shards_applyAll, hd]⟩

omit [LawfulHashable κ] in
theorem removeShard_unchecked (c : Cache κ ν w n) (key : κ) :
    ∃ r d, c.removeShard false key = .ok r d := by
  obtain ⟨r, s', hrem⟩ := Shard.remove_unchecked (c.shards (getShard w n (hash key))) key
  simp [removeShard, hrem, Outcome.mapState]

omit [LawfulHashable κ] in
theorem removeEntry_unchecked (c : Cache κ ν w n) (key : κ) :
    ∃ r d, c.removeEntry false key = .ok r d := by
  obtain ⟨r, d, hrem⟩ := removeShard_unchecked c key
  cases r <;> simp [removeEntry, hrem]

namespace Removes

variable {key k₀ : κ} {e : Entry ν w}

omit [EquivBEq κ] [LawfulHashable κ] in
theorem contentAt_key (h : Removes checks key k₀ e c d) : c.contentAt key = some e.content := by
  rw [contentAt_eq_oldEntry, h.entry, Option.map_some]

theorem routed (h : Removes checks key k₀ e c d) (hc : c.Routed) : d.Routed := by
  obtain ⟨s', he, hl, hsub, -, hd⟩ := h.shard
  refine hc.update hd hl (Shard.remove_balanced (hc.total _) h.entry he hsub) fun k hk => ?_
  refine hc.routed _ k fun hnone => hk ?_
  rw [Shard.contentOf_eq_none] at hnone ⊢
  rw [he, HashMap.get?_erase, hnone, ite_self]

/-- The content under every key after a removal. -/
theorem contentAt_eq (h : Removes checks key k₀ e c d) (k : κ) :
    d.contentAt k = if key == k then none else c.contentAt k := by
  obtain ⟨s', he, -, -, -, hd⟩ := h.shard
  rw [contentAt_update hd]
  split
  · next hroute =>
    rw [Shard.contentOf, he, HashMap.get?_erase, contentAt, hroute, Shard.contentOf]
    split <;> rfl
  · next hroute =>
    rw [if_neg]
    exact fun hk => hroute (by rw [hash_eq hk])

end Removes

/-! ## Lookup -/

section lookup

variable {hash : UInt64} {equals : κ → Bool}

omit [EquivBEq κ] [LawfulHashable κ] in
/-- A lookup touches the entry it finds and counts a hit or a miss. -/
theorem lookup_eq (c : Cache κ ν w n) (hash : UInt64) (equals : κ → Bool) :
    c.lookup hash equals =
      (((c.shards (getShard w n hash)).entries.fromHash hash equals).map (·.2.touch),
        (c.setShard (getShard w n hash)
          ((c.shards (getShard w n hash)).getHash hash equals).2).apply (.addMetric
            (if ((c.shards (getShard w n hash)).entries.fromHash hash equals).isSome then .hits
              else .misses) 1)) := by
  simp only [lookup, Shard.getHash]
  cases (c.shards (getShard w n hash)).entries.fromHash hash equals <;> rfl

theorem contentAt_lookup (c : Cache κ ν w n) (hash : UInt64) (equals : κ → Bool) (k : κ) :
    (c.lookup hash equals).2.contentAt k = c.contentAt k := by
  rw [lookup_eq, contentAt_congr (shards_apply _ _), contentAt_update (shards_setShard _ _ _)]
  split
  · next h => rw [Shard.contentOf_getHash, contentAt, h]
  · rfl

theorem routed_lookup (hc : c.Routed) (hash : UInt64) (equals : κ → Bool) :
    (c.lookup hash equals).2.Routed := by
  have hl := (hc.linked (getShard w n hash)).of_content
    (Shard.contentOf_getHash _ hash equals) (Shard.getHash_frame _ hash equals).1
  have hset : (c.setShard (getShard w n hash)
      ((c.shards (getShard w n hash)).getHash hash equals).2).Routed :=
    hc.update (shards_setShard _ _ _) hl (Shard.getHash_balanced (hc.total _) hash equals)
      fun k hk => hc.routed _ k (by rwa [Shard.contentOf_getHash] at hk)
  rw [lookup_eq]
  exact hset.of_shards (shards_apply _ _)

omit [EquivBEq κ] [LawfulHashable κ] in
/-- A lookup that misses changes no shard. -/
theorem shards_lookup_of_none (h : (c.lookup hash equals).1 = none) :
    (c.lookup hash equals).2.shards = c.shards := by
  rw [lookup_eq] at h ⊢
  rw [shards_apply, shards_setShard, Shard.getHash]
  simp only [Option.map_eq_none_iff] at h
  rw [h]
  exact Function.update_eq_self _ _

end lookup

/-! ## Clearing -/

omit [Hashable κ] [NeZero n] [EquivBEq κ] [LawfulHashable κ] in
/-- Draining shards empties them and collects their entries. -/
theorem drainShards_eq {is : List (Fin n)} (hd : is.Nodup) (c : Cache κ ν w n)
    (all : List (EvictedEntry κ ν w)) :
    (drainShards is c all).1 = all ++ is.flatMap (fun i => (c.shards i).drain.1.1) ∧
      ∀ j, (drainShards is c all).2.shards j =
        if j ∈ is then (c.shards j).clear else c.shards j := by
  induction is generalizing c all with
  | nil => simp [drainShards]
  | cons i is ih =>
    obtain ⟨hi, hd⟩ := List.nodup_cons.mp hd
    obtain ⟨hentries, hshards⟩ := ih hd ((c.setShard i (c.shards i).clear).applyAll
      (drainUpdates (c.shards i).sizeCurrent (c.shards i).entries.len))
      (all ++ (c.shards i).drain.1.1)
    have hother : ∀ j ∈ is, ((c.setShard i (c.shards i).clear).applyAll
        (drainUpdates (c.shards i).sizeCurrent (c.shards i).entries.len)).shards j =
          c.shards j := fun j hj => by
      have hne : j ≠ i := fun h => hi (h ▸ hj)
      rw [shards_applyAll, shards_setShard, Function.update_of_ne hne]
    constructor
    · refine hentries.trans ?_
      rw [List.flatMap_cons, List.append_assoc, List.flatMap_congr fun j hj => by rw [hother j hj]]
    · intro j
      refine (hshards j).trans ?_
      by_cases hji : j = i
      · subst hji
        simp [hi]
      · by_cases hj : j ∈ is
        · rw [if_pos hj, hother j hj, if_pos (List.mem_cons_of_mem _ hj)]
        · simp [hj, hji]

omit [EquivBEq κ] [LawfulHashable κ] in
theorem contentAt_drainShard (c : Cache κ ν w n) (i : Fin n) (k : κ) :
    (c.drainShard i).2.contentAt k =
      if getShard w n (hash k) = i then none else c.contentAt k := by
  rw [contentAt_update (c := c) (d := (c.drainShard i).2) (s := (c.shards i).clear) rfl]
  simp [Shard.clear, Shard.contentOf]

omit [Hashable κ] [NeZero n] [EquivBEq κ] [LawfulHashable κ] in
/-- Clearing leaves every shard empty. -/
theorem shards_clear (c : Cache κ ν w n) (i : Fin n) :
    c.clear.2.shards i = (c.shards i).clear := by
  have := (drainShards_eq (List.nodup_finRange n) c []).2 i
  simpa [clear] using this

omit [EquivBEq κ] [LawfulHashable κ] in
theorem routed_clear (c : Cache κ ν w n) : c.clear.2.Routed where
  linked i := by rw [shards_clear]; exact Shard.linked_clear _
  total i := by rw [shards_clear]; rfl
  routed i k hk := by
    rw [shards_clear] at hk
    simp [Shard.clear, Shard.contentOf] at hk

omit [EquivBEq κ] [LawfulHashable κ] in
theorem contentAt_clear (c : Cache κ ν w n) (k : κ) : c.clear.2.contentAt k = none := by
  rw [contentAt, shards_clear]
  simp [Shard.clear, Shard.contentOf]

/-- Clearing notifies every present key once, and no other. -/
theorem countP_hooks_clear (hc : c.Routed) (k : κ) :
    c.clear.1.countP (fun h => k == h.key) = (c.contentAt k).isSome.toNat := by
  have hentries := (drainShards_eq (List.nodup_finRange n) c []).1
  have hshard : ∀ i, (c.shards i).drain.1.1.countP (fun e => k == e.key) =
      ((c.shards i).contentOf k).isSome.toNat := fun i => by
    have := HashMap.countP_keys (c.shards i).entries k
    simpa [Shard.drain, List.countP_map, Shard.contentOf, Function.comp_def] using this
  have hsum : c.clear.1.countP (fun h => k == h.key) =
      ∑ i, ((c.shards i).contentOf k).isSome.toNat := by
    rw [Fin.sum_univ_def, clear]
    simp only [hentries, List.nil_append, List.countP_map, List.countP_flatMap,
      Function.comp_def, Hook.key, hshard]
  rw [hsum, Finset.sum_eq_single (getShard w n (hash k))]
  · rfl
  · -- the key is in no other shard
    intro i _ hi
    by_contra hne
    refine hi (hc.routed i k fun hnone => hne ?_).symm
    rw [hnone]
    rfl
  · intro h
    exact absurd (Finset.mem_univ _) h

end Cache

end PriorityLfu
