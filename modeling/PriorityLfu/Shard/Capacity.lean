import Mathlib.Algebra.Order.BigOperators.Group.List
import PriorityLfu.Shard.Run

/-!
# Sizes and the capacity

With sizes that fit (`SizesFit`) no sum of a shard overflows. The running total is then the
exact sum of the sizes, every call returns, and the shard is within its capacity unless it
holds a single oversized entry (`Sound`). While an insertion evicts, the total is short of
the entry being replaced (`Evicting`).
-/
namespace PriorityLfu
open Keyed

variable {κ ν : Type} {w : Nat} [BEq κ] [Hashable κ]

/-- The sizes a call stores. -/
def ShardOp.sizes : ShardOp κ ν w → List (BitVec w)
  | .insert _ entry => [entry.size]
  | _ => []

/-- The capacity plus any inserted size, and any two inserted sizes, fit in a word. -/
structure SizesFit (cap : BitVec w) (ops : List (ShardOp κ ν w)) : Prop where
  capacity : ∀ x ∈ ops.flatMap ShardOp.sizes, cap.toNat + x.toNat < 2 ^ w
  pair : (ops.flatMap ShardOp.sizes).Pairwise fun x y => x.toNat + y.toNat < 2 ^ w

namespace Shard

/-- The size of the entry under `key`, 0 where there is none. -/
def sizeAt (s : Shard κ ν w) (key : κ) : Nat :=
  ((s.entries.get? key).map fun e => e.size.toNat).getD 0

/-- The total is within the capacity, or there is one entry and it alone is larger. -/
def Bounded (s : Shard κ ν w) : Prop :=
  s.sizeCurrent ≤ s.sizeCapacity ∨ ∃ e, s.entries.values = [e] ∧ s.sizeCapacity < e.size

/-- The representation invariant. -/
structure Sound (s : Shard κ ν w) : Prop where
  linked : s.Linked nowhere
  size : s.sizeCurrent.toNat = s.totalSize
  bounded : s.Bounded

/-- The invariant while `key` is being inserted: its old entry is in the table, but neither
in a bucket nor in the total. -/
structure Evicting (key : κ) (s : Shard κ ν w) : Prop where
  linked : s.Linked (key == ·)
  size : s.sizeCurrent.toNat + s.sizeAt key = s.totalSize

/-- An entry of size `x` can be inserted without a sum leaving the word. -/
structure Admits (s : Shard κ ν w) (x : BitVec w) : Prop where
  capacity : s.sizeCapacity.toNat + x.toNat < 2 ^ w
  stored : ∀ y ∈ s.sizes, y.toNat + x.toNat < 2 ^ w

theorem sound_new (cap : BitVec w) : (new cap : Shard κ ν w).Sound where
  linked := linked_new _ cap
  size := by simp [new, totalSize]
  bounded := .inl (Nat.zero_le cap.toNat)

variable {checks : Bool} {s t u : Shard κ ν w} {key : κ} {entry : Entry ν w}

theorem sound_clear (s : Shard κ ν w) : s.clear.Sound where
  linked := linked_clear s
  size := by simp [clear, totalSize]
  bounded := .inl (Nat.zero_le s.sizeCapacity.toNat)

omit [Hashable κ] in
theorem le_totalSize {e : Entry ν w} (h : e ∈ s.entries.values) :
    e.size.toNat ≤ s.totalSize :=
  List.single_le_sum (fun _ _ => Nat.zero_le _) _ (List.mem_map_of_mem h)

variable [EquivBEq κ] [LawfulHashable κ]

theorem sizeAt_le (s : Shard κ ν w) (key : κ) : s.sizeAt key ≤ s.totalSize := by
  cases h : s.entries.get? key with
  | none => simp [sizeAt, h]
  | some e => simpa [sizeAt, h] using le_totalSize (HashMap.mem_values_of_get? h)

/-! ## One eviction -/

namespace Evicts

variable {p : CachePolicy} {v : EvictedEntry κ ν w}

theorem totalSize_eq (h : s.Evicts p v t) : s.totalSize = v.entry.size.toNat + t.totalSize := by
  have := (h.perm_contents.map (·.2.1.toNat)).sum_eq
  simpa [Shard.totalSize_eq, Entry.content] using this

theorem evicting (h : s.Evicts p v t) (hs : s.Evicting key) :
    t.Evicting key ∧ t.sizeCurrent.toNat + v.entry.size.toNat = s.sizeCurrent.toNat := by
  have hout : (s.buckets p).list.contains key = false := by
    rw [← Bool.not_eq_true, hs.linked.mem]
    simp
  have hat : t.sizeAt key = s.sizeAt key := by rw [sizeAt, h.get?_eq hout, sizeAt]
  have htotal := h.totalSize_eq
  have hsize := hs.size
  have hle := sizeAt_le t key
  have hsub : t.sizeCurrent.toNat = s.sizeCurrent.toNat - v.entry.size.toNat := by
    rw [h.sizeCurrent, Word.toNat_sub_fits (by omega)]
  exact ⟨⟨h.linked hs.linked, by omega⟩, by omega⟩

end Evicts

variable {needed : BitVec w}

/-- Evictions take exactly the sizes of their victims from the total. -/
theorem Evictions.evicting {vs : List (Eviction κ ν w)} (h : Evictions checks needed s vs t)
    (hs : s.Evicting key) : t.Evicting key ∧
      t.sizeCurrent.toNat + (vs.map fun v => v.victim.entry.size.toNat).sum =
        s.sizeCurrent.toNat := by
  induction h with
  | nil => exact ⟨hs, by simp⟩
  | cons _ _ call _ ih =>
    obtain ⟨he, -⟩ := evicts_of_call hs.linked call
    obtain ⟨hs₁, hsize⟩ := he.evicting hs
    obtain ⟨ht, hsum⟩ := ih hs₁
    refine ⟨ht, ?_⟩
    simp only [List.map_cons, List.sum_cons]
    omega

/-- While a key is being inserted, a call on a bucket with keys evicts. -/
theorem Evicting.exists_call (hs : s.Evicting key) (checks : Bool) {p : CachePolicy}
    (hne : 0 < (s.buckets p).len) :
    ∃ v t, s.Evicts p v t ∧ s.evictFromBucket checks p = .ok (some v) t := by
  obtain ⟨v, t, he, heq⟩ := exists_evicts hs.linked checks hne
  have hle : v.entry.size.toNat ≤ s.sizeCurrent.toNat := by
    have := (he.evicting hs).2
    omega
  refine ⟨v, t, he, ?_⟩
  rw [heq, Word.sub_fits checks hle, ← he.sizeCurrent]
  rfl

/-- With every bucket empty the key being inserted is the only one left in the table. -/
theorem Evicting.alone (hs : s.Evicting key) (hempty : ∀ p, (s.buckets p).len = 0)
    (entry : Entry ν w) :
    (s.entries.put key entry).2.values = [entry] ∧ s.sizeCurrent = 0 := by
  have hall : ∀ kv ∈ s.entries.toList, (key == kv.1) = true := fun kv hkv =>
    hs.linked.out_of_empty hempty (HashMap.get?_of_mem hkv)
  have hvalues := HashMap.values_of_forall hall
  constructor
  · have hput := HashMap.perm_put s.entries key entry
    rw [hvalues] at hput
    have := (List.perm_append_left_iff _).mp (hput.trans (List.perm_append_singleton _ _).symm)
    exact List.perm_singleton.mp this
  · have hsize := hs.size
    have htotal : s.totalSize = s.sizeAt key := by
      rw [totalSize, hvalues, sizeAt]
      cases s.entries.get? key <;> simp
    exact BitVec.eq_of_toNat_eq (by simp; omega)

/-! ## The eviction loop returns -/

/-- What the loop keeps besides `Evicting`: the sums it makes stay in the word. -/
structure Room (key : κ) (needed : BitVec w) (stats : EvictionStats w) (s : Shard κ ν w) :
    Prop where
  evicting : s.Evicting key
  needed : s.sizeCurrent.toNat + needed.toNat < 2 ^ w
  stats : stats.size.toNat + s.sizeCurrent.toNat < 2 ^ w

variable {stats : EvictionStats w}

theorem Room.evicts (hs : s.Room key needed stats) {p : CachePolicy} {v : EvictedEntry κ ν w}
    (h : s.Evicts p v t) :
    t.Room key needed ⟨stats.count + 1, stats.size + v.entry.size⟩ ∧
      stats.size.toNat + v.entry.size.toNat < 2 ^ w := by
  obtain ⟨ht, hsum⟩ := h.evicting hs.evicting
  have hneeded := hs.needed
  have hstats := hs.stats
  have hfits : stats.size.toNat + v.entry.size.toNat < 2 ^ w := by omega
  have hadd := Word.toNat_add_fits hfits
  exact ⟨⟨ht, by omega, by simp only [hadd]; omega⟩, hfits⟩

theorem evictWhile_returns (checks : Bool) (p : CachePolicy) (rounds : Nat)
    (evicted : List (EvictedEntry κ ν w)) (hs : s.Room key needed stats) : ∃ stats' evicted' t,
      evictWhile checks needed p rounds s stats evicted = .ok (stats', evicted') t ∧
        t.Room key needed stats' := by
  induction rounds generalizing s stats evicted with
  | zero =>
    rw [evictWhile, Word.add_fits checks hs.needed]
    simp only [Outcome.check_some, Outcome.bind_ok]
    split <;> exact ⟨_, _, _, rfl, hs⟩
  | succ rounds ih =>
    rw [evictWhile, Word.add_fits checks hs.needed]
    simp only [Outcome.check_some, Outcome.bind_ok]
    split
    · by_cases h0 : (s.buckets p).len = 0
      · have hempty : (s.buckets p).isEmpty = true := PolicyBucket.isEmpty_iff.mpr h0
        have hnone : s.evictFromBucket checks p = .ok none s := by simp [evictFromBucket, hempty]
        rw [hnone]
        exact ⟨_, _, _, rfl, hs⟩
      · obtain ⟨v, t, he, hcall⟩ := hs.evicting.exists_call checks (Nat.pos_of_ne_zero h0)
        obtain ⟨ht, hfits⟩ := hs.evicts he
        rw [hcall]
        simp only [Outcome.bind_ok, Word.add_fits checks hfits, Outcome.check_some]
        exact ih _ ht
    · exact ⟨_, _, _, rfl, hs⟩

theorem evictBuckets_returns (checks : Bool) (ps : List CachePolicy)
    (evicted : List (EvictedEntry κ ν w)) (hs : s.Room key needed stats) : ∃ stats' evicted' t,
      evictBuckets checks needed ps s stats evicted = .ok (stats', evicted') t ∧
        t.Room key needed stats' := by
  induction ps generalizing s stats evicted with
  | nil => exact ⟨_, _, _, rfl, hs⟩
  | cons p ps ih =>
    obtain ⟨stats₁, evicted₁, s₁, heq, h₁⟩ :=
      evictWhile_returns checks p s.entries.len evicted hs
    rw [evictBuckets, heq]
    simp only [Outcome.bind_ok, Word.add_fits checks h₁.needed, Outcome.check_some]
    split
    · exact ⟨_, _, _, rfl, h₁⟩
    · exact ih _ h₁

/-! ## Insertion -/

/-- A key that left its bucket is short in an exact total. -/
theorem detach_evicting {d : Shard κ ν w} (hl : s.Linked nowhere)
    (hsize : s.sizeCurrent.toNat = s.totalSize) (h : s.detach checks key = .ok () d) :
    d.Evicting key ∧ d.sizeCurrent.toNat = s.sizeCurrent.toNat - s.sizeAt key := by
  obtain ⟨hd, he, -, hcur⟩ := detach_cases hl h
  have hle := sizeAt_le s key
  have hat : d.sizeAt key = s.sizeAt key := by rw [sizeAt, he, sizeAt]
  have htotal : d.totalSize = s.totalSize := by rw [totalSize, he, totalSize]
  have hsub : d.sizeCurrent.toNat = s.sizeCurrent.toNat - s.sizeAt key := by
    rw [hcur]
    cases hget : s.entries.get? key with
    | none => simp [sizeAt, hget]
    | some old =>
      have hold : s.sizeAt key = old.size.toNat := by simp [sizeAt, hget]
      rw [hold, Option.map_some, Option.getD_some, Word.toNat_sub_fits (by omega)]
  exact ⟨⟨hd, by omega⟩, hsub⟩

theorem detach_returns (hs : s.Sound) (checks : Bool) (key : κ) :
    ∃ d, s.detach checks key = .ok () d ∧ d.Evicting key ∧ d.entries = s.entries ∧
      d.sizeCapacity = s.sizeCapacity ∧ d.sizeCurrent.toNat ≤ s.sizeCurrent.toNat := by
  have hreturns : ∃ d, s.detach checks key = .ok () d := by
    cases hget : s.entries.get? key with
    | none => exact ⟨s, by simp [detach, hget]⟩
    | some old =>
      have hle := le_totalSize (HashMap.mem_values_of_get? hget)
      have hsize := hs.size
      have hfits : old.size.toNat ≤ s.sizeCurrent.toNat := by omega
      simp [detach, hget, release, setBucket, Word.sub_fits checks hfits]
  obtain ⟨d, hdet⟩ := hreturns
  obtain ⟨-, he, hcap, -⟩ := detach_cases hs.linked hdet
  obtain ⟨hd, hsub⟩ := detach_evicting hs.linked hs.size hdet
  exact ⟨d, hdet, hd, he, hcap, by omega⟩

/-- The total of the sizes once the new entry is stored. -/
theorem Evicting.totalSize_put (ht : t.Evicting key)
    (he : u.entries = (t.entries.put key entry).2) :
    u.totalSize = t.sizeCurrent.toNat + entry.size.toNat := by
  have hput := ((HashMap.perm_put t.entries key entry).map fun e => e.size.toNat).sum_eq
  rw [← he] at hput
  have hsize := ht.size
  have hat : t.sizeAt key = ((t.entries.get? key).toList.map fun e => e.size.toNat).sum := by
    cases h : t.entries.get? key <;> simp [sizeAt, h]
  simp only [List.map_append, List.sum_append, List.map_cons, List.sum_cons, ← hat] at hput
  simp only [totalSize] at *
  omega

/-- Storing the new entry completes the invariant. -/
theorem Evicting.store (ht : t.Evicting key)
    (hfits : t.sizeCurrent.toNat + entry.size.toNat < 2 ^ w)
    (hexit : t.Fits checks entry.size ∨ ∀ p, (t.buckets p).len = 0)
    (he : u.entries = (t.entries.put key entry).2)
    (hb : u.buckets =
      Function.update t.buckets entry.policy ((t.buckets entry.policy).insert key))
    (hc : u.sizeCurrent = t.sizeCurrent + entry.size) (hcap : u.sizeCapacity = t.sizeCapacity) :
    u.Sound ∧ (entry.size ≤ u.sizeCapacity → u.sizeCurrent ≤ u.sizeCapacity) := by
  have hsize : u.sizeCurrent.toNat = u.totalSize := by
    rw [hc, Word.toNat_add_fits hfits, ht.totalSize_put he]
  have hbound : u.Bounded ∧ (entry.size ≤ u.sizeCapacity → u.sizeCurrent ≤ u.sizeCapacity) := by
    rcases hexit with ⟨total, hadd, hle⟩ | hempty
    · have : u.sizeCurrent ≤ u.sizeCapacity := by
        rw [hc, ← Word.eq_add hadd, hcap]
        exact hle
      exact ⟨.inl this, fun _ => this⟩
    · obtain ⟨hvalues, hzero⟩ := ht.alone hempty entry
      have hcur : u.sizeCurrent = entry.size := by rw [hc, hzero]; simp
      rw [← he] at hvalues
      refine ⟨?_, fun h => hcur ▸ h⟩
      by_cases h : entry.size ≤ u.sizeCapacity
      · exact .inl (hcur ▸ h)
      · exact .inr ⟨entry, hvalues, by simpa using h⟩
  exact ⟨⟨ht.linked.store entry u he hb, hsize, hbound.1⟩, hbound.2⟩

omit [EquivBEq κ] [LawfulHashable κ] in
theorem Sound.fits (hs : s.Sound) {x : BitVec w} (hx : s.Admits x) :
    s.sizeCurrent.toNat + x.toNat < 2 ^ w := by
  rcases hs.bounded with hle | ⟨e, he, -⟩
  · have := hx.capacity
    have : s.sizeCurrent.toNat ≤ s.sizeCapacity.toNat := hle
    omega
  · have hsize := hs.size
    have := hx.stored e.size (by simp [sizes, he])
    simp only [totalSize, he, List.map_cons, List.map_nil, List.sum_cons, List.sum_nil] at hsize
    omega

/-- An insertion whose total stays in the word returns and keeps the invariant; an entry that is
not oversized leaves the shard within its capacity. -/
theorem insert_returns_of_fits (hs : s.Sound) (checks : Bool) (key : κ)
    (hfits : s.sizeCurrent.toNat - s.sizeAt key + entry.size.toNat < 2 ^ w) :
    ∃ old stats evicted u, s.insert checks key entry = .ok (old, stats, evicted) u ∧ u.Sound ∧
      (entry.size ≤ u.sizeCapacity → u.sizeCurrent ≤ u.sizeCapacity) := by
  obtain ⟨d, hdet, hd, -, -, -⟩ := detach_returns hs checks key
  obtain ⟨-, hcur⟩ := detach_evicting hs.linked hs.size hdet
  have hroom : d.Room key entry.size ⟨0, 0⟩ :=
    ⟨hd, by omega, by simpa using d.sizeCurrent.isLt⟩
  obtain ⟨stats, evicted, t, hev, ht⟩ :=
    evictBuckets_returns checks CachePolicy.evictionOrder [] hroom
  have hev' : d.evictUntilSpace checks entry.size = .ok (stats, evicted) t := hev
  obtain ⟨vs, -, -, -, hexit⟩ := evictUntilSpace_cases hd.linked hev'
  have hadd := Word.add_fits checks ht.needed
  refine ⟨(t.entries.put key entry).1, stats, evicted,
    { entries := (t.entries.put key entry).2
      buckets := Function.update t.buckets entry.policy
        ((t.buckets entry.policy).insert key)
      sizeCurrent := t.sizeCurrent + entry.size
      sizeCapacity := t.sizeCapacity }, ?_, ht.evicting.store ht.needed hexit rfl rfl rfl rfl⟩
  simp [insert, hdet, hev', setBucket, hadd]

/-- An insertion of a size that fits. -/
theorem insert_returns (hs : s.Sound) (checks : Bool) (key : κ) (hx : s.Admits entry.size) :
    ∃ old stats evicted u, s.insert checks key entry = .ok (old, stats, evicted) u ∧ u.Sound ∧
      (entry.size ≤ u.sizeCapacity → u.sizeCurrent ≤ u.sizeCapacity) := by
  have hfits := hs.fits hx
  exact insert_returns_of_fits hs checks key (by omega)

/-! ## Lookups and removal -/

omit [EquivBEq κ] [LawfulHashable κ] in
/-- The invariant does not depend on access statistics. -/
theorem Sound.of_contents (hs : s.Sound) (hk : ∀ k, t.contentOf k = s.contentOf k)
    (hc : t.contents = s.contents) (hb : t.buckets = s.buckets)
    (hcur : t.sizeCurrent = s.sizeCurrent) (hcap : t.sizeCapacity = s.sizeCapacity) : t.Sound := by
  refine ⟨hs.linked.of_content hk hb, ?_, ?_⟩
  · rw [hcur, totalSize_eq, hc, ← totalSize_eq, hs.size]
  · rcases hs.bounded with hle | ⟨e, he, hlt⟩
    · exact .inl (by rwa [hcur, hcap])
    · rw [contents, contents, he] at hc
      obtain ⟨e', he', hce⟩ := List.map_eq_singleton_iff.mp hc
      exact .inr ⟨e', he', by rwa [hcap, Entry.size_eq hce]⟩

theorem Sound.access (hs : s.Sound) (key : κ) (clockBit : Bool) (frequency : UInt8) :
    ({ s with entries := s.entries.modify key fun e => { e with clockBit, frequency } } :
      Shard κ ν w).Sound := by
  have hf : ∀ e : Entry ν w, ({ e with clockBit, frequency } : Entry ν w).content = e.content :=
    fun _ => rfl
  exact hs.of_contents (contentOf_modify hf s key) (HashMap.map_values_modify hf _ _) rfl rfl rfl

omit [EquivBEq κ] [LawfulHashable κ] in
theorem getHash_exact (hs : s.sizeCurrent.toNat = s.totalSize) (hash : UInt64)
    (equals : κ → Bool) :
    (s.getHash hash equals).2.sizeCurrent.toNat = (s.getHash hash equals).2.totalSize := by
  rw [(getHash_frame s hash equals).2.1, totalSize_eq, contents_getHash, ← totalSize_eq, hs]

theorem sound_getHash (hs : s.Sound) (hash : UInt64) (equals : κ → Bool) :
    (s.getHash hash equals).2.Sound := by
  obtain ⟨hb, hcur, hcap⟩ := getHash_frame s hash equals
  exact hs.of_contents (contentOf_getHash s hash equals) (contents_getHash s hash equals) hb hcur
    hcap

/-- A removal keeps an exact total exact. -/
theorem remove_exact {e : Entry ν w} (hs : s.sizeCurrent.toNat = s.totalSize)
    (hget : s.entries.get? key = some e) (he : u.entries = s.entries.erase key)
    (hsub : Word.sub checks s.sizeCurrent e.size = some u.sizeCurrent) :
    u.sizeCurrent.toNat + e.size.toNat = s.sizeCurrent.toNat ∧
      u.sizeCurrent.toNat = u.totalSize := by
  have htotal := ((contents_erase hget he).map (·.2.1.toNat)).sum_eq
  rw [List.map_cons, List.sum_cons, ← totalSize_eq, ← totalSize_eq] at htotal
  simp only [Entry.content] at htotal
  have hfits : e.size.toNat ≤ s.sizeCurrent.toNat := by omega
  rw [Word.eq_sub hsub, Word.toNat_sub_fits hfits]
  omega

/-- A removal from a sound shard returns. -/
theorem remove_returns (hs : s.Sound) (checks : Bool) (key : κ) :
    ∃ r u, s.remove checks key = .ok r u ∧ u.Sound ∧ u.sizeCapacity = s.sizeCapacity ∧
      ∃ c, s.contents.Perm (c ++ u.contents) := by
  have hreturns : ∃ r u, s.remove checks key = .ok r u := by
    cases hget : s.entries.getEntry? key with
    | none => exact ⟨none, s, by simp [remove, HashMap.removeEntry, hget]⟩
    | some kv =>
      have hvalue : s.entries.get? key = some kv.2 := by simp [HashMap.get?, hget]
      have hle := le_totalSize (HashMap.mem_values_of_get? hvalue)
      have hsize := hs.size
      have hfits : kv.2.size.toNat ≤ s.sizeCurrent.toNat := by omega
      simp [remove, HashMap.removeEntry, hget, release, setBucket, Word.sub_fits checks hfits]
  obtain ⟨r, u, hr⟩ := hreturns
  refine ⟨r, u, hr, ?_⟩
  rcases remove_cases hr with ⟨-, rfl, -⟩ | ⟨k₀, e, -, hk, hget, he, hb, hsub, hcap⟩
  · exact ⟨hs, rfl, [], .refl _⟩
  · have hperm := contents_erase hget he
    obtain ⟨hsum, hcur⟩ := remove_exact hs.size hget he hsub
    refine ⟨⟨remove_linked hs.linked hk hget he hb, hcur, ?_⟩, hcap, [e.content], hperm⟩
    rcases hs.bounded with hle | ⟨e', he', -⟩
    · have hle' : s.sizeCurrent.toNat ≤ s.sizeCapacity.toNat := hle
      left
      show u.sizeCurrent.toNat ≤ u.sizeCapacity.toNat
      rw [hcap]
      omega
    · -- the only entry was removed
      have hlen : u.contents = [] := by
        have := hperm.length_eq
        simp only [contents, he', List.map_cons, List.map_nil, List.length_cons,
          List.length_nil] at this
        exact List.eq_nil_of_length_eq_zero (by simpa [contents] using this)
      left
      show u.sizeCurrent.toNat ≤ u.sizeCapacity.toNat
      rw [hcur, totalSize_eq, hlen]
      simp

/-! ## Runs -/

/-- A call whose sizes fit returns and keeps the invariant. -/
theorem step_returns (hs : s.Sound) (checks : Bool) {op : ShardOp κ ν w}
    (hx : ∀ x ∈ op.sizes, s.Admits x) :
    ∃ r t, step checks s op = .ok r t ∧ t.Sound ∧ t.sizeCapacity = s.sizeCapacity ∧
      ∀ y ∈ t.sizes, y ∈ op.sizes ∨ y ∈ s.sizes := by
  cases op with
  | insert key entry =>
    obtain ⟨old, stats, evicted, t, heq, ht, -⟩ :=
      insert_returns hs checks key (hx entry.size (by simp [ShardOp.sizes]))
    obtain ⟨d, u, vs, hsteps, -⟩ := insert_cases hs.linked heq
    refine ⟨.inserted old stats evicted, t, by simp [step, heq], ht,
      hsteps.sizeCapacity_eq hs.linked, fun y hy => ?_⟩
    rw [sizes_eq] at hy
    obtain ⟨c, hc, rfl⟩ := List.mem_map.mp hy
    have hmem := (hsteps.perm_contents hs.linked).subset
      (List.mem_append_right _ (List.mem_append_right _ hc))
    rcases List.mem_cons.mp hmem with rfl | hold
    · exact .inl (by simp [ShardOp.sizes, Entry.content])
    · exact .inr (sizes_eq s ▸ List.mem_map_of_mem hold)
  | get hash equals =>
    refine ⟨_, _, rfl, sound_getHash hs hash equals, (getHash_frame s hash equals).2.2,
      fun y hy => .inr ?_⟩
    have hsizes : (s.getHash hash equals).2.sizes = s.sizes := by
      rw [sizes_eq, contents_getHash, ← sizes_eq]
    exact hsizes ▸ hy
  | remove key =>
    obtain ⟨r, t, heq, ht, hcap, c, hperm⟩ := remove_returns hs checks key
    refine ⟨.removed r, t, by simp [step, heq], ht, hcap, fun y hy => .inr ?_⟩
    rw [sizes_eq] at hy ⊢
    obtain ⟨c', hc', rfl⟩ := List.mem_map.mp hy
    exact List.mem_map_of_mem (hperm.symm.subset (List.mem_append_right _ hc'))
  | drain => exact ⟨_, _, rfl, sound_clear s, rfl, by simp [sizes, clear]⟩
  | clear => exact ⟨_, _, rfl, sound_clear s, rfl, by simp [sizes, clear]⟩

/-- Every run from an empty shard whose sizes fit returns and ends in a sound shard, where the
sizes of the calls still to come fit with those stored. -/
theorem run_fits (checks : Bool) {cap : BitVec w} {ops later : List (ShardOp κ ν w)}
    (hfit : SizesFit cap (ops ++ later)) : ∃ rs s,
      Outcome.run (step checks) (new cap) ops = .ok rs s ∧ s.Sound ∧ s.sizeCapacity = cap ∧
        ∀ y ∈ s.sizes, ∀ x ∈ later.flatMap ShardOp.sizes, y.toNat + x.toNat < 2 ^ w := by
  let P (s : Shard κ ν w) (ops : List (ShardOp κ ν w)) : Prop :=
    s.Sound ∧ s.sizeCapacity = cap ∧ SizesFit cap (ops ++ later) ∧
      ∀ y ∈ s.sizes, ∀ x ∈ (ops ++ later).flatMap ShardOp.sizes, y.toNat + x.toNat < 2 ^ w
  have hstep : ∀ s op ops, P s (op :: ops) → ∃ r t, step checks s op = .ok r t ∧ P t ops := by
    rintro s op ops ⟨hs, hcap, ⟨hc, hp⟩, hstored⟩
    rw [List.cons_append, List.flatMap_cons] at hc hp hstored
    obtain ⟨-, hp', hcross⟩ := List.pairwise_append.mp hp
    have hx : ∀ x ∈ op.sizes, s.Admits x := fun x hx =>
      ⟨hcap ▸ hc x (List.mem_append_left _ hx),
        fun y hy => hstored y hy x (List.mem_append_left _ hx)⟩
    obtain ⟨r, t, heq, ht, htcap, hsizes⟩ := step_returns hs checks hx
    refine ⟨r, t, heq, ht, htcap.trans hcap,
      ⟨fun x hx => hc x (List.mem_append_right _ hx), hp'⟩, fun y hy x hx => ?_⟩
    rcases hsizes y hy with hnew | hold
    · exact hcross y hnew x hx
    · exact hstored y hold x (List.mem_append_right _ hx)
  have hinit : P (new cap) ops := ⟨sound_new cap, rfl, hfit, by simp [new, sizes]⟩
  obtain ⟨rs, s, heq, hs, hcap, -, hstored⟩ := Outcome.run_returns hstep hinit
  exact ⟨rs, s, heq, hs, hcap, hstored⟩

theorem run_returns (checks : Bool) {cap : BitVec w} {ops : List (ShardOp κ ν w)}
    (hfit : SizesFit cap ops) : ∃ rs s,
      Outcome.run (step checks) (new cap) ops = .ok rs s ∧ s.Sound ∧ s.sizeCapacity = cap := by
  have hfit' : SizesFit cap (ops ++ []) := by rwa [List.append_nil]
  obtain ⟨rs, s, heq, hs, hcap, -⟩ := run_fits checks hfit'
  exact ⟨rs, s, heq, hs, hcap⟩

/-- Every run of calls whose sizes fit returns, also with overflow checks, so that nothing
underflows. At its end table and buckets hold the same keys, the total is the exact sum of
the sizes and every hand is on its list; and in any insertion that follows,
`evict_from_bucket` returns `None` only for an empty bucket. -/
theorem representation_invariant (checks : Bool) (cap : BitVec w) (ops : List (ShardOp κ ν w))
    (hfit : SizesFit cap ops) :
    ∃ rs s, Outcome.run (step checks) (new cap) ops = .ok rs s ∧
      (∀ p k, (s.buckets p).list.contains k = true ↔
        ∃ e, s.entries.get? k = some e ∧ e.policy = p) ∧
      (∀ p k, (s.buckets p).list.contains k = true →
        (s.buckets p).list.keys.countP (k == ·) = 1 ∧
          ∀ q, q ≠ p → (s.buckets q).list.contains k = false) ∧
      s.sizeCurrent.toNat = (s.entries.values.map fun e => e.size.toNat).sum ∧
      (∀ p, ((s.buckets p).len = 0 → (s.buckets p).hand = 0) ∧
        (0 < (s.buckets p).len → (s.buckets p).hand < (s.buckets p).len)) ∧
      ∀ (key : κ) (entry : Entry ν w) (d : Shard κ ν w) (vs : List (Eviction κ ν w))
        (t u : Shard κ ν w) (p : CachePolicy), s.detach checks key = .ok () d →
        Evictions checks entry.size d vs t → t.evictFromBucket checks p = .ok none u →
        (t.buckets p).len = 0 := by
  obtain ⟨rs, s, hrun, hs, -⟩ := run_returns checks hfit
  have hmem : ∀ p k, (s.buckets p).list.contains k = true ↔
      ∃ e, s.entries.get? k = some e ∧ e.policy = p := fun p k => by
    rw [hs.linked.mem, policyOf_eq_some]
    simp [nowhere]
  refine ⟨rs, s, hrun, hmem, fun p k hk => ?_, hs.size, hs.linked.hand, ?_⟩
  · refine ⟨IndexSet.countP_eq_one hk, fun q hq => ?_⟩
    by_contra hkq
    obtain ⟨e, he, rfl⟩ := (hmem p k).mp hk
    obtain ⟨e', he', rfl⟩ := (hmem q k).mp (by simpa using hkq)
    rw [he] at he'
    cases he'
    exact hq rfl
  · intro key entry d vs t u p hdet hev hnone
    have hl := hev.linked (detach_cases hs.linked hdet).1
    rcases evictFromBucket_cases hl hnone with ⟨-, -, h0⟩ | ⟨v, hv, -⟩
    · exact h0
    · cases hv

/-- A replacement that changes policy and size, lookups, an eviction, removals and a drain. -/
def mixed : List (ShardOp Nat Unit 8) :=
  [.insert 0 (.new () 2 .volatile), .drain, .insert 1 (.new () 3 .standard),
    .get (hash 1) (· == 1), .insert 0 (.new () 4 .critical), .insert 0 (.new () 1 .standard),
    .remove 1, .insert 1 (.new () 3 .volatile)]

theorem representation_invariant_mixed :
    ∃ rs s, Outcome.run (step true) (new 5) mixed = .ok rs s ∧
      s.sizeCurrent.toNat = (s.entries.values.map fun e => e.size.toNat).sum := by
  obtain ⟨rs, s, hrun, -, -, hsize, -⟩ :=
    representation_invariant true 5 mixed ⟨by decide, by decide⟩
  exact ⟨rs, s, hrun, hsize⟩

end Shard

end PriorityLfu
