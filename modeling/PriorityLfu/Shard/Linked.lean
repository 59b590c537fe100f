import PriorityLfu.Shard.Sweep

/-!
# The entry table and the buckets agree

`Linked out s` is the structural half of the shard's representation invariant: a key is in
the bucket of policy `p` exactly when the table has an entry of policy `p` for it, except
for the keys in `out`, which are in no bucket. `insert` takes the key it inserts out of its
bucket while the other entries are evicted; everywhere else `out` is empty.

Sizes play no part here: the invariant holds whatever the arithmetic does, and one eviction
is described completely by it (`Evicts`).
-/
namespace PriorityLfu
open Keyed

variable {κ ν : Type} {w : Nat} [BEq κ] [Hashable κ]

namespace Shard

/-- The value, the size and the policy stored under `k`. -/
def contentOf (s : Shard κ ν w) (k : κ) : Option (ν × BitVec w × CachePolicy) :=
  (s.entries.get? k).map Entry.content

/-- The policy of the entry stored under `k`. -/
def policyOf (s : Shard κ ν w) (k : κ) : Option CachePolicy := (s.contentOf k).map (·.2.2)

/-- The contents of all entries, in table order. -/
def contents (s : Shard κ ν w) : List (ν × BitVec w × CachePolicy) :=
  s.entries.values.map Entry.content

structure Linked (out : κ → Bool) (s : Shard κ ν w) : Prop where
  mem : ∀ p k, (s.buckets p).list.contains k = true ↔ s.policyOf k = some p ∧ out k = false
  hand : ∀ p, (s.buckets p).HandOk

/-- No key is out of its bucket. -/
def nowhere : κ → Bool := fun _ => false

theorem policyOf_eq_some {s : Shard κ ν w} {k : κ} {p : CachePolicy} :
    s.policyOf k = some p ↔ ∃ e, s.entries.get? k = some e ∧ e.policy = p := by
  simp [policyOf, contentOf, Entry.content]

theorem contentOf_of_get? {s : Shard κ ν w} {k : κ} {e : Entry ν w}
    (h : s.entries.get? k = some e) : s.contentOf k = some e.content := by simp [contentOf, h]

theorem policyOf_of_get? {s : Shard κ ν w} {k : κ} {e : Entry ν w}
    (h : s.entries.get? k = some e) : s.policyOf k = some e.policy :=
  policyOf_eq_some.mpr ⟨e, h, rfl⟩

@[simp] theorem contentOf_eq_none {s : Shard κ ν w} {k : κ} :
    s.contentOf k = none ↔ s.entries.get? k = none := by simp [contentOf]

theorem linked_new (out : κ → Bool) (cap : BitVec w) : (new cap : Shard κ ν w).Linked out where
  mem p k := by simp [new, policyOf, contentOf]
  hand p := PolicyBucket.handOk_new

/-- A key that is not out keeps the bucket of its policy from being empty. -/
theorem Linked.bucket_nonempty {out : κ → Bool} {s : Shard κ ν w} (hl : s.Linked out) {k : κ}
    {p : CachePolicy} (hk : s.policyOf k = some p) (ho : out k = false) :
    0 < (s.buckets p).len := by
  obtain ⟨a, ha, -⟩ := IndexSet.contains_iff.mp ((hl.mem p k).mpr ⟨hk, ho⟩)
  exact List.length_pos_of_mem ha

/-- With every bucket empty only keys that are out have entries. -/
theorem Linked.out_of_empty {out : κ → Bool} {s : Shard κ ν w} (hl : s.Linked out)
    (hempty : ∀ p, (s.buckets p).len = 0) {k : κ} {e : Entry ν w}
    (h : s.entries.get? k = some e) : out k = true := by
  by_contra ho
  have := hl.bucket_nonempty (policyOf_of_get? h) (by simpa using ho)
  have := hempty e.policy
  omega

/-- The invariant reads keys and contents only. -/
theorem Linked.of_content {out : κ → Bool} {s t : Shard κ ν w} (h : s.Linked out)
    (hc : ∀ k, t.contentOf k = s.contentOf k) (hb : t.buckets = s.buckets) : t.Linked out where
  mem p k := by rw [hb, policyOf, hc]; exact h.mem p k
  hand p := by rw [hb]; exact h.hand p

theorem Linked.setHand {out : κ → Bool} {s : Shard κ ν w} (h : s.Linked out) {p : CachePolicy}
    {hand : Nat} (hh : hand < (s.buckets p).len) : (s.setHand p hand).Linked out where
  mem q k := by
    refine Iff.trans ?_ (h.mem q k)
    by_cases hq : q = p
    · subst hq; simp [Shard.setHand, setBucket]
    · simp [Shard.setHand, setBucket, hq]
  hand q := by
    by_cases hq : q = p
    · subst hq
      simp only [Shard.setHand, setBucket, Function.update_self]
      exact ⟨fun h0 => absurd hh (by simp only [PolicyBucket.len] at *; omega), fun _ => hh⟩
    · simpa [Shard.setHand, setBucket, hq] using h.hand q

variable [EquivBEq κ] [LawfulHashable κ]

theorem contentOf_congr {s : Shard κ ν w} {k k' : κ} (h : (k == k') = true) :
    s.contentOf k = s.contentOf k' := by rw [contentOf, HashMap.get?_congr h, contentOf]

theorem policyOf_congr {s : Shard κ ν w} {k k' : κ} (h : (k == k') = true) :
    s.policyOf k = s.policyOf k' := by rw [policyOf, contentOf_congr h, policyOf]

/-! ## The three ways in which a key enters or leaves -/

/-- A key leaves the table and its bucket together. -/
theorem Linked.takeOut {out : κ → Bool} {s : Shard κ ν w} (h : s.Linked out) {key : κ}
    {p : CachePolicy} (hp : s.policyOf key = some p) (t : Shard κ ν w)
    (he : t.entries = s.entries.erase key)
    (hb : t.buckets = Function.update s.buckets p ((s.buckets p).remove key).2) :
    t.Linked out := by
  have hget : ∀ k, t.policyOf k = if key == k then none else s.policyOf k := by
    intro k
    simp only [policyOf, contentOf, he, HashMap.get?_erase]
    split <;> rfl
  constructor
  · intro q k
    rw [hb, hget]
    by_cases hq : q = p
    · subst hq
      rw [Function.update_self, PolicyBucket.contains_remove, Bool.and_eq_true, h.mem]
      cases key == k <;> simp
    · rw [Function.update_of_ne hq, h.mem]
      by_cases hk : key == k
      · have : s.policyOf k ≠ some q := by
          rw [← policyOf_congr hk, hp]
          simpa using Ne.symm hq
        simp [hk, this]
      · simp [hk]
  · intro q
    rw [hb]
    by_cases hq : q = p
    · subst hq; rw [Function.update_self]; exact PolicyBucket.handOk_remove (h.hand q)
    · rw [Function.update_of_ne hq]; exact h.hand q

/-- A key leaves its bucket and stays in the table. -/
theorem Linked.unbucket {s : Shard κ ν w} (h : s.Linked nowhere) {key : κ} {p : CachePolicy}
    (hp : s.policyOf key = some p) (t : Shard κ ν w) (he : t.entries = s.entries)
    (hb : t.buckets = Function.update s.buckets p ((s.buckets p).remove key).2) :
    t.Linked (key == ·) := by
  have hget : ∀ k, t.policyOf k = s.policyOf k := fun k => by simp [policyOf, contentOf, he]
  constructor
  · intro q k
    rw [hb, hget]
    by_cases hq : q = p
    · subst hq
      rw [Function.update_self, PolicyBucket.contains_remove, Bool.and_eq_true, h.mem]
      simp [nowhere]
    · rw [Function.update_of_ne hq, h.mem]
      by_cases hk : key == k
      · have : s.policyOf k ≠ some q := by
          rw [← policyOf_congr hk, hp]
          simpa using Ne.symm hq
        simp [this]
      · simp [hk, nowhere]
  · intro q
    rw [hb]
    by_cases hq : q = p
    · subst hq; rw [Function.update_self]; exact PolicyBucket.handOk_remove (h.hand q)
    · rw [Function.update_of_ne hq]; exact h.hand q

/-- A key that is not in the table may count as out of its bucket. -/
theorem Linked.absent {s : Shard κ ν w} (h : s.Linked nowhere) {key : κ}
    (hkey : s.entries.get? key = none) : s.Linked (key == ·) where
  mem p k := by
    rw [h.mem]
    by_cases hk : key == k
    · have : s.policyOf k = none := by
        rw [← policyOf_congr hk, policyOf, contentOf_eq_none.mpr hkey, Option.map_none]
      simp [this]
    · simp [hk, nowhere]
  hand := h.hand

/-- The key that is out enters the table and its bucket together. -/
theorem Linked.store {s : Shard κ ν w} {key : κ} (h : s.Linked (key == ·)) (e : Entry ν w)
    (t : Shard κ ν w) (he : t.entries = (s.entries.put key e).2)
    (hb : t.buckets =
      Function.update s.buckets e.policy ((s.buckets e.policy).insert key)) :
    t.Linked nowhere := by
  have hget : ∀ k, t.policyOf k = if key == k then some e.policy else s.policyOf k := by
    intro k
    simp only [policyOf, contentOf, he, HashMap.get?_put]
    split <;> rfl
  constructor
  · intro q k
    rw [hb, hget]
    by_cases hq : q = e.policy
    · subst hq
      rw [Function.update_self, PolicyBucket.contains_insert, Bool.or_eq_true, h.mem]
      cases key == k <;> simp [nowhere]
    · rw [Function.update_of_ne hq, h.mem]
      cases key == k
      · simp [nowhere]
      · simpa using fun hp => absurd hp.symm hq
  · intro q
    rw [hb]
    by_cases hq : q = e.policy
    · subst hq; rw [Function.update_self]; exact PolicyBucket.handOk_insert (h.hand _)
    · rw [Function.update_of_ne hq]; exact h.hand q

/-! ## One eviction -/

omit [Hashable κ] [LawfulHashable κ] in
theorem release_eq_ok {s t : Shard κ ν w} {c : Bool} {p : CachePolicy} {key : κ}
    {size : BitVec w} {u : Unit} : s.release c p key size = .ok u t ↔
      Word.sub c s.sizeCurrent size = some t.sizeCurrent ∧ t =
        { s with
          buckets := Function.update s.buckets p ((s.buckets p).remove key).2
          sizeCurrent := t.sizeCurrent } := by
  simp only [release, setBucket, Outcome.bind_eq_ok, Outcome.check_eq_ok, Outcome.ok.injEq]
  constructor
  · rintro ⟨x, _, ⟨hx, rfl⟩, -, rfl⟩
    exact ⟨hx, rfl⟩
  · rintro ⟨hx, ht⟩
    exact ⟨t.sizeCurrent, _, ⟨hx, rfl⟩, trivial, ht.symm⟩

/-- What an eviction from bucket `p` that returns `v` does to a linked shard. -/
structure Evicts (p : CachePolicy) (s : Shard κ ν w)
    (v : EvictedEntry κ ν w) (t : Shard κ ν w) : Prop where
  index : (s.buckets p).list.keys[s.victimIndex p]? = some v.key
  entry : (aged s.entries (s.swept p)).get? v.key = some v.entry
  entries : t.entries = (aged s.entries (s.swept p)).erase v.key
  buckets : t.buckets = Function.update s.buckets p
    ((PolicyBucket.mk (s.buckets p).list (s.victimIndex p)).remove v.key).2
  sizeCurrent : t.sizeCurrent = s.sizeCurrent - v.entry.size
  sizeCapacity : t.sizeCapacity = s.sizeCapacity

/-- A call on a bucket with keys finds a victim, and returns it unless the subtraction from
the running total fails. The `?` exits of the source are not taken. -/
theorem exists_evicts {out : κ → Bool} {s : Shard κ ν w} (h : s.Linked out) (c : Bool)
    {p : CachePolicy} (hne : 0 < (s.buckets p).len) :
    ∃ v t, s.Evicts p v t ∧ s.evictFromBucket c p =
      (Outcome.check (Word.sub c s.sizeCurrent v.entry.size)
        { t with sizeCurrent := s.sizeCurrent }).bind fun sizeCurrent t =>
          .ok (some v) { t with sizeCurrent } := by
  have hpresent : ∀ k ∈ (s.buckets p).list.keys, (s.entries.get? k).isSome := by
    intro k hk
    obtain ⟨e, he, -⟩ := policyOf_eq_some.mp ((h.mem p k).mp (IndexSet.contains_of_mem hk)).1
    simp [he]
  obtain ⟨k, hk, heq⟩ := evictFromBucket_eq c hne (h.hand p) hpresent
  have hsome : ((aged s.entries (s.swept p)).get? k).isSome := by
    rw [isSome_get?_aged]
    exact hpresent k (List.mem_of_getElem? hk)
  obtain ⟨e, he⟩ := Option.isSome_iff_exists.mp hsome
  obtain ⟨k₀, hentry⟩ := HashMap.exists_getEntry? he
  let t : Shard κ ν w :=
    { entries := (aged s.entries (s.swept p)).erase k
      buckets := Function.update s.buckets p
        ((PolicyBucket.mk (s.buckets p).list (s.victimIndex p)).remove k).2
      sizeCurrent := s.sizeCurrent - e.size
      sizeCapacity := s.sizeCapacity }
  refine ⟨⟨k, e⟩, t, ⟨hk, he, rfl, rfl, rfl, rfl⟩, ?_⟩
  rw [heq]
  cases hsub : Word.sub c s.sizeCurrent e.size <;>
    simp [takeVictim, release, setHand, setBucket, HashMap.removeEntry, hentry, hsub, t]

/-- Every eviction from a linked shard either finds an empty bucket and changes nothing, or
evicts. -/
theorem evictFromBucket_cases {out : κ → Bool} {s t : Shard κ ν w} (h : s.Linked out)
    {c : Bool} {p : CachePolicy} {r : Option (EvictedEntry κ ν w)}
    (hr : s.evictFromBucket c p = .ok r t) :
    (r = none ∧ t = s ∧ (s.buckets p).len = 0) ∨
      ∃ v, r = some v ∧ s.Evicts p v t ∧ 0 < (s.buckets p).len ∧
        Word.sub c s.sizeCurrent v.entry.size = some t.sizeCurrent := by
  by_cases h0 : (s.buckets p).len = 0
  · have hempty : (s.buckets p).isEmpty = true := PolicyBucket.isEmpty_iff.mpr h0
    simp only [evictFromBucket, hempty, if_true, Outcome.ok.injEq] at hr
    exact .inl ⟨hr.1.symm, hr.2.symm, h0⟩
  · have hne : 0 < (s.buckets p).len := Nat.pos_of_ne_zero h0
    obtain ⟨v, t', he, heq⟩ := exists_evicts h c hne
    rw [heq] at hr
    obtain ⟨x, _, hx, hok⟩ := Outcome.bind_eq_ok.mp hr
    obtain ⟨hsub, rfl⟩ := Outcome.check_eq_ok.mp hx
    have hxt : x = t'.sizeCurrent := (Word.eq_sub hsub).trans he.sizeCurrent.symm
    subst hxt
    cases hok
    exact .inr ⟨v, rfl, he, hne, hsub⟩

namespace Evicts

variable {out : κ → Bool} {p : CachePolicy} {s t : Shard κ ν w} {v : EvictedEntry κ ν w}

omit [LawfulHashable κ] in
theorem bucket_nonempty (h : s.Evicts p v t) : 0 < (s.buckets p).len :=
  Nat.lt_of_le_of_lt (Nat.zero_le _) (List.getElem?_eq_some_iff.mp h.index).1

omit [LawfulHashable κ] in
theorem contains_key (h : s.Evicts p v t) : (s.buckets p).list.contains v.key = true :=
  IndexSet.contains_of_mem (List.mem_of_getElem? h.index)

omit [LawfulHashable κ] in
/-- The bucket after an eviction: the last key moves to the victim's position and the hand
stays there, or goes to 0 where that position is gone. -/
theorem bucket_eq (h : s.Evicts p v t) :
    (t.buckets p).list.keys = swapRemove (s.buckets p).list.keys (s.victimIndex p) ∧
      (t.buckets p).hand =
        if s.victimIndex p < (s.buckets p).len - 1 then s.victimIndex p else 0 := by
  obtain ⟨i, k₀, l, hremove⟩ := PolicyBucket.exists_swapRemoveFull
    (b := ⟨(s.buckets p).list, s.victimIndex p⟩) h.contains_key
  obtain ⟨hi, hk₀, hl⟩ := IndexSet.swapRemoveFull_eq_some hremove
  obtain rfl : i = s.victimIndex p :=
    IndexSet.index_eq_of_beq hi h.index (by rwa [BEq.comm])
  obtain ⟨hlt, hlen⟩ := PolicyBucket.len_of_swapRemoveFull hremove
  rw [h.buckets, Function.update_self, PolicyBucket.remove_of_swapRemoveFull hremove]
  refine ⟨hl, ?_⟩
  have hlen' : l.len = (s.buckets p).len - 1 := hlen
  have hlt' : s.victimIndex p < (s.buckets p).len := hlt
  have hb : (PolicyBucket.mk (s.buckets p).list (s.victimIndex p)).len = (s.buckets p).len := rfl
  simp only [hlen', hb]
  split_ifs <;> omega

/-- The victim is a former entry, with its own value, size and policy. -/
theorem contentOf_key (h : s.Evicts p v t) : s.contentOf v.key = some v.entry.content := by
  have := content_get?_aged s.entries (s.swept p) v.key
  rw [h.entry, Option.map_some] at this
  exact this.symm

theorem policy_eq (h : s.Evicts p v t) (hl : s.Linked out) : v.entry.policy = p := by
  have := ((hl.mem p v.key).mp h.contains_key).1
  rw [policyOf, h.contentOf_key] at this
  exact Option.some.inj this

omit [LawfulHashable κ] in
theorem out_key (h : s.Evicts p v t) (hl : s.Linked out) : out v.key = false :=
  ((hl.mem p v.key).mp h.contains_key).2

theorem get?_key (h : s.Evicts p v t) : t.entries.get? v.key = none := by
  rw [h.entries, HashMap.get?_erase, if_pos (BEq.refl _)]

/-- Every other key keeps its value, size and policy. -/
theorem contentOf_eq (h : s.Evicts p v t) (k : κ) :
    t.contentOf k = if v.key == k then none else s.contentOf k := by
  rw [contentOf, h.entries, HashMap.get?_erase]
  split
  · rfl
  · exact content_get?_aged _ _ _

/-- Every other key is at most aged. -/
theorem get?_spared (h : s.Evicts p v t) {k : κ} (hne : (v.key == k) = false) :
    t.entries.get? k = (aged s.entries (s.swept p)).get? k := by
  rw [h.entries, HashMap.get?_erase, if_neg (by simp [hne])]

/-- An entry outside the bucket is not even aged. -/
theorem get?_eq (h : s.Evicts p v t) {k : κ} (hk : (s.buckets p).list.contains k = false) :
    t.entries.get? k = s.entries.get? k := by
  have hout := IndexSet.not_contains_iff.mp hk
  have hne : (v.key == k) = false := by
    rw [BEq.comm]
    exact hout v.key (List.mem_of_getElem? h.index)
  rw [h.get?_spared hne, get?_aged_of_not_any]
  intro a ha
  rw [BEq.comm]
  exact hout a (swept_subset ha)

/-- The contents lose exactly the victim's. -/
theorem perm_contents (h : s.Evicts p v t) :
    s.contents.Perm (v.entry.content :: t.contents) := by
  have := (HashMap.perm_erase h.entry).map Entry.content
  rwa [map_content_aged, ← h.entries] at this

theorem len_eq (h : s.Evicts p v t) : s.entries.len = t.entries.len + 1 := by
  simpa [contents] using h.perm_contents.length_eq

theorem linked (h : s.Evicts p v t) (hl : s.Linked out) : t.Linked out := by
  let s' : Shard κ ν w := { s with entries := aged s.entries (s.swept p) }
  have hs' : s'.Linked out := hl.of_content (fun k => content_get?_aged _ _ _) rfl
  have hhand : (s'.setHand p (s.victimIndex p)).Linked out :=
    hs'.setHand (victimIndex_lt h.bucket_nonempty)
  have hpol : (s'.setHand p (s.victimIndex p)).policyOf v.key = some p :=
    ((hhand.mem p v.key).mp (by simpa [setHand, setBucket] using h.contains_key)).1
  refine hhand.takeOut hpol t h.entries ?_
  rw [h.buckets]
  simp [setHand, setBucket, s']

end Evicts

end Shard

end PriorityLfu
