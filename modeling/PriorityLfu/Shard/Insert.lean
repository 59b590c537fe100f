import PriorityLfu.Shard.Linked

/-!
# What an insertion does

`Evictions` lists the calls of `evict_from_bucket` that the eviction loop makes: each finds
the shard too full and every bucket of larger discriminant empty. `InsertSteps` is an
insertion that returned, cut at its three stages: the key leaves its bucket, entries are
evicted, the new entry is stored. Every property of an insertion is read off it.
-/
namespace PriorityLfu
open Keyed

variable {κ ν : Type} {w : Nat} [BEq κ] [Hashable κ] [EquivBEq κ]

/-- A call of `evict_from_bucket` that evicted something: the shard before it, and what it
returned. -/
structure Eviction (κ ν : Type) (w : Nat) [BEq κ] where
  before : Shard κ ν w
  victim : EvictedEntry κ ν w

namespace Shard

/-- `size_current + needed_size > size_capacity`, the condition of the eviction loop. -/
def Full (s : Shard κ ν w) (checks : Bool) (needed : BitVec w) : Prop :=
  ∃ total, Word.add checks s.sizeCurrent needed = some total ∧ s.sizeCapacity < total

/-- `size_current + needed_size <= size_capacity`, its second exit. -/
def Fits (s : Shard κ ν w) (checks : Bool) (needed : BitVec w) : Prop :=
  ∃ total, Word.add checks s.sizeCurrent needed = some total ∧ total ≤ s.sizeCapacity

/-- The evictions an insertion of `needed` bytes makes, in order. -/
inductive Evictions (checks : Bool) (needed : BitVec w) :
    Shard κ ν w → List (Eviction κ ν w) → Shard κ ν w → Prop where
  | nil (s : Shard κ ν w) : Evictions checks needed s [] s
  | cons {s t u : Shard κ ν w} {p : CachePolicy} {v : EvictedEntry κ ν w}
      {vs : List (Eviction κ ν w)} (full : s.Full checks needed)
      (higher : ∀ q, p.discriminant < q.discriminant → (s.buckets q).len = 0)
      (call : s.evictFromBucket checks p = .ok (some v) t)
      (rest : Evictions checks needed t vs u) : Evictions checks needed s (⟨s, v⟩ :: vs) u

variable {checks : Bool} {needed : BitVec w} {s t u : Shard κ ν w}
  {vs vs' : List (Eviction κ ν w)} {out : κ → Bool}

theorem Evictions.append (h : Evictions checks needed s vs t)
    (h' : Evictions checks needed t vs' u) : Evictions checks needed s (vs ++ vs') u := by
  induction h with
  | nil => exact h'
  | cons full higher call _ ih => exact .cons full higher call (ih h')

/-- The total size of a list of evictions. -/
def evictedSize (vs : List (Eviction κ ν w)) : BitVec w :=
  (vs.map fun v => v.victim.entry.size).sum

variable [LawfulHashable κ]

/-- A call that evicted, from a linked shard. -/
theorem evicts_of_call {c : Bool} {p : CachePolicy} {v : EvictedEntry κ ν w} (hl : s.Linked out)
    (h : s.evictFromBucket c p = .ok (some v) t) :
    s.Evicts p v t ∧ Word.sub c s.sizeCurrent v.entry.size = some t.sizeCurrent := by
  rcases evictFromBucket_cases hl h with ⟨h, -⟩ | ⟨v', hv, he, -, hsub⟩
  · cases h
  · cases hv
    exact ⟨he, hsub⟩

namespace Evictions

theorem linked (h : Evictions checks needed s vs t) (hl : s.Linked out) : t.Linked out := by
  induction h with
  | nil => exact hl
  | cons _ _ call _ ih => exact ih ((evicts_of_call hl call).1.linked hl)

theorem sizeCapacity (h : Evictions checks needed s vs t) (hl : s.Linked out) :
    t.sizeCapacity = s.sizeCapacity := by
  induction h with
  | nil => rfl
  | cons _ _ call _ ih =>
    obtain ⟨he, -⟩ := evicts_of_call hl call
    rw [ih (he.linked hl), he.sizeCapacity]

theorem sizeCurrent (h : Evictions checks needed s vs t) (hl : s.Linked out) :
    t.sizeCurrent = s.sizeCurrent - evictedSize vs := by
  induction h with
  | nil => simp [evictedSize]
  | cons _ _ call _ ih =>
    obtain ⟨he, -⟩ := evicts_of_call hl call
    rw [ih (he.linked hl), he.sizeCurrent]
    simp [evictedSize, sub_sub]

/-- The keys that are out of their bucket are not touched. -/
theorem get?_out (h : Evictions checks needed s vs t) (hl : s.Linked out) {k : κ}
    (hk : out k = true) : t.entries.get? k = s.entries.get? k := by
  induction h with
  | nil => rfl
  | @cons s _ _ p _ _ _ _ call _ ih =>
    obtain ⟨he, -⟩ := evicts_of_call hl call
    have : (s.buckets p).list.contains k = false := by
      rw [← Bool.not_eq_true, hl.mem, hk]
      simp
    rw [ih (he.linked hl), he.get?_eq this]

/-- The contents lose exactly those of the victims. -/
theorem perm_contents (h : Evictions checks needed s vs t) (hl : s.Linked out) :
    s.contents.Perm (vs.map (·.victim.entry.content) ++ t.contents) := by
  induction h with
  | nil => exact .refl _
  | cons _ _ call _ ih =>
    obtain ⟨he, -⟩ := evicts_of_call hl call
    exact he.perm_contents.trans ((ih (he.linked hl)).cons _)

/-- A key that no victim equals keeps its value, size and policy. -/
theorem contentOf_of_not_evicted (h : Evictions checks needed s vs t) (hl : s.Linked out) {k : κ}
    (hk : ∀ v ∈ vs, (v.victim.key == k) = false) : t.contentOf k = s.contentOf k := by
  induction h with
  | nil => rfl
  | cons _ _ call _ ih =>
    obtain ⟨he, -⟩ := evicts_of_call hl call
    rw [ih (he.linked hl) fun v hv => hk v (List.mem_cons_of_mem _ hv), he.contentOf_eq,
      if_neg (by simpa using hk _ List.mem_cons_self)]

/-- What is absent stays absent. -/
theorem contentOf_none (h : Evictions checks needed s vs t) (hl : s.Linked out) {k : κ}
    (hk : s.contentOf k = none) : t.contentOf k = none := by
  induction h with
  | nil => exact hk
  | cons _ _ call _ ih =>
    obtain ⟨he, -⟩ := evicts_of_call hl call
    refine ih (he.linked hl) ?_
    rw [he.contentOf_eq, hk, ite_self]

/-- Each victim is a former entry that was not out, and is gone. -/
theorem victim (h : Evictions checks needed s vs t) (hl : s.Linked out) {v : Eviction κ ν w}
    (hv : v ∈ vs) : s.contentOf v.victim.key = some v.victim.entry.content ∧
      out v.victim.key = false ∧ t.contentOf v.victim.key = none := by
  induction h with
  | nil => cases hv
  | @cons s _ _ _ x _ _ _ call rest ih =>
    obtain ⟨he, -⟩ := evicts_of_call hl call
    obtain rfl | hv := List.mem_cons.mp hv
    · refine ⟨he.contentOf_key, he.out_key hl, rest.contentOf_none (he.linked hl) ?_⟩
      rw [he.contentOf_eq, if_pos (BEq.refl _)]
    · obtain ⟨hc, ho, ht⟩ := ih (he.linked hl) hv
      refine ⟨?_, ho, ht⟩
      rw [he.contentOf_eq] at hc
      split at hc
      · cases hc
      · exact hc

/-- The victims have distinct keys. -/
theorem distinct (h : Evictions checks needed s vs t) (hl : s.Linked out) :
    vs.Pairwise fun a b => (a.victim.key == b.victim.key) = false := by
  induction h with
  | nil => exact .nil
  | @cons s _ _ _ x _ _ _ call rest ih =>
    obtain ⟨he, -⟩ := evicts_of_call hl call
    refine .cons (fun v hv => ?_) (ih (he.linked hl))
    have hc := (rest.victim (he.linked hl) hv).1
    rw [he.contentOf_eq] at hc
    by_contra hk
    rw [if_pos (by simpa using hk)] at hc
    cases hc

/-- An empty bucket stays empty. -/
theorem empty_bucket (h : Evictions checks needed s vs t) (hl : s.Linked out) {p : CachePolicy}
    (hp : (s.buckets p).len = 0) : (t.buckets p).len = 0 := by
  induction h with
  | nil => exact hp
  | @cons s _ _ q _ _ _ _ call _ ih =>
    obtain ⟨he, -⟩ := evicts_of_call hl call
    refine ih (he.linked hl) ?_
    have hq : p ≠ q := by
      rintro rfl
      have := he.bucket_nonempty
      omega
    rw [he.buckets, Function.update_of_ne hq, hp]

end Evictions

/-- With no entries left no bucket has a key. -/
theorem Linked.bucket_empty (hl : s.Linked out) (h : s.entries.len = 0) (p : CachePolicy) :
    (s.buckets p).len = 0 := by
  have hnil : s.entries.toList = [] := List.eq_nil_of_length_eq_zero h
  by_contra hne
  have hlen : 0 < (s.buckets p).list.keys.length := Nat.pos_of_ne_zero hne
  have hk := IndexSet.contains_of_mem (List.getElem_mem hlen)
  obtain ⟨e, he, -⟩ := policyOf_eq_some.mp ((hl.mem p _).mp hk).1
  simp [HashMap.get?_eq, hnil] at he

/-! ## The eviction loop -/

/-- The inner loop makes a list of evictions from bucket `p`, and ends with the shard not
full or the bucket empty. -/
theorem evictWhile_cases {p : CachePolicy} {rounds : Nat} {stats stats' : EvictionStats w}
    {evicted evicted' : List (EvictedEntry κ ν w)} (hl : s.Linked out)
    (hrounds : s.entries.len ≤ rounds)
    (higher : ∀ q, p.discriminant < q.discriminant → (s.buckets q).len = 0)
    (h : evictWhile checks needed p rounds s stats evicted = .ok (stats', evicted') t) :
    ∃ vs, Evictions checks needed s vs t ∧ evicted' = evicted ++ vs.map (·.victim) ∧
      stats' = ⟨stats.count + vs.length, stats.size + evictedSize vs⟩ ∧
      (t.Fits checks needed ∨ (t.buckets p).len = 0) := by
  induction rounds generalizing s stats evicted with
  | zero =>
    rw [evictWhile] at h
    simp only [Outcome.bind_eq_ok, Outcome.check_eq_ok] at h
    obtain ⟨total, _, ⟨hadd, rfl⟩, h⟩ := h
    split at h
    · cases h
      exact ⟨[], .nil _, by simp, by simp [evictedSize],
        .inr (hl.bucket_empty (Nat.le_zero.mp hrounds) p)⟩
    · next hfull =>
      cases h
      exact ⟨[], .nil _, by simp, by simp [evictedSize], .inl ⟨total, hadd, by simpa using hfull⟩⟩
  | succ rounds ih =>
    rw [evictWhile] at h
    simp only [Outcome.bind_eq_ok, Outcome.check_eq_ok] at h
    obtain ⟨total, _, ⟨hadd, rfl⟩, h⟩ := h
    split at h
    · next hfull =>
      obtain ⟨r, s', hr, hrest⟩ := Outcome.bind_eq_ok.mp h
      rcases evictFromBucket_cases hl hr with ⟨rfl, rfl, hempty⟩ | ⟨v, rfl, he, -, -⟩
      · cases hrest
        exact ⟨[], .nil _, by simp, by simp [evictedSize], .inr hempty⟩
      · simp only [Outcome.bind_eq_ok, Outcome.check_eq_ok] at hrest
        obtain ⟨size, _, ⟨hsize, rfl⟩, hrest⟩ := hrest
        have hlen := he.len_eq
        have higher' : ∀ q, p.discriminant < q.discriminant → (s'.buckets q).len = 0 := by
          intro q hq
          have hne : q ≠ p := by rintro rfl; exact Nat.lt_irrefl _ hq
          rw [he.buckets, Function.update_of_ne hne]
          exact higher q hq
        obtain ⟨vs, hvs, rfl, rfl, hend⟩ := ih (he.linked hl) (by omega) higher' hrest
        refine ⟨⟨s, v⟩ :: vs, .cons ⟨total, hadd, hfull⟩ higher hr hvs, by simp, ?_, hend⟩
        rw [Word.eq_add hsize]
        simp [evictedSize, Nat.add_comm, add_assoc]
    · next hfull =>
      cases h
      exact ⟨[], .nil _, by simp, by simp [evictedSize], .inl ⟨total, hadd, by simpa using hfull⟩⟩

theorem evictBuckets_cases {ps : List CachePolicy} {stats stats' : EvictionStats w}
    {evicted evicted' : List (EvictedEntry κ ν w)} (hl : s.Linked out)
    (hps : ps.Pairwise fun p q => q.discriminant < p.discriminant)
    (hempty : ∀ q, q ∉ ps → (s.buckets q).len = 0)
    (h : evictBuckets checks needed ps s stats evicted = .ok (stats', evicted') t) :
    ∃ vs, Evictions checks needed s vs t ∧ evicted' = evicted ++ vs.map (·.victim) ∧
      stats' = ⟨stats.count + vs.length, stats.size + evictedSize vs⟩ ∧
      (t.Fits checks needed ∨ ∀ p, (t.buckets p).len = 0) := by
  induction ps generalizing s stats evicted with
  | nil =>
    cases h
    exact ⟨[], .nil _, by simp, by simp [evictedSize], .inr fun p => hempty p (by simp)⟩
  | cons p ps ih =>
    obtain ⟨hp, hps⟩ := List.pairwise_cons.mp hps
    obtain ⟨⟨stats₁, evicted₁⟩, s₁, h₁, h⟩ := Outcome.bind_eq_ok.mp h
    have higher : ∀ q, p.discriminant < q.discriminant → (s.buckets q).len = 0 := by
      intro q hq
      refine hempty q fun hmem => ?_
      obtain rfl | hmem := List.mem_cons.mp hmem
      · exact Nat.lt_irrefl _ hq
      · exact Nat.lt_asymm hq (hp q hmem)
    obtain ⟨vs, hvs, rfl, rfl, hend⟩ := evictWhile_cases hl (le_refl _) higher h₁
    simp only [Outcome.bind_eq_ok, Outcome.check_eq_ok] at h
    obtain ⟨total, _, ⟨hadd, rfl⟩, h⟩ := h
    split at h
    · next hfits =>
      cases h
      exact ⟨vs, hvs, rfl, rfl, .inl ⟨total, hadd, hfits⟩⟩
    · next hfits =>
      have hp0 : (s₁.buckets p).len = 0 := by
        refine hend.resolve_left ?_
        rintro ⟨total', hadd', hle⟩
        rw [hadd] at hadd'
        cases hadd'
        exact hfits hle
      have hempty' : ∀ q, q ∉ ps → (s₁.buckets q).len = 0 := by
        intro q hq
        by_cases hqp : q = p
        · exact hqp ▸ hp0
        · exact hvs.empty_bucket hl (hempty q (by simp [hqp, hq]))
      obtain ⟨vs', hvs', rfl, rfl, hend'⟩ := ih (hvs.linked hl) hps hempty' h
      refine ⟨vs ++ vs', hvs.append hvs', by simp, ?_, hend'⟩
      simp [evictedSize, add_assoc]

/-- `evict_until_space` makes a list of evictions and ends with enough space or with every
bucket empty. -/
theorem evictUntilSpace_cases {stats : EvictionStats w} {evicted : List (EvictedEntry κ ν w)}
    (hl : s.Linked out) (h : s.evictUntilSpace checks needed = .ok (stats, evicted) t) :
    ∃ vs, Evictions checks needed s vs t ∧ evicted = vs.map (·.victim) ∧
      stats = ⟨vs.length, evictedSize vs⟩ ∧
      (t.Fits checks needed ∨ ∀ p, (t.buckets p).len = 0) := by
  have hps : CachePolicy.evictionOrder.Pairwise fun p q => q.discriminant < p.discriminant := by
    decide
  have hall : ∀ q, q ∉ CachePolicy.evictionOrder → (s.buckets q).len = 0 :=
    fun q hq => absurd (CachePolicy.mem_evictionOrder q) hq
  obtain ⟨vs, hvs, hev, hst, hend⟩ := evictBuckets_cases hl hps hall h
  refine ⟨vs, hvs, by simpa using hev, ?_, hend⟩
  rw [hst]
  simp

omit [LawfulHashable κ] in
/-- Whatever the shard is, the statistics count the entries that are reported. -/
theorem evictWhile_count {p : CachePolicy} {rounds : Nat} {stats stats' : EvictionStats w}
    {evicted evicted' : List (EvictedEntry κ ν w)} (hcount : stats.count = evicted.length)
    (h : evictWhile checks needed p rounds s stats evicted = .ok (stats', evicted') t) :
    stats'.count = evicted'.length := by
  induction rounds generalizing s stats evicted with
  | zero =>
    rw [evictWhile] at h
    obtain ⟨total, _, -, h⟩ := Outcome.bind_eq_ok.mp h
    split at h <;> cases h <;> exact hcount
  | succ rounds ih =>
    rw [evictWhile] at h
    obtain ⟨total, _, -, h⟩ := Outcome.bind_eq_ok.mp h
    split at h
    · obtain ⟨r, s', -, hrest⟩ := Outcome.bind_eq_ok.mp h
      cases r with
      | none =>
        cases hrest
        exact hcount
      | some e =>
        obtain ⟨size, _, -, hrest⟩ := Outcome.bind_eq_ok.mp hrest
        exact ih (by simp [hcount]) hrest
    · cases h
      exact hcount

omit [LawfulHashable κ] in
theorem evictBuckets_count {ps : List CachePolicy} {stats stats' : EvictionStats w}
    {evicted evicted' : List (EvictedEntry κ ν w)} (hcount : stats.count = evicted.length)
    (h : evictBuckets checks needed ps s stats evicted = .ok (stats', evicted') t) :
    stats'.count = evicted'.length := by
  induction ps generalizing s stats evicted with
  | nil =>
    cases h
    exact hcount
  | cons p ps ih =>
    obtain ⟨⟨stats₁, evicted₁⟩, s₁, h₁, h⟩ := Outcome.bind_eq_ok.mp h
    obtain ⟨total, _, -, h⟩ := Outcome.bind_eq_ok.mp h
    have hcount₁ := evictWhile_count hcount h₁
    split at h
    · cases h
      exact hcount₁
    · exact ih hcount₁ h

/-- The bound on the rounds of the inner loop is never what ends it. -/
theorem evictWhile_rounds {p : CachePolicy} {rounds : Nat} {stats : EvictionStats w}
    {evicted : List (EvictedEntry κ ν w)} (hl : s.Linked out) (hrounds : s.entries.len ≤ rounds) :
    evictWhile checks needed p (rounds + 1) s stats evicted =
      evictWhile checks needed p rounds s stats evicted := by
  induction rounds generalizing s stats evicted with
  | zero =>
    have hempty : (s.buckets p).isEmpty = true :=
      PolicyBucket.isEmpty_iff.mpr (hl.bucket_empty (Nat.le_zero.mp hrounds) p)
    have hnone : s.evictFromBucket checks p = .ok none s := by simp [evictFromBucket, hempty]
    rw [evictWhile, evictWhile]
    cases Word.add checks s.sizeCurrent needed with
    | none => rfl
    | some total => simp only [Outcome.check_some, Outcome.bind_ok, hnone]
  | succ rounds ih =>
    rw [evictWhile, evictWhile]
    cases Word.add checks s.sizeCurrent needed with
    | none => rfl
    | some total =>
      simp only [Outcome.check_some, Outcome.bind_ok]
      split
      · cases hr : s.evictFromBucket checks p with
        | panic t => rfl
        | ok r t =>
          rcases evictFromBucket_cases hl hr with ⟨rfl, rfl, -⟩ | ⟨v, rfl, he, -, -⟩
          · rfl
          · have hlen := he.len_eq
            simp only [Outcome.bind_ok]
            cases Word.add checks stats.size v.entry.size with
            | none => rfl
            | some size => exact ih (he.linked hl) (by omega)
      · rfl

/-! ## An insertion that returned -/

/-- The three stages of an insertion: `d` is the shard after the key left its bucket, `t`
the shard after the evictions `vs`. -/
structure InsertSteps (checks : Bool) (key : κ) (entry : Entry ν w) (s d t : Shard κ ν w)
    (vs : List (Eviction κ ν w)) (s' : Shard κ ν w) : Prop where
  detach : s.detach checks key = .ok () d
  evictions : Evictions checks entry.size d vs t
  exit : t.Fits checks entry.size ∨ ∀ p, (t.buckets p).len = 0
  entries : s'.entries = (t.entries.put key entry).2
  buckets : s'.buckets =
    Function.update t.buckets entry.policy ((t.buckets entry.policy).insert key)
  sizeCurrent : Word.add checks t.sizeCurrent entry.size = some s'.sizeCurrent
  sizeCapacity : s'.sizeCapacity = t.sizeCapacity

/-- A present key leaves its bucket and the total; nothing else changes. -/
theorem detach_cases {key : κ} {d : Shard κ ν w} (hl : s.Linked nowhere)
    (h : s.detach checks key = .ok () d) :
    d.Linked (key == ·) ∧ d.entries = s.entries ∧ d.sizeCapacity = s.sizeCapacity ∧
      d.sizeCurrent = s.sizeCurrent - ((s.entries.get? key).map Entry.size).getD 0 := by
  unfold detach at h
  cases hget : s.entries.get? key with
  | none =>
    rw [hget] at h
    cases h
    exact ⟨hl.absent hget, rfl, rfl, by simp⟩
  | some old =>
    rw [hget] at h
    obtain ⟨hsub, hd⟩ := release_eq_ok.mp h
    refine ⟨hl.unbucket (policyOf_of_get? hget) d (by rw [hd]) (by rw [hd]), ?_, ?_, ?_⟩
    · rw [hd]
    · rw [hd]
    · simpa using Word.eq_sub hsub

/-- Every insertion into a linked shard that returns goes through the three stages. -/
theorem insert_cases {key : κ} {entry : Entry ν w} {old : Option (Entry ν w)}
    {stats : EvictionStats w} {evicted : List (EvictedEntry κ ν w)} {s' : Shard κ ν w}
    (hl : s.Linked nowhere) (h : s.insert checks key entry = .ok (old, stats, evicted) s') :
    ∃ d t vs, InsertSteps checks key entry s d t vs s' ∧ old = s.entries.get? key ∧
      evicted = vs.map (·.victim) ∧ stats = ⟨vs.length, evictedSize vs⟩ := by
  simp only [insert, setBucket, Outcome.bind_eq_ok, Outcome.check_eq_ok, Outcome.ok.injEq,
    Prod.mk.injEq] at h
  obtain ⟨_, d, hdet, ⟨stats', evicted'⟩, t, hev, x, _, ⟨hadd, rfl⟩, ⟨rfl, rfl, rfl⟩, rfl⟩ := h
  obtain ⟨hd, hde, -, -⟩ := detach_cases hl hdet
  obtain ⟨vs, hvs, rfl, rfl, hexit⟩ := evictUntilSpace_cases hd hev
  refine ⟨d, t, vs, ⟨hdet, hvs, hexit, rfl, rfl, hadd, rfl⟩, ?_, rfl, rfl⟩
  rw [HashMap.put_fst, hvs.get?_out hd (BEq.refl key), hde]

theorem insert_count {key : κ} {entry : Entry ν w} {old : Option (Entry ν w)}
    {stats : EvictionStats w} {evicted : List (EvictedEntry κ ν w)} {s' : Shard κ ν w}
    (h : s.insert checks key entry = .ok (old, stats, evicted) s') :
    stats.count = evicted.length := by
  simp only [insert, Outcome.bind_eq_ok, Outcome.ok.injEq, Prod.mk.injEq] at h
  obtain ⟨_, d, -, ⟨stats', evicted'⟩, t, hev, x, _, -, ⟨-, rfl, rfl⟩, -⟩ := h
  exact evictBuckets_count rfl hev

namespace InsertSteps

variable {key : κ} {entry : Entry ν w} {d s' : Shard κ ν w}

theorem linked_detached (h : InsertSteps checks key entry s d t vs s') (hl : s.Linked nowhere) :
    d.Linked (key == ·) := (detach_cases hl h.detach).1

theorem linked (h : InsertSteps checks key entry s d t vs s') (hl : s.Linked nowhere) :
    s'.Linked nowhere :=
  (h.evictions.linked (h.linked_detached hl)).store entry s' h.entries h.buckets

/-- The inserted entry is stored as it was given. -/
theorem get?_key (h : InsertSteps checks key entry s d t vs s') :
    s'.entries.get? key = some entry := by
  rw [h.entries, HashMap.get?_put, if_pos (BEq.refl key)]

theorem contentOf_detached (h : InsertSteps checks key entry s d t vs s') (hl : s.Linked nowhere)
    (k : κ) : d.contentOf k = s.contentOf k := by
  rw [contentOf, (detach_cases hl h.detach).2.1, contentOf]

theorem contentOf_of_ne (h : InsertSteps checks key entry s d t vs s') {k : κ}
    (hk : (key == k) = false) : s'.contentOf k = t.contentOf k := by
  rw [contentOf, h.entries, HashMap.get?_put, if_neg (by simp [hk]), contentOf]

/-- Each victim is a former entry under a key other than the inserted one, and is gone. -/
theorem victim (h : InsertSteps checks key entry s d t vs s') (hl : s.Linked nowhere)
    {v : Eviction κ ν w} (hv : v ∈ vs) :
    s.contentOf v.victim.key = some v.victim.entry.content ∧ (key == v.victim.key) = false ∧
      s'.contentOf v.victim.key = none := by
  obtain ⟨hc, ho, ht⟩ := h.evictions.victim (h.linked_detached hl) hv
  rw [h.contentOf_detached hl] at hc
  exact ⟨hc, ho, by rw [h.contentOf_of_ne ho, ht]⟩

/-- A key that is neither inserted nor evicted keeps its value, size and policy. -/
theorem contentOf_frame (h : InsertSteps checks key entry s d t vs s') (hl : s.Linked nowhere)
    {k : κ} (hk : (key == k) = false) (hv : ∀ v ∈ vs, (v.victim.key == k) = false) :
    s'.contentOf k = s.contentOf k := by
  rw [h.contentOf_of_ne hk, h.evictions.contentOf_of_not_evicted (h.linked_detached hl) hv,
    h.contentOf_detached hl]

/-- The content under every key after the insertion. -/
theorem contentOf_eq (h : InsertSteps checks key entry s d t vs s') (hl : s.Linked nowhere)
    (k : κ) : s'.contentOf k = if key == k then some entry.content
      else if vs.any fun v => v.victim.key == k then none else s.contentOf k := by
  by_cases hk : key == k
  · rw [if_pos hk, ← contentOf_congr hk, contentOf, h.get?_key, Option.map_some]
  · rw [if_neg hk]
    split
    · next hany =>
      obtain ⟨v, hv, hvk⟩ := List.any_eq_true.mp hany
      rw [← contentOf_congr hvk]
      exact (h.victim hl hv).2.2
    · next hany =>
      refine h.contentOf_frame hl (by simpa using hk) fun v hv => ?_
      simpa using fun hvk => hany (List.any_eq_true.mpr ⟨v, hv, hvk⟩)

/-- The contents lose those replaced and evicted and gain the inserted one. -/
theorem perm_contents (h : InsertSteps checks key entry s d t vs s') (hl : s.Linked nowhere) :
    ((s.entries.get? key).toList.map Entry.content ++
        (vs.map (·.victim.entry.content) ++ s'.contents)).Perm
      (entry.content :: s.contents) := by
  have hd := h.linked_detached hl
  have hde : d.contents = s.contents := by
    rw [contents, (detach_cases hl h.detach).2.1, contents]
  have hold : t.entries.get? key = s.entries.get? key := by
    rw [h.evictions.get?_out hd (BEq.refl key), (detach_cases hl h.detach).2.1]
  have hput := (HashMap.perm_put t.entries key entry).map Entry.content
  rw [hold, ← h.entries, List.map_append, List.map_cons] at hput
  have hev := h.evictions.perm_contents hd
  rw [hde] at hev
  have hleft := (List.perm_append_comm_assoc ((s.entries.get? key).toList.map Entry.content)
    (vs.map (·.victim.entry.content)) s'.contents)
  refine hleft.trans ((hput.append_left _).trans ?_)
  exact List.perm_middle.trans (hev.symm.cons _)

theorem sizeCapacity_eq (h : InsertSteps checks key entry s d t vs s') (hl : s.Linked nowhere) :
    s'.sizeCapacity = s.sizeCapacity := by
  rw [h.sizeCapacity, h.evictions.sizeCapacity (h.linked_detached hl),
    (detach_cases hl h.detach).2.2.1]

theorem sizeCurrent_eq (h : InsertSteps checks key entry s d t vs s') (hl : s.Linked nowhere) :
    s'.sizeCurrent = s.sizeCurrent - ((s.entries.get? key).map Entry.size).getD 0 -
      evictedSize vs + entry.size := by
  rw [Word.eq_add h.sizeCurrent, h.evictions.sizeCurrent (h.linked_detached hl),
    (detach_cases hl h.detach).2.2.2]

end InsertSteps

end Shard

end PriorityLfu
