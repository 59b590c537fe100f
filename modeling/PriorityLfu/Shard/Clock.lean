import PriorityLfu.Shard.Capacity

/-!
# The clock rules of one eviction

What the documented rules ask of one eviction, said in the circular order of the bucket from
its hand: entries are aged once each up to the first cold one, which goes; where no entry is
cold, all are aged once and the one under the hand goes. `ClockEvicts` states the rules
without the sweep, and `evictFromBucket_clock` proves them of every call on a bucket with
keys, in every reachable shard.
-/
namespace PriorityLfu
open Keyed

variable {κ ν : Type} {w : Nat} [BEq κ] [Hashable κ]

namespace Shard

/-- The keys of bucket `p` in circular order, from the one under the hand. -/
def order (s : Shard κ ν w) (p : CachePolicy) : List κ :=
  (s.buckets p).list.keys.rotate (s.buckets p).hand

/-- `k` is in `t` aged once, compared with `s`. -/
def AgedOnce (s t : Shard κ ν w) (k : κ) : Prop :=
  t.entries.get? k = (s.entries.get? k).map Entry.age

/-- Some entry is cold: the first one in the circular order goes, as it is; the ones before it
are aged once and the ones after it are left alone. -/
structure EvictsCold (s : Shard κ ν w) (p : CachePolicy) (v : EvictedEntry κ ν w)
    (t : Shard κ ν w) (before after : List κ) : Prop where
  order : s.order p = before ++ v.key :: after
  warm : ∀ a ∈ before, isCold s.entries a = false
  cold : isCold s.entries v.key = true
  entry : s.entries.get? v.key = some v.entry
  before : ∀ a ∈ before, s.AgedOnce t a
  after : ∀ a ∈ after, t.entries.get? a = s.entries.get? a

/-- No entry is cold: all are aged once, and the one under the hand goes. -/
structure EvictsUnderHand (s : Shard κ ν w) (p : CachePolicy) (v : EvictedEntry κ ν w)
    (t : Shard κ ν w) (rest : List κ) : Prop where
  order : s.order p = v.key :: rest
  warm : ∀ a ∈ s.order p, isCold s.entries a = false
  entry : (s.entries.get? v.key).map Entry.age = some v.entry
  rest : ∀ a ∈ rest, s.AgedOnce t a

/-- The rules of one eviction from bucket `p`: who goes, and what stays as it is. -/
structure ClockEvicts (p : CachePolicy) (s : Shard κ ν w) (v : EvictedEntry κ ν w)
    (t : Shard κ ν w) : Prop where
  victim : (∃ before after, s.EvictsCold p v t before after) ∨ ∃ rest, s.EvictsUnderHand p v t rest
  entries : t.entries.get? v.key = none
  bucket : (t.buckets p).list.contains v.key = false ∧
    (s.buckets p).list.keys.Perm (v.key :: (t.buckets p).list.keys)
  /-- No other entry changes its value, size or policy, or is lost. -/
  content : ∀ k, (v.key == k) = false → t.contentOf k = s.contentOf k
  buckets : ∀ q, q ≠ p → t.buckets q = s.buckets q
  /-- The clock bits and frequencies of the other buckets. -/
  elsewhere : ∀ q k, q ≠ p → (s.buckets q).list.contains k = true →
    t.entries.get? k = s.entries.get? k
  sizeCapacity : t.sizeCapacity = s.sizeCapacity

variable [EquivBEq κ] [LawfulHashable κ] {s t : Shard κ ν w} {p : CachePolicy}
  {v : EvictedEntry κ ν w} {out : κ → Bool} {checks : Bool}

omit [Hashable κ] [LawfulHashable κ] in
theorem order_distinct (s : Shard κ ν w) (p : CachePolicy) :
    (s.order p).Pairwise fun a b => (a == b) = false :=
  ((List.rotate_perm _ _).pairwise_iff fun hab => by rwa [BEq.comm]).mpr
    (s.buckets p).list.distinct

omit [Hashable κ] [EquivBEq κ] [LawfulHashable κ] in
theorem length_order (s : Shard κ ν w) (p : CachePolicy) :
    (s.order p).length = (s.buckets p).len :=
  List.length_rotate _ _

omit [Hashable κ] [EquivBEq κ] [LawfulHashable κ] in
theorem getElem?_order (s : Shard κ ν w) {p : CachePolicy} {j : Nat}
    (hj : j < (s.buckets p).len) :
    (s.order p)[j]? =
      (s.buckets p).list.keys[((s.buckets p).hand + j) % (s.buckets p).len]? := by
  rw [order, List.getElem?_rotate hj, Nat.add_comm]
  rfl

omit [EquivBEq κ] [LawfulHashable κ] in
/-- The sweep takes the circular order up to the first cold entry. -/
theorem swept_append_dropWhile (s : Shard κ ν w) (p : CachePolicy) :
    s.swept p ++ (s.order p).dropWhile (fun k => !isCold s.entries k) = s.order p :=
  List.takeWhile_append_dropWhile

namespace Evicts

/-- A key other than the victim's is aged once if the sweep passed over it. -/
theorem agedOnce (h : s.Evicts p v t) {a : κ} (ha : a ∈ s.swept p)
    (hne : (v.key == a) = false) : s.AgedOnce t a := by
  have hage : (aged s.entries (s.swept p)).get? a = (s.entries.get? a).map Entry.age :=
    get?_aged_of_mem (s.swept_distinct p) ha (BEq.refl a)
  rw [AgedOnce, h.get?_spared hne, hage]

/-- And it is left alone if the sweep stopped before it. -/
theorem untouched (h : s.Evicts p v t) {a : κ} (hne : (v.key == a) = false)
    (ha : ∀ b ∈ s.swept p, (b == a) = false) : t.entries.get? a = s.entries.get? a := by
  rw [h.get?_spared hne, get?_aged_of_not_any ha]

/-- The sweep stops on `k`, which is the victim. -/
theorem evictsCold (h : s.Evicts p v t) {k : κ} {after : List κ}
    (hdrop : (s.order p).dropWhile (fun k => !isCold s.entries k) = k :: after) :
    s.EvictsCold p v t (s.swept p) after := by
  have hsplit := s.swept_append_dropWhile p
  rw [hdrop] at hsplit
  have hcold : isCold s.entries k = true := by
    have := List.head?_dropWhile_not (fun k => !isCold s.entries k) (s.order p)
    grind
  have hk : k = v.key := by
    have hj : (s.swept p).length < (s.buckets p).len := by
      rw [← s.length_order p, ← hsplit]
      simp
    have hj' := s.getElem?_order hj
    have hindex := h.index
    rw [← hsplit] at hj'
    rw [victimIndex] at hindex
    grind
  subst hk
  have hd := s.order_distinct p
  rw [← hsplit] at hd
  obtain ⟨-, hd₂, hd₁⟩ := List.pairwise_append.mp hd
  have hbefore : ∀ a ∈ s.swept p, (v.key == a) = false := fun a ha => by
    rw [BEq.comm]
    exact hd₁ a ha _ List.mem_cons_self
  constructor
  · exact hsplit.symm
  · exact fun a ha => swept_warm ha
  · exact hcold
  · rw [← h.entry, get?_aged_of_not_any fun a ha => hd₁ a ha _ List.mem_cons_self]
  · exact fun a ha => h.agedOnce ha (hbefore a ha)
  · intro a ha
    exact h.untouched ((List.pairwise_cons.mp hd₂).1 a ha)
      fun b hb => hd₁ b hb a (List.mem_cons_of_mem _ ha)

/-- Nothing is cold: the lap ends under the hand. -/
theorem evictsUnderHand (h : s.Evicts p v t) (hl : s.Linked out)
    (hdrop : (s.order p).dropWhile (fun k => !isCold s.entries k) = []) :
    ∃ rest, s.EvictsUnderHand p v t rest := by
  have hne := h.bucket_nonempty
  have hhand := (hl.hand p).2 hne
  have hsplit := s.swept_append_dropWhile p
  rw [hdrop, List.append_nil] at hsplit
  have hindex : s.victimIndex p = (s.buckets p).hand := by
    rw [victimIndex, hsplit, length_order, Nat.add_mod_right, Nat.mod_eq_of_lt hhand]
  have hhead : (s.order p)[0]? = some v.key := by
    rw [s.getElem?_order hne, Nat.add_zero, Nat.mod_eq_of_lt hhand, ← hindex, h.index]
  have hd := s.order_distinct p
  cases horder : s.order p with
  | nil => simp [horder] at hhead
  | cons k rest =>
    obtain rfl : k = v.key := by simpa [horder] using hhead
    rw [horder] at hsplit hd
    have hswept : ∀ a ∈ v.key :: rest, a ∈ s.swept p := fun a ha => hsplit ▸ ha
    refine ⟨rest, horder, fun a ha => ?_, ?_, fun a ha => ?_⟩
    · rw [horder] at ha
      exact swept_warm (hswept a ha)
    · rw [← h.entry]
      exact (get?_aged_of_mem (s.swept_distinct p) (hswept _ List.mem_cons_self)
        (BEq.refl _)).symm
    · exact h.agedOnce (hswept a (List.mem_cons_of_mem _ ha)) ((List.pairwise_cons.mp hd).1 a ha)

/-- The victim by the clock rules. -/
theorem clock_victim (h : s.Evicts p v t) (hl : s.Linked out) :
    (∃ before after, s.EvictsCold p v t before after) ∨
      ∃ rest, s.EvictsUnderHand p v t rest := by
  cases hdrop : (s.order p).dropWhile fun k => !isCold s.entries k with
  | cons k after => exact .inl ⟨s.swept p, after, h.evictsCold hdrop⟩
  | nil => exact .inr (h.evictsUnderHand hl hdrop)

/-- Every eviction from a linked shard follows the clock rules. -/
theorem clock (h : s.Evicts p v t) (hl : s.Linked out) : s.ClockEvicts p v t where
  victim := h.clock_victim hl
  entries := h.get?_key
  bucket := by
    obtain ⟨hlt, hkey⟩ := List.getElem?_eq_some_iff.mp h.index
    have hperm := perm_swapRemove hlt
    rw [hkey, ← h.bucket_eq.1] at hperm
    refine ⟨?_, hperm⟩
    have hd := (hperm.pairwise_iff fun hab => by rwa [BEq.comm]).mp (s.buckets p).list.distinct
    exact IndexSet.not_contains_iff.mpr (List.pairwise_cons.mp hd).1
  content k hk := by
    rw [h.contentOf_eq, hk]
    rfl
  buckets q hq := by rw [h.buckets, Function.update_of_ne hq]
  elsewhere q k hq hk := by
    refine h.get?_eq ?_
    have hpol := ((hl.mem q k).mp hk).1
    rw [← Bool.not_eq_true, hl.mem, hpol]
    grind
  sizeCapacity := h.sizeCapacity

end Evicts

/-! ## Totals in a program with overflow checks -/

/-- With overflow checks a total is exact as long as every call returns. -/
theorem step_exact {op : ShardOp κ ν w} {r : ShardReply κ ν w} (hl : s.Linked nowhere)
    (hs : s.sizeCurrent.toNat = s.totalSize) (h : step true s op = .ok r t) :
    t.sizeCurrent.toNat = t.totalSize := by
  cases op with
  | insert key entry =>
    obtain ⟨⟨old, stats, evicted⟩, t', hi, ht⟩ := Outcome.bind_eq_ok.mp h
    cases ht
    obtain ⟨d, u, vs, hsteps, -⟩ := insert_cases hl hi
    obtain ⟨hd, -⟩ := detach_evicting hl hs hsteps.detach
    obtain ⟨hu, -⟩ := hsteps.evictions.evicting hd
    rw [hu.totalSize_put hsteps.entries, Word.toNat_add_checked hsteps.sizeCurrent]
  | get hash equals =>
    cases h
    exact getHash_exact hs hash equals
  | remove key =>
    obtain ⟨r', t', hr, ht⟩ := Outcome.bind_eq_ok.mp h
    cases ht
    rcases remove_cases hr with ⟨-, rfl, -⟩ | ⟨k₀, e, -, -, hget, he, -, hsub, -⟩
    · exact hs
    · exact (remove_exact hs hget he hsub).2
  | drain => cases h; simp [clear, totalSize]
  | clear => cases h; simp [clear, totalSize]

theorem Reachable.exact {cap : BitVec w} (h : s.Reachable true cap) :
    s.sizeCurrent.toNat = s.totalSize := by
  obtain ⟨ops, rs, hrun⟩ := h
  refine (Outcome.run_invariant
    (P := fun s => s.Linked nowhere ∧ s.sizeCurrent.toNat = s.totalSize)
    (fun _ _ _ _ hP hs => ?_) ⟨linked_new _ cap, by simp [new, totalSize]⟩ hrun).2
  exact ⟨step_linked hP.1 hs, step_exact hP.1 hP.2 hs⟩

/-! ## Every call on a reachable shard -/

/-- Every call on a bucket with keys, in every reachable shard, returns a victim by the clock
rules, and the running total drops by its size (without underflow where it is checked). -/
theorem evictFromBucket_clock {cap : BitVec w} (hs : s.Reachable checks cap) (p : CachePolicy)
    (hne : 0 < (s.buckets p).len) :
    (s.buckets p).hand < (s.buckets p).len ∧
      ∃ v t, s.evictFromBucket checks p = .ok (some v) t ∧ s.ClockEvicts p v t ∧
        t.sizeCurrent = s.sizeCurrent - v.entry.size ∧
        (checks = true → v.entry.size ≤ s.sizeCurrent) := by
  have hl := hs.linked
  obtain ⟨v, t, he, hcall⟩ := exists_evicts hl checks hne
  have hfits : checks = true → v.entry.size ≤ s.sizeCurrent := by
    rintro rfl
    have htotal := he.totalSize_eq
    have hsize := hs.exact
    show v.entry.size.toNat ≤ s.sizeCurrent.toNat
    omega
  have hsub : Word.sub checks s.sizeCurrent v.entry.size = some t.sizeCurrent := by
    rw [he.sizeCurrent]
    cases checks with
    | false => exact Word.sub_unchecked _ _
    | true => exact Word.sub_fits true (hfits rfl)
  refine ⟨(hl.hand p).2 hne, v, t, ?_, he.clock hl, he.sizeCurrent, hfits⟩
  rw [hcall, hsub]
  rfl

/-- Three entries, one looked up, then a fourth that takes the place of the second; the hand
is past the first, and the entry under it is looked up. -/
def lookedUp : List (ShardOp Nat Unit 8) :=
  [.insert 0 (.new () 1 .standard), .insert 1 (.new () 1 .standard),
    .insert 2 (.new () 1 .standard), .get (hash 0) (0 == ·), .insert 3 (.new () 1 .standard),
    .get (hash 2) (2 == ·)]

/-- The next eviction passes over the key under the hand and takes the one after it. -/
theorem evictFromBucket_clock_lookedUp :
    ∃ rs s v t, Outcome.run (step true) (new 3) lookedUp = .ok rs s ∧
      s.order .standard = [2, 3, 0] ∧ v.key = 3 ∧
      s.evictFromBucket true .standard = .ok (some v) t ∧ s.ClockEvicts .standard v t := by
  have hfacts : ((Outcome.run (step true) (new 3) lookedUp).bind fun _ s =>
      (s.evictFromBucket true .standard).bind fun v t =>
        .ok (s.order .standard, (s.buckets .standard).len, v.map (·.key)) t).value? =
      some ([2, 3, 0], 3, some 3) := by decide +kernel
  obtain ⟨_, hruns⟩ := Outcome.value?_eq_some.mp hfacts
  obtain ⟨rs, s, hrun, hevict⟩ := Outcome.bind_eq_ok.mp hruns
  obtain ⟨v', t', hcall', hvalues⟩ := Outcome.bind_eq_ok.mp hevict
  simp only [Outcome.ok.injEq, Prod.mk.injEq] at hvalues
  obtain ⟨⟨horder, hlen, hkey⟩, -⟩ := hvalues
  obtain ⟨-, v, t, hcall, hclock, -⟩ :=
    evictFromBucket_clock ⟨lookedUp, rs, hrun⟩ .standard (by omega)
  rw [hcall] at hcall'
  cases hcall'
  exact ⟨rs, s, v, t', hrun, horder, Option.some.inj hkey, hcall, hclock⟩

end Shard

end PriorityLfu
