import PriorityLfu.Shard.Run

/-!
# How long an entry can outlive the sweep

A sweep that ages at least one entry moves the hand, and the hand reaches every position of
the bucket within one lap. So an entry that nobody accesses survives a bounded number of such
sweeps: each one brings the hand nearer to it or ages it. A sweep that finds the entry under
the hand cold moves nothing; it evicts in place, and the last entry of the list moves under
the hand.
-/
namespace PriorityLfu
open Keyed

variable {κ ν : Type} {w : Nat}

/-- How often a sweep passes over the entry before it is cold. -/
def Entry.warmth (e : Entry ν w) : Nat := e.clockBit.toNat + e.frequency.toNat

theorem Entry.warmth_age {e : Entry ν w} (h : e.cold = false) : e.age.warmth + 1 = e.warmth := by
  unfold cold at h
  unfold warmth age
  cases hb : e.clockBit with
  | true => simp; omega
  | false =>
    have hf : e.frequency ≠ 0 := by simpa [hb] using h
    have hle : (1 : UInt8) ≤ e.frequency := by
      have : e.frequency.toNat ≠ 0 := fun h0 => hf (UInt8.toNat_inj.mp h0)
      exact Nat.one_le_iff_ne_zero.mpr this
    have hpos : 1 ≤ e.frequency.toNat := hle
    simp [UInt8.toNat_sub_of_le _ _ hle]
    omega

/-! ## Positions and the hand -/

/-- The number of steps from the hand to position `p` on a circle of at most `bound`
positions. -/
def ahead (bound hand p : Nat) : Nat := if hand ≤ p then p - hand else bound - hand + p

theorem ahead_lt {bound hand p : Nat} (hh : hand < bound) (hp : p < bound) :
    ahead bound hand p < bound := by unfold ahead; split_ifs <;> omega

/-- The hand stops short of position `p` on its way over `m` positions. -/
theorem ahead_gt {n hand p m : Nat} (hh : hand < n) (hp : p < n)
    (hmiss : ∀ j ≤ m, (hand + j) % n ≠ p) : m < ahead n hand p := by
  by_contra hle
  refine hmiss (ahead n hand p) (by omega) ?_
  unfold ahead
  split_ifs with h
  · rw [show hand + (p - hand) = p by omega, Nat.mod_eq_of_lt hp]
  · rw [show hand + (n - hand + p) = n + p by omega, Nat.add_mod_left, Nat.mod_eq_of_lt hp]

/-- Evicting at the position the hand stopped at never takes the hand further from `p`, and
takes it nearer if it moved. The last position moves to the vacated one. -/
theorem ahead_evict {n bound hand p m v : Nat} (hn : n ≤ bound) (hh : hand < n) (hp : p < n)
    (hm : m < ahead n hand p) (hv : v = (hand + m) % n) :
    ahead bound (if v < n - 1 then v else 0) (if p < n - 1 then p else v) + min m 1 ≤
      ahead bound hand p := by
  have hcase : (hand + m < n ∧ v = hand + m) ∨ (n ≤ hand + m ∧ v + n = hand + m) := by
    by_cases h : hand + m < n
    · exact .inl ⟨h, by rw [hv, Nat.mod_eq_of_lt h]⟩
    · have hlt : hand + m - n < n := by unfold ahead at hm; split_ifs at hm <;> omega
      refine .inr ⟨by omega, ?_⟩
      rw [hv, Nat.mod_eq_sub_mod (by omega), Nat.mod_eq_of_lt hlt]
      omega
  unfold ahead at *
  split_ifs at * <;> omega

variable [BEq κ] [Hashable κ]

/-- The entry under the hand of bucket `b` is there and not cold, so that a sweep starts by
ageing it. -/
def Shard.handWarm (s : Shard κ ν w) (b : CachePolicy) : Bool :=
  ((s.buckets b).list.getIndex (s.buckets b).hand).any fun k => !isCold s.entries k

/-- An eviction from bucket `b` by a sweep that moved the hand. -/
def Eviction.moved (b : CachePolicy) (v : Eviction κ ν w) : Bool :=
  v.victim.entry.policy == b && v.before.handWarm b

namespace Shard

variable {checks : Bool} {s t : Shard κ ν w} {b : CachePolicy} {k : κ} {p : Nat} {e : Entry ν w}
  {out : κ → Bool} {bound : Nat} {needed : BitVec w} {vs : List (Eviction κ ν w)}

/-- Key `k` is at position `p` of bucket `b`, with the entry `e`. -/
structure Sits (s : Shard κ ν w) (b : CachePolicy) (k : κ) (p : Nat) (e : Entry ν w) : Prop where
  index : ∃ a, (s.buckets b).list.keys[p]? = some a ∧ (k == a) = true
  entry : s.entries.get? k = some e

/-- What a moving sweep of bucket `b` takes from the entry `e` at position `p`. -/
def potential (bound : Nat) (s : Shard κ ν w) (b : CachePolicy) (p : Nat) (e : Entry ν w) : Nat :=
  e.warmth * bound + ahead bound (s.buckets b).hand p

theorem Sits.lt (h : s.Sits b k p e) : p < (s.buckets b).len := by
  obtain ⟨a, ha, -⟩ := h.index
  exact (List.getElem?_eq_some_iff.mp ha).1

theorem exists_sits (hb : (s.buckets b).list.contains k = true) (he : s.entries.get? k = some e) :
    ∃ p, s.Sits b k p e := by
  obtain ⟨a, ha, hk⟩ := IndexSet.contains_iff.mp hb
  obtain ⟨p, hp, rfl⟩ := List.mem_iff_getElem.mp ha
  exact ⟨p, ⟨⟨_, List.getElem?_eq_getElem hp, hk⟩, he⟩⟩

theorem potential_lt (h : s.Sits b k p e) (hh : (s.buckets b).HandOk)
    (hb : (s.buckets b).len ≤ bound) : potential bound s b p e < (e.warmth + 1) * bound := by
  have hp := h.lt
  have := ahead_lt (Nat.lt_of_lt_of_le (hh.2 (by omega)) hb) (Nat.lt_of_lt_of_le hp hb)
  rw [potential, Nat.succ_mul]
  omega

variable [EquivBEq κ] [LawfulHashable κ]

/-! ## One eviction -/

namespace Evicts

variable {q : CachePolicy} {v : EvictedEntry κ ν w}

omit [LawfulHashable κ] in
/-- A key that is not evicted stays at its place, or moves from the last to the victim's. -/
theorem moved (h : s.Evicts b v t) {p : Nat} {a : κ}
    (ha : (s.buckets b).list.keys[p]? = some a) (hne : p ≠ s.victimIndex b) :
    (t.buckets b).list.keys[if p < (s.buckets b).len - 1 then p else s.victimIndex b]? =
      some a := by
  have hlen : (s.buckets b).list.keys.length = (s.buckets b).len := rfl
  have hp := (List.getElem?_eq_some_iff.mp ha).1
  have hv := victimIndex_lt h.bucket_nonempty
  rw [h.bucket_eq.1]
  by_cases hlast : p < (s.buckets b).len - 1
  · rw [if_pos hlast, getElem?_swapRemove hlast, if_neg hne, ha]
  · have hv' : s.victimIndex b < (s.buckets b).list.keys.length - 1 := by omega
    have hplast : p = (s.buckets b).list.keys.length - 1 := by omega
    rw [if_neg hlast, getElem?_swapRemove hv', if_pos rfl, ← hplast, ha]

/-- The sweep passed over `k` and aged it. -/
theorem get?_of_swept (h : s.Evicts b v t) (he : s.entries.get? k = some e)
    (hk : (v.key == k) = false) {a : κ} (hka : (k == a) = true) (hswept : a ∈ s.swept b) :
    e.cold = false ∧ t.entries.get? k = some e.age := by
  have hcold := swept_warm hswept
  rw [isCold, ← HashMap.get?_congr hka, he] at hcold
  refine ⟨hcold, ?_⟩
  rw [h.get?_spared hk, get?_aged_of_mem (s.swept_distinct b) hswept (by rwa [BEq.comm]), he,
    Option.map_some]

/-- The sweep did not come past `k`. -/
theorem get?_of_not_swept (h : s.Evicts b v t) (he : s.entries.get? k = some e)
    (hk : (v.key == k) = false) {a : κ} (ha : (s.buckets b).list.keys[p]? = some a)
    (hka : (k == a) = true) (hswept : a ∉ s.swept b) : t.entries.get? k = some e := by
  rw [h.get?_spared hk, get?_aged_of_not_any, he]
  intro c hc
  by_contra hck
  have hca : (c == a) = true := by
    rw [← BEq.congr_right hka]
    simpa using hck
  obtain ⟨i, hi⟩ := List.mem_iff_getElem?.mp (swept_subset hc)
  obtain rfl := IndexSet.index_eq_of_beq hi ha hca
  rw [ha] at hi
  cases hi
  exact hswept hc

/-- One eviction from the bucket of `k` that spares `k`. -/
theorem potential_le (h : s.Evicts b v t) (hl : s.Linked out) (hs : s.Sits b k p e)
    (hk : (v.key == k) = false) (hb : (s.buckets b).len ≤ bound) :
    ∃ p' e', t.Sits b k p' e' ∧
      potential bound t b p' e' + min (s.swept b).length 1 ≤ potential bound s b p e := by
  obtain ⟨a, ha, hka⟩ := hs.index
  obtain ⟨hkeys, hhand⟩ := h.bucket_eq
  have hp := hs.lt
  have hh := (hl.hand b).2 h.bucket_nonempty
  have hne : p ≠ s.victimIndex b := by
    rintro rfl
    rw [h.index] at ha
    cases ha
    rw [BEq.comm, hka] at hk
    cases hk
  have hindex := h.moved ha hne
  obtain ⟨p', hp'⟩ : ∃ p', p' = if p < (s.buckets b).len - 1 then p else s.victimIndex b :=
    ⟨_, rfl⟩
  rw [← hp'] at hindex
  by_cases hswept : a ∈ s.swept b
  · obtain ⟨hcold, hage⟩ := h.get?_of_swept hs.entry hk hka hswept
    have ht : t.Sits b k p' e.age := ⟨⟨a, hindex, hka⟩, hage⟩
    have hshort : (t.buckets b).len ≤ bound := by
      have hv := victimIndex_lt h.bucket_nonempty
      have hlen : (s.buckets b).list.keys.length = (s.buckets b).len := rfl
      have : (t.buckets b).len = (s.buckets b).len - 1 := by
        simp [PolicyBucket.len, IndexSet.len, hkeys]
      omega
    have hlt := potential_lt ht ((h.linked hl).hand b) hshort
    rw [Entry.warmth_age hcold] at hlt
    have hle : e.warmth * bound ≤ potential bound s b p e := Nat.le_add_right _ _
    exact ⟨p', e.age, ht, by omega⟩
  · have hmiss : ∀ j ≤ (s.swept b).length,
        ((s.buckets b).hand + j) % (s.buckets b).len ≠ p := by
      rintro j hj rfl
      obtain hj | rfl := Nat.lt_or_eq_of_le hj
      · rw [← swept_getElem? hj] at ha
        exact hswept (List.mem_of_getElem? ha)
      · exact hne rfl
    have hsame := h.get?_of_not_swept hs.entry hk ha hka hswept
    refine ⟨p', e, ⟨⟨a, hindex, hka⟩, hsame⟩, ?_⟩
    have := ahead_evict (v := s.victimIndex b) hb hh hp (ahead_gt hh hp hmiss) rfl
    unfold potential
    rw [hhand, hp']
    omega

omit [LawfulHashable κ] in
theorem len_le (h : s.Evicts q v t) : (t.buckets b).len ≤ (s.buckets b).len := by
  by_cases hq : b = q
  · subst hq
    simp [PolicyBucket.len, IndexSet.len, h.bucket_eq.1]
  · rw [h.buckets, Function.update_of_ne hq]

/-- An eviction from another bucket does not touch `k` or its bucket. -/
theorem sits_of_ne (h : s.Evicts q v t) (hl : s.Linked out) (hs : s.Sits b k p e) (hq : b ≠ q) :
    t.Sits b k p e ∧ t.buckets b = s.buckets b := by
  obtain ⟨a, ha, hka⟩ := hs.index
  have hbucket : t.buckets b = s.buckets b := by rw [h.buckets, Function.update_of_ne hq]
  have hin : s.policyOf k = some b :=
    ((hl.mem b k).mp (IndexSet.contains_iff.mpr ⟨a, List.mem_of_getElem? ha, hka⟩)).1
  have hout : (s.buckets q).list.contains k = false := by
    rw [← Bool.not_eq_true, hl.mem, hin]
    simp [hq]
  refine ⟨⟨⟨a, by rw [hbucket, ha], hka⟩, ?_⟩, hbucket⟩
  rw [h.get?_eq hout, hs.entry]

end Evicts

/-! ## One insertion -/

omit [EquivBEq κ] [LawfulHashable κ] in
theorem swept_pos (h : s.handWarm b = true) : 0 < (s.swept b).length := by
  have hlt : (s.buckets b).hand < (s.buckets b).list.keys.length := by
    by_contra hle
    simp [handWarm, IndexSet.getIndex, List.getElem?_eq_none (Nat.le_of_not_lt hle)] at h
  have hhead : (s.swept b).head?.isSome = true := by
    rw [swept, List.head?_takeWhile, List.head?_rotate hlt, Option.isSome_filter]
    exact h
  cases hs : s.swept b with
  | nil => simp [hs] at hhead
  | cons => simp

theorem Evictions.potential_le (h : Evictions checks needed s vs t) (hl : s.Linked out)
    (hs : s.Sits b k p e) (hk : ∀ v ∈ vs, (v.victim.key == k) = false)
    (hb : (s.buckets b).len ≤ bound) :
    ∃ p' e', t.Sits b k p' e' ∧
      potential bound t b p' e' + vs.countP (·.moved b) ≤ potential bound s b p e := by
  induction h generalizing p e with
  | nil => exact ⟨p, e, hs, by simp⟩
  | @cons s s₁ _ q x vs _ _ call _ ih =>
    obtain ⟨he, -⟩ := evicts_of_call hl call
    have hrest : ∀ v ∈ vs, (v.victim.key == k) = false :=
      fun v hv => hk v (List.mem_cons_of_mem _ hv)
    -- one eviction lowers the potential by one if it moved the hand of `b`
    obtain ⟨p₁, e₁, hs₁, hle⟩ : ∃ p₁ e₁, s₁.Sits b k p₁ e₁ ∧ potential bound s₁ b p₁ e₁ +
        (if Eviction.moved b ⟨s, x⟩ then 1 else 0) ≤ potential bound s b p e := by
      by_cases hq : b = q
      · subst hq
        obtain ⟨p₁, e₁, hs₁, hle⟩ := he.potential_le hl hs (hk _ List.mem_cons_self) hb
        refine ⟨p₁, e₁, hs₁, ?_⟩
        split
        · next hmoved =>
          have hpos : 0 < (s.swept b).length := swept_pos (Bool.and_eq_true_iff.mp hmoved).2
          omega
        · omega
      · obtain ⟨hs₁, hbucket⟩ := he.sits_of_ne hl hs hq
        have hmoved : Eviction.moved b ⟨s, x⟩ = false := by
          simp [Eviction.moved, he.policy_eq hl, Ne.symm hq]
        exact ⟨p, e, hs₁, by simp [potential, hbucket, hmoved]⟩
    obtain ⟨p', e', ht, hle'⟩ := ih (he.linked hl) hs₁ hrest (he.len_le.trans hb)
    refine ⟨p', e', ht, ?_⟩
    rw [List.countP_cons]
    omega

/-- An insertion of a key that is not in the shard. -/
theorem InsertSteps.potential_le {key : κ} {entry : Entry ν w} {d u : Shard κ ν w}
    (h : InsertSteps checks key entry s d u vs t) (hl : s.Linked nowhere)
    (hnew : s.entries.get? key = none) (hs : s.Sits b k p e)
    (hk : (t.entries.get? k).isSome = true) (hb : (s.buckets b).len ≤ bound) :
    ∃ p' e', t.Sits b k p' e' ∧
      potential bound t b p' e' + vs.countP (·.moved b) ≤ potential bound s b p e := by
  obtain rfl : s = d := by
    have hdet := h.detach
    simpa [Shard.detach, hnew] using hdet
  have hd := h.linked_detached hl
  have hne : (key == k) = false := by
    by_contra hkey
    rw [HashMap.get?_congr (by simpa using hkey), hs.entry] at hnew
    cases hnew
  have hspared : ∀ v ∈ vs, (v.victim.key == k) = false := by
    intro v hv
    by_contra hkey
    have hgone := (h.victim hl hv).2.2
    rw [contentOf_congr (by simpa using hkey), contentOf_eq_none] at hgone
    rw [hgone] at hk
    cases hk
  obtain ⟨p', e', hu, hle⟩ := h.evictions.potential_le hd hs hspared hb
  have hsame : t.entries.get? k = some e' := by
    rw [h.entries, HashMap.get?_put, if_neg (by simp [hne]), hu.entry]
  obtain ⟨a, ha, hka⟩ := hu.index
  -- the new key goes to the end of its list
  have hbucket : (t.buckets b).list.keys[p']? = some a ∧
      (t.buckets b).hand = (u.buckets b).hand := by
    rw [h.buckets]
    by_cases hpol : b = entry.policy
    · have hout : (u.buckets entry.policy).list.contains key = false := by
        rw [← Bool.not_eq_true, (h.evictions.linked hd).mem]
        simp
      obtain ⟨hkeys, hhand⟩ :=
        PolicyBucket.insert_of_not_contains ((h.evictions.linked hd).hand entry.policy) hout
      subst hpol
      rw [Function.update_self, hkeys, hhand, List.getElem?_append_left hu.lt]
      exact ⟨ha, rfl⟩
    · rw [Function.update_of_ne hpol]
      exact ⟨ha, rfl⟩
  refine ⟨p', e', ⟨⟨a, hbucket.1, hka⟩, hsame⟩, ?_⟩
  rw [potential, hbucket.2]
  exact hle

/-! ## Continuations that leave an entry alone -/

/-- The call inserts a key that is not in the shard, or looks up a key other than `k`. -/
def spares (s : Shard κ ν w) (k : κ) : ShardOp κ ν w → Bool
  | .insert key _ => (s.entries.get? key).isNone
  | .get hash equals => (s.entries.fromHash hash equals).all fun kv => !(k == kv.1)
  | _ => false

/-- Every call of a continuation spares `k`; before and after each call `k` is present and
the list of bucket `b` has at most `bound` keys. -/
def quiet (checks : Bool) (b : CachePolicy) (k : κ) (bound : Nat) :
    Shard κ ν w → List (ShardOp κ ν w) → Bool
  | s, [] => (s.entries.get? k).isSome && decide ((s.buckets b).len ≤ bound)
  | s, op :: ops => (s.entries.get? k).isSome && decide ((s.buckets b).len ≤ bound) &&
      s.spares k op && quiet checks b k bound (step checks s op).state ops

theorem quiet_here {ops : List (ShardOp κ ν w)} (h : s.quiet checks b k bound ops = true) :
    (s.entries.get? k).isSome = true ∧ (s.buckets b).len ≤ bound := by
  cases ops <;> simp_all [quiet]

/-- The evictions that one call makes on its way from `s` to `t`: those of an insertion, in order.
No other call evicts. -/
inductive StepEvictions (checks : Bool) (s t : Shard κ ν w) :
    ShardOp κ ν w → List (Eviction κ ν w) → Prop where
  | insert {key : κ} {entry : Entry ν w} {d u : Shard κ ν w} {vs : List (Eviction κ ν w)}
      (steps : InsertSteps checks key entry s d u vs t) :
      StepEvictions checks s t (.insert key entry) vs
  | other {op : ShardOp κ ν w} {r : ShardReply κ ν w}
      (hop : ∀ key entry, op ≠ .insert key entry) (call : step checks s op = .ok r t) :
      StepEvictions checks s t op []

/-- The evictions that a run makes on its way from `s` to `t`, each with the shard it finds. -/
inductive RunEvictions (checks : Bool) :
    Shard κ ν w → List (ShardOp κ ν w) → List (Eviction κ ν w) → Shard κ ν w → Prop where
  | nil (s : Shard κ ν w) : RunEvictions checks s [] [] s
  | cons {s t u : Shard κ ν w} {op : ShardOp κ ν w} {ops : List (ShardOp κ ν w)}
      {vs vs' : List (Eviction κ ν w)} (call : StepEvictions checks s t op vs)
      (rest : RunEvictions checks t ops vs' u) : RunEvictions checks s (op :: ops) (vs ++ vs') u

/-- The victims of a call that returns are what it reports. -/
theorem exists_stepEvictions {op : ShardOp κ ν w} {r : ShardReply κ ν w} (hl : s.Linked nowhere)
    (h : step checks s op = .ok r t) :
    ∃ vs, StepEvictions checks s t op vs ∧ vs.map (·.victim) = r.evicted := by
  cases op with
  | insert key entry =>
    obtain ⟨⟨old, stats, evicted⟩, t', hi, ht⟩ := Outcome.bind_eq_ok.mp h
    cases ht
    obtain ⟨d, u, vs, hsteps, -, rfl, -⟩ := insert_cases hl hi
    exact ⟨vs, .insert hsteps, rfl⟩
  | remove key =>
    have hstep := h
    obtain ⟨r', t', hr, ht⟩ := Outcome.bind_eq_ok.mp h
    cases ht
    exact ⟨[], .other nofun hstep, rfl⟩
  | get hash equals | drain | clear =>
    cases h
    exact ⟨[], .other nofun rfl, rfl⟩

theorem exists_runEvictions {ops : List (ShardOp κ ν w)} {rs : List (ShardReply κ ν w)}
    (hl : s.Linked nowhere) (h : Outcome.run (step checks) s ops = .ok rs t) :
    ∃ vs, RunEvictions checks s ops vs t ∧
      vs.map (·.victim) = rs.flatMap ShardReply.evicted := by
  induction ops generalizing s rs with
  | nil =>
    cases h
    exact ⟨[], .nil _, rfl⟩
  | cons op ops ih =>
    obtain ⟨r, s', rs', hr, hrs, rfl⟩ := Outcome.run_cons_eq_ok.mp h
    obtain ⟨vs, hcall, hvs⟩ := exists_stepEvictions hl hr
    obtain ⟨vs', hrest, hvs'⟩ := ih (step_linked hl hr) hrs
    exact ⟨vs ++ vs', .cons hcall hrest, by rw [List.map_append, hvs, hvs', List.flatMap_cons]⟩

/-- A lookup of another key changes neither the entry of `k` nor its place. -/
theorem sits_getHash {hash : UInt64} {equals : κ → Bool} (hs : s.Sits b k p e)
    (hsp : s.spares k (.get hash equals) = true) : (s.getHash hash equals).2.Sits b k p e := by
  refine ⟨?_, ?_⟩
  · rw [(getHash_frame s hash equals).1]
    exact hs.index
  · unfold getHash
    cases hfind : s.entries.fromHash hash equals with
    | none => exact hs.entry
    | some kv =>
      have hne : (k == kv.1) = false := by simpa [spares, hfind] using hsp
      show (s.entries.modify kv.1 Entry.touch).get? k = some e
      rw [HashMap.get?_modify, if_neg (by rw [BEq.comm, hne]; simp), hs.entry]

/-- One call of a continuation. -/
theorem StepEvictions.potential_le {op : ShardOp κ ν w} (h : StepEvictions checks s t op vs)
    (hl : s.Linked nowhere) (hs : s.Sits b k p e) (hsp : s.spares k op = true)
    (hk : (t.entries.get? k).isSome = true) (hb : (s.buckets b).len ≤ bound) :
    ∃ p' e', t.Sits b k p' e' ∧
      potential bound t b p' e' + vs.countP (·.moved b) ≤ potential bound s b p e := by
  cases h with
  | insert hsteps =>
    exact hsteps.potential_le hl (Option.isNone_iff_eq_none.mp hsp) hs hk hb
  | @other op r hop hcall =>
    cases op with
    | insert key entry => exact absurd rfl (hop key entry)
    | get hash equals =>
      cases hcall
      refine ⟨p, e, sits_getHash hs hsp, ?_⟩
      have hbuckets := (getHash_frame s hash equals).1
      show potential bound (s.getHash hash equals).2 b p e + 0 ≤ _
      rw [potential, hbuckets]
      exact le_refl _
    | remove key | drain | clear => cases hsp

theorem run_potential_le {ops : List (ShardOp κ ν w)} {rs : List (ShardReply κ ν w)}
    (hl : s.Linked nowhere) (hs : s.Sits b k p e) (hq : s.quiet checks b k bound ops = true)
    (h : Outcome.run (step checks) s ops = .ok rs t) :
    ∃ (vs : List (Eviction κ ν w)) (p' : Nat) (e' : Entry ν w),
      RunEvictions checks s ops vs t ∧ vs.map (·.victim) = rs.flatMap ShardReply.evicted ∧
      t.Sits b k p' e' ∧
      potential bound t b p' e' + vs.countP (·.moved b) ≤ potential bound s b p e := by
  induction ops generalizing s rs p e with
  | nil =>
    cases h
    exact ⟨[], p, e, .nil _, rfl, hs, le_refl _⟩
  | cons op ops ih =>
    obtain ⟨r, s', rs', hr, hrs, rfl⟩ := Outcome.run_cons_eq_ok.mp h
    simp only [quiet, hr, Outcome.state, Bool.and_eq_true, decide_eq_true_eq] at hq
    obtain ⟨⟨⟨-, hb⟩, hsp⟩, hrest⟩ := hq
    obtain ⟨vs, hcall, hvs⟩ := exists_stepEvictions hl hr
    obtain ⟨p₁, e₁, hs₁, hle⟩ := hcall.potential_le hl hs hsp (quiet_here hrest).1 hb
    obtain ⟨vs', p', e', hcalls, hvs', ht, hle'⟩ := ih (step_linked hl hr) hs₁ hrest hrs
    refine ⟨vs ++ vs', p', e', .cons hcall hcalls, ?_, ht, ?_⟩
    · rw [List.map_append, hvs, hvs', List.flatMap_cons]
    · rw [List.countP_append]
      omega

/-- While an entry with clock bit `c` and frequency `f` that nobody accesses is present, its
bucket loses at most `(c + f + 1) * bound` entries to sweeps that move the hand, `bound`
being a bound on the length of the bucket. Evictions under a hand that does not move are
not bounded: the last entry of the list replaces the victim there. -/
theorem moving_evictions_bounded {cap : BitVec w} (hs : s.Reachable checks cap)
    (hb : (s.buckets b).list.contains k = true) (he : s.entries.get? k = some e)
    {ops : List (ShardOp κ ν w)} {rs : List (ShardReply κ ν w)}
    (hq : s.quiet checks b k bound ops = true)
    (h : Outcome.run (step checks) s ops = .ok rs t) :
    ∃ vs : List (Eviction κ ν w), RunEvictions checks s ops vs t ∧
      vs.map (·.victim) = rs.flatMap ShardReply.evicted ∧
      vs.countP (·.moved b) ≤ (e.clockBit.toNat + e.frequency.toNat + 1) * bound := by
  have hl := hs.linked
  obtain ⟨p, hp⟩ := exists_sits hb he
  obtain ⟨vs, p', e', hcalls, hvs, -, hle⟩ := run_potential_le hl hp hq h
  have hlt := potential_lt hp (hl.hand b) (quiet_here hq).2
  simp only [Entry.warmth] at hlt
  exact ⟨vs, hcalls, hvs, by omega⟩

/-- Three entries of size 1. -/
def residents : List (ShardOp Nat Unit 8) :=
  [0, 1, 2].map fun key => .insert key (.new () 1 .standard)

/-- The sweep for one newcomer passes over a resident that was looked up, and moves the hand. -/
theorem moving_evictions_bounded_once :
    ∃ rs s rs' t vs, Outcome.run (step true) (new 3) residents = .ok rs s ∧
      Outcome.run (step true) s [.get (hash 0) (0 == ·), .insert 3 (.new () 1 .standard)] =
        .ok rs' t ∧
      RunEvictions true s [.get (hash 0) (0 == ·), .insert 3 (.new () 1 .standard)] vs t ∧
      vs.map (·.victim) = rs'.flatMap ShardReply.evicted ∧
      vs.countP (·.moved .standard) ≤ (0 + 0 + 1) * 3 := by
  obtain ⟨rs, s, hrun⟩ : ∃ rs s, Outcome.run (step true) (new 3) residents = .ok rs s :=
    ⟨_, _, rfl⟩
  have hfacts : ((Outcome.run (step true) (new 3) residents).bind fun _ s =>
      (Outcome.run (step true) s [.get (hash 0) (0 == ·), .insert 3 (.new () 1 .standard)]).bind
        fun _ t => .ok ((s.buckets .standard).list.contains 2, s.entries.get? 2,
          s.quiet true .standard 2 3
            [.get (hash 0) (0 == ·), .insert 3 (.new () 1 .standard)]) t).value? =
      some (true, some (.new () 1 .standard), true) := by decide +kernel
  rw [hrun, Outcome.bind_ok] at hfacts
  obtain ⟨_, hstream⟩ := Outcome.value?_eq_some.mp hfacts
  obtain ⟨rs', t, hrun', hvalues⟩ := Outcome.bind_eq_ok.mp hstream
  simp only [Outcome.ok.injEq, Prod.mk.injEq] at hvalues
  obtain ⟨⟨hin, hget, hquiet⟩, -⟩ := hvalues
  obtain ⟨vs, hcalls, hvs, hle⟩ :=
    moving_evictions_bounded ⟨residents, rs, hrun⟩ hin hget hquiet hrun'
  exact ⟨rs, s, rs', t, vs, hrun, hrun', hcalls, hvs, hle⟩

/-- New entries of size 1, one after the other. -/
def newcomers (n : Nat) : List (ShardOp Nat Unit 8) :=
  (List.range n).map fun i => .insert (i + 3) (.new () 1 .standard)

/-- In a shard of capacity 3 the second of three residents, never accessed, outlives seven
newcomers evicted from its bucket of three: each newcomer takes the place of the one before
it under the hand. -/
theorem resident_outlives_newcomers :
    ∃ rs s rs' t, Outcome.run (step true) (new 3) residents = .ok rs s ∧
      (s.buckets .standard).list.contains 1 = true ∧
      s.entries.get? 1 = some (.new () 1 .standard) ∧
      s.quiet true .standard 1 3 (newcomers 7) = true ∧ (s.buckets .standard).len = 3 ∧
      Outcome.run (step true) s (newcomers 7) = .ok rs' t ∧
      2 * (0 + 0 + 1) * 3 <
        (rs'.flatMap ShardReply.evicted).countP (·.entry.policy = .standard) := by
  obtain ⟨rs, s, hrun⟩ : ∃ rs s, Outcome.run (step true) (new 3) residents = .ok rs s :=
    ⟨_, _, rfl⟩
  have hfacts : ((Outcome.run (step true) (new 3) residents).bind fun _ s =>
      (Outcome.run (step true) s (newcomers 7)).bind fun rs' t =>
        .ok ((s.buckets .standard).list.contains 1, s.entries.get? 1,
          s.quiet true .standard 1 3 (newcomers 7), (s.buckets .standard).len,
          (rs'.flatMap ShardReply.evicted).countP (·.entry.policy = .standard)) t).value? =
      some (true, some (.new () 1 .standard), true, 3, 7) := by decide +kernel
  rw [hrun, Outcome.bind_ok] at hfacts
  obtain ⟨t, hstream⟩ := Outcome.value?_eq_some.mp hfacts
  obtain ⟨rs', t', hrun', hvalues⟩ := Outcome.bind_eq_ok.mp hstream
  simp only [Outcome.ok.injEq, Prod.mk.injEq] at hvalues
  obtain ⟨⟨hin, hget, hquiet, hlen, hcount⟩, -⟩ := hvalues
  exact ⟨rs, s, rs', t', hrun, hin, hget, hquiet, hlen, hrun', by rw [hcount]; decide⟩

end Shard

end PriorityLfu
