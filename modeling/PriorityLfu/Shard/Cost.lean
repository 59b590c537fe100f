import PriorityLfu.Library.Potential
import PriorityLfu.Shard.Starvation

/-!
# What the clock sweep costs

The steps of the sweep are counted: the iterations of phase 1 of `evict_from_bucket`, summed
over all calls an insertion makes. A sweep takes one unit of warmth from every entry it passes
over, and the entry it stops at leaves, so the entries and their warmth pay for all sweeps:
a fresh entry brings one unit and a hit at most two.
-/
namespace PriorityLfu
open Keyed

variable {κ ν : Type} {w : Nat} [BEq κ] [Hashable κ]

/-! ## The steps -/

/-- The iterations that `sweep` makes. -/
def sweepSteps (list : IndexSet κ) (bucketLen : Nat) : Nat → HashMap κ (Entry ν w) → Nat → Nat
  | 0, _, _ => 0
  | n + 1, entries, hand =>
    match list.getIndex hand with
    | none => 1
    | some keyRef =>
      match entries.get? keyRef with
      | none => 1
      | some entry =>
        if entry.clockBit then
          let entries := entries.modify keyRef fun e => { e with clockBit := false }
          1 + sweepSteps list bucketLen n entries (advance bucketLen hand)
        else if entry.frequency = 0 then 1
        else
          let entries := entries.modify keyRef fun e => { e with frequency := e.frequency - 1 }
          1 + sweepSteps list bucketLen n entries (advance bucketLen hand)

namespace Shard

/-- The iterations of one `evictFromBucket`. -/
def evictSteps (self : Shard κ ν w) (p : CachePolicy) : Nat :=
  let bucket := self.buckets p
  if bucket.isEmpty then 0
  else sweepSteps bucket.list bucket.len bucket.len self.entries bucket.hand

variable [EquivBEq κ]

/-- The iterations of `evictWhile`, over all its rounds. -/
def evictWhileSteps (checks : Bool) (neededSize : BitVec w) (p : CachePolicy) :
    Nat → Shard κ ν w → EvictionStats w → Nat
  | rounds, self, stats =>
    match Word.add checks self.sizeCurrent neededSize with
    | none => 0
    | some total =>
      if total > self.sizeCapacity then
        match rounds with
        | 0 => 0
        | rounds + 1 =>
          self.evictSteps p +
            match self.evictFromBucket checks p with
            | .ok (some e) self =>
              match Word.add checks stats.size e.entry.size with
              | none => 0
              | some size =>
                evictWhileSteps checks neededSize p rounds self { count := stats.count + 1, size }
            | _ => 0
      else 0

/-- The iterations of `evictBuckets`, over the buckets that are left. -/
def evictBucketsSteps (checks : Bool) (neededSize : BitVec w) :
    List CachePolicy → Shard κ ν w → EvictionStats w → List (EvictedEntry κ ν w) → Nat
  | [], _, _, _ => 0
  | p :: ps, self, stats, evicted =>
    evictWhileSteps checks neededSize p self.entries.len self stats +
      match evictWhile checks neededSize p self.entries.len self stats evicted with
      | .panic _ => 0
      | .ok (stats, evicted) self =>
        match Word.add checks self.sizeCurrent neededSize with
        | none => 0
        | some total =>
          if total ≤ self.sizeCapacity then 0
          else evictBucketsSteps checks neededSize ps self stats evicted

/-- The iterations of all sweeps of an insertion. -/
def insertSteps (self : Shard κ ν w) (checks : Bool) (key : κ) (entry : Entry ν w) : Nat :=
  match self.detach checks key with
  | .panic _ => 0
  | .ok _ self => evictBucketsSteps checks entry.size CachePolicy.evictionOrder self ⟨0, 0⟩ []

/-- The iterations of all sweeps of a call. -/
def opSteps (checks : Bool) (self : Shard κ ν w) : ShardOp κ ν w → Nat
  | .insert key entry => self.insertSteps checks key entry
  | _ => 0

end Shard

/-! ## The credit -/

/-- What the entries of a table pay for: their warmth, and one unit each for leaving. -/
def credit (entries : HashMap κ (Entry ν w)) : Nat :=
  (entries.values.map fun e => e.warmth + 1).sum

theorem Entry.warmth_le (e : Entry ν w) : e.warmth ≤ 256 := by
  have hbit : e.clockBit.toNat ≤ 1 := Bool.toNat_le _
  have hfreq := e.frequency.toNat_lt
  unfold warmth
  omega

/-- A hit warms an entry by at most two units. -/
theorem Entry.warmth_touch_le (e : Entry ν w) : e.touch.warmth ≤ e.warmth + 2 := by
  unfold touch warmth
  dsimp only
  split
  · have : (e.frequency + 1).toNat ≤ e.frequency.toNat + 1 := by
      rw [UInt8.toNat_add]
      exact Nat.mod_le _ _
    simp
    omega
  · simp
    omega

omit [Hashable κ] in
theorem credit_le (entries : HashMap κ (Entry ν w)) : credit entries ≤ 257 * entries.len := by
  have hle : ∀ x ∈ entries.values.map fun e => e.warmth + 1, x ≤ 257 := by
    intro x hx
    obtain ⟨e, -, rfl⟩ := List.mem_map.mp hx
    exact Nat.succ_le_succ e.warmth_le
  have hsum := List.sum_le_card_nsmul _ 257 hle
  rwa [List.length_map, HashMap.length_values, smul_eq_mul, Nat.mul_comm] at hsum

variable [EquivBEq κ] [LawfulHashable κ]

theorem credit_modify {entries : HashMap κ (Entry ν w)} {k : κ} {e : Entry ν w}
    (he : entries.get? k = some e) (f : Entry ν w → Entry ν w) :
    e.warmth + credit (entries.modify k f) = (f e).warmth + credit entries := by
  have := ((HashMap.perm_modify he f).map fun e => e.warmth + 1).sum_eq
  simp only [List.map_cons, List.sum_cons] at this
  unfold credit
  omega

theorem credit_erase {entries : HashMap κ (Entry ν w)} {k : κ} {e : Entry ν w}
    (he : entries.get? k = some e) : credit entries = e.warmth + 1 + credit (entries.erase k) := by
  exact ((HashMap.perm_erase he).map fun e => e.warmth + 1).sum_eq

theorem credit_put (entries : HashMap κ (Entry ν w)) (k : κ) (e : Entry ν w) :
    credit (entries.put k e).2 ≤ e.warmth + 1 + credit entries := by
  have := ((HashMap.perm_put entries k e).map fun e => e.warmth + 1).sum_eq
  simp only [List.map_append, List.sum_append, List.map_cons, List.sum_cons] at this
  unfold credit
  omega

/-! ## One sweep -/

/-- One step of a sweep: it is the last, or it took a unit of warmth. -/
theorem sweepSteps_succ (list : IndexSet κ) (len n hand : Nat) (entries : HashMap κ (Entry ν w)) :
    (sweepSteps list len (n + 1) entries hand = 1 ∧
      (sweep list len (n + 1) entries hand).entries = entries) ∨
    ∃ k₀ e, entries.get? k₀ = some e ∧ e.cold = false ∧
      sweepSteps list len (n + 1) entries hand =
        1 + sweepSteps list len n (entries.modify k₀ Entry.age) (advance len hand) ∧
      sweep list len (n + 1) entries hand =
        sweep list len n (entries.modify k₀ Entry.age) (advance len hand) := by
  cases hget : list.getIndex hand with
  | none => exact .inl (by simp [sweepSteps, sweep, hget, Sweep.entries])
  | some k₀ =>
    cases he : entries.get? k₀ with
    | none => exact .inl (by simp [sweepSteps, sweep, hget, he, Sweep.entries])
    | some e =>
      cases hcold : e.cold with
      | true =>
        have hbit : e.clockBit = false ∧ e.frequency = 0 := by simpa [Entry.cold] using hcold
        exact .inl (by simp [sweepSteps, sweep, hget, he, hbit, Sweep.entries])
      | false =>
        refine .inr ⟨k₀, e, he, hcold, ?_, sweep_of_warm hget he hcold⟩
        by_cases hbit : e.clockBit = true
        · have := HashMap.modify_congr (f := fun e => { e with clockBit := false })
            (g := Entry.age) he (by simp [Entry.age, hbit])
          simp [sweepSteps, hget, he, hbit, this]
        · have hfreq : e.frequency ≠ 0 := fun h0 => by simp [Entry.cold, hbit, h0] at hcold
          have := HashMap.modify_congr (f := fun e => { e with frequency := e.frequency - 1 })
            (g := Entry.age) he (by simp [Entry.age, hbit])
          simp [sweepSteps, hget, he, hbit, hfreq, this]

/-- A sweep pays for all its steps but one with the warmth it takes. -/
theorem sweepSteps_le (list : IndexSet κ) (len n hand : Nat) (entries : HashMap κ (Entry ν w)) :
    sweepSteps list len n entries hand + credit (sweep list len n entries hand).entries ≤
      credit entries + 1 := by
  induction n generalizing entries hand with
  | zero => simp [sweepSteps, sweep, Sweep.entries]
  | succ n ih =>
    rcases sweepSteps_succ list len n hand entries with ⟨hsteps, hend⟩ |
      ⟨k₀, e, he, hwarm, hsteps, hnext⟩
    · rw [hsteps, hend, Nat.add_comm]
    · have hage := credit_modify he Entry.age
      have hlost := Entry.warmth_age hwarm
      have hrest := ih (advance len hand) (entries.modify k₀ Entry.age)
      rw [hsteps, hnext]
      omega

namespace Shard

variable {checks : Bool} {needed : BitVec w} {s t : Shard κ ν w} {p : CachePolicy}
  {v : EvictedEntry κ ν w} {out : κ → Bool} {key : κ} {entry : Entry ν w}

/-- The sweep of a call on a bucket with keys ages the keys it passes over. -/
theorem Linked.entries_sweep (hl : s.Linked out) (hne : 0 < (s.buckets p).len) :
    (sweep (s.buckets p).list (s.buckets p).len (s.buckets p).len s.entries
      (s.buckets p).hand).entries = aged s.entries (s.swept p) := by
  have hpresent : ∀ k ∈ (s.buckets p).list.keys, (s.entries.get? k).isSome := by
    intro k hk
    obtain ⟨e, he, -⟩ := policyOf_eq_some.mp ((hl.mem p k).mp (IndexSet.contains_of_mem hk)).1
    simp [he]
  have hsweep := sweep_eq (le_refl _) ((hl.hand p).2 hne) hpresent
  have htake : ((s.buckets p).list.keys.rotate (s.buckets p).hand).take (s.buckets p).list.len =
      (s.buckets p).list.keys.rotate (s.buckets p).hand := by simp [IndexSet.len]
  rw [show (s.buckets p).len = (s.buckets p).list.len from rfl, hsweep]
  simp only [htake]
  split <;> rfl

/-- The credit pays for an eviction: the victim leaves one unit for the last step. -/
theorem Evicts.steps_le (h : s.Evicts p v t) (hl : s.Linked out) :
    s.evictSteps p + credit t.entries ≤ credit s.entries := by
  have hne := h.bucket_nonempty
  have hempty : (s.buckets p).isEmpty = false := by
    rw [← Bool.not_eq_true, PolicyBucket.isEmpty_iff]
    omega
  have hsteps := sweepSteps_le (s.buckets p).list (s.buckets p).len (s.buckets p).len
    (s.buckets p).hand s.entries
  have hleave := credit_erase h.entry
  rw [hl.entries_sweep hne] at hsteps
  rw [evictSteps, hempty, h.entries]
  simp only [Bool.false_eq_true, if_false]
  omega

/-! ## The loops -/

theorem evictWhileSteps_le {rounds : Nat} {stats stats' : EvictionStats w}
    {evicted evicted' : List (EvictedEntry κ ν w)} (hl : s.Linked out)
    (h : evictWhile checks needed p rounds s stats evicted = .ok (stats', evicted') t) :
    t.Linked out ∧
      evictWhileSteps checks needed p rounds s stats + credit t.entries ≤ credit s.entries := by
  induction rounds generalizing s stats evicted with
  | zero =>
    rw [evictWhile] at h
    simp only [Outcome.bind_eq_ok, Outcome.check_eq_ok] at h
    obtain ⟨total, _, ⟨hadd, rfl⟩, h⟩ := h
    rw [evictWhileSteps, hadd]
    split at h <;> cases h <;> exact ⟨hl, by simp⟩
  | succ rounds ih =>
    rw [evictWhile] at h
    simp only [Outcome.bind_eq_ok, Outcome.check_eq_ok] at h
    obtain ⟨total, _, ⟨hadd, rfl⟩, h⟩ := h
    rw [evictWhileSteps, hadd]
    split at h
    · next hfull =>
      obtain ⟨r, s', hr, hrest⟩ := Outcome.bind_eq_ok.mp h
      simp only [hfull, if_true, hr]
      rcases evictFromBucket_cases hl hr with ⟨rfl, rfl, hempty⟩ | ⟨v, rfl, he, -, -⟩
      · cases hrest
        exact ⟨hl, by simp [evictSteps, PolicyBucket.isEmpty_iff.mpr hempty]⟩
      · simp only [Outcome.bind_eq_ok, Outcome.check_eq_ok] at hrest
        obtain ⟨size, _, ⟨hsize, rfl⟩, hrest⟩ := hrest
        have hfirst := he.steps_le hl
        obtain ⟨ht, hlater⟩ := ih (he.linked hl) hrest
        refine ⟨ht, ?_⟩
        simp only [hsize]
        omega
    · next hfull =>
      cases h
      exact ⟨hl, by simp [hfull]⟩

theorem evictBucketsSteps_le {ps : List CachePolicy} {stats stats' : EvictionStats w}
    {evicted evicted' : List (EvictedEntry κ ν w)} (hl : s.Linked out)
    (h : evictBuckets checks needed ps s stats evicted = .ok (stats', evicted') t) :
    evictBucketsSteps checks needed ps s stats evicted + credit t.entries ≤ credit s.entries := by
  induction ps generalizing s stats evicted with
  | nil =>
    cases h
    simp [evictBucketsSteps]
  | cons p ps ih =>
    obtain ⟨⟨stats₁, evicted₁⟩, s₁, h₁, h⟩ := Outcome.bind_eq_ok.mp h
    obtain ⟨hl₁, hfirst⟩ := evictWhileSteps_le hl h₁
    simp only [Outcome.bind_eq_ok, Outcome.check_eq_ok] at h
    obtain ⟨total, _, ⟨hadd, rfl⟩, h⟩ := h
    rw [evictBucketsSteps, h₁]
    simp only [hadd]
    split at h
    · next hfits =>
      cases h
      simpa [hfits] using hfirst
    · next hfits =>
      have hlater := ih hl₁ h
      simp only [hfits, if_false]
      omega

/-- An insertion is paid for by what is stored and by its own entry. -/
theorem insertSteps_le {r : Option (Entry ν w) × EvictionStats w × List (EvictedEntry κ ν w)}
    (hl : s.Linked nowhere) (h : s.insert checks key entry = .ok r t) :
    s.insertSteps checks key entry + credit t.entries ≤ credit s.entries + (entry.warmth + 1) := by
  simp only [insert, setBucket, Outcome.bind_eq_ok, Outcome.check_eq_ok] at h
  obtain ⟨_, d, hdet, ⟨stats, evicted⟩, u, hev, x, _, ⟨-, rfl⟩, hret⟩ := h
  obtain ⟨hd, hde, -, -⟩ := detach_cases hl hdet
  have hsteps := evictBucketsSteps_le hd hev
  have hput := credit_put u.entries key entry
  cases hret
  rw [insertSteps, hdet]
  rw [hde] at hsteps
  dsimp only
  omega

/-! ## Calls and runs -/

/-- What a stored entry pays for is part of the credit. -/
theorem le_credit {entries : HashMap κ (Entry ν w)} {k : κ} {e : Entry ν w}
    (he : entries.get? k = some e) : e.warmth + 1 ≤ credit entries :=
  List.single_le_sum (fun _ _ => Nat.zero_le _) _
    (List.mem_map_of_mem (HashMap.mem_values_of_get? he))

theorem credit_getHash (s : Shard κ ν w) (hash : UInt64) (equals : κ → Bool) :
    credit (s.getHash hash equals).2.entries ≤
      credit s.entries + if (s.getHash hash equals).1.isSome then 2 else 0 := by
  unfold getHash
  cases hfind : s.entries.fromHash hash equals with
  | none => simp
  | some kv =>
    obtain ⟨-, -, hget⟩ := HashMap.fromHash_eq_some hfind
    have hmodify := credit_modify hget Entry.touch
    have htouch := kv.2.warmth_touch_le
    simp only [Option.isSome_some, if_true]
    omega

end Shard

/-- What a call brings in: an insertion the credit of its entry, which is 1 for a fresh one,
and a lookup that finds something 2. -/
def ShardOp.pay : ShardOp κ ν w → ShardReply κ ν w → Nat
  | .insert _ entry, _ => entry.warmth + 1
  | .get _ _, .got (some _) => 2
  | _, _ => 0

omit [BEq κ] [Hashable κ] [EquivBEq κ] [LawfulHashable κ] in
theorem ShardOp.pay_get (hash : UInt64) (equals : κ → Bool) (r : Option (Entry ν w)) :
    (ShardOp.get hash equals).pay (.got r) = if r.isSome then 2 else 0 := by
  cases r <;> rfl

namespace Shard

variable {checks : Bool} {s t : Shard κ ν w}

/-- One call: its sweeps are paid for by the credit it finds and by what it brings in. -/
theorem step_steps_le {op : ShardOp κ ν w} {r : ShardReply κ ν w} (hl : s.Linked nowhere)
    (h : step checks s op = .ok r t) :
    s.opSteps checks op + credit t.entries ≤ credit s.entries + op.pay r := by
  cases op with
  | insert key entry =>
    obtain ⟨⟨old, stats, evicted⟩, t', hi, ht⟩ := Outcome.bind_eq_ok.mp h
    cases ht
    exact insertSteps_le hl hi
  | get hash equals =>
    cases h
    show 0 + credit (s.getHash hash equals).2.entries ≤
      credit s.entries + ShardOp.pay _ (.got (s.getHash hash equals).1)
    rw [ShardOp.pay_get, Nat.zero_add]
    exact credit_getHash s hash equals
  | remove key =>
    obtain ⟨r', t', hr, ht⟩ := Outcome.bind_eq_ok.mp h
    cases ht
    rcases remove_cases hr with ⟨-, rfl, -⟩ | ⟨k₀, e, -, -, hget, he, -, -, -⟩
    · simp [opSteps, ShardOp.pay]
    · have hleave := credit_erase hget
      rw [he]
      simp only [opSteps, ShardOp.pay]
      omega
  | drain => cases h; simp [opSteps, ShardOp.pay, clear, credit]
  | clear => cases h; simp [opSteps, ShardOp.pay, clear, credit]

/-- However long single sweeps are, all sweeps of a run together make at most one step for
each entry inserted and two for each lookup that found something. -/
theorem sweeps_amortized (checks : Bool) (cap : BitVec w) (ops : List (ShardOp κ ν w))
    {rs : List (ShardReply κ ν w)} (h : Outcome.run (step checks) (new cap) ops = .ok rs s) :
    Outcome.runCost (step checks) (opSteps checks) (new cap) ops ≤
      ((ops.zip rs).map fun p => p.1.pay p.2).sum := by
  have hstart : credit (new cap : Shard κ ν w).entries = 0 := by simp [new, credit]
  have hcost : Outcome.runCost (step checks) (opSteps checks) (new cap) ops + credit s.entries ≤
      credit (new cap : Shard κ ν w).entries + ((ops.zip rs).map fun p => p.1.pay p.2).sum :=
    Outcome.run_cost_le (I := Linked nowhere)
      (fun _ _ _ _ hl hs => ⟨step_linked hl hs, step_steps_le hl hs⟩) (linked_new _ cap) h
  omega

/-- The sweeps of one insertion make at most 257 steps for each stored entry: 256 to make it
cold and one to evict it. -/
theorem insert_sweeps_linear {cap : BitVec w} (hs : s.Reachable checks cap) {key : κ}
    {entry : Entry ν w} {r : Option (Entry ν w) × EvictionStats w × List (EvictedEntry κ ν w)}
    (h : s.insert checks key entry = .ok r t) :
    s.insertSteps checks key entry ≤ 257 * s.entries.len := by
  obtain ⟨old, stats, evicted⟩ := r
  have hsteps := insertSteps_le hs.linked h
  obtain ⟨d, u, vs, hstages, -⟩ := insert_cases hs.linked h
  have hnew := le_credit hstages.get?_key
  have hall := credit_le s.entries
  omega

/-- Two entries, one of them looked up three times, and one too many. -/
def crowd : List (ShardOp Nat Unit 8) :=
  [.insert 0 (.new () 1 .standard), .insert 1 (.new () 1 .standard)] ++
    List.replicate 3 (.get (hash 0) (0 == ·)) ++ [.insert 2 (.new () 2 .standard)]

/-- The last insertion evicts the cold entry at once and the other after a lap. -/
theorem sweeps_amortized_crowd :
    Outcome.runCost (step true) (opSteps true) (new (2 : BitVec 8)) crowd ≤ 3 + 2 * 3 := by
  have hpaid : (Outcome.run (step true) (new (2 : BitVec 8)) crowd).value?.map
      (fun rs => ((crowd.zip rs).map fun p => p.1.pay p.2).sum) = some 9 := by decide +kernel
  obtain ⟨rs, hvalue, hpay⟩ := Option.map_eq_some_iff.mp hpaid
  obtain ⟨s, hrun⟩ := Outcome.value?_eq_some.mp hvalue
  exact (sweeps_amortized true 2 crowd hrun).trans (le_of_eq hpay)

theorem insert_sweeps_linear_crowd :
    ∃ rs s r t, Outcome.run (step true) (new (2 : BitVec 8)) (crowd.take 5) = .ok rs s ∧
      s.insert true 2 (.new () 2 .standard) = .ok r t ∧
      s.insertSteps true 2 (.new () 2 .standard) ≤ 257 * s.entries.len := by
  obtain ⟨rs, s, hrun⟩ : ∃ rs s,
      Outcome.run (step true) (new (2 : BitVec 8)) (crowd.take 5) = .ok rs s := ⟨_, _, rfl⟩
  have hreturns : ((Outcome.run (step true) (new (2 : BitVec 8)) (crowd.take 5)).bind fun _ s =>
      s.insert true 2 (.new () 2 .standard)).value?.isSome = true := by decide +kernel
  rw [hrun, Outcome.bind_ok] at hreturns
  obtain ⟨r, hr⟩ := Option.isSome_iff_exists.mp hreturns
  obtain ⟨t, hins⟩ := Outcome.value?_eq_some.mp hr
  exact ⟨rs, s, r, t, hrun, hins, insert_sweeps_linear ⟨_, rs, hrun⟩ hins⟩

end Shard

end PriorityLfu
