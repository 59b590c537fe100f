import Mathlib.Algebra.Order.BigOperators.Group.List
import Mathlib.Data.List.DropRight
import PriorityLfu.Cache.Ledger
import PriorityLfu.Cache.Totals

/-!
# Conservation of the metrics

Each call makes a number of events of every metric, and `clear` forgets all events made so
far. The counters are the events since the last `clear`, as words, and the entries that came
in since then are those still there and those evicted and removed.
-/
namespace PriorityLfu
open Keyed

variable {w n : Nat} {T : Types w} {H : Heap T}

/-! ## Events -/

def CacheOp.isInsert : CacheOp H → Bool
  | .insert _ _ => true
  | _ => false

/-- A call of the `get` family. -/
def CacheOp.isGet : CacheOp H → Bool
  | .get _ | .getClone _ | .getBy _ _ | .getCloneBy _ _ => true
  | _ => false

def CacheOp.isContains : CacheOp H → Bool
  | .contains _ | .containsBy _ _ => true
  | _ => false

def CacheOp.isRemove : CacheOp H → Bool
  | .remove _ => true
  | _ => false

def CacheOp.isClear : CacheOp H → Bool
  | .clear => true
  | _ => false

/-- The events of a metric that a call makes, read off its reply. -/
def events (m : Metric) (call : CacheOp H × CacheReply T) : Nat :=
  match m with
  | .hits => (call.1.isGet && !call.2.result.isAbsent).toNat
  | .misses => (call.1.isGet && call.2.result.isAbsent).toNat
  | .inserts => (call.1.isInsert && call.2.result.isAbsent).toNat
  | .updates => (call.1.isInsert && !call.2.result.isAbsent).toNat
  | .evictions => call.2.evicted.length
  | .removals => (call.1.isRemove && !call.2.result.isAbsent).toNat

/-- The calls since the last `clear`, given all calls with the latest first. -/
def sinceClear (past : List (CacheOp H × CacheReply T)) : List (CacheOp H × CacheReply T) :=
  past.takeWhile fun call => !call.1.isClear

def tally (m : Metric) (calls : List (CacheOp H × CacheReply T)) : Nat :=
  (calls.map (events m)).sum

/-! ## What updates add to the metrics -/

def Update.metric (m : Metric) : Update w → BitVec 64
  | .addMetric m' k => if m' = m then (k : BitVec 64) else 0
  | _ => 0

def Update.isReset : Update w → Bool
  | .resetMetric _ => true
  | _ => false

namespace Cache

variable {κ ν : Type} [BEq κ]

theorem counters_apply (c : Cache κ ν w n) {u : Update w} (h : u.isReset = false) (m : Metric) :
    (c.apply u).counters m = c.counters m + u.metric m := by
  cases u with
  | addMetric m' k =>
    by_cases hm : m' = m
    · subst hm
      simp [apply, Update.metric]
    · simp [apply, Update.metric, hm, Ne.symm hm]
  | resetMetric m' => cases h
  | _ => simp [apply, Update.metric]

theorem counters_applyAll (c : Cache κ ν w n) {us : List (Update w)}
    (h : ∀ u ∈ us, u.isReset = false) (m : Metric) :
    (c.applyAll us).counters m = c.counters m + (us.map (Update.metric m)).sum := by
  induction us generalizing c with
  | nil => simp [applyAll]
  | cons u us ih =>
    rw [List.map_cons, List.sum_cons, ← add_assoc,
      ← counters_apply c (h u List.mem_cons_self)]
    exact ih (c.apply u) fun u hu => h u (List.mem_cons_of_mem _ hu)

end Cache

theorem metric_insertUpdates {ν : Type} {checks : Bool} {x : BitVec w} {old : Option (Entry ν w)}
    {us : List (Update w)} (h : insertUpdates checks x old = some us) :
    (∀ u ∈ us, u.isReset = false) ∧ ∀ m, (us.map (Update.metric m)).sum =
      if m = (if old.isNone then .inserts else .updates) then 1 else 0 := by
  cases old with
  | none =>
    cases h
    exact ⟨by simp [Update.isReset], by intro m; cases m <;> rfl⟩
  | some old =>
    obtain ⟨diff, hdiff, h⟩ := Option.bind_eq_some_iff.mp h
    split at h
    · cases h
      exact ⟨by simp [Update.isReset], by intro m; cases m <;> rfl⟩
    · obtain ⟨neg, hneg, rfl⟩ := Option.map_eq_some_iff.mp h
      exact ⟨by simp [Update.isReset], by intro m; cases m <;> rfl⟩

theorem metric_evictUpdates (stats : EvictionStats w) :
    (∀ u ∈ evictUpdates stats, u.isReset = false) ∧
      ∀ m, ((evictUpdates stats).map (Update.metric m)).sum =
        if m = .evictions then (stats.count : BitVec 64) else 0 := by
  unfold evictUpdates
  split
  · exact ⟨by simp [Update.isReset], by intro m; cases m <;> simp [Update.metric]⟩
  · next hnone => exact ⟨by simp, by intro m; simp [Nat.eq_zero_of_not_pos hnone]⟩

namespace Cache

variable [NeZero n] {c d : Cache (ErasedKey H) (Any T.Val) w n} {checks : Bool}

/-! ## The events of one call -/

theorem isAbsent_value {v : T.ValueId} (x : Option (T.Val v)) :
    (CacheResult.value (x.map (Any.mk v)) : CacheResult T).isAbsent = x.isNone := by
  cases x <;> rfl

/-- A call of the `get` family counts a hit exactly if it returns a value. -/
theorem counters_lookupAs (hc : c.Typed) {t : T.KeyId} (hash : UInt64)
    {equals : ErasedKey H → Bool} (htype : ∀ a, equals a = true → a.data.get.typeId = t)
    (m : Metric) :
    (c.lookupAs (T.Value t) hash equals).2.counters m = c.counters m +
      (match m with
        | .hits => ((!(c.lookupAs (T.Value t) hash equals).1.isNone).toNat : BitVec 64)
        | .misses => ((c.lookupAs (T.Value t) hash equals).1.isNone.toNat : BitVec 64)
        | _ => 0) := by
  obtain ⟨hvalue, hstate, -⟩ := lookupAs_cases hc hash htype
  have hfound : (c.lookupAs (T.Value t) hash equals).1.isNone =
      !((c.shards (getShard w n hash)).entries.fromHash hash equals).isSome := by
    have := congrArg Option.isNone hvalue
    simpa using this
  rw [hstate, lookup_eq, hfound]
  dsimp only
  rw [counters_apply _ rfl]
  cases ((c.shards (getShard w n hash)).entries.fromHash hash equals).isSome <;> cases m <;> rfl

theorem counters_get (hc : c.Typed) (key : Any T.Key) (m : Metric) :
    (c.get key.value).2.counters m = c.counters m +
      (events m ((CacheOp.get key : CacheOp H),
        (⟨.value ((c.get key.value).1.map (Any.mk _)), []⟩ : CacheReply T)) : BitVec 64) := by
  have htype : ∀ a : ErasedKey H, (ErasedKeyRef.new key.value).equals a = true →
      a.data.get.typeId = key.typeId := fun a => ErasedKeyRef.typeId_of_equals
  have := counters_lookupAs hc (ErasedKeyRef.new key.value).hash htype m
  rw [get, this]
  cases m <;> simp [events, CacheOp.isGet, CacheOp.isInsert, CacheOp.isRemove, isAbsent_value,
    CacheReply.evicted]

theorem counters_getBy (hc : c.Typed) {t : T.KeyId} (key : CacheKeyLookup T t) (m : Metric) :
    (c.getBy key).2.counters m = c.counters m +
      (events m ((CacheOp.getBy t key : CacheOp H),
        (⟨.value ((c.getBy key).1.map (Any.mk _)), []⟩ : CacheReply T)) : BitVec 64) := by
  have htype : ∀ a : ErasedKey H, (ErasedKeyLookup.new key).equals a = true →
      a.data.get.typeId = t := fun a => ErasedKeyLookup.typeId_of_equals
  have := counters_lookupAs hc (ErasedKeyLookup.new key).hash htype m
  rw [getBy, this]
  cases m <;> simp [events, CacheOp.isGet, CacheOp.isInsert, CacheOp.isRemove, isAbsent_value,
    CacheReply.evicted]

theorem counters_insert {key : Arc H} {value : T.Val (T.Value key.get.typeId)}
    {old : Option (T.Val (T.Value key.get.typeId))} {hooks : List (Hook (Any T.Key))}
    (hc : c.Typed) (h : c.insert checks key value = .ok (old, hooks) d) (m : Metric) :
    d.counters m = c.counters m + (events m (CacheOp.insert key value,
      (⟨.value (old.map (Any.mk _)), hooks⟩ : CacheReply T)) : BitVec 64) := by
  have hold : old.isNone = (c.oldEntry (ErasedKey.new key)).isNone := by
    obtain ⟨vs, -, -, hold, -⟩ := insert_cases hc h
    have := congrArg Option.isNone hold
    simpa [view_arc, contentAt_eq_oldEntry] using this
  obtain ⟨⟨oldEntry, hooks'⟩, d', hentry, hret⟩ := Outcome.bind_eq_ok.mp h
  cases hret
  obtain ⟨vs, s', us, -, hus, rfl, rfl, rfl⟩ := insertEntry_cases hc.routed hentry
  obtain ⟨hreset, hinsert⟩ := metric_insertUpdates hus
  obtain ⟨hreset', hevict⟩ := metric_evictUpdates ⟨vs.length, Shard.evictedSize vs⟩
  rw [counters_applyAll _ (fun u hu => (List.mem_append.mp hu).elim (hreset u) (hreset' u)),
    List.map_append, List.sum_append, hinsert, hevict, ← hold]
  have hlen : (CacheReply.mk (T := T) (.value (((c.oldEntry (ErasedKey.new key)).bind fun e =>
      e.value.downcast _).map (Any.mk (T.Value key.get.typeId)))) ((vs.map fun v =>
        Hook.onEvict v.victim.key).map (Hook.map fun k => k.data.get))).evicted.length =
      vs.length := by simp [CacheReply.evicted, List.filterMap_map, Hook.map]
  cases m <;> simp only [events, CacheOp.isGet, CacheOp.isInsert, CacheOp.isRemove, isAbsent_value,
    hlen] <;> cases ((c.oldEntry (ErasedKey.new key)).bind fun e =>
      e.value.downcast (T.Value key.get.typeId)).isNone <;> simp [setShard]

theorem counters_remove {key : Arc H} {v : Option (T.Val (T.Value key.get.typeId))}
    {hooks : List (Hook (Any T.Key))} (hc : c.Typed) (h : c.remove checks key = .ok (v, hooks) d)
    (m : Metric) :
    d.counters m = c.counters m + (events m (CacheOp.remove key,
      (⟨.value (v.map (Any.mk _)), hooks⟩ : CacheReply T)) : BitVec 64) := by
  rcases remove_cases hc h with ⟨rfl, rfl, rfl, -⟩ | ⟨k₀, e, hv, rfl, hr, -, -⟩
  · cases m <;> exact (add_zero _).symm
  · obtain ⟨⟨r, hooks'⟩, d', hentry, hret⟩ := Outcome.bind_eq_ok.mp h
    obtain ⟨hr', -, rfl⟩ := Outcome.ok.inj hret
    rcases removeEntry_cases hc.routed hentry with ⟨-, -, -, hnone⟩ | ⟨_, e, s', -, -, -, rfl⟩
    · rw [hr.contentAt_key] at hnone
      cases hnone
    · rw [hv, counters_applyAll _ (by simp [removeUpdates, Update.isReset])]
      cases m <;> rfl

/-- Every call but `clear` adds its events to the counters. -/
theorem step_counters {op : CacheOp H} {r : CacheReply T} (hc : c.Typed)
    (hop : op.isClear = false) (h : step checks c op = .ok r d) (m : Metric) :
    d.counters m = c.counters m + (events m (op, r) : BitVec 64) := by
  cases op with
  | insert key value =>
    obtain ⟨⟨old, hooks⟩, d', hins, hret⟩ := Outcome.bind_eq_ok.mp h
    cases hret
    exact counters_insert hc hins m
  | get key => cases h; exact counters_get hc key m
  | getClone key => cases h; exact counters_get hc key m
  | getBy t key => cases h; exact counters_getBy hc key m
  | getCloneBy t key => cases h; exact counters_getBy hc key m
  | contains key => cases h; cases m <;> exact (add_zero _).symm
  | containsBy t key => cases h; cases m <;> exact (add_zero _).symm
  | remove key =>
    obtain ⟨⟨v, hooks⟩, d', hrem, hret⟩ := Outcome.bind_eq_ok.mp h
    cases hret
    exact counters_remove hc hrem m
  | clear => cases hop

omit [NeZero n] in
/-- `clear` resets every metric. -/
theorem counters_clear (c : Cache (ErasedKey H) (Any T.Val) w n) (m : Metric) :
    c.clear.2.counters m = 0 := by
  cases m <;> rfl

/-! ## The entries of one call -/

theorem entryTotal_lookup (c : Cache (ErasedKey H) (Any T.Val) w n) (hash : UInt64)
    (equals : ErasedKey H → Bool) : (c.lookup hash equals).2.entryTotal = c.entryTotal := by
  rw [entryTotal_eq, total_lookup, ← entryTotal_eq]

omit [NeZero n] in
theorem entryTotal_clear (c : Cache (ErasedKey H) (Any T.Val) w n) : c.clear.2.entryTotal = 0 := by
  simp only [entryTotal, shards_clear]
  exact Finset.sum_eq_zero fun i _ => rfl

/-- The entries that come in by a call stay or leave by eviction or removal. -/
theorem step_entries {op : CacheOp H} {r : CacheReply T} (hc : c.Typed)
    (hop : op.isClear = false) (h : step checks c op = .ok r d) :
    c.entryTotal + events .inserts (op, r) =
      d.entryTotal + events .evictions (op, r) + events .removals (op, r) := by
  cases op with
  | insert key value =>
    obtain ⟨⟨old, hooks⟩, d', hins, hret⟩ := Outcome.bind_eq_ok.mp h
    cases hret
    obtain ⟨vs, hi, -, hold, rfl⟩ := insert_cases hc hins
    have htotal := hi.entryTotal hc.routed
    have hfresh : (c.oldEntry (ErasedKey.new key)).toList.length + old.isNone.toNat = 1 := by
      have := congrArg Option.isNone hold
      rw [view_arc, contentAt_eq_oldEntry] at this
      simp only [Option.isNone_map] at this
      rw [this]
      cases c.oldEntry (ErasedKey.new key) <;> rfl
    simp only [events, CacheOp.isInsert, CacheOp.isRemove, isAbsent_value, CacheReply.evicted,
      Bool.true_and, Bool.false_and, Bool.toNat_false, List.filterMap_map, Function.comp_def,
      List.filterMap_eq_map', List.length_map]
    omega
  | get key => cases h; exact (entryTotal_lookup c _ _).symm
  | getClone key => cases h; exact (entryTotal_lookup c _ _).symm
  | getBy t key => cases h; exact (entryTotal_lookup c _ _).symm
  | getCloneBy t key => cases h; exact (entryTotal_lookup c _ _).symm
  | contains key => cases h; rfl
  | containsBy t key => cases h; rfl
  | remove key =>
    obtain ⟨⟨v, hooks⟩, d', hrem, hret⟩ := Outcome.bind_eq_ok.mp h
    cases hret
    rcases remove_cases hc hrem with ⟨rfl, rfl, rfl, -⟩ | ⟨k₀, e, hv, rfl, hr, -, -⟩
    · rfl
    · rw [hv]
      exact hr.entryTotal.symm
  | clear => cases hop

theorem step_settled {op : CacheOp H} {r : CacheReply T} (hc : c.Typed) (hs : c.Settled)
    (h : step checks c op = .ok r d) : d.Settled := by
  cases op with
  | insert key value =>
    obtain ⟨⟨old, hooks⟩, d', hins, hret⟩ := Outcome.bind_eq_ok.mp h
    cases hret
    obtain ⟨r, d', hentry, hret⟩ := Outcome.bind_eq_ok.mp hins
    cases hret
    exact settled_insertEntry hc.routed hs hentry
  | get key => cases h; exact settled_lookup hs _ _
  | getClone key => cases h; exact settled_lookup hs _ _
  | getBy t key => cases h; exact settled_lookup hs _ _
  | getCloneBy t key => cases h; exact settled_lookup hs _ _
  | contains key => cases h; exact hs
  | containsBy t key => cases h; exact hs
  | remove key =>
    obtain ⟨⟨v, hooks⟩, d', hrem, hret⟩ := Outcome.bind_eq_ok.mp h
    cases hret
    obtain ⟨r, d', hentry, hret⟩ := Outcome.bind_eq_ok.mp hrem
    cases hret
    exact settled_removeEntry hc.routed hs hentry
  | clear => cases h; exact settled_clear hc.routed hs

/-! ## Runs -/

/-- The metrics and the entry count after the calls `past`, latest first. -/
structure Counted (past : List (CacheOp H × CacheReply T))
    (c : Cache (ErasedKey H) (Any T.Val) w n) : Prop where
  typed : c.Typed
  settled : c.Settled
  counters : ∀ m, c.counters m = (tally m (sinceClear past) : BitVec 64)
  balance : tally .inserts (sinceClear past) =
    c.entryTotal + tally .evictions (sinceClear past) + tally .removals (sinceClear past)

theorem counted_new (maxSizeBytes : BitVec w) :
    Counted ([] : List (CacheOp H × CacheReply T))
      (withShardsAndLifecycleInternal maxSizeBytes n : Cache (ErasedKey H) (Any T.Val) w n) where
  typed := typed_new maxSizeBytes
  settled := settled_new maxSizeBytes
  counters _ := rfl
  balance := (entryTotal_new maxSizeBytes).symm

theorem Counted.step {past : List (CacheOp H × CacheReply T)} (hc : Counted past c)
    {op : CacheOp H} {r : CacheReply T} (h : step checks c op = .ok r d) :
    Counted ((op, r) :: past) d := by
  have ht := (step_refines hc.typed h).1
  have hs := step_settled hc.typed hc.settled h
  cases hop : op.isClear with
  | true =>
    -- everything is forgotten
    cases op <;> cases hop
    cases h
    exact ⟨ht, hs, fun m => (counters_clear c m).trans rfl, (entryTotal_clear c).symm⟩
  | false =>
    have hsince : sinceClear ((op, r) :: past) = (op, r) :: sinceClear past := by
      simp [sinceClear, hop]
    refine ⟨ht, hs, fun m => ?_, ?_⟩
    · rw [step_counters hc.typed hop h, hc.counters, hsince, tally, tally, List.map_cons,
        List.sum_cons, Nat.cast_add, add_comm]
    · have hentries := step_entries hc.typed hop h
      have hbalance := hc.balance
      rw [hsince]
      simp only [tally, List.map_cons, List.sum_cons] at hbalance ⊢
      omega

/-! ## Conservation -/

theorem tally_le {m : Metric} (calls : List (CacheOp H × CacheReply T)) (hm : m ≠ .evictions) :
    tally m calls ≤ calls.length := by
  have hle : ∀ x ∈ calls.map (events m), x ≤ 1 := by
    intro x hx
    obtain ⟨call, -, rfl⟩ := List.mem_map.mp hx
    cases m <;> first | exact absurd rfl hm | exact Bool.toNat_le _
  simpa [tally] using List.sum_le_card_nsmul _ _ hle

/-- Evictions are counted in the balance, so they are no more than the inserts. -/
theorem Counted.tally_lt {past : List (CacheOp H × CacheReply T)} (hc : Counted past c)
    (hlen : past.length < 2 ^ 64) (m : Metric) : tally m (sinceClear past) < 2 ^ 64 := by
  have hsince : (sinceClear past).length ≤ past.length := (List.takeWhile_prefix _).length_le
  by_cases hm : m = .evictions
  · have hbalance := hc.balance
    have hinserts := tally_le (m := .inserts) (sinceClear past) (by simp)
    subst hm
    omega
  · have := tally_le (sinceClear past) hm
    omega

theorem Counted.toNat_counters {past : List (CacheOp H × CacheReply T)} (hc : Counted past c)
    (hlen : past.length < 2 ^ 64) (m : Metric) :
    (c.counters m).toNat = tally m (sinceClear past) := by
  rw [hc.counters m, BitVec.natCast_eq_ofNat, BitVec.toNat_ofNat,
    Nat.mod_eq_of_lt (hc.tally_lt hlen m)]

/-- A number that is 1 for the calls satisfying `p` and 0 for the others counts them. -/
theorem sum_eq_countP {f : CacheOp H × CacheReply T → Nat} {p : CacheOp H × CacheReply T → Bool}
    (hp : ∀ call, f call = (p call).toNat) (calls : List (CacheOp H × CacheReply T)) :
    (calls.map f).sum = calls.countP p := by
  induction calls with
  | nil => rfl
  | cons call calls ih =>
    rw [List.map_cons, List.sum_cons, ih, hp, List.countP_cons]
    cases p call <;> simp [add_comm]

/-- After every run of fewer than `2 ^ 64` calls the metrics are conserved: entries counted
in are there, evicted or removed; insertions are counted as inserts or updates; lookups as
hits if they returned a value and as misses if not; and `contains` changes no metric. The
counts are those since the last `clear`; that the entry count is a number of entries and no
remainder takes a word of 64 bits, or fewer entries than words. -/
theorem metrics_conserved (checks : Bool) (maxSizeBytes : BitVec w) (ops : List (CacheOp H))
    (hlen : ops.length < 2 ^ 64) {rs : List (CacheReply T)}
    {c : Cache (ErasedKey H) (Any T.Val) w n}
    (h : Outcome.run (step checks) (withShardsAndLifecycleInternal maxSizeBytes n) ops =
      .ok rs c) :
    let calls := (ops.zip rs).rtakeWhile fun call => !call.1.isClear
    (64 ≤ w ∨ c.entryTotal < 2 ^ w → c.metrics.inserts.toNat =
      c.metrics.entryCount.toNat + c.metrics.evictions.toNat + c.metrics.removals.toNat) ∧
    c.metrics.inserts.toNat + c.metrics.updates.toNat = calls.countP (·.1.isInsert) ∧
    c.metrics.hits.toNat + c.metrics.misses.toNat = calls.countP (·.1.isGet) ∧
    c.metrics.hits.toNat = calls.countP (fun call => call.1.isGet && !call.2.result.isAbsent) ∧
    ∀ op r d, op.isContains = true → step checks c op = .ok r d → d.metrics = c.metrics := by
  intro calls
  have hcounted := Outcome.run_history (P := Counted) (fun _ _ _ _ _ hc hs => hc.step hs)
    (counted_new maxSizeBytes) h
  rw [List.append_nil] at hcounted
  -- the calls since the last `clear`, in either order
  have hcalls : calls = (sinceClear (ops.zip rs).reverse).reverse := rfl
  have hperm := List.reverse_perm (sinceClear (ops.zip rs).reverse)
  rw [← hcalls] at hperm
  have hpast : (ops.zip rs).reverse.length < 2 ^ 64 := by
    rw [List.length_reverse, List.length_zip]
    exact Nat.lt_of_le_of_lt (Nat.min_le_left _ _) hlen
  have hvalue := hcounted.toNat_counters hpast
  refine ⟨fun hw => ?_, ?_, ?_, ?_, ?_⟩
  · have hbalance := hcounted.balance
    have hinserts := hcounted.tally_lt hpast .inserts
    have hfits : c.entryTotal < 2 ^ w := by
      rcases hw with hw | hw
      · exact lt_of_le_of_lt (by omega) (hinserts.trans_le (Nat.pow_le_pow_right (by omega) hw))
      · exact hw
    have hcount : c.entryCount.toNat = c.entryTotal := by
      rw [hcounted.settled.count, BitVec.natCast_eq_ofNat, BitVec.toNat_ofNat,
        Nat.mod_eq_of_lt hfits]
    simp only [metrics, hvalue, hcount]
    exact hbalance
  · simp only [metrics, hvalue]
    rw [hperm.countP_eq, tally, tally, ← List.sum_map_add]
    refine sum_eq_countP (fun call => ?_) _
    simp only [events]
    cases call.1.isInsert <;> cases call.2.result.isAbsent <;> rfl
  · simp only [metrics, hvalue]
    rw [hperm.countP_eq, tally, tally, ← List.sum_map_add]
    refine sum_eq_countP (fun call => ?_) _
    simp only [events]
    cases call.1.isGet <;> cases call.2.result.isAbsent <;> rfl
  · simp only [metrics, hvalue]
    rw [hperm.countP_eq]
    exact sum_eq_countP (fun _ => rfl) _
  · intro op r d hop hstep
    cases op <;> cases hop <;> cases hstep <;> rfl

theorem metrics_conserved_twoTypes :
    ∃ rs, ∃ c : Cache (ErasedKey alternating) (Any colliding.Val) 64 2,
      Outcome.run (step false) (withShardsAndLifecycleInternal 900 2) twoTypes = .ok rs c ∧
      c.metrics.inserts.toNat =
        c.metrics.entryCount.toNat + c.metrics.evictions.toNat + c.metrics.removals.toNat := by
  obtain ⟨rs, c, h⟩ := run_unchecked (withShardsAndLifecycleInternal (900 : BitVec 64) 2) twoTypes
  exact ⟨rs, c, h, (metrics_conserved false 900 twoTypes (by decide) h).1 (.inl le_rfl)⟩

end Cache

end PriorityLfu
