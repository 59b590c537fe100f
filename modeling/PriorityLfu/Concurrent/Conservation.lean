import PriorityLfu.Concurrent.Tally

/-!
# The metrics and the entry count

The updates of a call move the entry count and the metrics together: an insertion of a new key
counts one of each, and what evictions and removals take from the entry count they add to a
metric. So once all updates have come through, the entry count is what was inserted less what
was evicted or removed, in every interleaving without `clear`.
-/
namespace PriorityLfu
open Keyed

variable {κ ν : Type} {w n : Nat}

/-- What an update adds to the entry count beyond what the metrics explain. -/
def Update.tilt : Update w → BitVec w
  | .addCount k => k
  | .subCount k => -k
  | .addMetric .inserts k => -k
  | .addMetric .evictions k | .addMetric .removals k => k
  | _ => 0

/-- The entry count less the insertions, plus the evictions and removals. -/
def Cache.tilt [BEq κ] (c : Cache κ ν w n) : BitVec w :=
  c.entryCount - (c.counters .inserts).setWidth w + (c.counters .evictions).setWidth w +
    (c.counters .removals).setWidth w

/-- The action is a part of `clear`. -/
def Action.clears : Action κ ν w n → Bool
  | .drain _ => true
  | .enter _ u | .update u => u.isReset
  | _ => false

theorem tilt_insertUpdates {checks : Bool} {x : BitVec w} {old : Option (Entry ν w)}
    {us : List (Update w)} (h : insertUpdates checks x old = some us) :
    (us.map Update.tilt).sum = 0 := by
  cases old with
  | none =>
    cases h
    simp [Update.tilt]
  | some old =>
    obtain ⟨diff, -, h⟩ := Option.bind_eq_some_iff.mp h
    split at h
    · cases h
      simp [Update.tilt]
    · obtain ⟨neg, -, rfl⟩ := Option.map_eq_some_iff.mp h
      simp [Update.tilt]

theorem tilt_evictUpdates (stats : EvictionStats w) :
    ((evictUpdates stats).map Update.tilt).sum = 0 := by
  unfold evictUpdates
  split <;> simp [Update.tilt]

theorem tilt_removeUpdates (en : Entry ν w) : ((removeUpdates en).map Update.tilt).sum = 0 := by
  simp [removeUpdates, Update.tilt]

theorem Cache.tilt_apply [BEq κ] (hw : w ≤ 64) (c : Cache κ ν w n) {u : Update w}
    (hu : u.isReset = false) : (c.apply u).tilt = c.tilt + u.tilt := by
  have hcast : ∀ (x : BitVec 64) (k : Nat),
      (x + BitVec.ofNat 64 k).setWidth w = x.setWidth w + (k : BitVec w) := fun x k => by
    rw [BitVec.setWidth_add _ _ hw, BitVec.setWidth_ofNat_of_le hw]
    rfl
  cases u with
  | addSize x | subSize x => simp [Cache.apply, Cache.tilt, Update.tilt]
  | addCount k | subCount k =>
    simp only [Cache.apply, Cache.tilt, Update.tilt, BitVec.natCast_eq_ofNat]
    linear_combination
  | resetMetric m => cases hu
  | addMetric m k =>
    cases m <;> simp [Cache.apply, Cache.tilt, Update.tilt, hcast] <;> linear_combination

variable [BEq κ] [Hashable κ] [EquivBEq κ] [LawfulHashable κ] [NeZero n] {checks : Bool}

namespace System

/-- An action outside `clear` keeps the balance of what is counted and what is in flight. -/
theorem perform_tilt (hw : w ≤ 64) {c : Cache κ ν w n} {locked : Fin n → Bool}
    {a : Action κ ν w n} {e : Effect κ ν w n} (ha : a.clears = false)
    (h : perform checks c locked a = some e) :
    (∀ b ∈ e.front ++ e.back, b.clears = false) ∧
      e.cache.tilt + (Weight.plain Update.tilt).sum (e.front ++ e.back) =
        c.tilt + (Weight.plain Update.tilt).of a := by
  have hset : ∀ i s', (c.setShard i s').tilt = c.tilt := fun _ _ => rfl
  cases a with
  | insert key entry =>
    obtain ⟨old, stats, evicted, d, us, hins, hus, -, rfl⟩ := perform_insert_eq h
    obtain ⟨s', -, rfl⟩ := Outcome.mapState_eq_ok.mp hins
    refine ⟨?_, ?_⟩
    · intro b hb
      simp only [List.append_nil, List.mem_append, List.mem_map] at hb
      rcases hb with (⟨u, hu, rfl⟩ | ⟨u, hu, rfl⟩) | ⟨hook, -, rfl⟩
      · exact (metric_insertUpdates hus).1 u hu
      · exact (metric_evictUpdates stats).1 u hu
      · rfl
    · rw [Weight.sum_append, Weight.sum_append, Weight.sum_append, Weight.sum_hook]
      simp [tilt_insertUpdates hus, tilt_evictUpdates, hset, Weight.of]
  | remove key =>
    obtain ⟨r, d, hrem, -, he⟩ := perform_remove_eq h
    obtain ⟨s', -, rfl⟩ := Outcome.mapState_eq_ok.mp hrem
    obtain ⟨-, rfl⟩ | ⟨k₀, en, -, rfl⟩ := he
    · simp [hset, Weight.of]
    · refine ⟨?_, ?_⟩
      · simp [removeUpdates, Action.clears, Update.isReset]
      · simp [Weight.sum_append, tilt_removeUpdates, hset, Weight.of]
  | drain i => cases ha
  | enter key u | update u =>
    cases h
    exact ⟨by simp, by simpa [Weight.of] using Cache.tilt_apply hw c ha⟩
  | unlock i | hook h' =>
    cases h
    simp [Weight.of]

/-- The counts and the updates in flight are in balance, and no `clear` is in progress. -/
structure Balanced (s : System κ ν w n) : Prop where
  noClear : ∀ a ∈ s.inFlight, a.clears = false
  tilt : s.cache.tilt + (Weight.plain Update.tilt).sum s.inFlight = 0

omit [Hashable κ] [EquivBEq κ] [LawfulHashable κ] [NeZero n] in
theorem balanced_start (maxSizeBytes : BitVec w) :
    (start maxSizeBytes : System κ ν w n).Balanced where
  noClear a ha := by cases ha
  tilt := by simp [start, inFlight, Cache.tilt, Cache.withShardsAndLifecycleInternal]

theorem Balanced.step (hw : w ≤ 64) {s t : System κ ν w n} (hs : s.Balanced)
    {choice : Choice κ ν w n} (hchoice : choice.Starts (· ≠ .clear)) {shown : List (Event κ ν w)}
    (h : System.step checks s choice = some (shown, t)) : t.Balanced := by
  have htilt := hs.tilt
  rcases step_inFlight h with ⟨op, rfl, hc, hf⟩ | ⟨hc, hf⟩ |
    ⟨j, a, rest, e, -, -, he, hc, hf, hf'⟩ | ⟨i, key, clockBit, frequency, hc, hf⟩
  · refine ⟨?_, ?_⟩
    · intro a ha
      rcases List.mem_append.mp (hf ▸ ha) with hold | hnew
      · exact hs.noClear a hold
      · cases op with
        | clear => exact absurd rfl hchoice
        | insert key entry | remove key => cases List.mem_singleton.mp hnew; rfl
    · rw [hc, hf, Weight.sum_append, Weight.sum_actions (fun _ => rfl), add_zero, htilt]
  · refine ⟨fun a ha => hs.noClear a (hf.mem_iff.mpr ha), ?_⟩
    rw [hc, ← Weight.sum_perm hf, htilt]
  · have hold : ∀ b ∈ a :: rest, b.clears = false := fun b hb => hs.noClear b (hf.mem_iff.mpr hb)
    obtain ⟨hadded, hbooks⟩ := perform_tilt hw (hold a List.mem_cons_self) he
    refine ⟨fun b hb => ?_, ?_⟩
    · rcases List.mem_append.mp (hf'.mem_iff.mp hb) with hnew | hrest
      · exact hadded b hnew
      · exact hold b (List.mem_cons_of_mem a hrest)
    · rw [Weight.sum_perm hf, Weight.sum_cons] at htilt
      rw [hc, Weight.sum_perm hf', Weight.sum_append]
      linear_combination htilt + hbooks
  · refine ⟨fun a ha => hs.noClear a (hf ▸ ha), ?_⟩
    rw [hc, hf]
    exact htilt

omit [Hashable κ] [EquivBEq κ] [LawfulHashable κ] [NeZero n] in
/-- Without a call that has done nothing, and with other counters in balance. -/
theorem Balanced.finish {s : System κ ν w n} (hs : s.Balanced) {j : Nat} {call : Call κ ν w n}
    (hj : s.calls[j]? = some call) (hfresh : call.todo = call.op.actions) {cache : Cache κ ν w n}
    (hcache : cache.tilt = s.cache.tilt) : { s.finish j with cache }.Balanced := by
  obtain ⟨hflight, -⟩ := inFlight_split hj
  refine ⟨fun a ha => hs.noClear a (hflight.symm.subset (List.mem_append_right _ ha)), ?_⟩
  have htilt := hs.tilt
  rw [Weight.sum_perm hflight, Weight.sum_append, hfresh, Weight.sum_actions (fun _ => rfl),
    zero_add, ← hcache] at htilt
  exact htilt

end System

omit [EquivBEq κ] [LawfulHashable κ] in
/-- A lookup counts hits and misses only. -/
theorem Reader.Performs.tilt_eq {r : Reader κ ν} {c : Cache κ ν w n} {locked : Fin n → Bool}
    {e : Reading κ ν w n} (h : r.Performs c locked e) : e.cache.tilt = c.tilt := by
  cases h with
  | countHit hp | countMiss hp => simp [Cache.tilt, Cache.apply]
  | _ => rfl

/-! ## What `metrics` returns -/

/-- An insertion returned. -/
def CacheNote.writes : CacheNote κ ν w → Bool
  | .returned (.call (.insert _ _)) (.result _) => true
  | _ => false

/-- A lookup for a value returned. -/
def CacheNote.accesses : CacheNote κ ν w → Bool
  | .returned (.look _) (.found (.value _)) => true
  | _ => false

omit [BEq κ] [Hashable κ] [EquivBEq κ] [LawfulHashable κ] in
/-- What is counted by one of two metrics is counted by both together. -/
theorem countP_marks {p : CacheNote κ ν w → Bool} {m m' : Metric}
    (hp : ∀ note, (p note).toNat =
      (m.marks note : Bool).toNat + (m'.marks note : Bool).toNat)
    (trace : List (CacheNote κ ν w)) :
    trace.countP p = trace.countP m.marks + trace.countP m'.marks := by
  induction trace with
  | nil => rfl
  | cons note trace ih =>
    rw [Atomic.countP_cons, Atomic.countP_cons, Atomic.countP_cons, ih, hp]
    omega

omit [BEq κ] [Hashable κ] [EquivBEq κ] [LawfulHashable κ] in
theorem countP_writes (trace : List (CacheNote κ ν w)) : trace.countP CacheNote.writes =
    trace.countP Metric.inserts.marks + trace.countP Metric.updates.marks := by
  refine countP_marks (fun note => ?_) trace
  rcases note with req | (_ | _ | _) | ⟨(_ | _ | _) | _, (_ | _) | ((_ | _) | _)⟩ <;> rfl

omit [BEq κ] [Hashable κ] [EquivBEq κ] [LawfulHashable κ] in
theorem countP_accesses (trace : List (CacheNote κ ν w)) : trace.countP CacheNote.accesses =
    trace.countP Metric.hits.marks + trace.countP Metric.misses.marks := by
  refine countP_marks (fun note => ?_) trace
  rcases note with req | (_ | _ | _) | ⟨(_ | _ | _) | _, (_ | _) | ((_ | _) | _)⟩ <;> rfl

namespace Shared

variable {s t : Shared κ ν w n} {trace shown : List (CacheNote κ ν w)} {move : Move κ ν w}

theorem balanced_step (hw : w ≤ 64) (hmetered : s.Metered trace) (hs : s.system.Balanced)
    (hmove : move.Starts (· ≠ .clear))
    (h : Shared.stepOrPanic checks s move = some (shown, t)) : t.system.Balanced := by
  rcases stepOrPanic_cases h with hstep |
    ⟨j, call, a, todo, i, s', -, -, -, hj, htodo, hlock, rfl⟩
  · rcases step_cases hstep with ⟨op, rfl, -, rfl⟩ | ⟨j, events, system, rfl, -, hsystem, -, rfl⟩ |
      ⟨op, -, -, rfl⟩ | ⟨before, r, after, e, -, -, he, -, rfl⟩
    · have hstart : s.system.step checks (.start op) = some ([], s.system.begin op) := rfl
      refine hs.step hw ?_ hstart
      exact hmove
    · exact hs.step hw (by trivial) hsystem
    · exact hs
    · refine ⟨hs.noClear, ?_⟩
      rw [he.tilt_eq]
      exact hs.tilt
  · have hcall : call ∈ s.system.calls := List.mem_of_getElem? hj
    have hpart : a.part ≠ none := by cases a <;> simp [Action.lock, Action.part] at hlock ⊢
    obtain ⟨hfresh, -⟩ :=
      (hmetered.ordered call hcall).fresh (hmetered.noClear call hcall) htodo hpart
    exact hs.finish hj (congrArg Call.todo hfresh) rfl

theorem balanced (hw : w ≤ 64) {maxSizeBytes : BitVec w}
    (h : Execution (Shared.stepOrPanic checks) (fun _ move => move.Starts (· ≠ .clear))
      (start maxSizeBytes) trace s) : s.system.Balanced :=
  (h.invariant (P := fun trace s => s.Metered trace ∧ s.system.Balanced)
    ⟨metered_start maxSizeBytes, System.balanced_start maxSizeBytes⟩
    fun _ _ _ _ _ hs hmove hstep => ⟨hs.1.stepOrPanic hmove hstep,
      balanced_step hw hs.1 hs.2 hmove hstep⟩).2

/-- What `metrics` returns after any interleaving without `clear` adds up, calls that panic
included. Where no call is in
progress the entry count is the number of insertions of new keys less the evictions and removals,
and `total_writes` is the number of insertions that returned, and where no lookup is in progress
but for guards, `total_accesses` is the number of lookups for a value that returned. -/
theorem metrics_conserve {maxSizeBytes : BitVec w}
    (h : Execution (Shared.stepOrPanic checks) (fun _ move => move.Starts (· ≠ .clear))
      (start maxSizeBytes) trace s) (hcalls : s.system.calls = []) (checked : Bool) :
    let metrics := s.system.cache.metrics
    (w ≤ 64 → metrics.entryCount =
      (metrics.inserts - metrics.evictions - metrics.removals).setWidth w) ∧
    ((checked = true → trace.countP CacheNote.writes < 2 ^ 64) →
      metrics.totalWrites checked = some (trace.countP CacheNote.writes : BitVec 64)) ∧
    ((∀ r ∈ s.readers, ∃ key value, r.phase = .guarded key value) →
      (checked = true → trace.countP CacheNote.accesses < 2 ^ 64) →
        metrics.totalAccesses checked = some (trace.countP CacheNote.accesses : BitVec 64)) := by
  intro metrics
  have hs := metered h
  have hwrites : ∀ m, m ≠ .hits → m ≠ .misses → s.readers.countP (Reader.counted m) = 0 := by
    intro m hhits hmisses
    refine List.countP_eq_zero.mpr fun r _ => ?_
    unfold Reader.counted
    split <;> simp [hhits]
    split <;> simp [hhits, hmisses]
  refine ⟨fun hw => ?_, fun hfits => ?_, fun hreaders hfits => ?_⟩
  · have hbalanced := (balanced hw h).tilt
    rw [System.inFlight, hcalls, List.flatMap_nil, Weight.sum_nil, add_zero, Cache.tilt]
      at hbalanced
    show s.system.cache.entryCount = (s.system.cache.counters .inserts -
      s.system.cache.counters .evictions - s.system.cache.counters .removals).setWidth w
    simp only [BitVec.sub_eq_add_neg, BitVec.setWidth_add _ _ hw, BitVec.setWidth_neg_of_le hw]
    linear_combination hbalanced
  · rw [countP_writes] at hfits ⊢
    rw [← Word.add_natCast hfits, ← hs.settled hcalls (hwrites .inserts (by decide) (by decide)),
      ← hs.settled hcalls (hwrites .updates (by decide) (by decide))]
    rfl
  · rw [countP_accesses] at hfits ⊢
    rw [← Word.add_natCast hfits, ← hs.settled hcalls (countP_guards hreaders .hits),
      ← hs.settled hcalls (countP_guards hreaders .misses)]
    rfl

/-- Two insertions, a guard that lives on, and a lookup that missed. -/
theorem metrics_conserve_observed :
    ∃ trace, ∃ s : Shared Nat Nat 8 2,
      Execution (Shared.stepOrPanic true) (fun _ move => move.Starts (· ≠ .clear)) (start 20)
        trace s ∧
      s.system.cache.metrics.entryCount = (s.system.cache.metrics.inserts -
        s.system.cache.metrics.evictions - s.system.cache.metrics.removals).setWidth 8 ∧
      s.system.cache.metrics.totalWrites true = some 2 ∧
      s.system.cache.metrics.totalAccesses true = some 2 := by
  have hfacts : ((Execution.play (Shared.stepOrPanic true) (fun _ move => move.Starts (· ≠ .clear))
      (start 20 : Shared Nat Nat 8 2) observed).map fun r =>
        ((r.2.system.calls.isEmpty, r.2.readers.map fun r => r.phase),
          r.1.countP CacheNote.writes, r.1.countP CacheNote.accesses)) =
      some ((true, [.guarded 0 7]), 2, 2) := by decide +kernel
  obtain ⟨⟨trace, s⟩, hplay, hs⟩ := Option.map_eq_some_iff.mp hfacts
  obtain ⟨hrest, hcounts⟩ := Prod.mk.inj hs
  obtain ⟨hcalls, hreaders⟩ := Prod.mk.inj hrest
  obtain ⟨hwrites, haccesses⟩ := Prod.mk.inj hcounts
  have hrun := Execution.of_play hplay
  obtain ⟨hentries, htotal, hlooked⟩ := metrics_conserve hrun (List.isEmpty_iff.mp hcalls) true
  rw [hwrites] at htotal
  rw [haccesses] at hlooked
  refine ⟨trace, s, hrun, hentries (by decide), htotal fun _ => by decide,
    hlooked (fun r hr => ⟨0, 7, ?_⟩) fun _ => by decide⟩
  exact List.mem_singleton.mp (hreaders ▸ List.mem_map_of_mem hr)

end Shared

end PriorityLfu
