import PriorityLfu.Cache.Metrics
import PriorityLfu.Concurrent.Linear
import PriorityLfu.Concurrent.Projection
import PriorityLfu.Concurrent.Weight

/-!
# The metrics in every interleaving

A metric counts what can be seen of calls and lookups: answers of one kind, or the hooks for
evictions. It is counted some time after the part that decides the answer and before the answer
is returned, so while calls overlap a metric is ahead of what was seen, or behind. As long as
`clear` is not called nothing is counted twice and nothing is lost.
-/
namespace PriorityLfu
open Keyed

variable {κ ν : Type} {w n : Nat}

/-! ## What a metric counts -/

def Metric.marks (m : Metric) : CacheNote κ ν w → Bool
  | .returned (.call (.insert _ _)) (.result old) =>
    decide (m = if old.isNone then .inserts else .updates)
  | .returned (.call (.remove _)) (.result old) => decide (m = .removals) && old.isSome
  | .returned (.look _) (.found (.value v)) => decide (m = if v.isSome then .hits else .misses)
  | .shown (.onEvict _) => decide (m = .evictions)
  | _ => false

def Action.update? : Action κ ν w n → Option (Update w)
  | .enter _ u | .update u => some u
  | _ => none

/-- What an action adds to a metric is its update's part. -/
theorem Action.of_plain_metric (m : Metric) (a : Action κ ν w n) :
    (Weight.plain (Update.metric m)).of a = (a.update?.map (Update.metric m)).getD 0 := by
  cases a <;> rfl

/-- The updates among some actions are no resets. -/
def Lasting (as : List (Action κ ν w n)) : Prop :=
  ∀ a ∈ as, ∀ u, a.update? = some u → u.isReset = false

/-- What a call or a lookup has still to show, given what took effect of it. -/
def Metric.due (m : Metric) (p : Pending κ ν w n) : Nat :=
  (p.answer.any fun a => m.marks (.returned p.op a)).toNat +
    p.owed.countP fun h => m.marks (.shown h : CacheNote κ ν w)

/-- A lookup that was counted and has still to return. -/
def Reader.counted (m : Metric) (r : Reader κ ν) : Bool :=
  match r.phase with
  | .counted _ => decide (m = .hits)
  | .done (.value v) => decide (m = if v.isSome then .hits else .misses)
  | _ => false

variable [BEq κ] [Hashable κ] [EquivBEq κ] [LawfulHashable κ] [NeZero n] {checks : Bool}
  {c : Cache κ ν w n} {locked : Fin n → Bool}

/-! ## One action -/

namespace System

variable {a : Action κ ν w n} {e : Effect κ ν w n}

omit [BEq κ] [Hashable κ] [EquivBEq κ] [LawfulHashable κ] [NeZero n] in
/-- The hooks for evictions are as many as are counted. -/
theorem countP_evictHooks {stats : EvictionStats w} {evicted : List (EvictedEntry κ ν w)}
    (hcount : stats.count = evicted.length) (m : Metric) :
    (evictHooks stats evicted).countP (fun h => m.marks (.shown h : CacheNote κ ν w)) =
      if m = .evictions then stats.count else 0 := by
  unfold evictHooks
  split
  · cases m <;> simp [Metric.marks, List.countP_map, Function.comp_def, hcount]
  · next hnone => simp [Nat.eq_zero_of_not_pos hnone]

/-- The part of a call that takes effect decides what the call counts. -/
theorem perform_decides {op : CallOp κ ν w} (hop : op.actions = [a])
    (h : perform checks c locked a = some e) :
    e.cache.counters = c.counters ∧ Lasting (e.front ++ e.back) ∧
      ∀ m, (Weight.plain (Update.metric m)).sum (e.front ++ e.back) =
      ((m.due (⟨.call op, [], some (.result (e.result.getD none)),
        (e.front ++ e.back).filterMap Action.hook?⟩ : Pending κ ν w n) : Nat) : BitVec 64) := by
  cases op with
  | insert key entry =>
    cases hop
    obtain ⟨old, stats, evicted, d, us, hins, hus, -, rfl⟩ := perform_insert_eq h
    obtain ⟨s', hok, rfl⟩ := Outcome.mapState_eq_ok.mp hins
    obtain ⟨hreset, hinsert⟩ := metric_insertUpdates hus
    obtain ⟨hreset', hevict⟩ := metric_evictUpdates stats
    have hmarks := countP_evictHooks (Shard.insert_count hok)
    refine ⟨rfl, ?_, fun m => ?_⟩
    · intro b hb u hu
      simp only [List.append_nil, List.mem_append, List.mem_map] at hb
      rcases hb with (⟨u', hu', rfl⟩ | ⟨u', hu', rfl⟩) | ⟨hook, -, rfl⟩
      · cases hu
        exact hreset u hu'
      · cases hu
        exact hreset' u hu'
      · cases hu
    · have hhooks : (us.map (Action.enter key) ++ (evictUpdates stats).map Action.update ++
          (evictHooks stats evicted).map Action.hook ++
          ([] : List (Action κ ν w n))).filterMap Action.hook? = evictHooks stats evicted := by
        simp [List.filterMap_map, Function.comp_def, Action.hook?]
      rw [hhooks, Weight.sum_append, Weight.sum_append, Weight.sum_append, Weight.sum_enter,
        Weight.sum_update, Weight.sum_hook, Weight.sum_nil, Weight.enter_plain, Weight.update_plain,
        hinsert, hevict, Metric.due, hmarks]
      cases m <;> cases old <;> simp [Metric.marks]
  | remove key =>
    cases hop
    obtain ⟨r, d, hrem, -, he⟩ := perform_remove_eq h
    obtain ⟨s', -, rfl⟩ := Outcome.mapState_eq_ok.mp hrem
    obtain ⟨-, rfl⟩ | ⟨k₀, en, -, rfl⟩ := he
    · exact ⟨rfl, by simp [Lasting], fun m => by simp [Metric.due, Metric.marks]⟩
    · refine ⟨rfl, ?_, fun m => ?_⟩
      · simp [Lasting, removeUpdates, Action.update?, Update.isReset]
      · cases m <;> simp [Metric.due, Metric.marks, removeUpdates, Update.metric, Action.hook?,
          List.filterMap_cons]
  | clear =>
    have hlen := congrArg List.length hop
    simp [CallOp.actions, resetUpdates] at hlen

/-- Any other action counts what it was to count. -/
theorem perform_counts (ha : a.part = none) (hlasting : Lasting [a])
    (h : perform checks c locked a = some e) (m : Metric) :
    e.cache.counters m = c.counters m + (a.update?.map (Update.metric m)).getD 0 := by
  have happly : ∀ u, a.update? = some u →
      (c.apply u).counters m = c.counters m + u.metric m := fun u hu =>
    Cache.counters_apply c (hlasting a List.mem_cons_self u hu) m
  cases a with
  | insert key entry | remove key | drain i => cases ha
  | enter key u | update u =>
    cases h
    exact happly u rfl
  | unlock i | hook h' =>
    cases h
    exact (add_zero _).symm

end System

omit [EquivBEq κ] [LawfulHashable κ] in
/-- A lookup counts a hit or a miss before it returns its answer. -/
theorem Reader.Performs.counts {r : Reader κ ν} {e : Reading κ ν w n}
    (h : r.Performs c locked e) (m : Metric) :
    e.cache.counters m + ((r.counted m).toNat : BitVec 64) = c.counters m +
      ((e.shown.countP m.marks +
        (e.phase.map (Reader.mk r.op)).toList.countP (Reader.counted m) : Nat) : BitVec 64) := by
  have hmodify : ∀ (key : κ) (f : Entry ν w → Entry ν w),
      (r.modify c key f).counters = c.counters := fun _ _ => rfl
  cases h with
  | lock hp | test hp | miss hp | find hp | load hp | drop hp => simp [counted, hp]
  | mark hp | store hp => simp [counted, hp, hmodify]
  | countHit hp | countMiss hp =>
    cases m <;> simp [counted, hp, Cache.apply]
  | guard hp | clone hp =>
    cases m <;> simp [counted, hp, Metric.marks]
  | @finish answer hp =>
    cases answer with
    | value v => cases v <;> cases m <;> simp [counted, hp, Metric.marks]
    | present b => simp [counted, hp, Metric.marks]

/-- An action of a call counts what it was to count, and decides what it is to count. -/
theorem Call.Ordered.counts {call : Call κ ν w n} {a : Action κ ν w n}
    {todo : List (Action κ ν w n)} {e : Effect κ ν w n} (hcall : call.Ordered)
    (hop : call.op ≠ .clear) (htodo : call.todo = a :: todo) (ha : Lasting [a])
    (h : System.perform checks c locked a = some e) :
    Lasting (e.front ++ e.back) ∧ ∀ m : Metric,
      e.cache.counters m + (Weight.plain (Update.metric m)).sum (e.front ++ e.back) +
          ((m.due call.abs : Nat) : BitVec 64) =
        c.counters m + (a.update?.map (Update.metric m)).getD 0 +
          (((e.shown.map Event.note).countP m.marks + m.due (call.after todo e).abs : Nat) :
            BitVec 64) := by
  cases hpart : a.part with
  | some p =>
    have hupdate : a.update? = none := by cases a <;> simp [Action.part, Action.update?] at hpart ⊢
    obtain ⟨hcalleq, hall⟩ := hcall.fresh hop htodo (by simp [hpart])
    have hfresh : call.abs = ⟨.call call.op, (Request.call call.op).parts, none, []⟩ :=
      (congrArg Call.abs hcalleq).trans (ordered_start call.op).2
    obtain ⟨hcounters, hlasting, howing⟩ := System.perform_decides hall h
    obtain ⟨-, hnext⟩ := hcall.abs_part htodo hpart h
    have hhooks : call.hooks = [] := congrArg Atomic.Pending.owed hfresh
    refine ⟨hlasting, fun m => ?_⟩
    rw [hcounters, howing, hfresh, hnext, hhooks, System.shown_of_part hpart h, hupdate]
    simp [Metric.due]
  | none =>
    obtain ⟨hshown, -, hfront, hback, -⟩ := System.perform_other hpart h
    obtain ⟨hsame, hhook⟩ := hcall.abs_other htodo hpart h
    have hcounts := System.perform_counts hpart ha h
    rw [hfront, hback]
    refine ⟨by simp [Lasting], fun m => ?_⟩
    rw [hcounts m, hshown]
    cases hcase : a.hook? with
    | none => simp [hsame hcase]
    | some hook =>
      obtain ⟨answer, hooks, hbefore, hafter⟩ := hhook hook hcase
      rw [hbefore, hafter]
      simp only [Metric.due, Atomic.countP_cons, Option.toList_some, List.map_cons, List.map_nil,
        List.countP_nil, Event.note, List.append_nil, Weight.sum_nil, Nat.cast_add]
      linear_combination

/-! ## The invariant -/

namespace Shared

variable {s t : Shared κ ν w n} {trace shown : List (CacheNote κ ν w)} {move : Move κ ν w}

/-- Each metric and the updates in flight make up what was seen and what is due. -/
structure Metered (trace : List (CacheNote κ ν w)) (s : Shared κ ν w n) : Prop where
  ordered : ∀ call ∈ s.system.calls, call.Ordered
  noClear : ∀ call ∈ s.system.calls, call.op ≠ .clear
  lasting : Lasting s.system.inFlight
  counters : ∀ m,
    s.system.cache.counters m + (Weight.plain (Update.metric m)).sum s.system.inFlight =
    ((trace.countP m.marks + (s.system.calls.map fun call => m.due call.abs).sum +
      s.readers.countP (Reader.counted m) : Nat) : BitVec 64)

omit [Hashable κ] [EquivBEq κ] [LawfulHashable κ] [NeZero n] in
theorem metered_start (maxSizeBytes : BitVec w) :
    Metered [] (start maxSizeBytes : Shared κ ν w n) where
  ordered _ hcall := nomatch hcall
  noClear _ hcall := nomatch hcall
  lasting _ ha := nomatch ha
  counters _ := rfl

/-- A call on its way. -/
theorem Metered.advance (hs : s.Metered trace) {j : Nat} {events : List (Event κ ν w)}
    {system : System κ ν w n} (hordered : ∀ call ∈ system.calls, call.Ordered)
    (h : s.system.step checks (.advance j) = some (events, system)) :
    (Shared.mk system s.readers).Metered (trace ++ events.map Event.note) := by
  rcases System.step_cases h with ⟨op, hmove, -⟩ | ⟨j', call, hmove, hj, htodo, rfl, rfl⟩ |
    ⟨j', call, a, todo, e, hmove, hj, htodo, he, rfl, rfl⟩ | ⟨i, key, _, _, hmove, -⟩
  · cases hmove
  · obtain ⟨before, after, hcalls, rfl, -, herase⟩ := List.getElem?_split hj
    have hfinish : (s.system.finish before.length).calls = before ++ after := herase
    have hcounters := hs.counters
    have hlasting := hs.lasting
    simp only [System.inFlight, hcalls, List.flatMap_append, List.flatMap_cons, htodo,
      List.nil_append] at hcounters hlasting
    refine ⟨hordered, fun call' hcall' => ?_, ?_, fun m => ?_⟩
    · exact hs.noClear call' (List.mem_of_mem_eraseIdx hcall')
    · simpa [System.inFlight, hfinish] using hlasting
    · have hdue : m.due call.abs =
          (m.marks (.returned (.call call.op) (.result call.result) : CacheNote κ ν w)).toNat := by
        rw [Call.abs_of_nil htodo, Metric.due]
        simp
      have hm := hcounters m
      have hcache : (s.system.finish before.length).cache = s.system.cache := rfl
      simp only [System.inFlight, hfinish, hcache, List.flatMap_append, Weight.sum_append,
        List.map_append, List.map_cons, List.map_nil, List.sum_append, List.sum_cons,
        List.countP_append, Atomic.countP_cons, List.countP_nil, hdue, Event.note,
        Nat.cast_add] at hm ⊢
      linear_combination hm
  · obtain ⟨before, after, hcalls, rfl, hset, -⟩ := List.getElem?_split hj
    have hcall : call ∈ s.system.calls := List.mem_of_getElem? hj
    have hresume : (s.system.resume before.length call todo e).calls =
        before ++ call.after todo e :: after := hset _
    have hcache : (s.system.resume before.length call todo e).cache = e.cache := rfl
    have htodo' : (call.after todo e).todo = e.front ++ todo ++ e.back := rfl
    have hcounters := hs.counters
    have hlasting := hs.lasting
    simp only [System.inFlight, hcalls, List.flatMap_append, List.flatMap_cons, htodo]
      at hcounters hlasting
    obtain ⟨hadded, hbooks⟩ := (hs.ordered call hcall).counts (hs.noClear call hcall) htodo
      (fun b hb => hlasting b (by rw [List.mem_singleton.mp hb]; simp)) he
    refine ⟨hordered, fun call' hcall' => ?_, ?_, fun m => ?_⟩
    · rcases List.mem_or_eq_of_mem_set hcall' with hold | rfl
      · exact hs.noClear call' hold
      · exact hs.noClear call hcall
    · simp only [System.inFlight, hresume, List.flatMap_append, List.flatMap_cons, htodo']
      intro b hb
      simp only [List.mem_append] at hb
      rcases hb with hb | (((hb | hb) | hb) | hb)
      · exact hlasting b (by simp [hb])
      · exact hadded b (by simp [hb])
      · exact hlasting b (by simp [hb])
      · exact hadded b (by simp [hb])
      · exact hlasting b (by simp [hb])
    · have hm := hcounters m
      have hstep := hbooks m
      simp only [System.inFlight, hresume, hcache, htodo', List.flatMap_append, List.flatMap_cons,
        Weight.sum_append, Weight.sum_cons, Action.of_plain_metric, List.map_append, List.map_cons,
        List.sum_append, List.sum_cons,
        List.countP_append, Nat.cast_add] at hm hstep ⊢
      linear_combination hm + hstep
  · cases hmove

theorem Metered.step (hs : s.Metered trace) (hmove : move.Starts (· ≠ .clear))
    (hordered : ∀ call ∈ t.system.calls, call.Ordered)
    (h : Shared.step checks s move = some (shown, t)) : t.Metered (trace ++ shown) := by
  rcases step_cases h with ⟨op, rfl, rfl, rfl⟩ | ⟨j, events, system, rfl, -, hstep, rfl, rfl⟩ |
    ⟨op, rfl, rfl, rfl⟩ | ⟨before, r, after, e, -, hreaders, he, rfl, rfl⟩
  · obtain ⟨-, habs⟩ := Call.ordered_start (n := n) op
    have hflight : (s.system.begin op).inFlight = s.system.inFlight ++ op.actions := by
      simp [System.inFlight, System.begin]
    have hnone : ∀ a ∈ (op.actions : List (Action κ ν w n)), a.update? = none := by
      cases op with
      | clear => exact absurd rfl hmove
      | insert key entry | remove key => simp [CallOp.actions, Action.update?]
    refine ⟨hordered, fun call hcall => ?_, fun a ha u hu => ?_, fun m => ?_⟩
    · rcases List.mem_append.mp hcall with hold | hnew
      · exact hs.noClear call hold
      · rw [List.mem_singleton.mp hnew]
        exact hmove
    · rcases List.mem_append.mp (hflight ▸ ha) with hold | hnew
      · exact hs.lasting a hold u hu
      · rw [hnone a hnew] at hu
        cases hu
    · have hm := hs.counters m
      have hcalls : (s.system.begin op).calls = s.system.calls ++ [⟨op, none, op.actions⟩] := rfl
      have hcache : (s.system.begin op).cache = s.system.cache := rfl
      rw [hflight, hcalls, hcache, Weight.sum_append, Weight.sum_actions (fun _ => rfl), add_zero,
        hm]
      simp [habs, Metric.due, Metric.marks]
  · exact hs.advance hordered hstep
  · refine ⟨hordered, hs.noClear, hs.lasting, fun m => ?_⟩
    have hm := hs.counters m
    simpa [List.countP_append, Metric.marks, Reader.counted] using hm
  · refine ⟨hordered, hs.noClear, hs.lasting, fun m => ?_⟩
    have hm := hs.counters m
    have hcounts := he.counts m
    show e.cache.counters m + (Weight.plain (Update.metric m)).sum s.system.inFlight = _
    simp only [hreaders, List.countP_append, Atomic.countP_cons, Nat.cast_add] at hm hcounts ⊢
    linear_combination hm + hcounts

/-- A call that panics has counted nothing and owes nothing. -/
theorem Metered.stepOrPanic (hs : s.Metered trace) (hmove : move.Starts (· ≠ .clear))
    (h : Shared.stepOrPanic checks s move = some (shown, t)) : t.Metered (trace ++ shown) := by
  have hordered := step_ordered hs.ordered h
  rcases stepOrPanic_cases h with hstep |
    ⟨j, call, a, todo, i, s', -, -, rfl, hj, htodo, hlock, rfl⟩
  · exact hs.step hmove hordered hstep
  · have hcall : call ∈ s.system.calls := List.mem_of_getElem? hj
    have hpart : a.part ≠ none := by cases a <;> simp [Action.lock, Action.part] at hlock ⊢
    obtain ⟨hcalleq, -⟩ := (hs.ordered call hcall).fresh (hs.noClear call hcall) htodo hpart
    have hdue : ∀ m : Metric, m.due call.abs = 0 := fun m => by
      rw [hcalleq, (Call.ordered_start call.op).2, Metric.due]
      rfl
    have hweight : ∀ m, (Weight.plain (Update.metric m)).sum call.todo = 0 := fun m => by
      rw [hcalleq]
      exact Weight.sum_actions (fun _ => rfl) call.op
    obtain ⟨before, after, hcalls, rfl, -, herase⟩ := List.getElem?_split hj
    have hfinish : (s.system.finish before.length).calls = before ++ after := herase
    have hcounters := hs.counters
    have hlasting := hs.lasting
    simp only [System.inFlight, hcalls, List.flatMap_append, List.flatMap_cons]
      at hcounters hlasting
    refine ⟨hordered, fun call' hcall' => ?_, ?_, fun m => ?_⟩
    · exact hs.noClear call' (List.mem_of_mem_eraseIdx hcall')
    · intro b hb
      simp only [System.inFlight, hfinish, List.flatMap_append, List.mem_append] at hb
      exact hlasting b (by simp only [List.mem_append]; tauto)
    · have hm := hcounters m
      simp only [Weight.sum_append, hweight, List.map_append, List.map_cons, List.sum_append,
        List.sum_cons, hdue] at hm
      have hcache : (s.system.cache.setShard i s').counters = s.system.cache.counters := rfl
      simpa [hcache, System.inFlight, hfinish, Weight.sum_append] using hm

theorem metered {maxSizeBytes : BitVec w}
    (h : Execution (Shared.stepOrPanic checks) (fun _ move => move.Starts (· ≠ .clear))
      (start maxSizeBytes) trace s) : s.Metered trace :=
  Execution.invariant (metered_start maxSizeBytes)
    (fun _ _ _ _ _ hs hmove hstep => hs.stepOrPanic hmove hstep) h

omit [Hashable κ] [EquivBEq κ] [LawfulHashable κ] [NeZero n] in
/-- Once nothing is in flight a metric is what was seen. -/
theorem Metered.settled (hs : s.Metered trace) (hcalls : s.system.calls = []) {m : Metric}
    (hreaders : s.readers.countP (Reader.counted m) = 0) :
    s.system.cache.counters m = (trace.countP m.marks : BitVec 64) := by
  have hm := hs.counters m
  rw [System.inFlight, hcalls, hreaders] at hm
  simpa only [List.flatMap_nil, Weight.sum_nil, add_zero, List.map_nil, List.sum_nil] using hm

omit [Hashable κ] [EquivBEq κ] [LawfulHashable κ] [NeZero n] in
/-- Guards were counted when their lookups returned. -/
theorem countP_guards (hreaders : ∀ r ∈ s.readers, ∃ key value, r.phase = .guarded key value)
    (m : Metric) : s.readers.countP (Reader.counted m) = 0 := by
  refine List.countP_eq_zero.mpr fun r hr => ?_
  obtain ⟨key, value, hphase⟩ := hreaders r hr
  simp [Reader.counted, hphase]

/-- The metrics in every interleaving of insertions, removals, lookups and guards, as long as
`clear` is not called, calls that panic included. Where no call is in progress, and no lookup but
for guards, each metric is the number of what it counts, modulo `2 ^ 64`: insertions that returned
nothing or a value, removals and lookups that returned a value or nothing, and calls of
`on_evict`. -/
theorem metrics_count {maxSizeBytes : BitVec w}
    (h : Execution (Shared.stepOrPanic checks) (fun _ move => move.Starts (· ≠ .clear))
      (start maxSizeBytes) trace s)
    (hcalls : s.system.calls = [])
    (hreaders : ∀ r ∈ s.readers, ∃ key value, r.phase = .guarded key value) (m : Metric) :
    (s.system.cache.counters m).toNat = trace.countP m.marks % 2 ^ 64 := by
  rw [(metered h).settled hcalls (countP_guards hreaders m), BitVec.natCast_eq_ofNat,
    BitVec.toNat_ofNat]

/-- Two insertions that overlap with a lookup, whose guard lives on, and with one that misses. -/
def observed : List (Move Nat Nat 8) :=
  [.start (.insert 0 (.new 7 3 .standard)), .start (.insert 1 (.new 9 2 .standard)), .advance 0,
    .look ⟨.get, hash 0, (0 == ·)⟩] ++ List.replicate 7 (.read 0) ++
    .look ⟨.getClone, hash 1, (1 == ·)⟩ :: List.replicate 4 (.advance 0) ++
    List.replicate 4 (.read 1) ++ List.replicate 5 (.advance 0)

theorem metrics_count_observed :
    ∃ trace, ∃ s : Shared Nat Nat 8 2,
      Execution (Shared.stepOrPanic true) (fun _ move => move.Starts (· ≠ .clear)) (start 20)
        trace s ∧
      s.system.calls = [] ∧ (s.readers.map fun r => r.phase) = [.guarded 0 7] ∧
      ∀ m, (s.system.cache.counters m).toNat = trace.countP m.marks % 2 ^ 64 := by
  have hfacts : ((Execution.play (Shared.stepOrPanic true) (fun _ move => move.Starts (· ≠ .clear))
      (start 20 : Shared Nat Nat 8 2) (unwinding ++ observed)).map fun r =>
        (r.2.system.calls.isEmpty, r.2.readers.map fun r => r.phase)) =
      some (true, [.guarded 0 7]) := by decide +kernel
  obtain ⟨⟨trace, s⟩, hplay, hs⟩ := Option.map_eq_some_iff.mp hfacts
  obtain ⟨hcalls, hreaders⟩ := Prod.mk.inj hs
  have hrun := Execution.of_play hplay
  refine ⟨trace, s, hrun, List.isEmpty_iff.mp hcalls, hreaders,
    metrics_count hrun (List.isEmpty_iff.mp hcalls) fun r hr => ⟨0, 7, ?_⟩⟩
  exact List.mem_singleton.mp (hreaders ▸ List.mem_map_of_mem hr)

end Shared

end PriorityLfu
