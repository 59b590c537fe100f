import PriorityLfu.Concurrent.Run
import PriorityLfu.Concurrent.Weight

/-!
# The counters agree with the shards at rest

Whatever the interleaving, a counter and the updates still in flight add up to the total over
the shards: the change of a shard puts in flight exactly the updates that account for it, and
an update moves from flight to the counter. Where no call is in progress nothing is in
flight.
-/
namespace PriorityLfu
open Keyed

variable {κ ν : Type} {w n : Nat}

variable [BEq κ] [Hashable κ] [EquivBEq κ] [LawfulHashable κ] [NeZero n] {checks : Bool}

namespace System

/-- The counters and the updates in flight account for all that is stored. -/
structure Accounted (s : System κ ν w n) : Prop where
  routed : s.cache.Routed
  size : s.cache.currentSize + (Weight.plain Update.size).sum s.inFlight = s.cache.byteTotal
  count : s.cache.entryCount + (Weight.plain Update.count).sum s.inFlight = s.cache.entryTotal

omit [EquivBEq κ] [LawfulHashable κ] in
theorem accounted_start (maxSizeBytes : BitVec w) :
    (start maxSizeBytes : System κ ν w n).Accounted where
  routed := routed_start maxSizeBytes
  size := (add_zero _).trans (Cache.settled_new maxSizeBytes).size
  count := (add_zero _).trans (Cache.settled_new maxSizeBytes).count

/-- One action: what it adds to the totals it adds to the counters or puts in flight. -/
theorem perform_amounts {c : Cache κ ν w n} {locked : Fin n → Bool} {a : Action κ ν w n}
    {e : Effect κ ν w n} (hc : c.Routed) (h : perform checks c locked a = some e) :
    (e.cache.byteTotal : BitVec w) + c.currentSize + (Weight.plain Update.size).of a =
      c.byteTotal + e.cache.currentSize + (Weight.plain Update.size).sum (e.front ++ e.back) ∧
    (e.cache.entryTotal : BitVec w) + c.entryCount + (Weight.plain Update.count).of a =
      c.entryTotal + e.cache.entryCount + (Weight.plain Update.count).sum (e.front ++ e.back) := by
  cases a with
  | insert key entry =>
    obtain ⟨vs, s', us, hi, hus, rfl⟩ := perform_insert hc h
    obtain ⟨hsize, hcount⟩ := hi.books hc hus
    simp only [List.map_append, List.sum_append] at hsize hcount
    simp only [Weight.sum_append, Weight.sum_enter, Weight.sum_update, Weight.sum_hook,
      Weight.sum_nil, Weight.of, Weight.enter_plain, Weight.update_plain,
      Cache.currentSize_setShard, Cache.entryCount_setShard]
    constructor
    · linear_combination hsize
    · linear_combination hcount
  | remove key =>
    rcases perform_remove hc h with ⟨rfl, -⟩ | ⟨k₀, en, s', hr, rfl⟩
    · simp [Weight.of]
    · obtain ⟨hsize, hcount⟩ := hr.books
      simp only [Weight.sum_append, Weight.sum_update, Weight.sum_cons, Weight.sum_nil, Weight.of,
        Weight.update_plain, Cache.currentSize_setShard,
        Cache.entryCount_setShard] at hsize hcount ⊢
      constructor
      · linear_combination hsize
      · linear_combination hcount
  | drain i =>
    obtain ⟨hsize, hcount⟩ := Cache.books_drainShard hc i
    rw [perform_drain h]
    have hcur : (c.drainShard i).2.currentSize = c.currentSize := rfl
    have hent : (c.drainShard i).2.entryCount = c.entryCount := rfl
    simp only [Weight.sum_append, Weight.sum_update, Weight.sum_cons, Weight.sum_nil,
      Weight.sum_hook, Weight.of, Weight.update_plain, hcur, hent]
    constructor
    · linear_combination hsize
    · linear_combination hcount
  | enter key u | update u =>
    cases h
    simp only [Weight.of, Weight.enter_plain, Weight.update_plain, Cache.currentSize_apply,
      Cache.entryCount_apply, Cache.byteTotal_congr (Cache.shards_apply c u),
      Cache.entryTotal_congr (Cache.shards_apply c u), List.append_nil, Weight.sum_nil, add_zero]
    exact ⟨add_assoc _ _ _, add_assoc _ _ _⟩
  | unlock i | hook h' => cases h; simp [Weight.of]

theorem step_accounted {s t : System κ ν w n} {choice : Choice κ ν w n}
    {shown : List (Event κ ν w)} (hs : s.Accounted) (h : step checks s choice = some (shown, t)) :
    t.Accounted := by
  refine ⟨step_routed hs.routed h, ?_, ?_⟩ <;>
    rcases step_inFlight h with ⟨op, -, hc, hf⟩ | ⟨hc, hf⟩ |
      ⟨j, a, rest, e, -, -, he, hc, hf, hf'⟩ |
      ⟨i, key, clockBit, frequency, hc, hf⟩
  · rw [hc, hf, Weight.sum_append, Weight.sum_actions (fun _ => rfl), add_zero, hs.size]
  · rw [hc, ← Weight.sum_perm hf, hs.size]
  · have hsize := hs.size
    have hperform := (perform_amounts hs.routed he).1
    rw [Weight.sum_perm hf, Weight.sum_cons] at hsize
    rw [hc, Weight.sum_perm hf', Weight.sum_append]
    linear_combination hsize - hperform
  · rw [hc, hf, Cache.byteTotal_eq, Cache.total_access, ← Cache.byteTotal_eq]
    exact hs.size
  · rw [hc, hf, Weight.sum_append, Weight.sum_actions (fun _ => rfl), add_zero, hs.count]
  · rw [hc, ← Weight.sum_perm hf, hs.count]
  · have hcount := hs.count
    have hperform := (perform_amounts hs.routed he).2
    rw [Weight.sum_perm hf, Weight.sum_cons] at hcount
    rw [hc, Weight.sum_perm hf', Weight.sum_append]
    linear_combination hcount - hperform
  · rw [hc, hf, Cache.entryTotal_eq, Cache.total_access, ← Cache.entryTotal_eq]
    exact hs.count

theorem accounted {maxSizeBytes : BitVec w} {allowed : System κ ν w n → Choice κ ν w n → Prop}
    {trace : List (Event κ ν w)} {s : System κ ν w n}
    (h : Execution (step checks) allowed (start maxSizeBytes) trace s) : s.Accounted :=
  h.state_invariant (accounted_start maxSizeBytes) fun _ _ _ _ hs _ => step_accounted hs

omit [EquivBEq κ] [LawfulHashable κ] in
/-- Where no call is in progress the counters are the totals, as words. -/
theorem Accounted.settled {s : System κ ν w n} (h : s.Accounted) (hrest : s.calls = []) :
    s.cache.Settled := by
  have hflight : s.inFlight = [] := by rw [inFlight, hrest, List.flatMap_nil]
  have hsize := h.size
  have hcount := h.count
  rw [hflight, Weight.sum_nil, add_zero] at hsize hcount
  exact ⟨hsize, hcount⟩

end System

end PriorityLfu
