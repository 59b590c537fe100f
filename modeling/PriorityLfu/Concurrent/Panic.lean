import PriorityLfu.Concurrent.Readers

/-!
# Calls that panic

With overflow checks a call can panic half way. It ends there: its lock is released while the
stack unwinds, what it has changed stays changed, and neither its counters are updated nor its
hooks called. The other calls go on (`stepOrPanic`). The executions in which no call panics are
those of `step`; without overflow checks there are no others.
-/
namespace PriorityLfu
open Keyed

variable {κ ν : Type} {w n : Nat} [BEq κ] [Hashable κ] [EquivBEq κ] [LawfulHashable κ] [NeZero n]
  {checks : Bool}

namespace System

/-- What an action leaves of the cache where it panics: `insert` inside the shard, or when it
computes the difference of the sizes; `remove` inside the shard. -/
def unwind (checks : Bool) (cache : Cache κ ν w n) (locked : Fin n → Bool) :
    Action κ ν w n → Option (Cache κ ν w n)
  | .insert key entry =>
    if locked (getShard w n (hash key)) then none
    else
      match cache.insertShard checks key entry with
      | .panic cache => some cache
      | .ok (old, _, _) cache =>
        if (insertUpdates checks entry.size old).isSome then none else some cache
  | .remove key =>
    if locked (getShard w n (hash key)) then none
    else
      match cache.removeShard checks key with
      | .panic cache => some cache
      | .ok _ _ => none
  | _ => none

/-- What the system is after a choice that makes a call panic. -/
def unwound (checks : Bool) (s : System κ ν w n) : Choice κ ν w n → Option (System κ ν w n)
  | .advance j => (s.next j).bind fun a =>
    (unwind checks s.cache s.locked a).map fun cache => { s.finish j with cache }
  | _ => none

/-- A step, or the end of a call that panics. -/
def stepOrPanic (checks : Bool) :
    System κ ν w n → Choice κ ν w n → Option (List (Event κ ν w) × System κ ν w n) :=
  Execution.withFailures (unwound checks) (step checks)

/-- No call panics. -/
def Calm (checks : Bool) (s : System κ ν w n) (choice : Choice κ ν w n) : Prop :=
  s.unwound checks choice = none

instance (s : System κ ν w n) (choice : Choice κ ν w n) : Decidable (s.Calm checks choice) :=
  decidable_of_iff _ Option.isNone_iff_eq_none

variable {c d : Cache κ ν w n} {locked : Fin n → Bool} {a : Action κ ν w n}
  {s t : System κ ν w n} {choice : Choice κ ν w n}

/-- An action that panics is an insertion or a removal. -/
theorem unwind_cases (h : unwind checks c locked a = some d) :
    (∃ key entry, a = .insert key entry ∧
      (c.insertShard checks key entry = .panic d ∨
        ∃ old stats evicted, c.insertShard checks key entry = .ok (old, stats, evicted) d ∧
          insertUpdates checks entry.size old = none)) ∨
      ∃ key, a = .remove key ∧ c.removeShard checks key = .panic d := by
  unfold unwind at h
  split at h
  · next key entry =>
    refine .inl ⟨key, entry, rfl, ?_⟩
    split at h
    · cases h
    · split at h
      · next d' hins =>
        cases h
        exact .inl hins
      · next old stats evicted d' hins =>
        split at h
        · cases h
        · next hnone =>
          cases h
          exact .inr ⟨old, stats, evicted, hins, by simpa using hnone⟩
  · next key =>
    refine .inr ⟨key, rfl, ?_⟩
    split at h
    · cases h
    · split at h
      · next d' hrem =>
        cases h
        exact hrem
      · cases h
  · cases h

/-- An action that has an effect does not panic. -/
theorem unwind_eq_none {e : Effect κ ν w n} (h : perform checks c locked a = some e) :
    unwind checks c locked a = none := by
  rw [Option.eq_none_iff_forall_ne_some]
  intro d hd
  rcases unwind_cases hd with ⟨key, entry, rfl, hins⟩ | ⟨key, rfl, hrem⟩
  · rw [perform] at h
    split at h
    · cases h
    · rcases hins with hins | ⟨old, stats, evicted, hins, hnone⟩
      · rw [hins] at h
        cases h
      · rw [hins] at h
        simp [hnone] at h
  · rw [perform] at h
    split at h
    · cases h
    · rw [hrem] at h
      cases h

/-- A call that panics is about to take a lock. It ends, and leaves the one shard changed. -/
theorem unwound_cases (h : s.unwound checks choice = some t) :
    ∃ j call a todo i s', choice = .advance j ∧ s.calls[j]? = some call ∧
      call.todo = a :: todo ∧ a.lock = some i ∧
      t = { s.finish j with cache := s.cache.setShard i s' } := by
  cases choice with
  | start op | access i key clockBit frequency => cases h
  | advance j =>
    obtain ⟨a, ha, h⟩ := Option.bind_eq_some_iff.mp h
    obtain ⟨d, hd, rfl⟩ := Option.map_eq_some_iff.mp h
    obtain ⟨call, hj, hhead⟩ := Option.bind_eq_some_iff.mp ha
    obtain ⟨todo, htodo⟩ := List.head?_eq_some_iff.mp hhead
    obtain ⟨i, s', hlock, rfl⟩ :
        ∃ i s', a.lock = some i ∧ d = s.cache.setShard i s' := by
      rcases unwind_cases hd with ⟨key, entry, rfl, hins | ⟨old, stats, evicted, hins, -⟩⟩ |
        ⟨key, rfl, hrem⟩
      · obtain ⟨s', -, rfl⟩ := Outcome.mapState_eq_panic.mp hins
        exact ⟨_, s', rfl, rfl⟩
      · obtain ⟨s', -, rfl⟩ := Outcome.mapState_eq_ok.mp hins
        exact ⟨_, s', rfl, rfl⟩
      · obtain ⟨s', -, rfl⟩ := Outcome.mapState_eq_panic.mp hrem
        exact ⟨_, s', rfl, rfl⟩
    exact ⟨j, call, a, todo, i, s', rfl, hj, htodo, hlock, rfl⟩

/-- A call that makes a step does not panic. -/
theorem calm_of_step {r : List (Event κ ν w) × System κ ν w n}
    (h : step checks s choice = some r) : s.unwound checks choice = none := by
  obtain ⟨shown, t⟩ := r
  rcases step_cases h with ⟨op, rfl, -⟩ | ⟨j, call, rfl, hj, htodo, -⟩ |
    ⟨j, call, a, todo, e, rfl, hj, htodo, he, -⟩ | ⟨i, key, clockBit, frequency, rfl, -⟩
  · rfl
  · simp [unwound, next, hj, htodo]
  · simp [unwound, next, hj, htodo, unwind_eq_none he]
  · rfl

/-- The executions of `step` are those in which no call panics. -/
theorem execution_calm_iff {allowed : System κ ν w n → Choice κ ν w n → Prop}
    {trace : List (Event κ ν w)} :
    Execution (stepOrPanic checks) (fun s choice => s.Calm checks choice ∧ allowed s choice) s
      trace t ↔ Execution (step checks) allowed s trace t :=
  Execution.withFailures_iff fun _ _ _ => calm_of_step

/-- Without overflow checks no action panics. -/
theorem unwind_unchecked (c : Cache κ ν w n) (locked : Fin n → Bool) (a : Action κ ν w n) :
    unwind false c locked a = none := by
  rw [Option.eq_none_iff_forall_ne_some]
  intro d hd
  rcases unwind_cases hd with ⟨key, entry, rfl, hins⟩ | ⟨key, rfl, hrem⟩
  · obtain ⟨r, d', hok⟩ := Cache.insertShard_unchecked c key entry
    rw [hok] at hins
    rcases hins with hins | ⟨old, stats, evicted, -, hnone⟩
    · cases hins
    · obtain ⟨us, hus⟩ := Cache.insertUpdates_unchecked entry.size old
      rw [hus] at hnone
      cases hnone
  · obtain ⟨r, d', hok⟩ := Cache.removeShard_unchecked c key
    rw [hok] at hrem
    cases hrem

theorem calm_unchecked (s : System κ ν w n) (choice : Choice κ ν w n) : s.Calm false choice := by
  cases choice with
  | start op | access i key clockBit frequency => rfl
  | advance j => simp [Calm, unwound, unwind_unchecked]

end System

namespace Shared

/-- What is shared after a choice that makes a call panic. -/
def unwound (checks : Bool) (s : Shared κ ν w n) : Move κ ν w → Option (Shared κ ν w n)
  | .advance j =>
    if s.blocked j then none
    else (s.system.unwound checks (.advance j)).map fun system => { s with system }
  | _ => none

/-- A step, or the end of a call that panics. -/
def stepOrPanic (checks : Bool) :
    Shared κ ν w n → Move κ ν w → Option (List (CacheNote κ ν w) × Shared κ ν w n) :=
  Execution.withFailures (unwound checks) (step checks)

/-- No call panics. -/
def Calm (checks : Bool) (s : Shared κ ν w n) (move : Move κ ν w) : Prop :=
  s.unwound checks move = none

instance (s : Shared κ ν w n) (move : Move κ ν w) : Decidable (s.Calm checks move) :=
  decidable_of_iff _ Option.isNone_iff_eq_none

variable {s t : Shared κ ν w n} {move : Move κ ν w}

/-- A step, or a call that panics where it has a lock that nobody reads. -/
theorem stepOrPanic_cases {shown : List (CacheNote κ ν w)}
    (h : stepOrPanic checks s move = some (shown, t)) :
    step checks s move = some (shown, t) ∨
      ∃ j call a todo i s', move = .advance j ∧ s.blocked j = false ∧ shown = [] ∧
        s.system.calls[j]? = some call ∧ call.todo = a :: todo ∧ a.lock = some i ∧
        t = { s with system :=
          { s.system.finish j with cache := s.system.cache.setShard i s' } } := by
  rw [stepOrPanic, Execution.withFailures] at h
  split at h
  · next u hpanic =>
    cases h
    refine .inr ?_
    cases move with
    | start op | look op | read j => cases hpanic
    | advance j =>
      rw [unwound] at hpanic
      split at hpanic
      · cases hpanic
      · next hfree =>
        obtain ⟨system, hsystem, rfl⟩ := Option.map_eq_some_iff.mp hpanic
        obtain ⟨_, call, a, todo, i, s', hmove, hj, htodo, hlock, rfl⟩ :=
          System.unwound_cases hsystem
        cases hmove
        exact ⟨j, call, a, todo, i, s', rfl, by simpa using hfree, rfl, hj, htodo, hlock, rfl⟩
  · exact .inl h

/-- A call that makes a step does not panic. -/
theorem calm_of_step {r : List (CacheNote κ ν w) × Shared κ ν w n}
    (h : step checks s move = some r) : s.unwound checks move = none := by
  cases move with
  | start op | look op | read j => rfl
  | advance j =>
    rw [step] at h
    split at h
    · cases h
    · next hfree =>
      obtain ⟨_, hstep, -⟩ := Option.map_eq_some_iff.mp h
      rw [unwound, if_neg hfree, System.calm_of_step hstep, Option.map_none]

/-- Executions in which no call panics are executions of `step`. -/
theorem execution_of_calm {allowed allowed' : Shared κ ν w n → Move κ ν w → Prop}
    {trace : List (CacheNote κ ν w)}
    (hcalm : ∀ s move, allowed' s move → s.Calm checks move ∧ allowed s move)
    (h : Execution (stepOrPanic checks) allowed' s trace t) :
    Execution (step checks) allowed s trace t :=
  Execution.of_withFailures hcalm h

/-- Without overflow checks that are all. -/
theorem calm_unchecked (s : Shared κ ν w n) (move : Move κ ν w) : s.Calm false move := by
  cases move with
  | start op | look op | read j => rfl
  | advance j =>
    have := System.calm_unchecked s.system (.advance j)
    rw [System.Calm] at this
    simp [Calm, unwound, this]

end Shared

end PriorityLfu
