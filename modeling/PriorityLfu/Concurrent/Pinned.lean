import PriorityLfu.Cache.WorkingSet
import PriorityLfu.Concurrent.Hooks
import PriorityLfu.Concurrent.Serial
import PriorityLfu.Concurrent.Stored

/-!
# Keys that are never evicted

Whoever inserts finds the shard in a state of a sequential run, and in such a run a working set
that fits stays. So it stays whatever the calls overlap: none of its keys is ever evicted, and one
that is stored stays until somebody removes it.
-/
namespace PriorityLfu
open Keyed

variable {κ ν : Type} {w n : Nat} [BEq κ]

/-! ## Calls that keep to a working set -/

/-- Under a key of the working set there are only entries of priority `q` or higher. -/
def WorkingSet.Raises (ws : WorkingSet κ) (q : CachePolicy) (key : κ)
    (x : ν × BitVec w × CachePolicy) : Prop :=
  (∃ k ∈ ws.keys.keys, (k == key) = true) → x.2.2.discriminant ≤ q.discriminant

instance (ws : WorkingSet κ) (q : CachePolicy) (key : κ) (x : ν × BitVec w × CachePolicy) :
    Decidable (ws.Raises q key x) :=
  inferInstanceAs (Decidable (_ → _))

theorem WorkingSet.Raises.congr [EquivBEq κ] {ws : WorkingSet κ} {q : CachePolicy} {key key' : κ}
    {x : ν × BitVec w × CachePolicy} (hkey : (key == key') = true) (h : ws.Raises q key x) :
    ws.Raises q key' x :=
  fun ⟨k, hk, heq⟩ => h ⟨k, hk, BEq.trans heq (BEq.symm hkey)⟩

/-- A call that keeps to the working set: where it inserts, the entry does. -/
def CallOp.Pins (ws : WorkingSet κ) (q : CachePolicy) : CallOp κ ν w → Prop
  | .insert key entry => ws.Allows q key entry.content ∧ ws.Raises q key entry.content
  | _ => True

instance (ws : WorkingSet κ) (q : CachePolicy) : DecidablePred (CallOp.Pins ws q : CallOp κ ν w → _)
  | .insert _ _ => inferInstanceAs (Decidable (_ ∧ _))
  | .remove _ | .clear => isTrue trivial

/-- A call that takes out what is stored under `k`. -/
def CallOp.Takes (k : κ) : CallOp κ ν w → Prop
  | .insert _ _ => False
  | .remove key => (key == k) = true
  | .clear => True

/-- A hook that reports no eviction from the working set. -/
def WorkingSet.Spares (ws : WorkingSet κ) : Hook κ → Prop
  | .onEvict key => ∀ k ∈ ws.keys.keys, (k == key) = false
  | _ => True

variable {ws : WorkingSet κ} {q : CachePolicy}

omit [BEq κ] in
theorem Move.Starts.mono {p p' : CallOp κ ν w → Prop} {move : Move κ ν w} (h : move.Starts p)
    (hp : ∀ op, p op → p' op) : move.Starts p' := by
  cases move with
  | start op => exact hp op h
  | advance j | look op | read j => trivial

variable [Hashable κ] [EquivBEq κ] [LawfulHashable κ] [NeZero n] {checks : Bool} {cap : BitVec w}
  {i : Fin n}

theorem ShardOp.From.keeps {op : ShardOp κ ν w} (h : op.From (CallOp.Pins ws q) i) :
    op.Keeps (ws.onShard w i) q := by
  cases op with
  | insert key entry =>
    obtain ⟨rfl, hallows, -⟩ := h
    exact WorkingSet.Allows.onShard hallows
  | get hash equals | remove key | drain | clear => trivial

/-- Where the working set fits, so does every insertion that keeps to it. -/
theorem CallOp.Pins.fits {op : CallOp κ ν w} (h : op.Pins ws q)
    (hneed : ∀ i : Fin n, (ws.onShard w i).need ≤ cap.toNat)
    (hfits : ∀ i : Fin n, cap.toNat + (ws.onShard w i).need < 2 ^ w) :
    (Choice.start op : Choice κ ν w n).Fits cap := by
  cases op with
  | insert key entry =>
    have hallows : (ws.onShard w (getShard w n (hash key))).Allows q key entry.content :=
      WorkingSet.Allows.onShard h.1
    have hsize : entry.size.toNat ≤ _ := hallows.size_le
    have hroom := hfits (getShard w n (hash key))
    exact ⟨hsize.trans (hneed _), by omega⟩
  | remove key | clear => trivial

/-- A shard that sequential runs lead to holds its part of the working set. -/
theorem Serial.guarded {s : Shard κ ν w} (h : Serial checks (CallOp.Pins ws q) i cap s)
    (hneed : (ws.onShard w i).need ≤ cap.toNat)
    (hfits : cap.toNat + (ws.onShard w i).need < 2 ^ w) :
    s.Guarded (ws.onShard w i) q cap := by
  obtain ⟨ops, rs, hrun, hops⟩ := h
  obtain ⟨rs', t, hrun', hguarded, -⟩ := Shard.guarded_new.run hneed hfits checks
    fun op hop => (hops op hop).keeps
  rw [hrun] at hrun'
  cases hrun'
  exact hguarded

namespace System

variable {c : Cache κ ν w n} {locked : Fin n → Bool} {a : Action κ ν w n} {e : Effect κ ν w n}

/-- An action puts only hooks in flight that report no eviction from the working set. -/
theorem perform_spares (hc : c.Routed) (h : perform checks c locked a = some e)
    (ha : a.From (CallOp.Pins ws q))
    (hstored : Contents.All (ws.Raises q) c.contentAt)
    (hneed : ∀ i : Fin n, (ws.onShard w i).need ≤ cap.toNat)
    (hguarded : ∀ i, a.lock = some i → (c.shards i).Guarded (ws.onShard w i) q cap) :
    ∀ hook, .hook hook ∈ e.front ++ e.back → ws.Spares hook := by
  intro hook hhook
  rcases perform_hooks hc h hhook with ⟨key, entry, vs, rfl, hi, v, hv, rfl⟩ |
    ⟨key, k₀, en, -, -, rfl⟩ | ⟨i, -, en, -, rfl⟩
  · obtain ⟨u, t, s', hsteps, -⟩ := hi.shard
    have hlower := (hguarded _ rfl).spares (hneed _) (WorkingSet.Allows.onShard ha.1) hsteps hv
    intro k hk
    rw [Bool.eq_false_iff]
    intro hkey
    -- evicted entries are of lower priority, and none such stands under a key of the set
    have hhigher := hstored _ _ (hi.victim hc hv).1 ⟨k, hk, hkey⟩
    exact absurd hhigher (Nat.not_le.mpr hlower)
  · trivial
  · trivial

/-- What is stored under a key of the working set stays, unless the action is part of a call that
takes it out. -/
theorem perform_stays (hc : c.Routed) (h : perform checks c locked a = some e) {k : κ}
    (hk : k ∈ ws.keys.keys) (ha : a.From fun op => ¬ op.Takes k)
    (hspares : ∀ hook, .hook hook ∈ e.front ++ e.back → ws.Spares hook)
    (hstored : c.contentAt k ≠ none) : e.cache.contentAt k ≠ none := by
  cases a with
  | insert key entry =>
    obtain ⟨vs, s', us, hi, -, rfl⟩ := perform_insert hc h
    have hout : ∀ v ∈ vs, (v.victim.key == k) = false := fun v hv => by
      rw [BEq.comm]
      exact hspares (.onEvict v.victim.key) (by simpa using ⟨v, hv, rfl⟩) k hk
    have hcontent := hi.contentAt_eq hc k
    split at hcontent
    · rw [hcontent]
      exact Option.some_ne_none _
    · split at hcontent
      · next hany =>
        obtain ⟨v, hv, hkey⟩ := List.any_eq_true.mp hany
        rw [hout v hv] at hkey
        cases hkey
      · rwa [hcontent]
  | remove key =>
    rcases perform_remove hc h with ⟨rfl, -⟩ | ⟨k₀, en, s', hr, rfl⟩
    · exact hstored
    · have hne : ¬ (key == k) = true := ha
      have hcontent := hr.contentAt_eq k
      rw [if_neg hne] at hcontent
      rwa [hcontent]
  | drain i => exact absurd trivial ha
  | enter key u | update u | unlock i | hook h' =>
    rwa [(perform_other rfl h).2.2.2.2]

end System

namespace Shared

variable {s t : Shared κ ν w n} {move : Move κ ν w} {shown trace trace' : List (CacheNote κ ν w)}

/-- A hook that is called was in flight. -/
theorem shown_inFlight (hr : s.system.cache.Routed)
    (h : Shared.step checks s move = some (shown, t)) :
    ∀ hook, .shown hook ∈ shown → .hook hook ∈ s.system.inFlight := by
  intro hook hhook
  rcases step_cases h with ⟨op, -, rfl, -⟩ | ⟨j, events, system, rfl, -, hstep, rfl, -⟩ |
    ⟨op, -, rfl, -⟩ | ⟨before, r, after, e, -, -, he, rfl, -⟩
  · simp at hhook
  · obtain ⟨event, hevent, hnote⟩ := List.mem_map.mp hhook
    obtain rfl : event = .hook hook := by
      cases event with
      | hook hook' =>
        cases hnote
        rfl
      | returned op result => cases hnote
    rcases System.step_cases hstep with ⟨op, hmove, -⟩ | ⟨j', call, -, -, -, rfl, -⟩ |
      ⟨j', call, a, todo, e, -, hj, htodo, he, rfl, -⟩ | ⟨i, key, _, _, hmove, -⟩
    · cases hmove
    · cases List.mem_singleton.mp hevent
    · rcases System.perform_shown hr he with hnil | ⟨hook', rfl, hone⟩
      · rw [hnil] at hevent
        cases hevent
      · rw [hone] at hevent
        cases List.mem_singleton.mp hevent
        exact System.mem_inFlight_of_next (j := j') (by simp [System.next, hj, htodo])
    · cases hmove
  · simp at hhook
  · cases he <;> simp at hhook

/-- A move is an action of a call, or it changes neither what is stored nor the hooks in flight. -/
theorem step_actions (h : Shared.step checks s move = some (shown, t)) :
    (t.system.cache.contentAt = s.system.cache.contentAt ∧
      ∀ hook, .hook hook ∈ t.system.inFlight → .hook hook ∈ s.system.inFlight) ∨
    ∃ j a rest e, s.blocked j = false ∧ s.system.next j = some a ∧
      System.perform checks s.system.cache s.system.locked a = some e ∧
      t.system.cache = e.cache ∧ s.system.inFlight.Perm (a :: rest) ∧
      t.system.inFlight.Perm (e.front ++ e.back ++ rest) := by
  rcases step_cases h with ⟨op, -, -, rfl⟩ | ⟨j, events, system, rfl, hfree, hstep, -, rfl⟩ |
    ⟨op, -, -, rfl⟩ | ⟨before, r, after, e, -, -, he, -, rfl⟩
  · refine .inl ⟨rfl, fun hook hhook => ?_⟩
    have hactions : .hook hook ∉ (op.actions : List (Action κ ν w n)) := by
      cases op <;> simp [CallOp.actions]
    simpa [System.inFlight, System.begin, hactions] using hhook
  · rcases System.step_inFlight hstep with ⟨op, hmove, -⟩ | ⟨hcache, hperm⟩ |
      ⟨j', a, rest, e, hmove, hnext, he, hcache, hf, hf'⟩ | ⟨i, key, _, _, hcache, hf⟩
    · cases hmove
    · exact .inl ⟨congrArg Cache.contentAt hcache, fun hook hhook => hperm.symm.subset hhook⟩
    · cases hmove
      exact .inr ⟨j, a, rest, e, hfree, hnext, he, hcache, hf, hf'⟩
    · refine .inl ⟨funext fun k => ?_, fun hook hhook => hf ▸ hhook⟩
      exact (congrArg (Cache.contentAt · k) hcache).trans (Cache.contentAt_access _ _ _ _ _ k)
  · exact .inl ⟨rfl, fun hook hhook => hhook⟩
  · have hcontent := he.contentOf_eq
    exact .inl ⟨funext fun k => hcontent _ k, fun hook hhook => hhook⟩

/-! ## Every interleaving -/

/-- The invariant: what was called and what is in flight reports no eviction from the working
set. -/
structure Spared (ws : WorkingSet κ) (trace : List (CacheNote κ ν w)) (s : Shared κ ν w n) :
    Prop where
  shown : ∀ hook, .shown hook ∈ trace → ws.Spares hook
  inFlight : ∀ hook, .hook hook ∈ s.system.inFlight → ws.Spares hook

section

variable {maxSizeBytes : BitVec w}
  (hneed : ∀ i : Fin n, (ws.onShard w i).need ≤ (Cache.sizePerShard maxSizeBytes n).toNat)
  (hfits : ∀ i : Fin n, (Cache.sizePerShard maxSizeBytes n).toNat + (ws.onShard w i).need < 2 ^ w)
  (h : Execution (Shared.step checks) (fun _ move => move.Starts (CallOp.Pins ws q))
    (start maxSizeBytes) trace s)

include hneed hfits h

/-- No action adds a report of an eviction from the working set: an insertion has the lock, so it
finds its shard in a state of a sequential run. -/
theorem actions_spare {j : Nat} {a : Action κ ν w n} {rest : List (Action κ ν w n)}
    {e : Effect κ ν w n} (hfree : s.blocked j = false) (hnext : s.system.next j = some a)
    (he : System.perform checks s.system.cache s.system.locked a = some e)
    (hf : s.system.inFlight.Perm (a :: rest)) :
    ∀ hook, .hook hook ∈ e.front ++ e.back → ws.Spares hook := by
  have hserialized := serialized h
  have hrouted := (held (h.mono fun _ _ _ => trivial)).routed
  have hfrom := hserialized.inFlight a (hf.symm.subset List.mem_cons_self)
  obtain ⟨hstored, -⟩ := stored (P := ws.Raises q) (fun _ _ => True) (fun _ _ _ => .congr)
    (fun _ _ hop => hop.2) (fun _ _ _ _ _ _ _ _ _ _ => trivial) h
  refine System.perform_spares hrouted he hfrom hstored hneed fun i hi => ?_
  have hserial := hserialized.quiet (i := i) fun r hr hshard => by
    rw [quiet_of_lock hfree hnext hi r hr hshard]
    rfl
  exact hserial.guarded (hneed i) (hfits i)

theorem Spared.step (hs : s.Spared ws trace)
    (hstep : Shared.step checks s move = some (shown, t)) : t.Spared ws (trace ++ shown) := by
  have hrouted := (held (h.mono fun _ _ _ => trivial)).routed
  refine ⟨fun hook hhook => ?_, fun hook hhook => ?_⟩
  · rcases List.mem_append.mp hhook with hold | hnew
    · exact hs.shown hook hold
    · exact hs.inFlight hook (shown_inFlight hrouted hstep hook hnew)
  · rcases step_actions hstep with ⟨-, hsame⟩ |
      ⟨j, a, rest, e, hfree, hnext, he, -, hf, hf'⟩
    · exact hs.inFlight hook (hsame hook hhook)
    · rcases List.mem_append.mp (hf'.subset hhook) with hadded | hrest
      · exact actions_spare hneed hfits h hfree hnext he hf hook hadded
      · exact hs.inFlight hook (hf.symm.subset (List.mem_cons_of_mem a hrest))

theorem spared : s.Spared ws trace := by
  refine (Execution.invariant (P := fun trace s => Execution (Shared.step checks)
    (fun _ move => move.Starts (CallOp.Pins ws q)) (start maxSizeBytes) trace s ∧
    s.Spared ws trace) ?_ ?_ h).2
  · exact ⟨.start, by simp, by simp [start, System.start, System.inFlight]⟩
  · rintro trace s move shown t ⟨hrun, hs⟩ hmove hstep
    exact ⟨hrun.step hmove hstep, hs.step hneed hfits hrun hstep⟩

/-- No move but one that is part of a removal takes out what is stored under a pinned key. -/
theorem step_stays {k : κ} (hk : k ∈ ws.keys.keys)
    (hfrom : ∀ a ∈ s.system.inFlight, a.From fun op => ¬ op.Takes k)
    (hstored : s.system.cache.contentAt k ≠ none)
    (hstep : Shared.step checks s move = some (shown, t)) :
    t.system.cache.contentAt k ≠ none := by
  have hrouted := (held (h.mono fun _ _ _ => trivial)).routed
  rcases step_actions hstep with ⟨hsame, -⟩ |
    ⟨j, a, rest, e, hfree, hnext, he, hcache, hf, -⟩
  · rwa [hsame]
  · have ha := hfrom a (hf.symm.subset List.mem_cons_self)
    have hspares := actions_spare hneed hfits h hfree hnext he hf
    rw [hcache]
    exact System.perform_stays hrouted he hk ha hspares hstored

theorem stays {k : κ} (hk : k ∈ ws.keys.keys)
    (hfrom : ∀ a ∈ s.system.inFlight, a.From fun op => ¬ op.Takes k)
    (hstored : s.system.cache.contentAt k ≠ none)
    (hlater : Execution (stepOrPanic checks)
      (fun _ move => move.Starts fun op => op.Pins ws q ∧ ¬ op.Takes k) s trace' t) :
    t.system.cache.contentAt k ≠ none := by
  refine (hlater.state_invariant (P := fun s => (∃ trace, Execution (Shared.step checks)
    (fun _ move => move.Starts (CallOp.Pins ws q)) (start maxSizeBytes) trace s) ∧
    (∀ a ∈ s.system.inFlight, a.From fun op => ¬ op.Takes k) ∧
    s.system.cache.contentAt k ≠ none) ⟨⟨trace, h⟩, hfrom, hstored⟩ ?_).2.2
  rintro s move shown t ⟨⟨trace, hrun⟩, hfrom, hstored⟩ hmove hstep
  have hcalm := calm_of_fits (fun _ hop => hop.fits hneed hfits) hrun move
  rw [stepOrPanic, Execution.withFailures_of_none hcalm] at hstep
  have hpins := hmove.mono fun op hop => hop.1
  have hkeeps := hmove.mono fun op hop => hop.2
  exact ⟨⟨_, hrun.step hpins hstep⟩, step_from hfrom hkeeps hstep,
    step_stays hneed hfits hrun hk hfrom hstored hstep⟩

end

/-- Pinned keys stay. Whatever calls and lookups overlap and whatever guards are alive: if on every
shard the budgets of the keys of a working set, stored with priority `q` or a higher one, fit beside
the largest entry of lower priority, then no eviction of such a key is ever reported, and one that
is stored stays stored until somebody asks for its removal. No call panics. -/
theorem pinned_keys_stay (ws : WorkingSet κ) (q : CachePolicy) {maxSizeBytes : BitVec w}
    (hneed : ∀ i : Fin n, (ws.onShard w i).need ≤ (Cache.sizePerShard maxSizeBytes n).toNat)
    (hfits : ∀ i : Fin n,
      (Cache.sizePerShard maxSizeBytes n).toNat + (ws.onShard w i).need < 2 ^ w)
    (h : Execution (stepOrPanic checks) (fun _ move => move.Starts (CallOp.Pins ws q))
      (start maxSizeBytes) trace s) :
    (∀ key, .shown (.onEvict key) ∈ trace → ∀ k ∈ ws.keys.keys, (k == key) = false) ∧
    ∀ k ∈ ws.keys.keys, s.system.cache.contentAt k ≠ none →
      (∀ a ∈ s.system.inFlight, a.From fun op => ¬ op.Takes k) →
      ∀ trace' t, Execution (stepOrPanic checks)
        (fun _ move => move.Starts fun op => op.Pins ws q ∧ ¬ op.Takes k) s trace' t →
        t.system.cache.contentAt k ≠ none := by
  have h := execution_of_fits (fun _ hop => hop.fits hneed hfits) h
  exact ⟨fun _ hkey => (spared hneed hfits h).shown _ hkey,
    fun _ hk hstored hfrom _ _ hlater => stays hneed hfits h hk hfrom hstored hlater⟩

/-- The key 0 is pinned, and its shard is too small for the others. -/
def crowding : List (Move Nat Unit 8) :=
  [.start (.insert 0 (.new () 4 .critical)), .start (.insert 2 (.new () 3 .standard)),
    .start (.insert 4 (.new () 3 .standard)), .start (.insert 6 (.new () 3 .standard)),
    .advance 1, .advance 0, .advance 2, .advance 3] ++ List.replicate 8 (.advance 3) ++
    List.replicate 4 (.advance 2) ++ List.replicate 4 (.advance 1) ++ List.replicate 4 (.advance 0)

theorem pinned_keys_stay_crowding :
    ∃ trace, ∃ s : Shared Nat Unit 8 2,
      Execution (stepOrPanic true) (fun _ move => move.Starts (CallOp.Pins Shard.pinned .critical))
        (start 22) trace s ∧
      .hook (.onEvict 2) ∈ trace.filterMap CacheNote.event? ∧ .shown (.onEvict 0) ∉ trace ∧
      ∀ trace' t, Execution (stepOrPanic true) (fun _ move => move.Starts fun op =>
        op.Pins Shard.pinned .critical ∧ ¬ op.Takes 0) s trace' t →
        t.system.cache.contentAt 0 ≠ none := by
  have hfacts : ((Execution.play (stepOrPanic true)
      (fun _ move => move.Starts (CallOp.Pins Shard.pinned .critical))
      (start 22 : Shared Nat Unit 8 2) crowding).map fun r =>
        (decide (.hook (.onEvict 2) ∈ r.1.filterMap CacheNote.event?), r.2.system.calls.isEmpty,
          (r.2.system.cache.contentAt 0).isSome)) = some (true, true, true) := by decide +kernel
  obtain ⟨⟨trace, s⟩, hplay, hs⟩ := Option.map_eq_some_iff.mp hfacts
  simp only [Prod.mk.injEq, decide_eq_true_eq] at hs
  obtain ⟨hevicted, hcalls, hstored⟩ := hs
  have hrun := Execution.of_play hplay
  obtain ⟨hspared, hstays⟩ :=
    pinned_keys_stay Shard.pinned .critical (by decide +kernel) (by decide +kernel) hrun
  refine ⟨trace, s, hrun, hevicted, fun hshown => ?_, hstays 0 (by decide) ?_ ?_⟩
  · exact absurd (hspared 0 hshown 0 (by decide)) (by decide)
  · exact Option.isSome_iff_ne_none.mp hstored
  · simp [System.inFlight, List.isEmpty_iff.mp hcalls]

end Shared

end PriorityLfu
