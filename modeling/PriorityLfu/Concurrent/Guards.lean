import PriorityLfu.Concurrent.Panic

/-!
# What a guard protects

A guard holds a pointer to a value and a read lock. While the lock is held the entry stays in
its slot and keeps its value, whatever the calls and lookups of others do: only its access
statistics change. So a guard gives access to the value that `get` found for as long as it
lives.
-/
namespace PriorityLfu
open Keyed

variable {κ ν : Type} {w n : Nat} [BEq κ] [Hashable κ] [NeZero n]

namespace System

variable [EquivBEq κ] [LawfulHashable κ] {checks : Bool} {c : Cache κ ν w n}
  {locked : Fin n → Bool} {a : Action κ ν w n} {e : Effect κ ν w n} {i : Fin n}

/-- An action changes the shard whose lock it takes, and no other. -/
theorem perform_local (h : perform checks c locked a = some e) (hi : a.lock ≠ some i) :
    e.cache.shards i = c.shards i ∧ (e.locked i = true → locked i = true) := by
  have hlock : ∀ {j : Fin n}, i ≠ j → Function.update locked j true i = true → locked i = true := by
    intro j hne
    rw [Function.update_of_ne hne]
    exact id
  cases a with
  | insert key entry =>
    obtain ⟨r, s', -, hcache⟩ := perform_insert_shard h
    have hne : i ≠ getShard w n (hash key) := fun heq => hi (heq ▸ rfl)
    rw [hcache, Cache.shards_setShard, Function.update_of_ne hne]
    refine ⟨rfl, ?_⟩
    rw [perform] at h
    split at h
    · cases h
    · split at h
      · cases h
      · obtain ⟨us, -, rfl⟩ := Option.map_eq_some_iff.mp h
        exact id
  | remove key =>
    obtain ⟨r, s', -, hcache⟩ := perform_remove_shard h
    have hne : i ≠ getShard w n (hash key) := fun heq => hi (heq ▸ rfl)
    rw [hcache, Cache.shards_setShard, Function.update_of_ne hne]
    refine ⟨rfl, ?_⟩
    rw [perform] at h
    split at h
    · cases h
    · split at h <;> cases h
      · exact id
      · exact hlock hne
  | drain j =>
    have hne : i ≠ j := fun heq => hi (heq ▸ rfl)
    rw [perform_drain h]
    exact ⟨Function.update_of_ne hne _ _, hlock hne⟩
  | enter key u => cases h; exact ⟨by rw [Cache.shards_apply], id⟩
  | update u => cases h; exact ⟨by rw [Cache.shards_apply], id⟩
  | unlock j =>
    cases h
    refine ⟨rfl, fun hlocked => ?_⟩
    have hlocked : Function.update locked j false i = true := hlocked
    by_cases hne : i = j
    · rw [hne, Function.update_self] at hlocked
      cases hlocked
    · rwa [Function.update_of_ne hne] at hlocked
  | hook h' => cases h; exact ⟨rfl, id⟩

end System

/-! ## A step of a lookup -/

omit [BEq κ] [Hashable κ] in
theorem Phase.holds_of_slot {phase : Phase κ ν} {key : κ} (h : phase.slot = some key) :
    phase.holds = true := by
  cases phase with
  | waiting | locked | missed | done answer => cases h
  | found key stage | hit key | counted key | guarded key value => rfl

theorem Entry.content_mark (e : Entry ν w) : e.mark.content = e.content := rfl

namespace Reader

variable {c : Cache κ ν w n} {locked : Fin n → Bool} {r : Reader κ ν} {e : Reading κ ν w n}

/-- The entry that a lookup points to, in its shard: it is stored under a key that the lookup
accepts, and a guard has its value. -/
def Sees (r : Reader κ ν) (s : Shard κ ν w) : Prop :=
  ∀ key, r.phase.slot = some key → hash key = r.op.hash ∧ r.op.equals key = true ∧
    ∃ x, s.contentOf key = some x ∧ ∀ value, r.phase = .guarded key value → x.1 = value

theorem Sees.congr {s t : Shard κ ν w} (h : r.Sees s)
    (ht : ∀ k, t.contentOf k = s.contentOf k) : r.Sees t := by
  intro key hslot
  rw [ht]
  exact h key hslot

/-- A change of access statistics changes no content. -/
theorem contentOf_modify [EquivBEq κ] [LawfulHashable κ] (r : Reader κ ν) (c : Cache κ ν w n)
    (key : κ) {f : Entry ν w → Entry ν w} (hf : ∀ e, (f e).content = e.content) (i : Fin n)
    (k : κ) : ((r.modify c key f).shards i).contentOf k = (c.shards i).contentOf k := by
  rw [modify, Cache.shards_setShard]
  by_cases hi : i = r.shard w n
  · rw [hi, Function.update_self]
    exact Shard.contentOf_modify hf _ key k
  · rw [Function.update_of_ne hi]

theorem routed_modify [EquivBEq κ] [LawfulHashable κ] (hc : c.Routed) (r : Reader κ ν) (key : κ)
    {f : Entry ν w → Entry ν w} (hf : ∀ e, (f e).content = e.content) :
    (r.modify c key f).Routed := by
  have hk := Shard.contentOf_modify hf (c.shards (r.shard w n)) key
  refine hc.update (i := r.shard w n) rfl ((hc.linked _).of_content hk rfl) ?_ fun k hk' => ?_
  · rw [Shard.sizes_eq, Shard.contents, HashMap.map_values_modify hf, ← Shard.contents,
      ← Shard.sizes_eq]
    exact hc.total _
  · exact hc.routed _ k (by rwa [hk] at hk')

/-- A lookup changes no content. -/
theorem Performs.contentOf_eq [EquivBEq κ] [LawfulHashable κ] (h : r.Performs c locked e)
    (i : Fin n) (k : κ) : (e.cache.shards i).contentOf k = (c.shards i).contentOf k := by
  cases h with
  | @mark key hp => exact contentOf_modify r c key Entry.content_mark i k
  | @store key freq hp => exact contentOf_modify r c key (Entry.content_increment freq) i k
  | countHit hp | countMiss hp => rw [Cache.shards_apply]
  | _ => rfl

theorem Performs.routed [EquivBEq κ] [LawfulHashable κ] (h : r.Performs c locked e)
    (hc : c.Routed) : e.cache.Routed := by
  cases h with
  | @mark key hp => exact routed_modify hc r key Entry.content_mark
  | @store key freq hp => exact routed_modify hc r key (Entry.content_increment freq)
  | countHit hp | countMiss hp => exact hc.of_shards (Cache.shards_apply c _)
  | _ => exact hc

/-- What a lookup points to it keeps pointing to. -/
theorem Performs.sees [EquivBEq κ] [LawfulHashable κ] (h : r.Performs c locked e)
    (hs : r.Sees (c.shards (r.shard w n))) {phase : Phase κ ν} (hphase : e.phase = some phase) :
    (Reader.mk r.op phase).Sees (c.shards (r.shard w n)) := by
  have hkeep : ∀ key, r.phase.slot = some key → (∀ value, phase ≠ .guarded key value) →
      hash key = r.op.hash ∧ r.op.equals key = true ∧
        ∃ x, (c.shards (r.shard w n)).contentOf key = some x ∧
          ∀ value, phase = .guarded key value → x.1 = value := by
    intro key hslot hne
    obtain ⟨hhash, hequals, x, hx, -⟩ := hs key hslot
    exact ⟨hhash, hequals, x, hx, fun value hv => absurd hv (hne value)⟩
  intro key' hslot'
  cases h with
  | find hp hk hsome =>
    cases hphase
    cases hslot'
    obtain ⟨hhash, hequals, hget⟩ := HashMap.fromHash_eq_some hsome
    exact ⟨hhash, hequals, _, Shard.contentOf_of_get? hget, fun _ hv => nomatch hv⟩
  | guard hp hk he =>
    cases hphase
    cases hslot'
    obtain ⟨hhash, hequals, -⟩ := hs key' (by rw [hp]; rfl)
    refine ⟨hhash, hequals, _, Shard.contentOf_of_get? he, fun value hv => ?_⟩
    cases hv
    rfl
  | mark hp | load hp | store hp | countHit hp =>
    cases hphase
    cases hslot'
    exact hkeep key' (by rw [hp]; rfl) fun _ hv => nomatch hv
  | lock hp | test hp | miss hp | clone hp | countMiss hp =>
    cases hphase
    cases hslot'
  | drop hp | finish hp => cases hphase

theorem Performs.holds (h : r.Performs c locked e) :
    (r.phase.holds = true ∨ locked (r.shard w n) = false) ∧
      ∀ phase, e.phase = some phase → phase.holds = true := by
  cases h with
  | lock hp hfree => exact ⟨.inr hfree, by rintro _ ⟨⟩; rfl⟩
  | drop hp | finish hp => exact ⟨.inl (by rw [hp]; rfl), fun _ hv => nomatch hv⟩
  | _ hp => exact ⟨.inl (by rw [hp]; rfl), by rintro _ ⟨⟩; rfl⟩

end Reader

/-! ## The invariant -/

namespace Shared

/-- No shard is written while it is read, and every lookup that found its entry still sees it. -/
structure Sighted (s : Shared κ ν w n) : Prop where
  free : ∀ r ∈ s.readers, r.phase.holds = true → s.system.locked (r.shard w n) = false
  sees : ∀ r ∈ s.readers, r.Sees (s.system.cache.shards (r.shard w n))

theorem sighted_start (maxSizeBytes : BitVec w) : (start maxSizeBytes : Shared κ ν w n).Sighted where
  free _ hr := nomatch hr
  sees _ hr := nomatch hr

/-- Where no call has panicked, all shards are in order besides. -/
structure Held (s : Shared κ ν w n) : Prop extends s.Sighted where
  routed : s.system.cache.Routed

theorem held_start (maxSizeBytes : BitVec w) : (start maxSizeBytes : Shared κ ν w n).Held where
  toSighted := sighted_start maxSizeBytes
  routed := Cache.routed_new maxSizeBytes

theorem not_blocked {s : Shared κ ν w n} {j : Nat} {a : Action κ ν w n} {r : Reader κ ν}
    (h : s.blocked j = false) (ha : s.system.next j = some a) (hr : r ∈ s.readers)
    (hholds : r.phase.holds = true) : a.lock ≠ some (r.shard w n) := by
  intro hlock
  have hreads : s.reads (r.shard w n) = true :=
    List.any_eq_true.mpr ⟨r, hr, by simp [hholds]⟩
  simp [blocked, ha, hlock, hreads] at h

variable [EquivBEq κ] [LawfulHashable κ] {checks : Bool} {s t : Shared κ ν w n}
  {move : Move κ ν w} {shown : List (CacheNote κ ν w)}

/-- A step of a call leaves the shards that are read as they are. -/
theorem advance_local {j : Nat} {events : List (Event κ ν w)} {system : System κ ν w n}
    (hfree : s.blocked j = false) (h : s.system.step checks (.advance j) = some (events, system))
    {r : Reader κ ν} (hr : r ∈ s.readers) (hholds : r.phase.holds = true) :
    system.cache.shards (r.shard w n) = s.system.cache.shards (r.shard w n) ∧
      (system.locked (r.shard w n) = true → s.system.locked (r.shard w n) = true) := by
  rcases System.step_cases h with ⟨op, hmove, -⟩ | ⟨j', call, -, -, -, -, rfl⟩ |
    ⟨j', call, a, todo, e, hmove, hj, htodo, he, -, rfl⟩ | ⟨i, key, _, _, hmove, -⟩
  · cases hmove
  · exact ⟨rfl, id⟩
  · cases hmove
    have hnext : s.system.next j = some a := by simp [System.next, hj, htodo]
    exact System.perform_local he (not_blocked hfree hnext hr hholds)
  · cases hmove

theorem Sighted.step (hs : s.Sighted) (h : Shared.step checks s move = some (shown, t)) :
    t.Sighted := by
  rcases step_cases h with ⟨op, -, -, rfl⟩ | ⟨j, events, system, -, hfree, hstep, -, rfl⟩ |
    ⟨op, -, -, rfl⟩ | ⟨before, r, after, e, -, hreaders, he, -, rfl⟩
  · exact ⟨hs.free, hs.sees⟩
  · refine ⟨fun r hr hholds => ?_, fun r hr key hslot => ?_⟩
    · have hlocal := (advance_local hfree hstep hr hholds).2
      exact Bool.eq_false_iff.mpr fun hlocked =>
        Bool.eq_false_iff.mp (hs.free r hr hholds) (hlocal hlocked)
    · rw [(advance_local hfree hstep hr (Phase.holds_of_slot hslot)).1]
      exact hs.sees r hr key hslot
  · refine ⟨fun r hr hholds => ?_, fun r hr => ?_⟩
    · rcases List.mem_append.mp hr with hr | hr
      · exact hs.free r hr hholds
      · obtain rfl := List.mem_singleton.mp hr
        cases hholds
    · rcases List.mem_append.mp hr with hr | hr
      · exact hs.sees r hr
      · obtain rfl := List.mem_singleton.mp hr
        intro key hslot
        cases hslot
  · have hr : r ∈ s.readers := by simp [hreaders]
    -- the lookups of the next state, each an old one or what `r` has become
    have hcases : ∀ r' ∈ before ++ (e.phase.map (Reader.mk r.op)).toList ++ after,
        r' ∈ s.readers ∨ ∃ phase, e.phase = some phase ∧ r' = ⟨r.op, phase⟩ := by
      intro r' hr'
      simp only [List.mem_append, Option.mem_toList, Option.map_eq_some_iff] at hr'
      rcases hr' with (hr' | ⟨phase, hphase, rfl⟩) | hr'
      · exact .inl (by simp [hreaders, hr'])
      · exact .inr ⟨phase, hphase, rfl⟩
      · exact .inl (by simp [hreaders, hr'])
    refine ⟨fun r' hr' hholds => ?_, fun r' hr' => ?_⟩
    · rcases hcases r' hr' with hold | ⟨phase, -, rfl⟩
      · exact hs.free r' hold hholds
      · exact he.holds.1.elim (hs.free r hr) id
    · rcases hcases r' hr' with hold | ⟨phase, hphase, rfl⟩
      · exact (hs.sees r' hold).congr (he.contentOf_eq _)
      · exact (he.sees (hs.sees r hr) hphase).congr (he.contentOf_eq _)

/-- A call that panics does so in a shard that nobody reads. -/
theorem Sighted.stepOrPanic (hs : s.Sighted)
    (h : Shared.stepOrPanic checks s move = some (shown, t)) : t.Sighted := by
  rcases stepOrPanic_cases h with hstep |
    ⟨j, call, a, todo, i, s', -, hfree, -, hj, htodo, hlock, rfl⟩
  · exact hs.step hstep
  · refine ⟨hs.free, fun r hr key hslot => ?_⟩
    have hnext : s.system.next j = some a := by simp [System.next, hj, htodo]
    have hne : r.shard w n ≠ i := fun heq =>
      not_blocked hfree hnext hr (Phase.holds_of_slot hslot) (heq ▸ hlock)
    rw [Cache.shards_setShard, Function.update_of_ne hne]
    exact hs.sees r hr key hslot

theorem sighted {maxSizeBytes : BitVec w} {trace : List (CacheNote κ ν w)}
    (h : Execution (Shared.stepOrPanic checks) (fun _ _ => True) (start maxSizeBytes) trace s) :
    s.Sighted :=
  h.state_invariant (sighted_start maxSizeBytes) fun _ _ _ _ hs _ hstep => hs.stepOrPanic hstep

theorem Held.step (hs : s.Held) (h : Shared.step checks s move = some (shown, t)) : t.Held := by
  refine ⟨hs.toSighted.step h, ?_⟩
  rcases step_cases h with ⟨op, -, -, rfl⟩ | ⟨j, events, system, -, -, hstep, -, rfl⟩ |
    ⟨op, -, -, rfl⟩ | ⟨before, r, after, e, -, -, he, -, rfl⟩
  · exact hs.routed
  · exact System.step_routed hs.routed hstep
  · exact hs.routed
  · exact he.routed hs.routed

theorem held {maxSizeBytes : BitVec w} {trace : List (CacheNote κ ν w)}
    (h : Execution (Shared.step checks) (fun _ _ => True) (start maxSizeBytes) trace s) : s.Held :=
  Execution.state_invariant (held_start maxSizeBytes) (fun _ _ _ _ hs _ hstep => hs.step hstep) h

/-- In every execution, calls that panic included, a guard gives access to the value that `get`
returned: the entry it points to is stored, under a key that the lookup accepts and with that
value, its shard is not locked, and no call can make an action on the shard. -/
theorem guard_protects {maxSizeBytes : BitVec w} {trace : List (CacheNote κ ν w)}
    (h : Execution (Shared.stepOrPanic checks) (fun _ _ => True) (start maxSizeBytes) trace s)
    {r : Reader κ ν} (hr : r ∈ s.readers) {key : κ} {value : ν}
    (hguard : r.phase = .guarded key value) :
    (∃ e, (s.system.cache.shards (r.shard w n)).entries.get? key = some e ∧ e.value = value) ∧
      getShard w n (hash key) = r.shard w n ∧ r.op.equals key = true ∧
      s.system.locked (r.shard w n) = false ∧
      ∀ j a, s.system.next j = some a → a.lock = some (r.shard w n) →
        Shared.stepOrPanic checks s (.advance j) = none := by
  have hs := sighted h
  have hholds : r.phase.holds = true := by rw [hguard]; rfl
  obtain ⟨hhash, hequals, x, hx, hvalue⟩ := hs.sees r hr key (by rw [hguard]; rfl)
  obtain ⟨e, he, rfl⟩ := Option.map_eq_some_iff.mp hx
  refine ⟨⟨e, he, hvalue value hguard⟩, by rw [hhash]; rfl, hequals, hs.free r hr hholds, ?_⟩
  intro j a hnext hlock
  have hblocked : s.blocked j = true := by
    by_contra hfree
    exact not_blocked (Bool.eq_false_of_not_eq_true hfree) hnext hr hholds hlock
  simp [Shared.stepOrPanic, Execution.withFailures, Shared.unwound, Shared.step, hblocked]

/-- An insertion that panics and leaves its key in no bucket. -/
def unwinding : List (Move Nat Nat 8) :=
  .start (.insert 2 (.new 5 3 .standard)) :: List.replicate 5 (.advance 0) ++
    .start (.insert 4 (.new 8 2 .standard)) :: List.replicate 5 (.advance 0) ++
    [.start (.insert 4 (.new 9 254 .standard)), .advance 0]

/-- A guard of an entry, and a call that waits to remove it. -/
def guarding : List (Move Nat Nat 8) :=
  .start (.insert 0 (.new 7 3 .standard)) :: List.replicate 5 (.advance 0) ++
    .look ⟨.get, hash 0, (0 == ·)⟩ :: List.replicate 7 (.read 0) ++ [.start (.remove 0)]

theorem guard_protects_guarding :
    ∃ trace, ∃ s : Shared Nat Nat 8 2, ∃ r ∈ s.readers,
      Execution (Shared.stepOrPanic true) (fun _ _ => True) (start 20) trace s ∧
      (∃ e, (s.system.cache.shards (r.shard 8 2)).entries.get? 0 = some e ∧ e.value = 7) ∧
      Shared.stepOrPanic true s (.advance 0) = none := by
  have hfacts : ((Execution.play (Shared.stepOrPanic true) (fun _ _ => True)
      (start 20 : Shared Nat Nat 8 2) (unwinding ++ guarding)).map fun r =>
        (r.2.readers.map fun r => (r.phase, some (r.shard 8 2)),
          (r.2.system.next 0).bind Action.lock)) =
      some ([(.guarded 0 7, some 0)], some 0) := by decide +kernel
  obtain ⟨⟨trace, s⟩, hplay, hs⟩ := Option.map_eq_some_iff.mp hfacts
  simp only [Prod.mk.injEq] at hs
  obtain ⟨hreaders, hlock⟩ := hs
  obtain ⟨r, hr, hphase⟩ := List.map_eq_singleton_iff.mp hreaders
  obtain ⟨hguard, hshard⟩ := Prod.mk.inj hphase
  obtain ⟨a, hnext, ha⟩ := Option.bind_eq_some_iff.mp hlock
  have hmem : r ∈ s.readers := by simp [hr]
  obtain ⟨hvalue, -, -, -, hblocked⟩ :=
    guard_protects (Execution.of_play hplay) hmem hguard
  exact ⟨trace, s, r, hmem, Execution.of_play hplay, hvalue,
    hblocked 0 a hnext (ha.trans hshard.symm)⟩

end Shared

end PriorityLfu
