import PriorityLfu.Concurrent.Basic

/-!
# What a step of the system does

Most invariants do not depend on which call has which action still to make, only on the
cache and on the actions in flight, up to their order: a step takes one action out and puts
in those it adds (`step_inFlight`). What the action itself does is one lemma per kind.
-/
namespace PriorityLfu
open Keyed

variable {κ ν : Type} {w n : Nat} [BEq κ] [Hashable κ]

/-! ## Calls and actions for one key -/

def CallOp.inserts (k : κ) : CallOp κ ν w → Bool
  | .insert key _ => key == k
  | _ => false

def Action.inserts (k : κ) : Action κ ν w n → Bool
  | .insert key _ => key == k
  | _ => false

/-- A hook for `k`. -/
def Action.hooks (k : κ) : Action κ ν w n → Bool
  | .hook h => h.key == k
  | _ => false

/-! ## Access statistics -/

namespace Cache

variable {c : Cache κ ν w n}

theorem shards_access (c : Cache κ ν w n) (i : Fin n) (key : κ) (clockBit : Bool)
    (frequency : UInt8) : (c.access i key clockBit frequency).shards = Function.update c.shards i
      { c.shards i with
        entries := (c.shards i).entries.modify key fun e => { e with clockBit, frequency } } := rfl

/-- Storing statistics keeps the sizes in every shard. -/
theorem contents_access (c : Cache κ ν w n) (i : Fin n) (key : κ) (clockBit : Bool)
    (frequency : UInt8) (j : Fin n) :
    ((c.access i key clockBit frequency).shards j).contents = (c.shards j).contents := by
  rw [shards_access]
  by_cases hj : j = i
  · subst hj
    rw [Function.update_self]
    have hf : ∀ e : Entry ν w, ({ e with clockBit, frequency } : Entry ν w).content = e.content :=
      fun _ => rfl
    exact HashMap.map_values_modify hf _ _
  · rw [Function.update_of_ne hj]

theorem total_access (c : Cache κ ν w n) (i : Fin n) (key : κ) (clockBit : Bool)
    (frequency : UInt8) (g : ν × BitVec w × CachePolicy → Nat) :
    (c.access i key clockBit frequency).total g = c.total g := by
  simp only [total, Shard.weigh, contents_access]

variable [EquivBEq κ] [LawfulHashable κ]

theorem contentOf_access (c : Cache κ ν w n) (i : Fin n) (key : κ) (clockBit : Bool)
    (frequency : UInt8) (j : Fin n) (k : κ) :
    ((c.access i key clockBit frequency).shards j).contentOf k = (c.shards j).contentOf k := by
  rw [shards_access]
  by_cases hj : j = i
  · subst hj
    rw [Function.update_self]
    exact Shard.contentOf_modify (f := fun e => { e with clockBit, frequency }) (fun _ => rfl) _ _ _
  · rw [Function.update_of_ne hj]

omit [EquivBEq κ] [LawfulHashable κ] in
/-- What storing statistics in a shard keeps, holds of every shard afterwards. -/
theorem access_shards {P : Shard κ ν w → Prop} {i : Fin n} {key : κ} {clockBit : Bool}
    {frequency : UInt8} (hc : ∀ j, P (c.shards j))
    (haccess : ∀ s, P s → P { s with
      entries := s.entries.modify key fun e => { e with clockBit, frequency } }) (j : Fin n) :
    P ((c.access i key clockBit frequency).shards j) := by
  rw [shards_access]
  by_cases hj : j = i
  · subst hj
    rw [Function.update_self]
    exact haccess _ (hc j)
  · rw [Function.update_of_ne hj]
    exact hc j

variable [NeZero n]

theorem contentAt_access (c : Cache κ ν w n) (i : Fin n) (key : κ) (clockBit : Bool)
    (frequency : UInt8) (k : κ) :
    (c.access i key clockBit frequency).contentAt k = c.contentAt k :=
  contentOf_access c i key clockBit frequency _ k

theorem routed_access (hc : c.Routed) (i : Fin n) (key : κ) (clockBit : Bool)
    (frequency : UInt8) : (c.access i key clockBit frequency).Routed := by
  have hk := contentOf_access c i key clockBit frequency i
  have hs := contents_access c i key clockBit frequency i
  rw [shards_access, Function.update_self] at hk hs
  refine hc.update (shards_access _ _ _ _ _) ((hc.linked i).of_content hk rfl) ?_ fun k hk' => ?_
  · rw [Shard.sizes_eq, hs, ← Shard.sizes_eq]
    exact hc.total i
  · exact hc.routed i k (by rwa [hk] at hk')

end Cache

namespace System

variable [EquivBEq κ] [LawfulHashable κ] [NeZero n]
variable {checks : Bool} {c : Cache κ ν w n} {locked : Fin n → Bool} {e : Effect κ ν w n}

/-! ## One action -/

/-- An insertion that is made, whatever the shards are. -/
theorem perform_insert_eq {key : κ} {entry : Entry ν w}
    (h : perform checks c locked (.insert key entry) = some e) :
    ∃ old stats evicted d us, c.insertShard checks key entry = .ok (old, stats, evicted) d ∧
      insertUpdates checks entry.size old = some us ∧
      locked (getShard w n (hash key)) = false ∧
      e = { cache := d, locked, result := some old
            front := us.map (.enter key) ++ (evictUpdates stats).map .update ++
              (evictHooks stats evicted).map .hook } := by
  rw [perform] at h
  split at h
  · cases h
  · next hfree =>
    split at h
    · cases h
    · next old stats evicted d hins =>
      obtain ⟨us, hus, rfl⟩ := Option.map_eq_some_iff.mp h
      exact ⟨old, stats, evicted, d, us, hins, hus, by simpa using hfree, rfl⟩

/-- A removal that is made. -/
theorem perform_remove_eq {key : κ} (h : perform checks c locked (.remove key) = some e) :
    ∃ r d, c.removeShard checks key = .ok r d ∧ locked (getShard w n (hash key)) = false ∧
      ((r = none ∧ e = { cache := d, locked }) ∨
        ∃ k₀ en, r = some (k₀, en) ∧
          e = { cache := d, locked := Function.update locked (getShard w n (hash key)) true
                result := some (some en)
                front := (removeUpdates en).map .update ++
                  [.unlock (getShard w n (hash key)), .hook (.onRemove k₀)] }) := by
  rw [perform] at h
  split at h
  · cases h
  · next hfree =>
    have hfree : locked (getShard w n (hash key)) = false := by simpa using hfree
    split at h
    · cases h
    · next d hrem =>
      cases h
      exact ⟨none, d, hrem, hfree, .inl ⟨rfl, rfl⟩⟩
    · next k₀ en d hrem =>
      cases h
      exact ⟨some (k₀, en), d, hrem, hfree, .inr ⟨k₀, en, rfl, rfl⟩⟩

theorem perform_insert_shard {key : κ} {entry : Entry ν w}
    (h : perform checks c locked (.insert key entry) = some e) :
    ∃ r s', (c.shards (getShard w n (hash key))).insert checks key entry = .ok r s' ∧
      e.cache = c.setShard (getShard w n (hash key)) s' := by
  obtain ⟨old, stats, evicted, d, us, hins, -, -, rfl⟩ := perform_insert_eq h
  obtain ⟨s', hok, rfl⟩ := Outcome.mapState_eq_ok.mp hins
  exact ⟨_, s', hok, rfl⟩

theorem perform_remove_shard {key : κ} (h : perform checks c locked (.remove key) = some e) :
    ∃ r s', (c.shards (getShard w n (hash key))).remove checks key = .ok r s' ∧
      e.cache = c.setShard (getShard w n (hash key)) s' := by
  obtain ⟨r, d, hrem, -, he⟩ := perform_remove_eq h
  obtain ⟨s', hok, rfl⟩ := Outcome.mapState_eq_ok.mp hrem
  refine ⟨r, s', hok, ?_⟩
  rcases he with ⟨-, rfl⟩ | ⟨k₀, en, -, rfl⟩ <;> rfl

theorem perform_insert {key : κ} {entry : Entry ν w} (hc : c.Routed)
    (h : perform checks c locked (.insert key entry) = some e) :
    ∃ vs s' us, Cache.Inserts checks key entry c vs e.cache ∧
      insertUpdates checks entry.size (c.oldEntry key) = some us ∧
      e = { cache := c.setShard (getShard w n (hash key)) s', locked
            result := some (c.oldEntry key)
            front := us.map (.enter key) ++
              (evictUpdates ⟨vs.length, Shard.evictedSize vs⟩).map .update ++
              vs.map fun v => .hook (.onEvict v.victim.key) } := by
  obtain ⟨old, stats, evicted, d, us, hins, hus, -, rfl⟩ := perform_insert_eq h
  obtain ⟨vs, s', hi, rfl, rfl, rfl, rfl⟩ := Cache.insertShard_cases hc hins
  refine ⟨vs, s', us, hi, hus, ?_⟩
  rw [Cache.evictHooks_eq, List.map_map]
  rfl

theorem perform_remove {key : κ} (hc : c.Routed)
    (h : perform checks c locked (.remove key) = some e) :
    (e = { cache := c, locked } ∧ c.contentAt key = none) ∨
      ∃ k₀ en s', Cache.Removes checks key k₀ en c e.cache ∧
        e = { cache := c.setShard (getShard w n (hash key)) s'
              locked := Function.update locked (getShard w n (hash key)) true
              result := some (some en)
              front := (removeUpdates en).map .update ++
                [.unlock (getShard w n (hash key)), .hook (.onRemove k₀)] } := by
  obtain ⟨r, d, hrem, -, he⟩ := perform_remove_eq h
  rcases Cache.removeShard_cases hc hrem with ⟨rfl, rfl, hnone⟩ | ⟨k₀, en, s', rfl, hremoves, rfl⟩
  · obtain ⟨-, rfl⟩ | ⟨_, _, hr, -⟩ := he
    · exact .inl ⟨rfl, hnone⟩
    · cases hr
  · obtain ⟨hr, -⟩ | ⟨_, _, hr, rfl⟩ := he
    · cases hr
    · cases hr
      exact .inr ⟨k₀, en, s', hremoves, rfl⟩

theorem perform_drain {i : Fin n} (h : perform checks c locked (.drain i) = some e) :
    e = { cache := (c.drainShard i).2, locked := Function.update locked i true
          front := (drainUpdates (c.drainShard i).1.2.1 (c.drainShard i).1.2.2).map .update ++
            [.unlock i]
          back := (c.drainShard i).1.1.map fun e => .hook (.onClear e.key) } := by
  rw [perform] at h
  split at h
  · cases h
  · exact (Option.some.inj h).symm

/-- Every action keeps the invariant of the shards. -/
theorem perform_routed {a : Action κ ν w n} (hc : c.Routed)
    (h : perform checks c locked a = some e) : e.cache.Routed := by
  cases a with
  | insert key entry =>
    obtain ⟨vs, s', us, hi, -⟩ := perform_insert hc h
    exact hi.routed hc
  | remove key =>
    rcases perform_remove hc h with ⟨rfl, -⟩ | ⟨k₀, en, s', hr, -⟩
    · exact hc
    · exact hr.routed hc
  | drain i =>
    rw [perform_drain h]
    exact Cache.routed_drainShard hc i
  | enter key u => cases h; exact hc.of_shards (Cache.shards_apply c u)
  | update u => cases h; exact hc.of_shards (Cache.shards_apply c u)
  | unlock i => cases h; exact hc
  | hook h' => cases h; exact hc

/-- What changes of a shard keep, holds of every shard after an action. -/
theorem perform_shards {P : Shard κ ν w → Prop} {a : Action κ ν w n} (hc : ∀ i, P (c.shards i))
    (hinsert : ∀ key entry r s', a = .insert key entry →
      (c.shards (getShard w n (hash key))).insert checks key entry = .ok r s' → P s')
    (hremove : ∀ i key r s', (c.shards i).remove checks key = .ok r s' → P s')
    (hclear : ∀ s, P s → P s.clear) (h : perform checks c locked a = some e) (i : Fin n) :
    P (e.cache.shards i) := by
  have hset : ∀ {j : Fin n} {s' : Shard κ ν w}, P s' → P ((c.setShard j s').shards i) := by
    intro j s' hs'
    rw [Cache.shards_setShard]
    by_cases hij : i = j
    · subst hij
      rwa [Function.update_self]
    · rw [Function.update_of_ne hij]
      exact hc i
  cases a with
  | insert key entry =>
    obtain ⟨r, s', hins, hcache⟩ := perform_insert_shard h
    rw [hcache]
    exact hset (hinsert key entry r s' rfl hins)
  | remove key =>
    obtain ⟨r, s', hrem, hcache⟩ := perform_remove_shard h
    rw [hcache]
    exact hset (hremove _ key r s' hrem)
  | drain j =>
    rw [perform_drain h]
    exact hset (hclear _ (hc j))
  | enter key u | update u =>
    cases h
    rw [Cache.shards_apply]
    exact hc i
  | unlock j | hook h' => cases h; exact hc i

/-- The actions an action adds change no shard. -/
theorem perform_adds {a : Action κ ν w n} (h : perform checks c locked a = some e) :
    ∀ b ∈ e.front ++ e.back, b.onShard = false := by
  cases a with
  | insert key entry =>
    obtain ⟨old, stats, evicted, d, us, -, -, -, rfl⟩ := perform_insert_eq h
    simp only [List.append_nil, List.mem_append, List.mem_map]
    rintro b ((⟨u, -, rfl⟩ | ⟨u, -, rfl⟩) | ⟨hook, -, rfl⟩) <;> rfl
  | remove key =>
    obtain ⟨r, d, -, -, ⟨-, rfl⟩ | ⟨k₀, en, -, rfl⟩⟩ := perform_remove_eq h
    · simp
    · simp only [List.append_nil, List.mem_append, List.mem_map, List.mem_cons,
        List.not_mem_nil, or_false]
      rintro b (⟨u, -, rfl⟩ | rfl | rfl) <;> rfl
  | drain i =>
    rw [perform_drain h]
    simp only [List.mem_append, List.mem_map, List.mem_cons, List.not_mem_nil, or_false]
    rintro b ((⟨u, -, rfl⟩ | rfl) | ⟨v, -, rfl⟩) <;> rfl
  | enter key u => cases h; simp
  | update u => cases h; simp
  | unlock i => cases h; simp
  | hook h' => cases h; simp

/-- The hooks that an action puts in flight: for its victims, for what it removed, for what it
drained. -/
theorem perform_hooks {a : Action κ ν w n} (hc : c.Routed)
    (h : perform checks c locked a = some e) {hook : Hook κ}
    (hhook : .hook hook ∈ e.front ++ e.back) :
    (∃ key entry vs, a = .insert key entry ∧ Cache.Inserts checks key entry c vs e.cache ∧
      ∃ v ∈ vs, hook = .onEvict v.victim.key) ∨
    (∃ key k₀ en, a = .remove key ∧ Cache.Removes checks key k₀ en c e.cache ∧
      hook = .onRemove k₀) ∨
    ∃ i, a = .drain i ∧ ∃ en ∈ (c.drainShard i).1.1, hook = .onClear en.key := by
  cases a with
  | insert key entry =>
    obtain ⟨vs, s', us, hi, -, rfl⟩ := perform_insert hc h
    simp only [List.append_nil, List.mem_append, List.mem_map, reduceCtorEq, and_false,
      exists_false, false_or, Action.hook.injEq] at hhook
    obtain ⟨v, hv, rfl⟩ := hhook
    exact .inl ⟨key, entry, vs, rfl, hi, v, hv, rfl⟩
  | remove key =>
    rcases perform_remove hc h with ⟨rfl, -⟩ | ⟨k₀, en, s', hr, rfl⟩
    · cases hhook
    · simp only [List.append_nil, List.mem_append, List.mem_map, reduceCtorEq, and_false,
        exists_false, List.mem_cons, Action.hook.injEq, List.not_mem_nil, or_false,
        false_or] at hhook
      exact .inr (.inl ⟨key, k₀, en, rfl, hr, hhook⟩)
  | drain i =>
    rw [perform_drain h] at hhook
    simp only [List.mem_append, List.mem_map, reduceCtorEq, and_false, exists_false,
      List.mem_cons, List.not_mem_nil, or_false, false_or, Action.hook.injEq] at hhook
    obtain ⟨en, hen, rfl⟩ := hhook
    exact .inr (.inr ⟨i, rfl, en, hen, rfl⟩)
  | enter key u | update u | unlock i | hook h' =>
    cases h
    cases hhook

/-- An action takes `k` out, or it puts no hook for `k` in flight; and then it inserts `k` or
leaves what is stored under it. -/
theorem perform_contentAt {a : Action κ ν w n} (hc : c.Routed)
    (h : perform checks c locked a = some e) (k : κ) :
    e.cache.contentAt k = none ∨
      (∀ h, .hook h ∈ e.front ++ e.back → (h.key == k) = false) ∧
        ((∃ key entry, a = .insert key entry ∧ (key == k) = true ∧
            e.cache.contentAt k = some entry.content) ∨
          e.cache.contentAt k = c.contentAt k) := by
  by_cases hnone : e.cache.contentAt k = none
  · exact .inl hnone
  refine .inr ⟨fun hook hhook => ?_, ?_⟩
  · rw [Bool.eq_false_iff]
    intro hk
    refine hnone ?_
    rcases perform_hooks hc h hhook with ⟨key, entry, vs, -, hi, v, hv, rfl⟩ |
      ⟨key, k₀, en, -, hr, rfl⟩ | ⟨i, rfl, en, hen, rfl⟩
    · have hne : ¬ (key == k) = true := by
        rw [← BEq.congr_right hk]
        exact Bool.eq_false_iff.mp (hi.victim hc hv).2
      rw [hi.contentAt_eq hc, if_neg hne, if_pos (List.any_eq_true.mpr ⟨v, hv, hk⟩)]
    · rw [hr.contentAt_eq, if_pos (BEq.trans hr.key_eq hk)]
    · -- what was drained was routed to the shard
      obtain ⟨kv, hkv, rfl⟩ := List.mem_map.mp hen
      have hroute : getShard w n (hash k) = i := by
        rw [← hash_eq hk]
        refine hc.routed i kv.1 ?_
        rw [Shard.contentOf_of_get? (HashMap.get?_of_mem hkv)]
        exact Option.some_ne_none _
      rw [perform_drain h, Cache.contentAt_drainShard, if_pos hroute]
  · cases a with
    | insert key entry =>
      obtain ⟨vs, s', us, hi, -⟩ := perform_insert hc h
      have hcontent := hi.contentAt_eq hc k
      split at hcontent
      · next hk => exact .inl ⟨key, entry, rfl, hk, hcontent⟩
      · split at hcontent
        · exact absurd hcontent hnone
        · exact .inr hcontent
    | remove key =>
      rcases perform_remove hc h with ⟨rfl, -⟩ | ⟨k₀, en, s', hr, -⟩
      · exact .inr rfl
      · have hcontent := hr.contentAt_eq k
        split at hcontent
        · exact absurd hcontent hnone
        · exact .inr hcontent
    | drain i =>
      rw [perform_drain h] at hnone ⊢
      have hcontent := Cache.contentAt_drainShard c i k
      split at hcontent
      · exact absurd hcontent hnone
      · exact .inr hcontent
    | enter key u | update u =>
      cases h
      exact .inr (Cache.contentAt_congr (Cache.shards_apply c u) k)
    | unlock i | hook h' =>
      cases h
      exact .inr rfl

/-! ## One step -/

variable {s t : System κ ν w n} {choice : Choice κ ν w n} {shown : List (Event κ ν w)}

/-- A step starts a call, lets one return, makes an action of one, or stores access
statistics. -/
theorem step_cases (h : step checks s choice = some (shown, t)) :
    (∃ op, choice = .start op ∧ shown = [] ∧ t = s.begin op) ∨
    (∃ j call, choice = .advance j ∧ s.calls[j]? = some call ∧ call.todo = [] ∧
      shown = [.returned call.op call.result] ∧ t = s.finish j) ∨
    (∃ j call a todo e, choice = .advance j ∧ s.calls[j]? = some call ∧ call.todo = a :: todo ∧
      perform checks s.cache s.locked a = some e ∧ shown = e.shown ∧
      t = s.resume j call todo e) ∨
    ∃ i key clockBit frequency, choice = .access i key clockBit frequency ∧ shown = [] ∧
      t = { s with cache := s.cache.access i key clockBit frequency } := by
  cases choice with
  | start op =>
    cases h
    exact .inl ⟨op, rfl, rfl, rfl⟩
  | advance j =>
    rw [step] at h
    split at h
    · cases h
    · next call hcall =>
      split at h
      · next htodo =>
        cases h
        exact .inr (.inl ⟨j, call, rfl, hcall, htodo, rfl, rfl⟩)
      · next a todo htodo =>
        obtain ⟨e, he, hret⟩ := Option.map_eq_some_iff.mp h
        cases hret
        exact .inr (.inr (.inl ⟨j, call, a, todo, e, rfl, hcall, htodo, he, rfl, rfl⟩))
  | access i key clockBit frequency =>
    rw [step] at h
    split at h
    · cases h
    · cases h
      exact .inr (.inr (.inr ⟨i, key, clockBit, frequency, rfl, rfl, rfl⟩))

omit [Hashable κ] [EquivBEq κ] [LawfulHashable κ] [NeZero n] in
/-- The call at position `j` apart from the others. -/
theorem calls_split {j : Nat} {call : Call κ ν w n} (hj : s.calls[j]? = some call) :
    s.calls.Perm (call :: s.calls.eraseIdx j) ∧
      ∀ call', (s.calls.set j call').Perm (call' :: s.calls.eraseIdx j) := by
  obtain ⟨hlt, rfl⟩ := List.getElem?_eq_some_iff.mp hj
  exact ⟨(List.getElem_cons_eraseIdx_perm hlt).symm, List.set_perm_cons_eraseIdx hlt⟩

omit [Hashable κ] [EquivBEq κ] [LawfulHashable κ] [NeZero n] in
/-- Its actions apart from those of the others. -/
theorem inFlight_split {j : Nat} {call : Call κ ν w n} (hj : s.calls[j]? = some call) :
    s.inFlight.Perm (call.todo ++ (s.finish j).inFlight) ∧
      ∀ call', ((s.calls.set j call').flatMap Call.todo).Perm
        (call'.todo ++ (s.finish j).inFlight) := by
  obtain ⟨hcalls, hset⟩ := calls_split hj
  exact ⟨hcalls.flatMap_right Call.todo, fun call' => (hset call').flatMap_right Call.todo⟩

omit [Hashable κ] [EquivBEq κ] [LawfulHashable κ] [NeZero n] in
/-- What a call does next is in flight. -/
theorem mem_inFlight_of_next {j : Nat} {a : Action κ ν w n} (h : s.next j = some a) :
    a ∈ s.inFlight := by
  obtain ⟨call, hj, hhead⟩ := Option.bind_eq_some_iff.mp h
  exact (inFlight_split hj).1.symm.subset (List.mem_append_left _ (List.mem_of_head? hhead))

/-- A step, seen on the cache and the actions in flight. -/
theorem step_inFlight (h : step checks s choice = some (shown, t)) :
    (∃ op, choice = .start op ∧ t.cache = s.cache ∧ t.inFlight = s.inFlight ++ op.actions) ∨
    (t.cache = s.cache ∧ s.inFlight.Perm t.inFlight) ∨
    (∃ j a rest e, choice = .advance j ∧ s.next j = some a ∧
      perform checks s.cache s.locked a = some e ∧ t.cache = e.cache ∧
      s.inFlight.Perm (a :: rest) ∧ t.inFlight.Perm (e.front ++ e.back ++ rest)) ∨
    ∃ i key clockBit frequency, t.cache = s.cache.access i key clockBit frequency ∧
      t.inFlight = s.inFlight := by
  rcases step_cases h with ⟨op, rfl, -, rfl⟩ | ⟨j, call, -, hj, htodo, -, rfl⟩ |
    ⟨j, call, a, todo, e, rfl, hj, htodo, he, -, rfl⟩ | ⟨i, key, clockBit, frequency, -, -, rfl⟩
  · exact .inl ⟨op, rfl, rfl, by simp [inFlight, begin]⟩
  · have := (inFlight_split hj).1
    rw [htodo, List.nil_append] at this
    exact .inr (.inl ⟨rfl, this⟩)
  · refine .inr (.inr (.inl ⟨j, a, todo ++ (s.finish j).inFlight, e, rfl, ?_, he, rfl, ?_, ?_⟩))
    · simp [next, hj, htodo]
    · have := (inFlight_split hj).1
      rwa [htodo] at this
    · refine ((inFlight_split hj).2 _).trans ?_
      simp only [List.append_assoc]
      refine List.Perm.append_left _ ?_
      rw [← List.append_assoc, ← List.append_assoc]
      exact List.perm_append_comm.append_right _
  · exact .inr (.inr (.inr ⟨i, key, clockBit, frequency, rfl, rfl⟩))

/-- A call that has still to insert has nothing else to do. -/
def Fresh (s : System κ ν w n) : Prop :=
  ∀ call ∈ s.calls, ∀ key entry, .insert key entry ∈ call.todo →
    call.op = .insert key entry ∧ call.todo = [.insert key entry]

omit [Hashable κ] [EquivBEq κ] [LawfulHashable κ] [NeZero n] in
theorem Fresh.finish (hs : s.Fresh) (j : Nat) : (s.finish j).Fresh :=
  fun call hin => hs call (List.mem_of_mem_eraseIdx hin)

omit [Hashable κ] [EquivBEq κ] [LawfulHashable κ] [NeZero n] in
/-- An insertion that is made is the whole call. -/
theorem Fresh.todo_eq_nil {j : Nat} {call : Call κ ν w n} {key : κ} {entry : Entry ν w}
    {todo : List (Action κ ν w n)} (hs : s.Fresh) (hj : s.calls[j]? = some call)
    (htodo : call.todo = .insert key entry :: todo) :
    call.op = .insert key entry ∧ todo = [] := by
  obtain ⟨hop, hall⟩ :=
    hs call (List.mem_of_getElem? hj) key entry (htodo ▸ List.mem_cons_self)
  rw [htodo, List.cons_eq_cons] at hall
  exact ⟨hop, hall.2⟩

omit [Hashable κ] [EquivBEq κ] [LawfulHashable κ] [NeZero n] in
/-- Without a call that has still to insert, its insertion is no longer in flight. -/
theorem Fresh.inFlight_finish {j : Nat} {key : κ} {entry : Entry ν w} (hs : s.Fresh)
    (hnext : s.next j = some (.insert key entry)) :
    s.inFlight.Perm (.insert key entry :: (s.finish j).inFlight) := by
  obtain ⟨call, hj, hhead⟩ := Option.bind_eq_some_iff.mp hnext
  obtain ⟨todo, htodo⟩ := List.head?_eq_some_iff.mp hhead
  obtain rfl := (hs.todo_eq_nil hj htodo).2
  have hflight := (inFlight_split hj).1
  rwa [htodo] at hflight

theorem step_fresh (hs : s.Fresh) (h : step checks s choice = some (shown, t)) : t.Fresh := by
  rcases step_cases h with ⟨op, rfl, -, rfl⟩ | ⟨j, call, -, hj, htodo, -, rfl⟩ |
    ⟨j, call, a, todo, e, rfl, hj, htodo, he, -, rfl⟩ | ⟨i, key, clockBit, frequency, -, -, rfl⟩
  · intro call hin key entry hmem
    rcases List.mem_append.mp hin with hin | hin
    · exact hs call hin key entry hmem
    · rw [List.mem_singleton.mp hin] at hmem ⊢
      cases op with
      | insert key' entry' =>
        cases List.mem_singleton.mp hmem
        exact ⟨rfl, rfl⟩
      | remove key' => simp [CallOp.actions] at hmem
      | clear => simp [CallOp.actions] at hmem
  · exact hs.finish j
  · intro call' hin key entry hmem
    rcases List.mem_or_eq_of_mem_set hin with hin | rfl
    · exact hs call' hin key entry hmem
    · -- no insertion is added, and none stands behind another action
      exfalso
      simp only [List.mem_append] at hmem
      rcases hmem with (hmem | hmem) | hmem
      · cases perform_adds he _ (List.mem_append_left _ hmem)
      · have hall := (hs call (List.mem_of_getElem? hj) key entry
          (htodo ▸ List.mem_cons_of_mem _ hmem)).2
        rw [htodo, List.cons_eq_cons] at hall
        rw [hall.2] at hmem
        cases hmem
      · cases perform_adds he _ (List.mem_append_right _ hmem)
  · exact hs

omit [EquivBEq κ] [LawfulHashable κ] in
theorem routed_start (maxSizeBytes : BitVec w) :
    (start maxSizeBytes : System κ ν w n).cache.Routed := Cache.routed_new maxSizeBytes

theorem step_routed (hs : s.cache.Routed) (h : step checks s choice = some (shown, t)) :
    t.cache.Routed := by
  rcases step_inFlight h with ⟨op, -, hc, -⟩ | ⟨hc, -⟩ | ⟨j, a, rest, e, -, -, he, hc, -⟩ |
    ⟨i, key, clockBit, frequency, hc, -⟩
  · rwa [hc]
  · rwa [hc]
  · rw [hc]
    exact perform_routed hs he
  · rw [hc]
    exact Cache.routed_access hs i key clockBit frequency

end System

end PriorityLfu
