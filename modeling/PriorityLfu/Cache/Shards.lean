import PriorityLfu.Cache.Refinement

/-!
# The cache is the product of its shards

A call on the cache makes its calls on the shards that its key selects, `clear` one on every
shard, and what it does to a shard depends on that shard alone. So a run of the cache is on
each shard a run of the calls routed there, and what holds of the runs of a shard holds of
every shard of a cache.
-/
namespace PriorityLfu
open Keyed

variable {w n : Nat} {T : Types w} {H : Heap T}

/-- The entry that an insertion stores. -/
def CacheOp.entry {key : Arc H} (value : T.Val (T.Value key.get.typeId)) : Entry (Any T.Val) w :=
  .new ⟨_, value⟩ (T.deepSizeOf value) (T.policy key.get.value)

variable [NeZero n]

/-- The calls a call on the cache makes on shard `i`. -/
def CacheOp.onShard (i : Fin n) : CacheOp H → List (ShardOp (ErasedKey H) (Any T.Val) w)
  | .insert key value =>
    let erasedKey := ErasedKey.new key
    if getShard w n erasedKey.hash = i then [.insert erasedKey (CacheOp.entry value)] else []
  | .get key | .getClone key =>
    let keyRef := ErasedKeyRef.new key.value
    if getShard w n keyRef.hash = i then [.get keyRef.hash keyRef.equals] else []
  | .getBy _ key | .getCloneBy _ key =>
    let keyRef := ErasedKeyLookup.new key
    if getShard w n keyRef.hash = i then [.get keyRef.hash keyRef.equals] else []
  | .contains _ | .containsBy _ _ => []
  | .remove key =>
    let erasedKey := ErasedKey.new key
    if getShard w n erasedKey.hash = i then [.remove erasedKey] else []
  | .clear => [.drain]

/-- The keys that the shards report as evicted, shard by shard. -/
def evictedKeys (replies : Fin n → List (ShardReply (ErasedKey H) (Any T.Val) w)) :
    List (Any T.Key) :=
  (List.finRange n).flatMap fun i =>
    ((replies i).flatMap ShardReply.evicted).map fun e => e.key.data.get

/-- A call on one shard only. -/
def onlyShard (i : Fin n) (r : ShardReply (ErasedKey H) (Any T.Val) w) (j : Fin n) :
    List (ShardReply (ErasedKey H) (Any T.Val) w) := if i = j then [r] else []

theorem flatMap_eq_single {α β : Type*} {l : List α} {f : α → List β} {a : α} (hd : l.Nodup)
    (ha : a ∈ l) (hf : ∀ b ∈ l, b ≠ a → f b = []) : l.flatMap f = f a := by
  obtain ⟨l₁, l₂, rfl⟩ := List.append_of_mem ha
  have hd' := List.nodup_middle.mp hd
  have hnot : a ∉ l₁ ++ l₂ := (List.nodup_cons.mp hd').1
  have hnil : ∀ l' : List α, (∀ b ∈ l', b ∈ l₁ ++ l₂) → l'.flatMap f = [] := fun l' hl' => by
    refine List.flatMap_eq_nil_iff.mpr fun b hb => hf b ?_ fun hba => hnot (hba ▸ hl' b hb)
    exact (List.perm_middle.symm.subset (List.mem_cons_of_mem _ (hl' b hb)))
  rw [List.flatMap_append, List.flatMap_cons, hnil l₁ fun b => List.mem_append_left _,
    hnil l₂ fun b => List.mem_append_right _, List.nil_append, List.append_nil]

omit [NeZero n] in
theorem evictedKeys_onlyShard (i : Fin n) (r : ShardReply (ErasedKey H) (Any T.Val) w) :
    evictedKeys (onlyShard i r) = r.evicted.map fun e => e.key.data.get := by
  have hsingle := flatMap_eq_single (f := fun j =>
    ((onlyShard i r j).flatMap ShardReply.evicted).map fun e => e.key.data.get)
    (List.nodup_finRange n) (List.mem_finRange i) fun j _ hj => by simp [onlyShard, hj.symm]
  rw [evictedKeys, hsingle]
  simp [onlyShard]

namespace Cache

variable {c d : Cache (ErasedKey H) (Any T.Val) w n} {checks : Bool}

omit [NeZero n] in
/-- A call on one shard that leaves the others alone. -/
theorem run_onlyShard {i : Fin n} {op : ShardOp (ErasedKey H) (Any T.Val) w}
    {r : ShardReply (ErasedKey H) (Any T.Val) w} {s' : Shard (ErasedKey H) (Any T.Val) w}
    (h : Shard.step checks (c.shards i) op = .ok r s')
    (hd : d.shards = Function.update c.shards i s') (j : Fin n) :
    Outcome.run (Shard.step checks) (c.shards j) (if i = j then [op] else []) =
      .ok (onlyShard i r j) (d.shards j) := by
  rw [hd, onlyShard]
  by_cases hij : i = j
  · subst hij
    rw [if_pos rfl, if_pos rfl, Function.update_self]
    exact Outcome.run_cons_eq_ok.mpr ⟨r, s', [], h, rfl, rfl⟩
  · rw [if_neg hij, if_neg hij, Function.update_of_ne (Ne.symm hij)]
    rfl

/-- A lookup is one call on one shard. -/
theorem lookup_onlyShard (c : Cache (ErasedKey H) (Any T.Val) w n) (checks : Bool)
    (hash : UInt64) (equals : ErasedKey H → Bool) :
    ∃ r s', Shard.step checks (c.shards (getShard w n hash)) (.get hash equals) = .ok r s' ∧
      (c.lookup hash equals).2.shards = Function.update c.shards (getShard w n hash) s' ∧
      r.evicted = [] := by
  refine ⟨_, _, rfl, ?_, rfl⟩
  rw [lookup_eq, shards_apply]
  rfl

/-- What a call does to the shards. -/
theorem step_shards {op : CacheOp H} {r : CacheReply T} (hc : c.Typed)
    (h : step checks c op = .ok r d) :
    ∃ replies : Fin n → List (ShardReply (ErasedKey H) (Any T.Val) w),
      r.evicted = evictedKeys replies ∧
      ∀ i, Outcome.run (Shard.step checks) (c.shards i) (op.onShard i) =
        .ok (replies i) (d.shards i) := by
  have hlookup : ∀ (hash : UInt64) (equals : ErasedKey H → Bool),
      ∃ replies : Fin n → List (ShardReply (ErasedKey H) (Any T.Val) w),
        [] = evictedKeys replies ∧
        ∀ i, Outcome.run (Shard.step checks) (c.shards i)
          (if getShard w n hash = i then [.get hash equals] else []) =
            .ok (replies i) ((c.lookup hash equals).2.shards i) := fun hash equals => by
    obtain ⟨r, s', hstep, hd, hr⟩ := lookup_onlyShard c checks hash equals
    refine ⟨onlyShard (getShard w n hash) r, ?_, run_onlyShard hstep hd⟩
    rw [evictedKeys_onlyShard, hr, List.map_nil]
  cases op with
  | insert key value =>
    obtain ⟨⟨old, hooks⟩, d', hins, hret⟩ := Outcome.bind_eq_ok.mp h
    cases hret
    obtain ⟨⟨oldEntry, hooks'⟩, d', hentry, hret⟩ := Outcome.bind_eq_ok.mp hins
    cases hret
    obtain ⟨⟨old', stats, evicted⟩, d', hshard, hrest⟩ := Outcome.bind_eq_ok.mp hentry
    obtain ⟨us, d'', hcheck, hret⟩ := Outcome.bind_eq_ok.mp hrest
    obtain ⟨-, rfl⟩ := Outcome.check_eq_ok.mp hcheck
    cases hret
    obtain ⟨s', hok, rfl⟩ := Outcome.mapState_eq_ok.mp hshard
    have hstep : Shard.step checks (c.shards (getShard w n (ErasedKey.new key).hash))
        (.insert (ErasedKey.new key) (CacheOp.entry value)) =
          .ok (.inserted oldEntry stats evicted) s' := Outcome.bind_eq_ok.mpr ⟨_, _, hok, rfl⟩
    obtain ⟨u, t, vs, -, -, rfl, rfl⟩ := Shard.insert_cases (hc.routed.linked _) hok
    refine ⟨_, ?_, run_onlyShard hstep (shards_applyAll _ _)⟩
    rw [evictedKeys_onlyShard, CacheReply.evicted, evictHooks_eq]
    simp [ShardReply.evicted, List.filterMap_map, Hook.map, Function.comp_def]
  | get key => cases h; exact hlookup _ _
  | getClone key => cases h; exact hlookup _ _
  | getBy t key => cases h; exact hlookup _ _
  | getCloneBy t key => cases h; exact hlookup _ _
  | contains key =>
    cases h
    exact ⟨fun _ => [], by simp [evictedKeys, CacheReply.evicted], fun _ => rfl⟩
  | containsBy t key =>
    cases h
    exact ⟨fun _ => [], by simp [evictedKeys, CacheReply.evicted], fun _ => rfl⟩
  | remove key =>
    obtain ⟨⟨v, hooks⟩, d', hrem, hret⟩ := Outcome.bind_eq_ok.mp h
    cases hret
    obtain ⟨⟨entry, hooks'⟩, d', hentry, hret⟩ := Outcome.bind_eq_ok.mp hrem
    cases hret
    obtain ⟨removed, d', hshard, hret⟩ := Outcome.bind_eq_ok.mp hentry
    obtain ⟨s', hok, rfl⟩ := Outcome.mapState_eq_ok.mp hshard
    have hstep : Shard.step checks (c.shards (getShard w n (ErasedKey.new key).hash))
        (.remove (ErasedKey.new key)) = .ok (.removed removed) s' :=
      Outcome.bind_eq_ok.mpr ⟨_, _, hok, rfl⟩
    have hd : d.shards = Function.update c.shards (getShard w n (ErasedKey.new key).hash) s' := by
      cases removed <;> cases hret
      · rfl
      · exact shards_applyAll _ _
    refine ⟨_, ?_, run_onlyShard hstep hd⟩
    rw [evictedKeys_onlyShard]
    cases removed <;> cases hret <;> rfl
  | clear =>
    cases h
    refine ⟨fun i => [.drained (c.shards i).drain.1.1 (c.shards i).drain.1.2.1
      (c.shards i).drain.1.2.2], ?_, fun i => ?_⟩
    · refine Eq.trans ?_ (List.flatMap_eq_nil_iff.mpr fun i _ => rfl).symm
      refine List.filterMap_eq_nil_iff.mpr fun hook hhook => ?_
      obtain ⟨_, hclear, rfl⟩ := List.mem_map.mp hhook
      obtain ⟨e, -, rfl⟩ := List.mem_map.mp hclear
      rfl
    · show _ = Outcome.ok _ (c.clear.2.shards i)
      rw [shards_clear]
      rfl

/-- A run of the cache is on every shard a run of the calls routed to it, and the keys the
cache reports as evicted are those its shards evicted. -/
theorem run_shards (checks : Bool) (maxSizeBytes : BitVec w) (ops : List (CacheOp H))
    {rs : List (CacheReply T)}
    (h : Outcome.run (step checks) (withShardsAndLifecycleInternal maxSizeBytes n) ops =
      .ok rs d) :
    ∃ replies : List (Fin n → List (ShardReply (ErasedKey H) (Any T.Val) w)),
      List.Forall₂ (fun r replies => r.evicted = evictedKeys replies) rs replies ∧
      ∀ i, Outcome.run (Shard.step checks) (.new (BitVec.ofNat w (maxSizeBytes.toNat / n)))
        (ops.flatMap (·.onShard i)) = .ok (replies.flatMap (· i)) (d.shards i) :=
  Outcome.run_product (f := fun i op => CacheOp.onShard i op) (P := Typed)
    (R := fun r replies => r.evicted = evictedKeys replies)
    (fun _ _ _ _ hc hs => ⟨(step_refines hc hs).1, step_shards hc hs⟩)
    (typed_new maxSizeBytes) h

theorem run_shards_twoTypes :
    ∃ rs, ∃ c : Cache (ErasedKey alternating) (Any colliding.Val) 64 2,
      Outcome.run (step false) (withShardsAndLifecycleInternal 900 2) twoTypes = .ok rs c ∧
      ∀ i, ∃ replies, Outcome.run (Shard.step false) (.new (BitVec.ofNat 64 (900 / 2)))
        (twoTypes.flatMap (·.onShard i)) = .ok replies (c.shards i) := by
  obtain ⟨rs, c, h⟩ := run_unchecked (withShardsAndLifecycleInternal (900 : BitVec 64) 2) twoTypes
  obtain ⟨replies, -, hshards⟩ := run_shards false 900 twoTypes h
  exact ⟨rs, c, h, fun i => ⟨_, hshards i⟩⟩

end Cache

end PriorityLfu
