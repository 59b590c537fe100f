import PriorityLfu.Cache.Run

/-!
# The typed cache

The cache API as one step function, and what typing adds: the value stored under a key has
the value type of the key's type, so that no downcast fails. `view` is what the cache stores
under a key of any type, whether or not the key was ever erased.
-/
namespace PriorityLfu
open Keyed

variable {w n : Nat} {T : Types w} {H : Heap T}

/-! ## Calls -/

/-- A call of the cache API. An owned key is given by the allocation of its clone. -/
inductive CacheOp (H : Heap T) where
  | insert (key : Arc H) (value : T.Val (T.Value key.get.typeId))
  | get (key : Any T.Key)
  | getClone (key : Any T.Key)
  | getBy (t : T.KeyId) (key : CacheKeyLookup T t)
  | getCloneBy (t : T.KeyId) (key : CacheKeyLookup T t)
  | contains (key : Any T.Key)
  | containsBy (t : T.KeyId) (key : CacheKeyLookup T t)
  | remove (key : Arc H)
  | clear

inductive CacheResult (T : Types w) where
  | value (v : Option (Any T.Val))
  | present (b : Bool)
  | done

/-- What a call returns, and the hooks it calls before. -/
structure CacheReply (T : Types w) where
  result : CacheResult T
  hooks : List (Hook (Any T.Key))

/-- The keys that left by eviction during a call. -/
def CacheReply.evicted (r : CacheReply T) : List (Any T.Key) :=
  r.hooks.filterMap fun
    | .onEvict key => some key
    | _ => none

namespace Cache

variable [NeZero n]

def step (checks : Bool) (c : Cache (ErasedKey H) (Any T.Val) w n) :
    CacheOp H → Outcome (Cache (ErasedKey H) (Any T.Val) w n) (CacheReply T)
  | .insert key value => (c.insert checks key value).bind fun (old, hooks) c =>
    .ok ⟨.value (old.map (Any.mk _)), hooks⟩ c
  | .get key => let (v, c) := c.get key.value; .ok ⟨.value (v.map (Any.mk _)), []⟩ c
  | .getClone key => let (v, c) := c.getClone key.value; .ok ⟨.value (v.map (Any.mk _)), []⟩ c
  | .getBy _ key => let (v, c) := c.getBy key; .ok ⟨.value (v.map (Any.mk _)), []⟩ c
  | .getCloneBy _ key => let (v, c) := c.getCloneBy key; .ok ⟨.value (v.map (Any.mk _)), []⟩ c
  | .contains key => .ok ⟨.present (c.contains key.value), []⟩ c
  | .containsBy _ key => .ok ⟨.present (c.containsBy key), []⟩ c
  | .remove key => (c.remove checks key).bind fun (v, hooks) c =>
    .ok ⟨.value (v.map (Any.mk _)), hooks⟩ c
  | .clear => let (hooks, c) := c.clear
    .ok ⟨.done, hooks.map (Hook.map fun k => k.data.get)⟩ c

/-- The value under a key of any type. -/
def view (c : Cache (ErasedKey H) (Any T.Val) w n) (key : Any T.Key) : Option (Any T.Val) :=
  let keyRef := ErasedKeyRef.new key.value
  ((c.shards (getShard w n keyRef.hash)).entries.fromHash keyRef.hash keyRef.equals).map
    (·.2.value)

variable {c d : Cache (ErasedKey H) (Any T.Val) w n} {checks : Bool}

/-- Under a key that equals an erased one the view is what is stored under that. -/
theorem view_eq {key : Any T.Key} {a : ErasedKey H} (h : key.keyEq a.data.get = true) :
    c.view key = (c.contentAt a).map (·.1) := by
  obtain ⟨t, x, y, rfl, hy, he⟩ := Any.keyEq_iff.mp h
  have hhash : computeHash t x = hash a := by
    show _ = a.hash
    rw [a.hash_eq, hy]
    exact T.hash_eq he
  have hequals : (ErasedKeyRef.new (Any.mk t x : Any T.Key).value).equals = fun b => a == b := by
    funext b
    rw [ErasedKeyRef.equals_new, ErasedKey.beq_eq, Any.keyEq_comm, Any.keyEq_congr_right h,
      Any.keyEq_comm]
  have hview : c.view ⟨t, x⟩ =
      ((c.shards (getShard w n (hash a))).entries.getEntry? a).map (·.2.value) := by
    simp only [view, hequals, HashMap.getEntry?]
    rw [show (ErasedKeyRef.new (T := T) x).hash = hash a from hhash]
  rw [hview, contentAt, Shard.contentOf, HashMap.get?]
  simp [Option.map_map, Function.comp_def, Entry.content]

/-- A key that equals no erased key is not stored. -/
theorem view_eq_none {key : Any T.Key} (h : ∀ a : ErasedKey H, key.keyEq a.data.get = false) :
    c.view key = none := by
  have hequals : (ErasedKeyRef.new key.value).equals = fun _ : ErasedKey H => false := by
    funext b
    rw [ErasedKeyRef.equals_new]
    exact h b
  simp [view, hequals, HashMap.fromHash]

theorem view_arc (key : Arc H) : c.view key.get = (c.contentAt (ErasedKey.new key)).map (·.1) :=
  view_eq (Any.keyEq_refl _)

/-- The view does not tell equal keys apart. -/
theorem view_congr {key : Arc H} {k : Any T.Key} (h : key.get.keyEq k = true) :
    c.view key.get = c.view k := by
  have hk : k.keyEq (ErasedKey.new key).data.get = true := Any.keyEq_symm h
  rw [view_arc, view_eq hk]

/-! ## The invariant -/

/-- The value under a key has the value type of the key's type. -/
structure Typed (c : Cache (ErasedKey H) (Any T.Val) w n) : Prop where
  routed : c.Routed
  value : ∀ k x, c.contentAt k = some x → x.1.typeId = T.Value k.data.get.typeId

theorem typed_new (maxSizeBytes : BitVec w) :
    (withShardsAndLifecycleInternal maxSizeBytes n :
      Cache (ErasedKey H) (Any T.Val) w n).Typed where
  routed := routed_new maxSizeBytes
  value k x hx := by
    simp [contentAt, withShardsAndLifecycleInternal, Shard.new, Shard.contentOf] at hx

theorem typeId_congr {a b : ErasedKey H} (h : (a == b) = true) :
    a.data.get.typeId = b.data.get.typeId := by
  rw [ErasedKey.beq_eq] at h
  obtain ⟨t, x, y, hx, hy, -⟩ := Any.keyEq_iff.mp h
  rw [hx, hy]

/-- A stored entry downcasts to the value type of its key. -/
theorem Typed.downcast (hc : c.Typed) {a k : ErasedKey H} {e : Entry (Any T.Val) w}
    (hk : (a == k) = true) (h : c.contentAt a = some e.content) :
    (e.value.downcast (T.Value k.data.get.typeId)).map (Any.mk _) = some e.value := by
  have := hc.value a _ h
  rw [typeId_congr hk] at this
  exact Any.map_mk_downcast this

theorem insert_cases {key : Arc H} {value : T.Val (T.Value key.get.typeId)}
    {old : Option (T.Val (T.Value key.get.typeId))} {hooks : List (Hook (Any T.Key))}
    (hc : c.Typed) (h : c.insert checks key value = .ok (old, hooks) d) :
    ∃ vs, Inserts checks (ErasedKey.new key)
        (Entry.new (Any.mk _ value) (T.deepSizeOf value) (T.policy key.get.value)) c vs d ∧
      d.Typed ∧ old.map (Any.mk _) = c.view key.get ∧
      hooks = vs.map fun v => .onEvict v.victim.key.data.get := by
  obtain ⟨⟨oldEntry, hooks'⟩, d', hins, hret⟩ := Outcome.bind_eq_ok.mp h
  cases hret
  obtain ⟨vs, s', us, hi, -, -, rfl, rfl⟩ := insertEntry_cases hc.routed hins
  refine ⟨vs, hi, ⟨hi.routed hc.routed, fun k x hx => ?_⟩, ?_, by simp [Hook.map]⟩
  · rw [hi.contentAt_eq hc.routed] at hx
    split at hx
    · next hk =>
      cases hx
      show T.Value key.get.typeId = _
      rw [← typeId_congr hk]
      rfl
    · split at hx
      · cases hx
      · exact hc.value k x hx
  · rw [view_arc, contentAt_eq_oldEntry]
    cases hold : c.oldEntry (ErasedKey.new key) with
    | none => rfl
    | some e =>
      refine hc.downcast (BEq.refl (ErasedKey.new key)) ?_
      rw [contentAt_eq_oldEntry, hold, Option.map_some]

theorem remove_cases {key : Arc H} {v : Option (T.Val (T.Value key.get.typeId))}
    {hooks : List (Hook (Any T.Key))} (hc : c.Typed) (h : c.remove checks key = .ok (v, hooks) d) :
    (v = none ∧ hooks = [] ∧ d = c ∧ c.view key.get = none) ∨
      ∃ k₀ e, v.map (Any.mk _) = some e.value ∧ hooks = [.onRemove k₀.data.get] ∧
        Removes checks (ErasedKey.new key) k₀ e c d ∧ d.Typed ∧ c.view key.get = some e.value := by
  obtain ⟨⟨r, hooks'⟩, d', hrem, hret⟩ := Outcome.bind_eq_ok.mp h
  cases hret
  rcases removeEntry_cases hc.routed hrem with ⟨rfl, rfl, rfl, hnone⟩ | ⟨k₀, e, s', rfl, rfl, hr, -⟩
  · exact .inl ⟨rfl, rfl, rfl, by rw [view_arc, hnone]; rfl⟩
  · refine .inr ⟨k₀, e, ?_, rfl, hr, ⟨hr.routed hc.routed, fun k x hx => ?_⟩, ?_⟩
    · exact hc.downcast (BEq.refl (ErasedKey.new key)) hr.contentAt_key
    · rw [hr.contentAt_eq] at hx
      split at hx
      · cases hx
      · exact hc.value k x hx
    · rw [view_arc, hr.contentAt_key]
      rfl

/-- A lookup that accepts keys of one type only returns what it finds. -/
theorem lookupAs_cases (hc : c.Typed) {t : T.KeyId} (hash : UInt64)
    {equals : ErasedKey H → Bool} (htype : ∀ a, equals a = true → a.data.get.typeId = t) :
    (c.lookupAs (T.Value t) hash equals).1.map (Any.mk _) =
        ((c.shards (getShard w n hash)).entries.fromHash hash equals).map (·.2.value) ∧
      (c.lookupAs (T.Value t) hash equals).2 = (c.lookup hash equals).2 ∧
      (c.lookup hash equals).2.Typed := by
  refine ⟨?_, rfl, ⟨routed_lookup hc.routed _ _, fun k x hx => ?_⟩⟩
  · unfold lookupAs
    rw [lookup_eq]
    cases hf : (c.shards (getShard w n hash)).entries.fromHash hash equals with
    | none => rfl
    | some kv =>
      obtain ⟨a, e⟩ := kv
      obtain ⟨ha, heq, hget⟩ := HashMap.fromHash_eq_some hf
      have hcontent : c.contentAt a = some e.content := by
        rw [contentAt, ha]
        exact Shard.contentOf_of_get? hget
      have hvalue := hc.value a _ hcontent
      rw [htype a heq] at hvalue
      have htouch : e.touch.value = e.value := Entry.value_eq (Entry.content_touch e)
      show (e.touch.value.downcast (T.Value t)).map (Any.mk _) = some e.value
      rw [htouch]
      exact Any.map_mk_downcast hvalue
  · rw [contentAt_lookup] at hx
    exact hc.value k x hx

theorem typed_clear (c : Cache (ErasedKey H) (Any T.Val) w n) : c.clear.2.Typed where
  routed := routed_clear c
  value k x hx := by rw [contentAt_clear] at hx; cases hx

end Cache

end PriorityLfu
