import PriorityLfu.Cache.Typed

/-!
# The cache refines a plain map

A plain map from keys of all types to values, up to key equality. An insertion sets its key
and deletes the keys it is told were evicted. Every run of the cache returns what the plain
map returns when it is told the evictions of that run, and the two agree at the end.
-/
namespace PriorityLfu
open Keyed

variable {w n : Nat} {T : Types w} {H : Heap T}

/-- A plain map from typed keys to typed values. -/
abbrev TypedMap (T : Types w) : Type := Any T.Key → Option (Any T.Val)

namespace TypedMap

def set (m : TypedMap T) (key : Any T.Key) (v : Any T.Val) : TypedMap T :=
  fun k => if key.keyEq k then some v else m k

def delete (m : TypedMap T) (keys : List (Any T.Key)) : TypedMap T :=
  fun k => if keys.any (·.keyEq k) then none else m k

/-- What a call returns on a plain map. A borrowed key may be equal to no key or to
several, so there nothing is prescribed. -/
def answer (m : TypedMap T) : CacheOp H → Option (CacheResult T)
  | .insert key _ => some (.value (m key.get))
  | .get key => some (.value (m key))
  | .getClone key => some (.value (m key))
  | .contains key => some (.present (m key).isSome)
  | .remove key => some (.value (m key.get))
  | .clear => some .done
  | _ => none

/-- What a call makes of a plain map, given the keys it evicts. -/
def after (m : TypedMap T) (evicted : List (Any T.Key)) : CacheOp H → TypedMap T
  | .insert key value => (m.delete evicted).set key.get ⟨_, value⟩
  | .remove key => m.delete [key.get]
  | .clear => fun _ => none
  | _ => m

/-- The calls with their replies, replayed on `m`: every result is the plain map's, and the
map at the end is `m'`. -/
def Replays (m : TypedMap T) : List (CacheOp H × CacheReply T) → TypedMap T → Prop
  | [], m' => m' = m
  | (op, r) :: calls, m' =>
    (∀ a, m.answer op = some a → r.result = a) ∧ Replays (m.after r.evicted op) calls m'

end TypedMap

namespace Cache

variable [NeZero n] {c d : Cache (ErasedKey H) (Any T.Val) w n} {checks : Bool}

/-! ## The view after a change -/

/-- To know a view it is enough to know it under the keys that equal an erased one. -/
theorem view_ext {m : TypedMap T}
    (hm : ∀ key, (∀ a : ErasedKey H, key.keyEq a.data.get = false) → m key = none)
    (h : ∀ key (a : ErasedKey H), key.keyEq a.data.get = true → d.view key = m key) :
    d.view = m := by
  funext key
  by_cases ha : ∃ a : ErasedKey H, key.keyEq a.data.get = true
  · obtain ⟨a, ha⟩ := ha
    exact h key a ha
  · have hnone : ∀ a : ErasedKey H, key.keyEq a.data.get = false :=
      fun a => by simpa using fun h => ha ⟨a, h⟩
    rw [view_eq_none hnone, hm key hnone]

theorem Inserts.view_eq {key : Arc H} {value : T.Val (T.Value key.get.typeId)} {size : BitVec w}
    {policy : CachePolicy} {vs : List (Eviction (ErasedKey H) (Any T.Val) w)} (hc : c.Routed)
    (h : Inserts checks (ErasedKey.new key) (Entry.new (Any.mk _ value) size policy) c vs d) :
    d.view = (TypedMap.delete c.view (vs.map fun v => v.victim.key.data.get)).set key.get
      ⟨_, value⟩ := by
  refine view_ext (fun k hk => ?_) fun k a ha => ?_
  · have hkey : key.get.keyEq k = false := by
      rw [Any.keyEq_comm]
      exact hk (ErasedKey.new key)
    have hvs : (vs.map fun v => v.victim.key.data.get).any (·.keyEq k) = false := by
      simp only [List.any_map, List.any_eq_false, Function.comp_apply]
      intro v _
      rw [Any.keyEq_comm, hk v.victim.key]
      exact Bool.false_ne_true
    simp [TypedMap.set, TypedMap.delete, hkey, hvs, view_eq_none hk]
  · have hkey : (ErasedKey.new key == a) = key.get.keyEq k := by
      rw [ErasedKey.beq_eq, Any.keyEq_congr_right ha]
      rfl
    have hvs : (vs.any fun v => v.victim.key == a) =
        (vs.map fun v => v.victim.key.data.get).any (·.keyEq k) := by
      simp only [List.any_map, Function.comp_def, ErasedKey.beq_eq, Any.keyEq_congr_right ha]
    rw [Cache.view_eq ha, h.contentAt_eq hc, hkey, hvs, TypedMap.set, TypedMap.delete,
      Cache.view_eq ha]
    split
    · rfl
    · split <;> rfl

theorem Removes.view_eq {key : Arc H} {k₀ : ErasedKey H} {e : Entry (Any T.Val) w}
    (h : Removes checks (ErasedKey.new key) k₀ e c d) :
    d.view = TypedMap.delete c.view [key.get] := by
  refine view_ext (fun k hk => ?_) fun k a ha => ?_
  · simp [TypedMap.delete, view_eq_none hk]
  · have hkey : (ErasedKey.new key == a) = key.get.keyEq k := by
      rw [ErasedKey.beq_eq, Any.keyEq_congr_right ha]
      rfl
    rw [Cache.view_eq ha, h.contentAt_eq, hkey, TypedMap.delete, Cache.view_eq ha]
    simp only [List.any_cons, List.any_nil, Bool.or_false]
    split <;> rfl

theorem view_lookup (c : Cache (ErasedKey H) (Any T.Val) w n) (hash : UInt64)
    (equals : ErasedKey H → Bool) : (c.lookup hash equals).2.view = c.view := by
  refine view_ext (fun k hk => view_eq_none hk) fun k a ha => ?_
  rw [Cache.view_eq ha, Cache.view_eq ha, contentAt_lookup]

theorem view_clear (c : Cache (ErasedKey H) (Any T.Val) w n) : c.clear.2.view = fun _ => none := by
  refine view_ext (fun _ _ => rfl) fun k a ha => ?_
  rw [Cache.view_eq ha, contentAt_clear, Option.map_none]

/-! ## One call -/

/-- A call of the `get` family changes no view, and no shard where it finds nothing. -/
theorem lookupAs_refines (hc : c.Typed) {t : T.KeyId} (hash : UInt64)
    {equals : ErasedKey H → Bool} (htype : ∀ a, equals a = true → a.data.get.typeId = t) :
    (c.lookupAs (T.Value t) hash equals).2.Typed ∧
      (c.lookupAs (T.Value t) hash equals).2.view = c.view ∧
      ((c.lookupAs (T.Value t) hash equals).1 = none →
        (c.lookupAs (T.Value t) hash equals).2.shards = c.shards) := by
  obtain ⟨hvalue, hstate, ht⟩ := lookupAs_cases hc hash htype
  refine ⟨hstate ▸ ht, by rw [hstate, view_lookup], fun hnone => ?_⟩
  rw [hnone, Option.map_none, eq_comm, Option.map_eq_none_iff] at hvalue
  rw [hstate]
  refine shards_lookup_of_none ?_
  rw [lookup_eq, hvalue]
  rfl

theorem get_refines (hc : c.Typed) (key : Any T.Key) :
    (c.get key.value).1.map (Any.mk _) = c.view key ∧ (c.get key.value).2.Typed ∧
      (c.get key.value).2.view = c.view ∧
      ((c.get key.value).1 = none → (c.get key.value).2.shards = c.shards) := by
  have htype : ∀ a : ErasedKey H, (ErasedKeyRef.new key.value).equals a = true →
      a.data.get.typeId = key.typeId := fun a => ErasedKeyRef.typeId_of_equals
  exact ⟨(lookupAs_cases hc _ htype).1, lookupAs_refines hc _ htype⟩

theorem getBy_refines (hc : c.Typed) {t : T.KeyId} (key : CacheKeyLookup T t) :
    (c.getBy key).2.Typed ∧ (c.getBy key).2.view = c.view ∧
      ((c.getBy key).1 = none → (c.getBy key).2.shards = c.shards) := by
  have htype : ∀ a : ErasedKey H, (ErasedKeyLookup.new key).equals a = true →
      a.data.get.typeId = t := fun a => ErasedKeyLookup.typeId_of_equals
  exact lookupAs_refines hc _ htype

/-- Deleting a key that is not there changes nothing. -/
theorem view_delete_of_none {key : Arc H} (h : c.view key.get = none) :
    c.view = TypedMap.delete c.view [key.get] := by
  funext k
  cases hk : key.get.keyEq k with
  | false => simp [TypedMap.delete, hk]
  | true =>
    rw [← view_congr hk, h]
    simp [TypedMap.delete, hk]

/-- One call refines the plain map's. -/
theorem step_refines {op : CacheOp H} {r : CacheReply T} (hc : c.Typed)
    (h : step checks c op = .ok r d) :
    d.Typed ∧ (∀ a, TypedMap.answer c.view op = some a → r.result = a) ∧
      d.view = TypedMap.after c.view r.evicted op := by
  cases op with
  | insert key value =>
    obtain ⟨⟨old, hooks⟩, d', hins, hret⟩ := Outcome.bind_eq_ok.mp h
    cases hret
    obtain ⟨vs, hi, ht, hold, rfl⟩ := insert_cases hc hins
    refine ⟨ht, fun a ha => ?_, ?_⟩
    · cases ha
      exact congrArg _ hold
    · rw [hi.view_eq hc.routed]
      simp [TypedMap.after, CacheReply.evicted, List.filterMap_map]
  | get key =>
    cases h
    obtain ⟨hvalue, ht, hview, -⟩ := get_refines hc key
    exact ⟨ht, fun a ha => by cases ha; exact congrArg _ hvalue, hview⟩
  | getClone key =>
    cases h
    obtain ⟨hvalue, ht, hview, -⟩ := get_refines hc key
    exact ⟨ht, fun a ha => by cases ha; exact congrArg _ hvalue, hview⟩
  | getBy t key =>
    cases h
    obtain ⟨ht, hview, -⟩ := getBy_refines hc key
    exact ⟨ht, fun a ha => (by cases ha), hview⟩
  | getCloneBy t key =>
    cases h
    obtain ⟨ht, hview, -⟩ := getBy_refines hc key
    exact ⟨ht, fun a ha => (by cases ha), hview⟩
  | contains key =>
    cases h
    refine ⟨hc, fun a ha => ?_, rfl⟩
    cases ha
    simp [contains, containsEntry, Shard.containsHash, view]
  | containsBy t key =>
    cases h
    exact ⟨hc, fun a ha => (by cases ha), rfl⟩
  | remove key =>
    obtain ⟨⟨v, hooks⟩, d', hrem, hret⟩ := Outcome.bind_eq_ok.mp h
    cases hret
    rcases remove_cases hc hrem with ⟨rfl, rfl, rfl, hnone⟩ | ⟨k₀, e, hv, rfl, hr, ht, hview⟩
    · refine ⟨hc, fun a ha => ?_, ?_⟩
      · cases ha
        rw [hnone]
        rfl
      · exact view_delete_of_none hnone
    · refine ⟨ht, fun a ha => ?_, hr.view_eq⟩
      cases ha
      rw [hview]
      exact congrArg _ hv
  | clear =>
    cases h
    refine ⟨typed_clear c, fun a ha => ?_, view_clear c⟩
    cases ha
    rfl

/-! ## A run -/

/-- Without overflow checks every call returns. -/
theorem step_unchecked (c : Cache (ErasedKey H) (Any T.Val) w n) (op : CacheOp H) :
    ∃ r d, step false c op = .ok r d := by
  cases op with
  | insert key value =>
    obtain ⟨r, d, h⟩ := insertEntry_unchecked c (ErasedKey.new key)
      (Entry.new (Any.mk _ value) (T.deepSizeOf value) (T.policy key.get.value))
    simp only [step, insert, h, Outcome.bind_ok]
    exact ⟨_, _, rfl⟩
  | remove key =>
    obtain ⟨r, d, h⟩ := removeEntry_unchecked c (ErasedKey.new key)
    simp only [step, remove, h, Outcome.bind_ok]
    exact ⟨_, _, rfl⟩
  | _ => exact ⟨_, _, rfl⟩

theorem run_unchecked (c : Cache (ErasedKey H) (Any T.Val) w n) (ops : List (CacheOp H)) :
    ∃ rs d, Outcome.run (step false) c ops = .ok rs d := by
  induction ops generalizing c with
  | nil => exact ⟨[], c, rfl⟩
  | cons op ops ih =>
    obtain ⟨r, c', hstep⟩ := step_unchecked c op
    obtain ⟨rs, d, hrest⟩ := ih c'
    exact ⟨r :: rs, d, Outcome.run_cons_eq_ok.mpr ⟨r, c', rs, hstep, hrest, rfl⟩⟩

theorem run_refines {ops : List (CacheOp H)} {rs : List (CacheReply T)} (hc : c.Typed)
    (h : Outcome.run (step checks) c ops = .ok rs d) :
    d.Typed ∧ TypedMap.Replays c.view (ops.zip rs) d.view := by
  induction ops generalizing c rs with
  | nil =>
    cases h
    exact ⟨hc, rfl⟩
  | cons op ops ih =>
    obtain ⟨r, c', rs', hstep, hrun, rfl⟩ := Outcome.run_cons_eq_ok.mp h
    obtain ⟨ht, hanswer, hview⟩ := step_refines hc hstep
    obtain ⟨hd, hreplays⟩ := ih ht hrun
    refine ⟨hd, hanswer, ?_⟩
    rwa [← hview]

theorem view_new (maxSizeBytes : BitVec w) :
    (withShardsAndLifecycleInternal maxSizeBytes n : Cache (ErasedKey H) (Any T.Val) w n).view =
      fun _ => none := by
  funext key
  simp [view, withShardsAndLifecycleInternal, Shard.new, HashMap.fromHash, HashMap.empty]

/-- The inserted key is not among the keys its insertion evicts, and it is present after it. -/
theorem insert_keeps_key {key : Arc H} {value : T.Val (T.Value key.get.typeId)}
    {r : CacheReply T} (hc : c.Typed) (h : step checks c (.insert key value) = .ok r d) :
    (∀ k ∈ r.evicted, key.get.keyEq k = false) ∧ d.view key.get = some ⟨_, value⟩ := by
  obtain ⟨-, -, hview⟩ := step_refines hc h
  obtain ⟨⟨old, hooks⟩, d', hins, hret⟩ := Outcome.bind_eq_ok.mp h
  cases hret
  obtain ⟨vs, hi, -, -, rfl⟩ := insert_cases hc hins
  constructor
  · intro k hk
    simp only [CacheReply.evicted, List.filterMap_map, List.mem_filterMap, Function.comp_apply,
      Option.some.injEq] at hk
    obtain ⟨v, hv, rfl⟩ := hk
    rw [← (hi.victim hc.routed hv).2, ErasedKey.beq_eq]
    rfl
  · rw [hview]
    simp [TypedMap.after, TypedMap.set, Any.keyEq_refl]

/-- A call that finds nothing, other than an insertion, changes no shard. -/
theorem miss_keeps_shards {op : CacheOp H} {r : CacheReply T} (hc : c.Typed)
    (hop : ∀ key value, op ≠ .insert key value) (h : step checks c op = .ok r d)
    (hmiss : r.result = .value none ∨ r.result = .present false) : d.shards = c.shards := by
  have hvalue : ∀ {v : T.ValueId} {x : Option (T.Val v)},
      (CacheResult.value (x.map (Any.mk v)) = .value none ∨
        CacheResult.value (x.map (Any.mk v)) = .present false) → x = none := fun hx => by
    simpa using hx
  cases op with
  | insert key value => exact absurd rfl (hop key value)
  | get key => cases h; exact (get_refines hc key).2.2.2 (hvalue hmiss)
  | getClone key => cases h; exact (get_refines hc key).2.2.2 (hvalue hmiss)
  | getBy t key => cases h; exact (getBy_refines hc key).2.2 (hvalue hmiss)
  | getCloneBy t key => cases h; exact (getBy_refines hc key).2.2 (hvalue hmiss)
  | contains key => cases h; rfl
  | containsBy t key => cases h; rfl
  | remove key =>
    obtain ⟨⟨v, hooks⟩, d', hrem, hret⟩ := Outcome.bind_eq_ok.mp h
    cases hret
    rcases remove_cases hc hrem with ⟨-, -, rfl, -⟩ | ⟨k₀, e, hv, -⟩
    · rfl
    · rw [hvalue hmiss] at hv
      cases hv
  | clear => cases h; simp at hmiss

/-- Every run of calls refines the plain map: without overflow checks it returns, and where
it returns its results are those of the plain map told the evictions. From there an
insertion stores its key without evicting it, and a call that misses changes no entry. -/
theorem cache_refines_map (maxSizeBytes : BitVec w) (ops : List (CacheOp H)) :
    (∃ rs c, Outcome.run (step false)
      (withShardsAndLifecycleInternal maxSizeBytes n : Cache (ErasedKey H) (Any T.Val) w n) ops =
        .ok rs c) ∧
    ∀ checks rs c, Outcome.run (step checks)
      (withShardsAndLifecycleInternal maxSizeBytes n : Cache (ErasedKey H) (Any T.Val) w n) ops =
        .ok rs c →
      TypedMap.Replays (fun _ => none) (ops.zip rs) c.view ∧
      ∀ op r d, step checks c op = .ok r d →
        (∀ key value, op = .insert key value →
          (∀ k ∈ r.evicted, key.get.keyEq k = false) ∧ d.view key.get = some ⟨_, value⟩) ∧
        ((∀ key value, op ≠ .insert key value) →
          r.result = .value none ∨ r.result = .present false → d.shards = c.shards) := by
  constructor
  · exact run_unchecked _ ops
  · intro checks rs c h
    obtain ⟨hc, hreplays⟩ := run_refines (typed_new maxSizeBytes) h
    rw [view_new] at hreplays
    refine ⟨hreplays, fun op r d hstep => ⟨?_, fun hop => miss_keeps_shards hc hop hstep⟩⟩
    rintro key value rfl
    exact insert_keeps_key hc hstep

/-- Two key types with numbers as keys, whose hashes all collide. -/
def colliding : Types 64 where
  KeyId := Bool
  ValueId := Bool
  decKey := inferInstance
  decValue := inferInstance
  Key := fun _ => Nat
  Val := fun _ => Nat
  Value := fun t => !t
  policy := fun key => if key % 2 = 0 then .standard else .volatile
  eq := fun a b => a == b
  deepSizeOf := fun v => BitVec.ofNat 64 v
  Hasher := Unit
  hasher := ()
  hashTypeId := fun _ _ => ()
  hashKey := fun _ _ => ()
  finish := fun _ => 0
  eq_refl := by simp
  eq_symm := by simp +contextual
  eq_trans := by simp +contextual
  hash_eq := fun _ => rfl

/-- Allocations for the keys of both types in turn. -/
def alternating : Heap colliding := fun addr => ⟨addr % 2 == 1, addr / 2⟩

/-- Equal numbers under both key types, a lookup in between, a removal and an eviction. -/
def twoTypes : List (CacheOp alternating) :=
  [.insert ⟨0⟩ (100 : Nat), .insert ⟨1⟩ (200 : Nat), .get ⟨false, (0 : Nat)⟩, .remove ⟨0⟩,
    .insert ⟨2⟩ (300 : Nat), .contains ⟨true, (0 : Nat)⟩]

theorem cache_refines_map_twoTypes :
    ∃ rs, ∃ c : Cache (ErasedKey alternating) (Any colliding.Val) 64 2,
      Outcome.run (step false) (withShardsAndLifecycleInternal 900 2) twoTypes = .ok rs c ∧
      TypedMap.Replays (fun _ => none) (twoTypes.zip rs) c.view := by
  obtain ⟨⟨rs, c, h⟩, hruns⟩ := cache_refines_map (n := 2) (900 : BitVec 64) twoTypes
  exact ⟨rs, c, h, (hruns false rs c h).1⟩

end Cache

end PriorityLfu
