import PriorityLfu.Cache.Ledger

/-!
# Lifecycles

The owner of a cache learns which keys left through the hooks of its lifecycle, which may change
a state of their own. `TypedLifecycle` tells its callback the keys of one type, whichever way
they left, and no others. An index that adds the keys of its insertions and deletes what the
callback is told holds exactly the keys of its type that the cache holds.
-/
namespace PriorityLfu
open Keyed

/-! ## Implementations of the hooks -/

/-- What each hook does with its key. -/
structure Lifecycle (κ σ : Type) where
  onEvict : κ → σ → σ
  onRemove : κ → σ → σ := onEvict
  onClear : κ → σ → σ := onEvict

section lifecycles

variable {κ σ : Type} {w : Nat} {T : Types w}

/-- `DefaultLifecycle`. -/
def defaultLifecycle : Lifecycle κ σ where
  onEvict _ s := s
  onRemove _ s := s
  onClear _ s := s

/-- The implementation for `Arc<L>`. -/
def arcLifecycle (l : Lifecycle κ σ) : Lifecycle κ σ where
  onEvict := l.onEvict
  onRemove := l.onRemove
  onClear := l.onClear

/-- `TypedLifecycle`, for the keys of type `t`. -/
def typedLifecycle (t : T.KeyId) (callback : T.Key t → σ → σ) : Lifecycle (Any T.Key) σ where
  onEvict key s :=
    match key.downcast t with
    | some key => callback key s
    | none => s

namespace Lifecycle

def notify (l : Lifecycle κ σ) : Hook κ → σ → σ
  | .onEvict key => l.onEvict key
  | .onRemove key => l.onRemove key
  | .onClear key => l.onClear key

/-- Call some hooks, one after the other. -/
def notifyAll (l : Lifecycle κ σ) (hooks : List (Hook κ)) (s : σ) : σ :=
  hooks.foldl (fun s h => l.notify h s) s

end Lifecycle

theorem notify_default (h : Hook κ) : (defaultLifecycle : Lifecycle κ σ).notify h = id := by
  cases h <;> rfl

/-- Nothing of `L` is lost behind an `Arc`, hooks that it overrides included. -/
theorem notify_arc (l : Lifecycle κ σ) : (arcLifecycle l).notify = l.notify := by
  funext h
  cases h <;> rfl

/-- The callback is told the keys of its type, in the order they left and whichever way. -/
theorem notifyAll_typed (t : T.KeyId) (callback : T.Key t → σ → σ)
    (hooks : List (Hook (Any T.Key))) (s : σ) :
    (typedLifecycle t callback).notifyAll hooks s =
      (hooks.filterMap fun h => h.key.downcast t).foldl (fun s key => callback key s) s := by
  induction hooks generalizing s with
  | nil => rfl
  | cons h hooks ih =>
    have hnotify : (typedLifecycle t callback).notify h s =
        match h.key.downcast t with
        | some key => callback key s
        | none => s := by
      cases h <;> rfl
    rw [Lifecycle.notifyAll, List.foldl_cons, hnotify, List.filterMap_cons]
    cases h.key.downcast t with
    | none => exact ih s
    | some key => exact ih (callback key s)

end lifecycles

/-! ## An index beside the cache -/

variable {w n : Nat} {T : Types w} {H : Heap T} {t : T.KeyId}

/-- The keys of one type that an index holds, up to equality. -/
abbrev KeyIndex (T : Types w) (t : T.KeyId) : Type := T.Key t → Bool

namespace KeyIndex

def add (key : T.Key t) (index : KeyIndex T t) : KeyIndex T t := fun k => T.eq key k || index k

def delete (key : T.Key t) (index : KeyIndex T t) : KeyIndex T t := fun k => !T.eq key k && index k

theorem foldl_delete (keys : List (T.Key t)) (index : KeyIndex T t) (k : T.Key t) :
    keys.foldl (fun index key => index.delete key) index k =
      (index k && !keys.any fun key => T.eq key k) := by
  induction keys generalizing index with
  | nil => simp
  | cons key keys ih =>
    rw [List.foldl_cons, ih, delete, List.any_cons]
    cases T.eq key k <;> simp

end KeyIndex

theorem Any.keyEq_mk (a : Any T.Key) (k : T.Key t) :
    a.keyEq ⟨t, k⟩ = ((a.downcast t).map fun x => T.eq x k).getD false := by
  rw [Any.keyEq]
  cases a.downcast t <;> rfl

namespace Cache

variable [NeZero n] {checks : Bool}

/-- A call of a cache with a lifecycle, which is notified before the call returns. -/
def serve {σ : Type} (l : Lifecycle (Any T.Key) σ) (checks : Bool)
    (s : Cache (ErasedKey H) (Any T.Val) w n × σ) (op : CacheOp H) :
    Outcome (Cache (ErasedKey H) (Any T.Val) w n × σ) (CacheReply T) :=
  match step checks s.1 op with
  | .ok r c => .ok r (c, l.notifyAll r.hooks s.2)
  | .panic c => .panic (c, s.2)

/-- What the owner of an index does when a call returned. -/
def record (op : CacheOp H) (index : KeyIndex T t) : KeyIndex T t :=
  match op with
  | .insert key _ => ((key.get.downcast t).map fun k => index.add k).getD index
  | _ => index

/-- A call of a cache with an index of the keys of type `t`. -/
def indexed (t : T.KeyId) (checks : Bool)
    (s : Cache (ErasedKey H) (Any T.Val) w n × KeyIndex T t) (op : CacheOp H) :
    Outcome (Cache (ErasedKey H) (Any T.Val) w n × KeyIndex T t) (CacheReply T) :=
  (serve (typedLifecycle t KeyIndex.delete) checks s op).bind fun r (c, index) =>
  .ok r (c, record op index)

variable {c d : Cache (ErasedKey H) (Any T.Val) w n}

theorem indexed_eq_ok {op : CacheOp H} {r : CacheReply T} {index : KeyIndex T t}
    {s : Cache (ErasedKey H) (Any T.Val) w n × KeyIndex T t} :
    indexed t checks (c, index) op = .ok r s ↔ step checks c op = .ok r s.1 ∧
      s.2 = record op ((typedLifecycle t KeyIndex.delete).notifyAll r.hooks index) := by
  obtain ⟨d, index'⟩ := s
  rw [indexed, serve]
  cases h : step checks c op with
  | panic c' => simp [Outcome.bind]
  | ok r' c' =>
    simp only [Outcome.bind, Outcome.ok.injEq, Prod.mk.injEq]
    constructor
    · rintro ⟨rfl, rfl, rfl⟩
      exact ⟨⟨rfl, rfl⟩, rfl⟩
    · rintro ⟨⟨rfl, rfl⟩, rfl⟩
      exact ⟨rfl, rfl, rfl⟩

/-- A call of the cache leaves the index behind it exact. -/
theorem step_index {op : CacheOp H} {r : CacheReply T} {index : KeyIndex T t} (hc : c.Typed)
    (hindex : ∀ k, index k = (c.view ⟨t, k⟩).isSome) (h : step checks c op = .ok r d)
    (k : T.Key t) :
    record op ((typedLifecycle t KeyIndex.delete).notifyAll r.hooks index) k =
      (d.view ⟨t, k⟩).isSome := by
  obtain ⟨-, hanswer, hview⟩ := step_refines hc h
  have hnotified := step_notified hc h
  -- the index loses the keys of its type for which a hook was called
  have hdeleted : (typedLifecycle t KeyIndex.delete).notifyAll r.hooks index k =
      ((c.view ⟨t, k⟩).isSome && !r.hooks.any fun h => h.key.keyEq ⟨t, k⟩) := by
    rw [notifyAll_typed, KeyIndex.foldl_delete, hindex, List.any_filterMap]
    congr 3
    funext h
    rw [Any.keyEq_mk]
    cases h.key.downcast t <;> rfl
  cases op with
  | insert key value =>
    obtain ⟨keys, hhooks, -⟩ := hnotified
    have hevicted : r.evicted = keys := by simp [CacheReply.evicted, hhooks, List.filterMap_map]
    have hany : (r.hooks.any fun h => h.key.keyEq ⟨t, k⟩) = keys.any (·.keyEq ⟨t, k⟩) := by
      simp [hhooks, List.any_map, Function.comp_def, Hook.key]
    have hrecord : record (.insert key value)
        ((typedLifecycle t KeyIndex.delete).notifyAll r.hooks index) k =
          (key.get.keyEq ⟨t, k⟩ ||
            (typedLifecycle t KeyIndex.delete).notifyAll r.hooks index k) := by
      rw [record, Any.keyEq_mk]
      cases key.get.downcast t <;> simp [KeyIndex.add]
    rw [hrecord, hdeleted, hany, hview, hevicted, TypedMap.after, TypedMap.set, TypedMap.delete]
    cases key.get.keyEq ⟨t, k⟩ <;> cases keys.any (·.keyEq ⟨t, k⟩) <;> simp
  | remove key =>
    show (typedLifecycle t KeyIndex.delete).notifyAll r.hooks index k = _
    rw [hdeleted]
    rcases hnotified with ⟨hresult, hhooks⟩ | ⟨v, k₀, -, hhooks, hk₀⟩
    · have hnone : c.view key.get = none := by
        have := hanswer _ rfl
        rw [hresult] at this
        simpa using this.symm
      rw [hhooks, hview, TypedMap.after, ← view_delete_of_none hnone]
      simp
    · have hsame : k₀.keyEq ⟨t, k⟩ = key.get.keyEq ⟨t, k⟩ := by
        rw [Any.keyEq_comm, ← Any.keyEq_congr_right hk₀, Any.keyEq_comm]
      rw [hhooks, hview, TypedMap.after, TypedMap.delete]
      simp only [List.any_cons, List.any_nil, Bool.or_false, Hook.key, hsame]
      cases key.get.keyEq ⟨t, k⟩ <;> simp
  | clear =>
    show (typedLifecycle t KeyIndex.delete).notifyAll r.hooks index k = _
    obtain ⟨keys, hhooks, hcount⟩ := hnotified
    have hany : (r.hooks.any fun h => h.key.keyEq ⟨t, k⟩) = keys.any (·.keyEq ⟨t, k⟩) := by
      simp [hhooks, List.any_map, Function.comp_def, Hook.key]
    rw [hdeleted, hany, hview, TypedMap.after]
    cases hk : (c.view ⟨t, k⟩).isSome with
    | false => rfl
    | true =>
      have hpos : 0 < keys.countP (·.keyEq ⟨t, k⟩) := by
        rw [hcount, presence, hk]
        exact Nat.one_pos
      obtain ⟨a, ha, hak⟩ := List.countP_pos_iff.mp hpos
      have : keys.any (·.keyEq ⟨t, k⟩) = true := List.any_eq_true.mpr ⟨a, ha, hak⟩
      simp [this]
  | _ =>
    show (typedLifecycle t KeyIndex.delete).notifyAll r.hooks index k = _
    have hhooks : r.hooks = [] := hnotified
    rw [hdeleted, hhooks, hview]
    simp [TypedMap.after]

/-- An index of the keys of one type, beside a cache of keys of any types, is exact after every
run of calls: it holds a key of its type if and only if the cache does. To keep it changes nothing
in what the cache does. -/
theorem index_exact (checks : Bool) (maxSizeBytes : BitVec w) (t : T.KeyId)
    (ops : List (CacheOp H)) {rs : List (CacheReply T)}
    {c : Cache (ErasedKey H) (Any T.Val) w n} {index : KeyIndex T t}
    (h : Outcome.run (indexed t checks)
      (withShardsAndLifecycleInternal maxSizeBytes n, fun _ => false) ops = .ok rs (c, index)) :
    (∀ k, index k = (c.view ⟨t, k⟩).isSome) ∧
      Outcome.run (step checks) (withShardsAndLifecycleInternal maxSizeBytes n) ops = .ok rs c := by
  have hmatch : ∃ d, Outcome.run (step checks) (withShardsAndLifecycleInternal maxSizeBytes n) ops =
      .ok rs d ∧ c = d ∧ d.Typed ∧ ∀ k, index k = (d.view ⟨t, k⟩).isSome := by
    refine Outcome.run_simulates (R := fun (s : _ × KeyIndex T t) d =>
      s.1 = d ∧ d.Typed ∧ ∀ k, s.2 k = (d.view ⟨t, k⟩).isSome) (fun s d op r s' hR hstep => ?_)
      ⟨rfl, typed_new maxSizeBytes, fun k => by rw [view_new]; rfl⟩ h
    obtain ⟨rfl, hc, hindex⟩ := hR
    obtain ⟨hcall, hrecord⟩ := indexed_eq_ok.mp hstep
    refine ⟨s'.1, hcall, rfl, (step_refines hc hcall).1, fun k => ?_⟩
    rw [hrecord]
    exact step_index hc hindex hcall k
  obtain ⟨d, hrun, rfl, -, hindex⟩ := hmatch
  exact ⟨hindex, hrun⟩

/-- Every run of the cache can be indexed. -/
theorem run_indexed (t : T.KeyId) {ops : List (CacheOp H)} {rs : List (CacheReply T)}
    (h : Outcome.run (step checks) c ops = .ok rs d) (index : KeyIndex T t) :
    ∃ index', Outcome.run (indexed t checks) (c, index) ops = .ok rs (d, index') := by
  have hmatch : ∃ s, Outcome.run (indexed t checks) (c, index) ops = .ok rs s ∧ d = s.1 := by
    refine Outcome.run_simulates (R := fun d (s : _ × KeyIndex T t) => d = s.1)
      (fun c s op r d hR hstep => ?_) rfl h
    obtain ⟨c', index⟩ := s
    obtain rfl : c = c' := hR
    exact ⟨(d, _), indexed_eq_ok.mpr ⟨hstep, rfl⟩, rfl⟩
  obtain ⟨⟨d', index'⟩, hrun, rfl⟩ := hmatch
  exact ⟨index', hrun⟩

theorem index_exact_twoTypes :
    ∃ rs, ∃ c : Cache (ErasedKey alternating) (Any colliding.Val) 64 2,
      ∃ index : KeyIndex colliding true,
        Outcome.run (indexed true false) (withShardsAndLifecycleInternal 900 2, fun _ => false)
          twoTypes = .ok rs (c, index) ∧ ∀ k, index k = (c.view ⟨true, k⟩).isSome := by
  obtain ⟨rs, c, h⟩ := run_unchecked (withShardsAndLifecycleInternal (900 : BitVec 64) 2) twoTypes
  obtain ⟨index, hrun⟩ := run_indexed (t := (true : colliding.KeyId)) h fun _ => false
  exact ⟨rs, c, index, hrun, (index_exact false 900 _ twoTypes hrun).1⟩

end Cache

end PriorityLfu
