import PriorityLfu.Cache.Refinement

/-!
# The ledger of lifecycle hooks

An entry comes in by an insertion that found its key absent and leaves by exactly one hook:
`on_evict` from an insertion, `on_remove` from a removal, `on_clear` from `clear`. So for
every key the insertions that found it absent are the hooks called for it, and one more if
it is present.
-/
namespace PriorityLfu
open Keyed

variable {w n : Nat} {T : Types w} {H : Heap T}

/-! ## The ledger -/

/-- The call returned no value. -/
def CacheResult.isAbsent : CacheResult T → Bool
  | .value none => true
  | _ => false

/-- A call that put `k` in: an insertion of `k` that found it absent. -/
def opens (k : Any T.Key) : CacheOp H × CacheReply T → Bool
  | (.insert key _, r) => key.get.keyEq k && r.result.isAbsent
  | _ => false

namespace Cache

variable [NeZero n] {c d : Cache (ErasedKey H) (Any T.Val) w n} {checks : Bool}

/-- Whether `k` is present, as a number. -/
def presence (c : Cache (ErasedKey H) (Any T.Val) w n) (k : Any T.Key) : Nat :=
  (c.view k).isSome.toNat

/-- The hooks a call owes: an insertion calls `on_evict` once for every key that was there
and is not any more, a removal `on_remove` if it returns a value, `clear` calls `on_clear`
once for every key present; no call calls another hook. -/
def Notified (c d : Cache (ErasedKey H) (Any T.Val) w n) (r : CacheReply T) : CacheOp H → Prop
  | .insert _ _ => ∃ keys : List (Any T.Key), r.hooks = keys.map .onEvict ∧
      ∀ k, keys.countP (·.keyEq k) = ((c.view k).isSome && (d.view k).isNone).toNat
  | .remove key => (r.result = .value none ∧ r.hooks = []) ∨
      ∃ v k, r.result = .value (some v) ∧ r.hooks = [.onRemove k] ∧ key.get.keyEq k = true
  | .clear => ∃ keys : List (Any T.Key), r.hooks = keys.map .onClear ∧
      ∀ k, keys.countP (·.keyEq k) = c.presence k
  | _ => r.hooks = []

/-! ## The hooks of one call -/

/-- The victims of an insertion have distinct keys, so at most one of them is `k`. -/
theorem Inserts.countP_victims {key : ErasedKey H} {entry : Entry (Any T.Val) w}
    {vs : List (Eviction (ErasedKey H) (Any T.Val) w)} (h : Inserts checks key entry c vs d)
    (hc : c.Routed) (a : ErasedKey H) :
    vs.countP (fun v => v.victim.key == a) =
      ((c.contentAt a).isSome && (d.contentAt a).isNone).toNat := by
  let keys : IndexSet (ErasedKey H) :=
    ⟨vs.map (·.victim.key), List.pairwise_map.mpr (h.distinct hc)⟩
  have hcount : vs.countP (fun v => v.victim.key == a) = keys.keys.countP (a == ·) := by
    simp only [keys, List.countP_map, Function.comp_def]
    exact List.countP_congr fun v _ => by rw [BEq.comm]
  have hany : (vs.any fun v => v.victim.key == a) = keys.contains a := by
    simp only [keys, IndexSet.contains, List.any_map, Function.comp_def]
    congr 1
    funext v
    exact BEq.comm
  rw [hcount, h.contentAt_eq hc, hany]
  cases hin : keys.contains a with
  | true =>
    -- the victim with that key was present and is not the inserted entry
    rw [IndexSet.countP_eq_one hin]
    obtain ⟨v, hv, hva⟩ := List.any_eq_true.mp (hany.trans hin)
    obtain ⟨hcontent, hne⟩ := h.victim hc hv
    have hkey : (key == a) = false := by rw [← BEq.congr_right hva]; exact hne
    have hsome : c.contentAt a = some v.victim.entry.content := by
      rw [contentAt, ← hash_eq hva, ← Shard.contentOf_congr hva]
      exact hcontent
    simp [hkey, hsome]
  | false =>
    rw [List.countP_eq_zero.mpr fun b hb => by
      simpa using IndexSet.not_contains_iff.mp hin b hb]
    by_cases hkey : (key == a) = true
    · simp [hkey]
    · cases hcontent : c.contentAt a <;> simp [hkey]

/-- To count keys equal to `k` it is enough to count those equal to an erased one. -/
theorem countP_keys_eq {m : Any T.Key → Nat} {keys : List (ErasedKey H)}
    (hm : ∀ k, (∀ a : ErasedKey H, k.keyEq a.data.get = false) → m k = 0)
    (h : ∀ k (a : ErasedKey H), k.keyEq a.data.get = true → keys.countP (· == a) = m k)
    (k : Any T.Key) : (keys.map fun a => a.data.get).countP (·.keyEq k) = m k := by
  rw [List.countP_map]
  by_cases ha : ∃ a : ErasedKey H, k.keyEq a.data.get = true
  · obtain ⟨a, ha⟩ := ha
    rw [← h k a ha]
    refine List.countP_congr fun b _ => ?_
    rw [Function.comp_apply, Any.keyEq_congr_right ha, ErasedKey.beq_eq]
  · have hnone : ∀ a : ErasedKey H, k.keyEq a.data.get = false :=
      fun a => by simpa using fun h => ha ⟨a, h⟩
    rw [hm k hnone, List.countP_eq_zero]
    intro b _
    rw [Function.comp_apply, Any.keyEq_comm, hnone b]
    exact Bool.false_ne_true

/-- Every call calls the hooks it owes. -/
theorem step_notified {op : CacheOp H} {r : CacheReply T} (hc : c.Typed)
    (h : step checks c op = .ok r d) : Notified c d r op := by
  cases op with
  | insert key value =>
    obtain ⟨⟨old, hooks⟩, d', hins, hret⟩ := Outcome.bind_eq_ok.mp h
    cases hret
    obtain ⟨vs, hi, -, -, rfl⟩ := insert_cases hc hins
    refine ⟨(vs.map fun v => v.victim.key).map fun a => a.data.get, by simp, ?_⟩
    refine countP_keys_eq (fun k hk => ?_) fun k a ha => ?_
    · rw [view_eq_none hk]
      rfl
    · rw [Cache.view_eq ha, Cache.view_eq ha, List.countP_map]
      simpa [Function.comp_def] using hi.countP_victims hc.routed a
  | remove key =>
    obtain ⟨⟨v, hooks⟩, d', hrem, hret⟩ := Outcome.bind_eq_ok.mp h
    cases hret
    rcases remove_cases hc hrem with ⟨rfl, rfl, -, -⟩ | ⟨k₀, e, hv, rfl, hr, -, -⟩
    · exact .inl ⟨rfl, rfl⟩
    · refine .inr ⟨e.value, k₀.data.get, by rw [hv], rfl, ?_⟩
      exact (ErasedKey.beq_eq (ErasedKey.new key) k₀).symm.trans hr.key_eq
  | clear =>
    cases h
    refine ⟨(c.clear.1.map Hook.key).map fun a => a.data.get, ?_, ?_⟩
    · simp [clear, Hook.map, Hook.key]
    · refine countP_keys_eq (fun k hk => ?_) fun k a ha => ?_
      · rw [presence, view_eq_none hk]
        rfl
      · rw [presence, Cache.view_eq ha, Option.isSome_map, ← countP_hooks_clear hc.routed,
          List.countP_map]
        exact List.countP_congr fun h _ => by rw [Function.comp_apply, BEq.comm]
  | _ => cases h; rfl

/-! ## The balance -/

end Cache

end PriorityLfu
