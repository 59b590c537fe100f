import PriorityLfu.Shard.Run

/-!
# The key objects

A key is stored twice, in the table and in its bucket. Equal keys may be different objects,
and the two copies follow different rules: a replacement keeps the key of the table, while
the bucket drops its key and takes the new one. `view` is what an observer sees of a key
object, for instance a lifecycle hook that is handed it; with `id` it tells all objects apart.
-/
namespace PriorityLfu
open Keyed

variable {κ ν α : Type} {w : Nat} [BEq κ]

namespace Shard

/-- The key objects of the table. -/
def storedKeys (s : Shard κ ν w) : List κ := s.entries.toList.map Prod.fst

/-- A stored key and its copy in a bucket look the same. -/
def SameObjects (view : κ → α) (s : Shard κ ν w) : Prop :=
  ∀ k ∈ s.storedKeys, ∀ p, ∀ a ∈ (s.buckets p).list.keys, (k == a) = true → view a = view k

/-- `t` has no key object that `s` does not have at the same place. -/
structure NoNewKeys (s t : Shard κ ν w) : Prop where
  table : t.storedKeys ⊆ s.storedKeys
  buckets : ∀ p, (t.buckets p).list.keys ⊆ (s.buckets p).list.keys

theorem NoNewKeys.refl (s : Shard κ ν w) : s.NoNewKeys s :=
  ⟨List.Subset.refl _, fun _ => List.Subset.refl _⟩

theorem NoNewKeys.trans {s t u : Shard κ ν w} (h : s.NoNewKeys t) (h' : t.NoNewKeys u) :
    s.NoNewKeys u :=
  ⟨List.Subset.trans h'.table h.table, fun p => List.Subset.trans (h'.buckets p) (h.buckets p)⟩

theorem SameObjects.of_noNewKeys {view : κ → α} {s t : Shard κ ν w} (hs : s.SameObjects view)
    (h : s.NoNewKeys t) : t.SameObjects view :=
  fun k hk p a ha => hs k (h.table hk) p a (h.buckets p ha)

theorem keys_modify (m : HashMap κ (Entry ν w)) (key : κ) (f : Entry ν w → Entry ν w) :
    (m.modify key f).toList.map Prod.fst = m.toList.map Prod.fst := by
  simp only [HashMap.modify, List.map_map]
  refine List.map_congr_left fun kv _ => ?_
  simp only [Function.comp]
  split <;> rfl

theorem keys_aged (m : HashMap κ (Entry ν w)) (ks : List κ) :
    (aged m ks).toList.map Prod.fst = m.toList.map Prod.fst := by
  induction ks generalizing m with
  | nil => rfl
  | cons k ks ih => rw [aged_cons, ih, keys_modify]

theorem keys_erase_subset (m : HashMap κ (Entry ν w)) (key : κ) :
    (m.erase key).toList.map Prod.fst ⊆ m.toList.map Prod.fst :=
  List.map_subset _ List.eraseP_subset

variable [EquivBEq κ]

theorem keys_remove_subset (b : PolicyBucket κ) (key : κ) :
    (b.remove key).2.list.keys ⊆ b.list.keys := by
  cases h : b.list.contains key with
  | false => rw [PolicyBucket.remove_of_not_contains h]; exact List.Subset.refl _
  | true =>
    obtain ⟨i, k₀, l, hl⟩ := PolicyBucket.exists_swapRemoveFull h
    rw [PolicyBucket.remove_of_swapRemoveFull hl]
    exact fun a ha => (IndexSet.perm_swapRemoveFull hl).symm.subset (List.mem_cons_of_mem _ ha)

/-- Taking a key out of a bucket. -/
theorem update_remove_subset (s : Shard κ ν w) (b : PolicyBucket κ) (p q : CachePolicy) (key : κ)
    (hb : b.list = (s.buckets p).list) :
    (Function.update s.buckets p (b.remove key).2 q).list.keys ⊆ (s.buckets q).list.keys := by
  by_cases hq : q = p
  · subst hq
    rw [Function.update_self, ← hb]
    exact keys_remove_subset b key
  · rw [Function.update_of_ne hq]
    exact List.Subset.refl _

variable [Hashable κ]

/-- The key handed out for an entry looks the same whether the entry is evicted, removed or
cleared. -/
def SameExits (view : κ → α) (s : Shard κ ν w) : Prop :=
  ∀ checks p v t, s.evictFromBucket checks p = .ok (some v) t →
    (∀ key k e u, s.remove checks key = .ok (some (k, e)) u → (k == v.key) = true →
      view k = view v.key) ∧
    ∀ e ∈ s.drain.1.1, (e.key == v.key) = true → view e.key = view v.key

/-- An insertion under a key that is present passes a key that looks like the stored one. -/
def PassesStored (view : κ → α) (s : Shard κ ν w) : ShardOp κ ν w → Prop
  | .insert key _ => ∀ k ∈ s.storedKeys, (k == key) = true → view key = view k
  | _ => True

variable {checks : Bool} {s t d u : Shard κ ν w} {view : κ → α} {p : CachePolicy}
  {v : EvictedEntry κ ν w} {out : κ → Bool} {needed : BitVec w} {vs : List (Eviction κ ν w)}
  {key : κ} {entry : Entry ν w}

/-! ## What one step does to the key objects -/

theorem Evicts.noNewKeys (h : s.Evicts p v t) : s.NoNewKeys t where
  table := by
    rw [storedKeys, h.entries]
    refine List.Subset.trans (keys_erase_subset _ _) ?_
    rw [keys_aged]
    exact List.Subset.refl _
  buckets q := by
    rw [h.buckets]
    exact update_remove_subset s _ p q v.key rfl

theorem detach_noNewKeys (h : s.detach checks key = .ok () d) : s.NoNewKeys d := by
  unfold detach at h
  split at h
  · cases h
    exact .refl s
  · obtain ⟨-, hd⟩ := release_eq_ok.mp h
    rw [hd]
    exact ⟨List.Subset.refl _, fun q => update_remove_subset s _ _ q key rfl⟩

omit [EquivBEq κ] in
theorem getHash_noNewKeys (s : Shard κ ν w) (hash : UInt64) (equals : κ → Bool) :
    s.NoNewKeys (s.getHash hash equals).2 := by
  unfold getHash
  split
  · exact .refl s
  · refine ⟨?_, fun _ => List.Subset.refl _⟩
    rw [storedKeys, keys_modify]
    exact List.Subset.refl _

omit [Hashable κ] [EquivBEq κ] in
theorem noNewKeys_clear (s : Shard κ ν w) : s.NoNewKeys s.clear :=
  ⟨List.nil_subset _, fun _ => List.nil_subset _⟩

variable [LawfulHashable κ]

theorem Evictions.noNewKeys (h : Evictions checks needed s vs t) (hl : s.Linked out) :
    s.NoNewKeys t := by
  induction h with
  | nil => exact .refl _
  | cons _ _ call _ ih =>
    obtain ⟨he, -⟩ := evicts_of_call hl call
    exact he.noNewKeys.trans (ih (he.linked hl))

theorem remove_noNewKeys {r : Option (κ × Entry ν w)} (h : s.remove checks key = .ok r t) :
    s.NoNewKeys t := by
  rcases remove_cases h with ⟨-, rfl, -⟩ | ⟨k₀, e, -, -, -, he, hb, -, -⟩
  · exact .refl _
  · refine ⟨?_, fun q => ?_⟩
    · rw [storedKeys, he]
      exact keys_erase_subset _ _
    · rw [hb]
      exact update_remove_subset s _ _ q k₀ rfl

/-- The table keeps a key object that is there and takes the given one otherwise. -/
theorem mem_storedKeys_put (hu : u.entries = (t.entries.put key entry).2) {k : κ} :
    k ∈ u.storedKeys ↔ k ∈ t.storedKeys ∨ k = key ∧ ∀ a ∈ t.storedKeys, (key == a) = false := by
  cases hget : t.entries.get? key with
  | some old =>
    have hkeys : u.storedKeys = t.storedKeys := by
      rw [storedKeys, hu, HashMap.put_of_get?_some hget, keys_modify, storedKeys]
    obtain ⟨k₀, he⟩ := HashMap.exists_getEntry? hget
    obtain ⟨hk₀, l₁, l₂, hl, -⟩ := HashMap.split_of_getEntry? he
    have hmem : k₀ ∈ t.storedKeys := by simp [storedKeys, hl]
    rw [hkeys]
    grind
  | none =>
    have hkeys : u.storedKeys = t.storedKeys ++ [key] := by
      simp [storedKeys, hu, HashMap.toList_put_of_get?_none hget]
    have hne : ∀ a ∈ t.storedKeys, (key == a) = false := by
      intro a ha
      obtain ⟨kv, hkv, rfl⟩ := List.mem_map.mp ha
      exact HashMap.get?_eq_none_iff.mp hget kv hkv
    rw [hkeys, List.mem_append, List.mem_singleton]
    grind

omit [Hashable κ] [LawfulHashable κ] in
theorem storedKeys_eq_of_beq {a b : κ} (ha : a ∈ s.storedKeys) (hb : b ∈ s.storedKeys)
    (h : (a == b) = true) : a = b := by
  obtain ⟨x, hx, rfl⟩ := List.mem_map.mp ha
  obtain ⟨y, hy, rfl⟩ := List.mem_map.mp hb
  rw [HashMap.key_eq_of_beq hx hy h]

theorem exists_storedKey {e : Entry ν w} (h : s.entries.get? key = some e) :
    ∃ k ∈ s.storedKeys, (key == k) = true := by
  obtain ⟨k₀, he⟩ := HashMap.exists_getEntry? h
  obtain ⟨hk₀, l₁, l₂, hl, -⟩ := HashMap.split_of_getEntry? he
  exact ⟨k₀, by simp [storedKeys, hl], hk₀⟩

theorem get?_of_storedKey {k : κ} (h : k ∈ s.storedKeys) (hk : (k == key) = true) :
    ∃ e, s.entries.get? key = some e := by
  obtain ⟨kv, hkv, rfl⟩ := List.mem_map.mp h
  exact ⟨kv.2, by rw [← HashMap.get?_congr hk, HashMap.get?_of_mem hkv]⟩

namespace InsertSteps

/-- The key that is inserted keeps its stored object while others are evicted. -/
theorem storedKey_kept (h : InsertSteps checks key entry s d u vs t) (hl : s.Linked nowhere)
    {k : κ} (hk : k ∈ s.storedKeys) (hkey : (k == key) = true) : k ∈ u.storedKeys := by
  have hd := h.linked_detached hl
  have hnew := (detach_noNewKeys h.detach).trans (h.evictions.noNewKeys hd)
  obtain ⟨e, he⟩ := get?_of_storedKey hk hkey
  have hget : u.entries.get? key = some e := by
    rw [h.evictions.get?_out hd (BEq.refl key), (detach_cases hl h.detach).2.1, he]
  obtain ⟨k₁, hk₁, hkey₁⟩ := exists_storedKey hget
  have : k = k₁ := storedKeys_eq_of_beq hk (hnew.table hk₁) (PartialEquivBEq.trans hkey hkey₁)
  exact this ▸ hk₁

/-- The bucket takes the key object that is inserted. -/
theorem keys_bucket (h : InsertSteps checks key entry s d u vs t) (hl : s.Linked nowhere) :
    (t.buckets entry.policy).list.keys = (u.buckets entry.policy).list.keys ++ [key] := by
  have hu := h.evictions.linked (h.linked_detached hl)
  have hnot : (u.buckets entry.policy).list.contains key = false := by
    rw [← Bool.not_eq_true, hu.mem]
    simp
  rw [h.buckets, Function.update_self]
  exact (PolicyBucket.insert_of_not_contains (hu.hand _) hnot).1

/-- After an insertion the copies look the same exactly if the given key looks like the one
that was stored. -/
theorem sameObjects_iff (h : InsertSteps checks key entry s d u vs t) (hl : s.Linked nowhere)
    (hs : s.SameObjects view) :
    t.SameObjects view ↔ s.PassesStored view (.insert key entry) := by
  have hd := h.linked_detached hl
  have hu := h.evictions.linked hd
  have hnew := (detach_noNewKeys h.detach).trans (h.evictions.noNewKeys hd)
  have hmem := fun k => mem_storedKeys_put (k := k) h.entries
  have hbucket := h.keys_bucket hl
  constructor
  · intro ht k hk hkey
    have hstored := (hmem k).mpr (.inl (h.storedKey_kept hl hk hkey))
    have hin : key ∈ (t.buckets entry.policy).list.keys := by simp [hbucket]
    exact ht k hstored _ key hin hkey
  · intro hpass k hk p a ha hka
    have hcases : a ∈ (u.buckets p).list.keys ∨ a = key := by
      by_cases hp : p = entry.policy
      · subst hp
        simpa [hbucket] using ha
      · rw [h.buckets, Function.update_of_ne hp] at ha
        exact .inl ha
    rcases hcases with ha | rfl
    · -- a key of the shard that is neither inserted nor evicted
      have hne : (key == a) = false := ((hu.mem p a).mp (IndexSet.contains_of_mem ha)).2
      rcases (hmem k).mp hk with hk | ⟨rfl, -⟩
      · exact (hs.of_noNewKeys hnew) k hk p a ha hka
      · rw [hne] at hka
        cases hka
    · rcases (hmem k).mp hk with hk | ⟨rfl, -⟩
      · exact hpass k (hnew.table hk) hka
      · rfl

end InsertSteps

theorem step_sameObjects_iff {op : ShardOp κ ν w} {r : ShardReply κ ν w} (hl : s.Linked nowhere)
    (hs : s.SameObjects view) (h : step checks s op = .ok r t) :
    t.SameObjects view ↔ s.PassesStored view op := by
  cases op with
  | insert key entry =>
    obtain ⟨⟨old, stats, evicted⟩, t', hi, ht⟩ := Outcome.bind_eq_ok.mp h
    cases ht
    obtain ⟨d, u, vs, hsteps, -⟩ := insert_cases hl hi
    exact hsteps.sameObjects_iff hl hs
  | get hash equals =>
    cases h
    exact iff_of_true (hs.of_noNewKeys (getHash_noNewKeys s hash equals)) trivial
  | remove key =>
    obtain ⟨r', t', hr, ht⟩ := Outcome.bind_eq_ok.mp h
    cases ht
    exact iff_of_true (hs.of_noNewKeys (remove_noNewKeys hr)) trivial
  | drain => cases h; exact iff_of_true (hs.of_noNewKeys (noNewKeys_clear s)) trivial
  | clear => cases h; exact iff_of_true (hs.of_noNewKeys (noNewKeys_clear s)) trivial

/-- Where the copies look the same, so do the keys handed out. -/
theorem SameObjects.sameExits (hs : s.SameObjects view) (hl : s.Linked nowhere) :
    s.SameExits view := by
  intro checks p v t hcall
  obtain ⟨he, -⟩ := evicts_of_call hl hcall
  have hin : v.key ∈ (s.buckets p).list.keys := List.mem_of_getElem? he.index
  refine ⟨fun key k e u hr hk => ?_, fun e hdrained hk => ?_⟩
  · have hx : s.entries.getEntry? key = some (k, e) := by
      unfold remove at hr
      split at hr
      · cases hr
      · next hsome =>
        simp only [Outcome.bind_eq_ok, Outcome.ok.injEq] at hr
        obtain ⟨_, _, _, hr, -⟩ := hr
        cases hr
        exact (HashMap.removeEntry_eq_some.mp hsome).1
    obtain ⟨-, l₁, l₂, hl, -⟩ := HashMap.split_of_getEntry? hx
    exact (hs k (by simp [storedKeys, hl]) p v.key hin hk).symm
  · obtain ⟨kv, hkv, rfl⟩ := List.mem_map.mp hdrained
    exact (hs kv.1 (List.mem_map_of_mem hkv) p v.key hin hk).symm

/-- Table and buckets hold keys that look the same, and hand out the same, in every state of a
run exactly if every insertion of the run that finds its key present passes a key that looks
like the stored one. -/
theorem sameObjects_run_iff (checks : Bool) (cap : BitVec w) (view : κ → α)
    (ops : List (ShardOp κ ν w)) :
    (∀ pre post, ops = pre ++ post → ∀ rs (s : Shard κ ν w),
      Outcome.run (step checks) (new cap) pre = .ok rs s →
        s.SameObjects view ∧ s.SameExits view) ↔
      ∀ pre op post, ops = pre ++ op :: post → ∀ rs (s : Shard κ ν w) r t,
        Outcome.run (step checks) (new cap) pre = .ok rs s → step checks s op = .ok r t →
          s.PassesStored view op := by
  have hstep : ∀ (s : Shard κ ν w) op r t, s.Linked nowhere ∧ s.SameObjects view →
      step checks s op = .ok r t →
        (t.Linked nowhere ∧ t.SameObjects view ↔ s.PassesStored view op) :=
    fun s op r t hs h =>
      (and_iff_right (step_linked hs.1 h)).trans (step_sameObjects_iff hs.1 hs.2 h)
  have hnew : (new cap : Shard κ ν w).Linked nowhere ∧ (new cap : Shard κ ν w).SameObjects view :=
    ⟨linked_new _ cap, fun k hk => by cases hk⟩
  rw [← Outcome.run_invariant_iff hstep hnew]
  refine forall₃_congr fun pre post _ => forall₃_congr fun rs s hrun => ?_
  have hl : s.Linked nowhere := Reachable.linked ⟨pre, rs, hrun⟩
  exact ⟨fun h => ⟨hl, h.1⟩, fun h => ⟨h.2, h.2.sameExits hl⟩⟩

/-- Two insertions of one key object. -/
def reinserted : List (ShardOp Nat Unit 8) :=
  [.insert 1 (.new () 1 .standard), .insert 1 (.new () 2 .volatile)]

/-- Keys that are equal only to themselves are always passed as they are stored. -/
theorem sameObjects_run_iff_reinserted :
    (Outcome.run (step true) (new 8 : Shard Nat Unit 8) reinserted).value?.isSome ∧
      ∀ pre post, reinserted = pre ++ post →
        ∀ rs (s : Shard Nat Unit 8), Outcome.run (step true) (new 8) pre = .ok rs s →
          s.SameObjects id ∧ s.SameExits id := by
  refine ⟨by decide +kernel, (sameObjects_run_iff true 8 id reinserted).mpr ?_⟩
  rintro pre (⟨key, entry⟩ | _ | _ | _ | _) post - rs s r t - -
  · intro k _ hk
    exact (eq_of_beq hk).symm
  all_goals trivial

/-- A key of which only `number` counts for equality. -/
structure Tagged where
  number : Nat
  tag : Nat

instance : BEq Tagged := ⟨fun a b => a.number == b.number⟩

instance : Hashable Tagged := ⟨fun a => hash a.number⟩

instance : EquivBEq Tagged where
  rfl := by simp [BEq.beq]
  symm h := by simp_all [BEq.beq]
  trans h h' := by simp_all [BEq.beq]

instance : LawfulHashable Tagged where
  hash_eq a b h := by
    have : a.number = b.number := by simpa [BEq.beq] using h
    simp [hash, this]

/-- A replacement under an equal key with another tag. -/
def retagged : List (ShardOp Tagged Unit 8) :=
  [.insert ⟨1, 0⟩ (.new () 1 .standard), .insert ⟨1, 1⟩ (.new () 1 .standard)]

/-- After a replacement under an equal key with another tag, an eviction hands out the new tag
and a removal the old one. -/
theorem tags_differ : ¬ ∀ (ops : List (ShardOp Tagged Unit 8)) rs (s : Shard Tagged Unit 8),
    Outcome.run (step true) (new 8) ops = .ok rs s → s.SameObjects id ∧ s.SameExits id := by
  intro hall
  have hfacts : ((Outcome.run (step true) (new 8) retagged).bind fun _ s =>
      (s.evictFromBucket true .standard).bind fun v _ =>
        (s.remove true ⟨1, 0⟩).bind fun r u =>
          .ok (v.map (·.key.number), v.map (·.key.tag), r.map (·.1.number),
            r.map (·.1.tag)) u).value? =
      some (some 1, some 1, some 1, some 0) := by decide +kernel
  obtain ⟨_, hruns⟩ := Outcome.value?_eq_some.mp hfacts
  obtain ⟨rs, s, hrun, hruns⟩ := Outcome.bind_eq_ok.mp hruns
  obtain ⟨v, t, hevict, hruns⟩ := Outcome.bind_eq_ok.mp hruns
  obtain ⟨r, u, hremove, hvalues⟩ := Outcome.bind_eq_ok.mp hruns
  simp only [Outcome.ok.injEq, Prod.mk.injEq, Option.map_eq_some_iff] at hvalues
  obtain ⟨⟨⟨v, rfl, hv⟩, ⟨_, hv', hvtag⟩, ⟨⟨k, e⟩, rfl, hk⟩, ⟨_, hk', hktag⟩⟩, -⟩ := hvalues
  cases hv'
  cases hk'
  have hsame := ((hall _ rs s hrun).2 true .standard v t hevict).1 _ k e u hremove
    (by simpa [BEq.beq, hv] using hk)
  simp only [id] at hsame
  rw [hsame, hvtag] at hktag
  cases hktag

end Shard

end PriorityLfu
