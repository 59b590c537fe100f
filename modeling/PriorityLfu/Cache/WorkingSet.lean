import PriorityLfu.Cache.Shards
import PriorityLfu.Concurrent.Capacity

/-!
# A working set that fits is never evicted

An entry is evicted only when nothing of lower retention priority is left and what is left is
too much for the capacity. So if some keys have a budget of bytes each, and the budgets fit the
shard beside the largest entry of lower priority, then no entry under these keys is evicted in
any run that keeps to the budgets. With room for all that is inserted nothing is ever evicted,
and the cache is a plain map.
-/
namespace PriorityLfu
open Keyed

variable {κ ν : Type} {w : Nat} [BEq κ]

/-- Keys with a budget of bytes for each, and room for one entry of lower priority. -/
structure WorkingSet (κ : Type) [BEq κ] where
  keys : IndexSet κ
  budget : κ → Nat
  slack : Nat

/-- The size of an entry of priority `p` or higher. -/
def guardedSize (p : CachePolicy) (x : ν × BitVec w × CachePolicy) : Nat :=
  if x.2.2.discriminant ≤ p.discriminant then x.2.1.toNat else 0

namespace WorkingSet

/-- The bytes that the working set needs. -/
def need (ws : WorkingSet κ) : Nat := (ws.keys.keys.map ws.budget).sum + ws.slack

/-- An entry of priority `p` or higher keeps to the budget of its key, another to the slack. -/
def Allows (ws : WorkingSet κ) (p : CachePolicy) (key : κ) (x : ν × BitVec w × CachePolicy) :
    Prop :=
  if x.2.2.discriminant ≤ p.discriminant then
    ∃ k ∈ ws.keys.keys, (k == key) = true ∧ x.2.1.toNat ≤ ws.budget k
  else x.2.1.toNat ≤ ws.slack

instance (ws : WorkingSet κ) (p : CachePolicy) (key : κ) (x : ν × BitVec w × CachePolicy) :
    Decidable (ws.Allows p key x) :=
  inferInstanceAs (Decidable (if x.2.2.discriminant ≤ p.discriminant then
    ∃ k ∈ ws.keys.keys, (k == key) = true ∧ x.2.1.toNat ≤ ws.budget k
    else x.2.1.toNat ≤ ws.slack))

variable {ws : WorkingSet κ} {p : CachePolicy} {key : κ} {x : ν × BitVec w × CachePolicy}

theorem budget_le {k : κ} (hk : k ∈ ws.keys.keys) : ws.budget k ≤ ws.need :=
  (List.single_le_sum (fun _ _ => Nat.zero_le _) _ (List.mem_map_of_mem hk)).trans
    (Nat.le_add_right _ _)

theorem Allows.size_le (h : ws.Allows p key x) : x.2.1.toNat ≤ ws.need := by
  unfold Allows at h
  split at h
  · obtain ⟨k, hk, -, hle⟩ := h
    exact hle.trans (budget_le hk)
  · exact h.trans (Nat.le_add_left _ _)

end WorkingSet

/-- A call that keeps to the working set: where it inserts, the entry does. -/
def ShardOp.Keeps (ws : WorkingSet κ) (p : CachePolicy) : ShardOp κ ν w → Prop
  | .insert key entry => ws.Allows p key entry.content
  | _ => True

instance (ws : WorkingSet κ) (p : CachePolicy) (op : ShardOp κ ν w) : Decidable (op.Keeps ws p) :=
  match op with
  | .insert key entry => inferInstanceAs (Decidable (ws.Allows p key entry.content))
  | .get _ _ | .remove _ | .drain | .clear => isTrue trivial

variable [Hashable κ]

namespace Shard

/-- The entries of priority `p` or higher keep to their budgets. -/
def Stocked (ws : WorkingSet κ) (p : CachePolicy) (s : Shard κ ν w) : Prop :=
  ∀ k x, s.contentOf k = some x → x.2.2.discriminant ≤ p.discriminant →
    ∃ k₀ ∈ ws.keys.keys, (k₀ == k) = true ∧ x.2.1.toNat ≤ ws.budget k₀

/-- The size of the entry under `key`, if it is of priority `p` or higher. -/
def guardedAt (p : CachePolicy) (s : Shard κ ν w) (key : κ) : Nat :=
  ((s.contentOf key).map (guardedSize p)).getD 0

variable {checks : Bool} {needed : BitVec w} {s t d : Shard κ ν w} {p : CachePolicy} {key : κ}
  {entry : Entry ν w} {vs : List (Eviction κ ν w)} {ws : WorkingSet κ} {cap : BitVec w}

variable [EquivBEq κ] [LawfulHashable κ]

/-! ## One insertion -/

theorem weigh_erase (s : Shard κ ν w) (key : κ) (g : ν × BitVec w × CachePolicy → Nat) :
    s.weigh g = ((s.contentOf key).map g).getD 0 +
      ((s.entries.erase key).values.map fun e => g e.content).sum := by
  have := HashMap.sum_erase s.entries key fun e => g e.content
  simpa [weigh, contents, contentOf, Function.comp_def] using this

/-- Where the entries of lower priority are gone, the running total is what is guarded. -/
theorem Evicting.guarded (hs : s.Evicting key)
    (hempty : ∀ q, p.discriminant < q.discriminant → (s.buckets q).len = 0) :
    s.sizeCurrent.toNat + s.guardedAt p key = s.weigh (guardedSize p) := by
  have hsize := hs.size
  have htotal := HashMap.sum_erase s.entries key fun e => e.size.toNat
  have hrest : ((s.entries.erase key).values.map fun e => guardedSize p e.content) =
      (s.entries.erase key).values.map fun e => e.size.toNat := by
    refine List.map_congr_left fun e he => ?_
    obtain ⟨kv, hkv, rfl⟩ := List.mem_map.mp he
    obtain ⟨hin, hne⟩ := HashMap.mem_of_mem_erase hkv
    have hpos := hs.linked.bucket_nonempty (policyOf_of_get? (HashMap.get?_of_mem hin)) hne
    have hle : kv.2.policy.discriminant ≤ p.discriminant := by
      by_contra hlt
      rw [hempty _ (by omega)] at hpos
      exact Nat.lt_irrefl _ hpos
    simp [guardedSize, Entry.content, hle]
  rw [weigh_erase s key, hrest, guardedAt]
  rw [sizeAt, totalSize, htotal] at hsize
  omega

/-- An insertion for which the guarded entries leave room takes none of them. -/
theorem Evictions.spares_guarded (h : Evictions checks needed s vs t) (hs : s.Evicting key)
    (hroom : s.weigh (guardedSize p) + needed.toNat ≤
      s.guardedAt p key + s.sizeCapacity.toNat) {v : Eviction κ ν w} (hv : v ∈ vs) :
    p.discriminant < v.victim.entry.policy.discriminant := by
  induction h with
  | nil => cases hv
  | @cons s s₁ _ q x vs full higher call rest ih =>
    obtain ⟨he, -⟩ := evicts_of_call hs.linked call
    obtain rfl | hv := List.mem_cons.mp hv
    · by_contra hle
      rw [he.policy_eq hs.linked] at hle
      have hguarded := hs.guarded (p := p) fun q' hq' => higher q' (by omega)
      obtain ⟨total, hadd, hlt⟩ := full
      have hcap : s.sizeCapacity.toNat < 2 ^ w := s.sizeCapacity.isLt
      have hsum := Word.toNat_add_fits (x := s.sizeCurrent) (y := needed) (by omega)
      rw [← Word.eq_add hadd] at hsum
      have : s.sizeCapacity.toNat < total.toNat := hlt
      omega
    · refine ih (he.evicting hs).1 ?_ hv
      have hne := he.out_key hs.linked
      have hsame : s₁.guardedAt p key = s.guardedAt p key := by
        rw [guardedAt, he.contentOf_eq, BEq.comm, hne, guardedAt]
        rfl
      have hless : s.weigh (guardedSize p) =
          guardedSize p x.entry.content + s₁.weigh (guardedSize p) := by
        simpa [weigh] using (he.perm_contents.map (guardedSize p)).sum_eq
      rw [hsame, he.sizeCapacity]
      omega

/-- What is stocked leaves room for an entry that keeps to the working set. -/
theorem Stocked.room (hs : s.Stocked ws p) {x : ν × BitVec w × CachePolicy}
    (hx : ws.Allows p key x) :
    s.weigh (guardedSize p) + x.2.1.toNat ≤ s.guardedAt p key + ws.need := by
  have hsum : s.weigh (guardedSize p) = (ws.keys.keys.map (s.guardedAt p)).sum := by
    have := HashMap.sum_values_eq (m := s.entries) (f := fun e => guardedSize p e.content)
      ws.keys.distinct fun kv hkv hne => by
        have hle : kv.2.policy.discriminant ≤ p.discriminant := by
          by_contra hlt
          simp [guardedSize, Entry.content, hlt] at hne
        obtain ⟨k₀, hk₀, heq, -⟩ :=
          hs kv.1 _ (contentOf_of_get? (HashMap.get?_of_mem hkv)) hle
        exact ⟨k₀, hk₀, heq⟩
    have hat : s.guardedAt p =
        fun k => ((s.entries.get? k).map fun e => guardedSize p e.content).getD 0 := by
      funext k
      simp [guardedAt, contentOf, Function.comp_def]
    rw [hat]
    simpa [weigh, contents, Function.comp_def] using this
  have hbudget : ∀ k ∈ ws.keys.keys, s.guardedAt p k ≤ ws.budget k := fun k hk => by
    unfold guardedAt
    cases hget : s.contentOf k with
    | none => simp
    | some y =>
      by_cases hle : y.2.2.discriminant ≤ p.discriminant
      · obtain ⟨k₀, hk₀, heq, hy⟩ := hs k y hget hle
        rw [IndexSet.eq_of_beq hk₀ hk heq] at hy
        simpa [guardedSize, hle] using hy
      · simp [guardedSize, hle]
  unfold WorkingSet.need
  unfold WorkingSet.Allows at hx
  split at hx
  · obtain ⟨k, hk, heq, hle⟩ := hx
    obtain ⟨l₁, l₂, hl⟩ := List.append_of_mem hk
    have hat : s.guardedAt p k = s.guardedAt p key := by
      rw [guardedAt, contentOf_congr heq, guardedAt]
    have h₁ : (l₁.map (s.guardedAt p)).sum ≤ (l₁.map ws.budget).sum :=
      List.sum_le_sum fun k hk => hbudget k (by simp [hl, hk])
    have h₂ : (l₂.map (s.guardedAt p)).sum ≤ (l₂.map ws.budget).sum :=
      List.sum_le_sum fun k hk => hbudget k (by simp [hl, hk])
    rw [hsum, hl]
    simp only [List.map_append, List.map_cons, List.sum_append, List.sum_cons]
    omega
  · have hall : (ws.keys.keys.map (s.guardedAt p)).sum ≤ (ws.keys.keys.map ws.budget).sum :=
      List.sum_le_sum hbudget
    rw [hsum]
    omega

/-! ## Calls and runs -/

theorem Within.getHash (hs : s.Within cap) (hash : UInt64) (equals : κ → Bool) :
    (s.getHash hash equals).2.Within cap := by
  obtain ⟨-, hcur, hcap⟩ := getHash_frame s hash equals
  exact ⟨sound_getHash hs.sound hash equals, hcap.trans hs.capacity, by rw [hcur]; exact hs.size⟩

/-- The invariant: the shard is within its capacity and its entries keep to their budgets. -/
structure Guarded (ws : WorkingSet κ) (p : CachePolicy) (cap : BitVec w) (s : Shard κ ν w) :
    Prop where
  within : s.Within cap
  stocked : s.Stocked ws p

omit [EquivBEq κ] [LawfulHashable κ] in
theorem guarded_new : (new cap : Shard κ ν w).Guarded ws p cap :=
  ⟨within_new cap, fun k x hx => by simp [new, contentOf] at hx⟩

omit [EquivBEq κ] [LawfulHashable κ] in
theorem Guarded.clear (hs : s.Guarded ws p cap) : s.clear.Guarded ws p cap :=
  ⟨hs.within.clear, fun k x hx => by simp [Shard.clear, contentOf] at hx⟩

/-- An insertion that keeps to the working set takes only entries of lower priority. -/
theorem Guarded.spares (hs : s.Guarded ws p cap) (hneed : ws.need ≤ cap.toNat)
    (hentry : ws.Allows p key entry.content) {u : Shard κ ν w}
    (hsteps : InsertSteps checks key entry s d u vs t) {v : Eviction κ ν w} (hv : v ∈ vs) :
    p.discriminant < v.victim.entry.policy.discriminant := by
  have hl := hs.within.sound.linked
  obtain ⟨-, hentries, hcap, -⟩ := detach_cases hl hsteps.detach
  have hweigh : d.weigh (guardedSize p) = s.weigh (guardedSize p) := by
    rw [weigh, contents, hentries, weigh, contents]
  have hat : d.guardedAt p key = s.guardedAt p key := by
    rw [guardedAt, contentOf, hentries, guardedAt, contentOf]
  have hroom : s.weigh (guardedSize p) + entry.size.toNat ≤ s.guardedAt p key + ws.need :=
    hs.stocked.room hentry
  have hdetached : d.Evicting key := (detach_evicting hl hs.within.sound.size hsteps.detach).1
  refine hsteps.evictions.spares_guarded hdetached ?_ hv
  rw [hweigh, hat, hcap, hs.within.capacity]
  omega

/-- An insertion that keeps to the working set returns and evicts only entries of lower
priority. -/
theorem Guarded.insert (hs : s.Guarded ws p cap) (hneed : ws.need ≤ cap.toNat)
    (hfits : cap.toNat + ws.need < 2 ^ w) (checks : Bool)
    (hentry : ws.Allows p key entry.content) :
    ∃ old stats evicted t, s.insert checks key entry = .ok (old, stats, evicted) t ∧
      t.Guarded ws p cap ∧ ∀ e ∈ evicted, p.discriminant < e.entry.policy.discriminant := by
  have hsize : entry.size.toNat ≤ ws.need := hentry.size_le
  have hword : cap.toNat + entry.size.toNat < 2 ^ w := by omega
  have hl := hs.within.sound.linked
  obtain ⟨old, stats, evicted, t, hok, -⟩ :=
    insert_returns hs.within.sound checks key (hs.within.admits hword)
  have hwithin : t.Within cap := hs.within.insert (hsize.trans hneed) hword hok
  obtain ⟨d, u, vs, hsteps, -, rfl, -⟩ := insert_cases hl hok
  refine ⟨old, stats, _, t, hok, ⟨hwithin, fun k x hx hle => ?_⟩, fun e he => ?_⟩
  · rw [hsteps.contentOf_eq hl] at hx
    split at hx
    · next hk =>
      cases hx
      obtain ⟨k₀, hk₀, heq, hbudget⟩ := (if_pos hle).mp hentry
      exact ⟨k₀, hk₀, BEq.trans heq hk, hbudget⟩
    · split at hx
      · cases hx
      · exact hs.stocked k x hx hle
  · obtain ⟨v, hv, rfl⟩ := List.mem_map.mp he
    exact hs.spares hneed hentry hsteps hv

omit [EquivBEq κ] [LawfulHashable κ] in
/-- Where everything is guarded no stored size exceeds half a word. -/
theorem Guarded.half (hs : s.Guarded ws .volatile cap) (hneed : ws.need ≤ cap.toNat)
    (hfits : cap.toNat + ws.need < 2 ^ w) {e : Entry ν w} (he : s.entries.get? key = some e) :
    2 * e.size.toNat < 2 ^ w := by
  have hle : e.policy.discriminant ≤ CachePolicy.volatile.discriminant := by
    cases e.policy <;> decide
  obtain ⟨k, hk, -, hbudget⟩ := hs.stocked key e.content (contentOf_of_get? he) hle
  have hsize : e.size.toNat ≤ ws.need := le_trans hbudget (WorkingSet.budget_le hk)
  omega

/-- A call that keeps to the working set returns and evicts only entries of lower priority. -/
theorem Guarded.step (hs : s.Guarded ws p cap) (hneed : ws.need ≤ cap.toNat)
    (hfits : cap.toNat + ws.need < 2 ^ w) (checks : Bool) {op : ShardOp κ ν w}
    (hop : op.Keeps ws p) :
    ∃ r t, step checks s op = .ok r t ∧ t.Guarded ws p cap ∧
      ∀ e ∈ r.evicted, p.discriminant < e.entry.policy.discriminant := by
  cases op with
  | insert key entry =>
    obtain ⟨old, stats, evicted, t, hok, ht, hev⟩ := hs.insert hneed hfits checks hop
    exact ⟨_, t, Outcome.bind_eq_ok.mpr ⟨_, _, hok, rfl⟩, ht, hev⟩
  | get hash equals =>
    have hstocked : (s.getHash hash equals).2.Stocked ws p := fun k x hx => by
      rw [contentOf_getHash] at hx
      exact hs.stocked k x hx
    exact ⟨_, _, rfl, ⟨hs.within.getHash hash equals, hstocked⟩, by simp [ShardReply.evicted]⟩
  | remove key =>
    obtain ⟨r, t, hok, -⟩ := remove_returns hs.within.sound checks key
    refine ⟨_, t, Outcome.bind_eq_ok.mpr ⟨_, _, hok, rfl⟩,
      ⟨hs.within.remove hok, fun k x hx => ?_⟩, by simp [ShardReply.evicted]⟩
    rcases remove_cases hok with ⟨-, rfl, -⟩ | ⟨k₀, e, -, -, -, hentries, -⟩
    · exact hs.stocked k x hx
    · rw [contentOf, hentries, HashMap.get?_erase] at hx
      split at hx
      · cases hx
      · exact hs.stocked k x hx
  | drain => exact ⟨_, _, rfl, hs.clear, by simp [ShardReply.evicted]⟩
  | clear => exact ⟨_, _, rfl, hs.clear, by simp [ShardReply.evicted]⟩

theorem Guarded.run (hs : s.Guarded ws p cap) (hneed : ws.need ≤ cap.toNat)
    (hfits : cap.toNat + ws.need < 2 ^ w) (checks : Bool) {ops : List (ShardOp κ ν w)}
    (hops : ∀ op ∈ ops, op.Keeps ws p) :
    ∃ rs t, Outcome.run (Shard.step checks) s ops = .ok rs t ∧ t.Guarded ws p cap ∧
      ∀ r ∈ rs, ∀ e ∈ r.evicted, p.discriminant < e.entry.policy.discriminant :=
  Outcome.run_returns_all (fun _ _ hs hop => hs.step hneed hfits checks hop) hs hops

/-- Where the budgets of a working set and its slack fit the capacity, every run that keeps to
the working set returns, and it evicts no entry of priority `p` or higher. -/
theorem working_set_stays (checks : Bool) (ws : WorkingSet κ) (p : CachePolicy) (cap : BitVec w)
    (hneed : ws.need ≤ cap.toNat) (hfits : cap.toNat + ws.need < 2 ^ w)
    (ops : List (ShardOp κ ν w)) (hops : ∀ op ∈ ops, op.Keeps ws p) :
    ∃ rs s, Outcome.run (step checks) (new cap) ops = .ok rs s ∧
      ∀ e ∈ rs.flatMap ShardReply.evicted, p.discriminant < e.entry.policy.discriminant := by
  obtain ⟨rs, s, hrun, -, hev⟩ := guarded_new.run hneed hfits checks hops
  refine ⟨rs, s, hrun, fun e he => ?_⟩
  obtain ⟨r, hr, he⟩ := List.mem_flatMap.mp he
  exact hev r hr e he

/-- Two keys of the highest priority with room for one other entry of three bytes. -/
def pinned : WorkingSet Nat where
  keys := ⟨[0, 1], by decide⟩
  budget _ := 4
  slack := 3

/-- They stay while others come and go. -/
def visitors : List (ShardOp Nat Unit 8) :=
  [.insert 0 (.new () 4 .critical), .insert 1 (.new () 3 .critical)] ++
    (List.range 4).flatMap fun k =>
      [.insert (k + 2) (.new () 3 .standard), .insert 1 (.new () 4 .critical)]

theorem working_set_stays_visitors :
    ∃ rs s, Outcome.run (step true) (new 11) visitors = .ok rs s ∧
      ∀ e ∈ rs.flatMap ShardReply.evicted,
        CachePolicy.critical.discriminant < e.entry.policy.discriminant :=
  working_set_stays true pinned .critical 11 (by decide) (by decide) visitors (by decide)

end Shard

/-! ## A whole cache -/

/-- The keys of a working set that are routed to shard `i`. -/
def WorkingSet.onShard {n : Nat} [NeZero n] (ws : WorkingSet κ) (w : Nat) (i : Fin n) :
    WorkingSet κ where
  keys := ⟨ws.keys.keys.filter fun k => getShard w n (hash k) = i, ws.keys.distinct.filter _⟩
  budget := ws.budget
  slack := ws.slack

/-- An entry that keeps to a working set keeps to its part on the shard of the key. -/
theorem WorkingSet.Allows.onShard {n : Nat} [NeZero n] [EquivBEq κ] [LawfulHashable κ]
    {ws : WorkingSet κ} {p : CachePolicy} {key : κ} {x : ν × BitVec w × CachePolicy}
    (h : ws.Allows p key x) : (ws.onShard w (getShard w n (hash key))).Allows p key x := by
  unfold WorkingSet.Allows at h ⊢
  split at h
  · next hle =>
    obtain ⟨k, hk, heq, hbudget⟩ := h
    rw [if_pos hle]
    exact ⟨k, List.mem_filter.mpr ⟨hk, by simp [hash_eq heq]⟩, heq, hbudget⟩
  · next hle => rwa [if_neg hle]

variable {n : Nat} {T : Types w} {H : Heap T}

/-- A call that keeps to the working set: where it inserts, the value keeps to the budget of
its key. -/
def CacheOp.Keeps (ws : WorkingSet (ErasedKey H)) : CacheOp H → Prop
  | .insert key value =>
    ws.Allows .volatile (ErasedKey.new key) (CacheOp.entry value).content
  | _ => True

instance (ws : WorkingSet (ErasedKey H)) (op : CacheOp H) : Decidable (op.Keeps ws) :=
  match op with
  | .insert key value =>
    inferInstanceAs
      (Decidable (ws.Allows .volatile (ErasedKey.new key) (CacheOp.entry value).content))
  | .get _ | .getClone _ | .getBy _ _ | .getCloneBy _ _ | .contains _ | .containsBy _ _
  | .remove _ | .clear => isTrue trivial

namespace Cache

variable [NeZero n] {c d : Cache (ErasedKey H) (Any T.Val) w n} {checks : Bool}
  {ws : WorkingSet (ErasedKey H)} {cap : BitVec w}

/-- The invariant: every shard holds its part of the working set. -/
structure Ample (ws : WorkingSet (ErasedKey H)) (cap : BitVec w)
    (c : Cache (ErasedKey H) (Any T.Val) w n) : Prop where
  typed : c.Typed
  shards : ∀ i, (c.shards i).Guarded (ws.onShard w i) .volatile cap

/-- The calls on the shards keep to the parts of the working set there. -/
theorem onShard_keeps {op : CacheOp H} (h : op.Keeps ws) (i : Fin n) :
    ∀ o ∈ op.onShard i, o.Keeps (ws.onShard w i) .volatile := by
  intro o ho
  cases op with
  | insert key value =>
    simp only [CacheOp.onShard] at ho
    split at ho
    · next hi =>
      obtain rfl := List.mem_singleton.mp ho
      subst hi
      exact WorkingSet.Allows.onShard h
    · cases ho
  | clear =>
    obtain rfl := List.mem_singleton.mp ho
    exact trivial
  | contains key => cases ho
  | containsBy t key => cases ho
  | _ =>
    simp only [CacheOp.onShard] at ho
    split at ho
    · obtain rfl := List.mem_singleton.mp ho
      exact trivial
    · cases ho

/-- A call that keeps to the working set returns. -/
theorem Ample.returns (hc : c.Ample ws cap)
    (hneed : ∀ i : Fin n, (ws.onShard w i).need ≤ cap.toNat)
    (hfits : ∀ i : Fin n, cap.toNat + (ws.onShard w i).need < 2 ^ w) (checks : Bool)
    {op : CacheOp H} (hop : op.Keeps ws) : ∃ r d, step checks c op = .ok r d := by
  cases op with
  | insert key value =>
    have hallows : (ws.onShard w (getShard w n (hash (ErasedKey.new key)))).Allows .volatile
        (ErasedKey.new key) (CacheOp.entry value).content := WorkingSet.Allows.onShard hop
    have hs := hc.shards (getShard w n (hash (ErasedKey.new key)))
    obtain ⟨old, stats, evicted, t, hok, -⟩ := hs.insert (hneed _) (hfits _) checks hallows
    obtain ⟨-, -, -, -, hold, -⟩ := Shard.insert_cases (hc.typed.routed.linked _) hok
    have hsize : 2 * (CacheOp.entry value).size.toNat < 2 ^ w := by
      have hle : (CacheOp.entry value).size.toNat ≤ _ := hallows.size_le
      have := hneed (getShard w n (hash (ErasedKey.new key)))
      have := hfits (getShard w n (hash (ErasedKey.new key)))
      omega
    obtain ⟨us, hus⟩ := insertUpdates_returns checks fun e he =>
      Word.abs_toInt_sub_lt hsize (hs.half (hneed _) (hfits _) (hold.symm.trans he))
    have hshard : c.insertShard checks (ErasedKey.new key) (CacheOp.entry value) =
        .ok (old, stats, evicted) (c.setShard (getShard w n (hash (ErasedKey.new key))) t) :=
      Outcome.mapState_eq_ok.mpr ⟨t, hok, rfl⟩
    have hentry : ∃ r d, c.insertEntry checks (ErasedKey.new key) (CacheOp.entry value) =
        .ok r d := by
      simp only [insertEntry, hshard, hus, Outcome.bind_ok, Outcome.check_some]
      exact ⟨_, _, rfl⟩
    obtain ⟨r, d, hr⟩ := hentry
    exact ⟨_, _, Outcome.bind_eq_ok.mpr ⟨_, _, Outcome.bind_eq_ok.mpr ⟨r, d, hr, rfl⟩, rfl⟩⟩
  | remove key =>
    have hs := hc.shards (getShard w n (hash (ErasedKey.new key)))
    obtain ⟨r, t, hok, -⟩ := Shard.remove_returns hs.within.sound checks (ErasedKey.new key)
    have hshard : c.removeShard checks (ErasedKey.new key) =
        .ok r (c.setShard (getShard w n (hash (ErasedKey.new key))) t) :=
      Outcome.mapState_eq_ok.mpr ⟨t, hok, rfl⟩
    have hentry : ∃ r d, c.removeEntry checks (ErasedKey.new key) = .ok r d := by
      simp only [removeEntry, hshard, Outcome.bind_ok]
      cases r <;> exact ⟨_, _, rfl⟩
    obtain ⟨r, d, hr⟩ := hentry
    exact ⟨_, _, Outcome.bind_eq_ok.mpr ⟨_, _, Outcome.bind_eq_ok.mpr ⟨r, d, hr, rfl⟩, rfl⟩⟩
  | _ => exact ⟨_, _, rfl⟩

/-- A call that keeps to the working set evicts nothing. -/
theorem Ample.step (hc : c.Ample ws cap)
    (hneed : ∀ i : Fin n, (ws.onShard w i).need ≤ cap.toNat)
    (hfits : ∀ i : Fin n, cap.toNat + (ws.onShard w i).need < 2 ^ w) (checks : Bool)
    {op : CacheOp H} (hop : op.Keeps ws) :
    ∃ r d, Cache.step checks c op = .ok r d ∧ d.Ample ws cap ∧ r.evicted = [] := by
  obtain ⟨r, d, h⟩ := hc.returns hneed hfits checks hop
  obtain ⟨replies, hev, hshards⟩ := step_shards hc.typed h
  have hall : ∀ i, (d.shards i).Guarded (ws.onShard w i) .volatile cap ∧
      (replies i).flatMap ShardReply.evicted = [] := fun i => by
    obtain ⟨rs, t, hrun, ht, hnone⟩ :=
      (hc.shards i).run (hneed i) (hfits i) checks (onShard_keeps hop i)
    rw [hshards i] at hrun
    cases hrun
    refine ⟨ht, List.flatMap_eq_nil_iff.mpr fun r hr => List.eq_nil_iff_forall_not_mem.mpr ?_⟩
    intro e he
    have hlt := hnone r hr e he
    revert hlt
    cases e.entry.policy <;> decide
  refine ⟨r, d, h, ⟨(step_refines hc.typed h).1, fun i => (hall i).1⟩, ?_⟩
  rw [hev]
  exact List.flatMap_eq_nil_iff.mpr fun i _ => by rw [(hall i).2, List.map_nil]

/-- Where on every shard the budgets of the keys routed there fit its share, a run that inserts
under these keys and within their budgets returns, it evicts nothing, and it is a run of a
plain map. -/
theorem ample_is_map (checks : Bool) (maxSizeBytes : BitVec w) (ws : WorkingSet (ErasedKey H))
    (hneed : ∀ i : Fin n, (ws.onShard w i).need ≤ (sizePerShard maxSizeBytes n).toNat)
    (hfits : ∀ i : Fin n,
      (sizePerShard maxSizeBytes n).toNat + (ws.onShard w i).need < 2 ^ w)
    (ops : List (CacheOp H)) (hops : ∀ op ∈ ops, op.Keeps ws) :
    ∃ rs c, Outcome.run (Cache.step checks)
        (withShardsAndLifecycleInternal maxSizeBytes n : Cache (ErasedKey H) (Any T.Val) w n) ops =
          .ok rs c ∧ (∀ r ∈ rs, r.evicted = []) ∧
      TypedMap.Replays (fun _ => none) (ops.zip rs) c.view := by
  have hnew : (withShardsAndLifecycleInternal maxSizeBytes n :
      Cache (ErasedKey H) (Any T.Val) w n).Ample ws (sizePerShard maxSizeBytes n) :=
    ⟨typed_new maxSizeBytes, fun _ => Shard.guarded_new⟩
  obtain ⟨rs, c, hrun, -, hnone⟩ := Outcome.run_returns_all (Q := CacheOp.Keeps ws)
    (fun _ _ hc hop => Ample.step hc hneed hfits checks hop) hnew hops
  obtain ⟨-, hreplays⟩ := run_refines (typed_new maxSizeBytes) hrun
  rw [view_new] at hreplays
  exact ⟨rs, c, hrun, hnone, hreplays⟩

/-- The keys of `twoTypes` with budgets for their values. -/
def twoTypesSet : WorkingSet (ErasedKey alternating) where
  keys := ⟨[.new ⟨0⟩, .new ⟨1⟩, .new ⟨2⟩], by decide +kernel⟩
  budget key := 100 * (key.data.addr + 1)
  slack := 0

theorem ample_is_map_twoTypes :
    ∃ rs, ∃ c : Cache (ErasedKey alternating) (Any colliding.Val) 64 2,
      Outcome.run (step true) (withShardsAndLifecycleInternal 1200 2) twoTypes = .ok rs c ∧
      (∀ r ∈ rs, r.evicted = []) ∧
      TypedMap.Replays (fun _ => none) (twoTypes.zip rs) c.view :=
  ample_is_map true 1200 twoTypesSet (by decide +kernel) (by decide +kernel) twoTypes
    (by decide +kernel)

end Cache

end PriorityLfu
