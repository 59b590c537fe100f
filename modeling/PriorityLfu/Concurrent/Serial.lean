import PriorityLfu.Concurrent.Projection
import PriorityLfu.Concurrent.Statistics
import PriorityLfu.Shard.Keys

/-!
# What a shard goes through

The access statistics of a hit are stored in three accesses, and stores of hits that overlap can
undo each other. Still the outcome is one that hits one after the other have: some of those that
overlapped, each of them atomic. So whatever the interleaving, a shard whose statistics nobody is
storing is in a state that a run of its operations leads to, and what holds after every run of them
holds here. A call finds its shard in such a state whenever it takes the lock.
-/
namespace PriorityLfu
open Keyed

variable {κ ν : Type} {w n : Nat}

/-! ## Hits on one entry -/

namespace Entry

theorem toNat_touch (e : Entry ν w) : e.touch.frequency.toNat = bump e.frequency.toNat := by
  rw [touch_eq]
  rcases toNat_increment e.frequency e.mark with ⟨hsame, hmax⟩ | ⟨hstored, hbump⟩
  · rw [hsame, hmax]
    rfl
  · rw [hstored, hbump]

theorem iterate_touch (e : Entry ν w) (j : Nat) :
    (touch^[j] e).content = e.content ∧
      (touch^[j] e).frequency.toNat = min 255 (e.frequency.toNat + j) ∧
      (touch^[j] e).clockBit = (decide (0 < j) || e.clockBit) := by
  have hbump : ∀ j, (touch^[j] e).frequency.toNat = bump^[j] e.frequency.toNat := by
    intro j
    induction j with
    | zero => rfl
    | succ j ih => rw [Function.iterate_succ_apply', Function.iterate_succ_apply', toNat_touch, ih]
  rw [hbump, bump_iterate (toNat_le_max _)]
  cases j with
  | zero => exact ⟨rfl, rfl, rfl⟩
  | succ j =>
    refine ⟨?_, rfl, ?_⟩
    · induction j with
      | zero => exact content_touch e
      | succ j ih => rw [Function.iterate_succ_apply', content_touch, ih]
    · rw [Function.iterate_succ_apply', touch_eq, clockBit_increment]
      simp [mark]

theorem eq_of_content {e e' : Entry ν w} (hcontent : e.content = e'.content)
    (hfrequency : e.frequency.toNat = e'.frequency.toNat) (hclock : e.clockBit = e'.clockBit) :
    e = e' := by
  obtain ⟨value, size, policy, frequency, clockBit⟩ := e
  obtain ⟨value', size', policy', frequency', clockBit'⟩ := e'
  obtain rfl : frequency = frequency' := UInt8.toNat_inj.mp hfrequency
  cases hcontent
  cases hclock
  rfl

end Entry

/-- What the entry `e₀` has become since some hits on it began, of which `pending` are still in
progress. If nothing was marked, its clock bit is as it was. -/
def Drift (e₀ e : Entry ν w) (pending : List Stage) : Prop :=
  ∃ m, Progress e₀ m e pending ∧
    (e.clockBit = e₀.clockBit ∨ 0 < m ∨ ∃ stage ∈ pending, stage ≠ .found)

namespace Drift

variable {e₀ e : Entry ν w} {pending rest : List Stage} {freq : UInt8}

theorem refl (e : Entry ν w) : Drift e e [] := ⟨0, .start e, .inl rfl⟩

/-- Hits that have not made a step yet do not matter. -/
theorem congr (h : Drift e₀ e pending)
    (hp : ∀ stage, stage ≠ .found → (stage ∈ rest ↔ stage ∈ pending)) : Drift e₀ e rest := by
  obtain ⟨m, hprogress, hclock⟩ := h
  refine ⟨m, hprogress.mono fun stage hstage hne => (hp stage hne).mp hstage, ?_⟩
  exact hclock.imp_right (Or.imp_right fun ⟨stage, hstage, hne⟩ =>
    ⟨stage, (hp stage hne).mpr hstage, hne⟩)

theorem perm (h : Drift e₀ e pending) (hp : rest.Perm pending) : Drift e₀ e rest :=
  h.congr fun _ _ => hp.mem_iff

theorem mark (h : Drift e₀ e (.found :: rest)) : Drift e₀ e.mark (.marked :: rest) := by
  obtain ⟨m, hprogress, -⟩ := h
  exact ⟨m, hprogress.mark, .inr (.inr ⟨.marked, List.mem_cons_self, nofun⟩)⟩

theorem load (h : Drift e₀ e (.marked :: rest)) : Drift e₀ e (.loaded e.frequency :: rest) := by
  obtain ⟨m, hprogress, -⟩ := h
  exact ⟨m, hprogress.load, .inr (.inr ⟨.loaded e.frequency, List.mem_cons_self, nofun⟩)⟩

theorem store (h : Drift e₀ e (.loaded freq :: rest)) : Drift e₀ (e.increment freq) rest := by
  obtain ⟨m, hprogress, -⟩ := h
  exact ⟨m + 1, hprogress.store, .inr (.inl (Nat.succ_pos m))⟩

/-- A hit in the middle goes on if it is one on this entry, and the entry with it. -/
theorem splice {before after : List Stage} {e' : Entry ν w} {b : Bool} {stage : Stage}
    {next : Option Stage}
    (h : Drift e₀ e (before ++ ((if b then some stage else none).toList ++ after)))
    (hnext : b → ∀ rest, Drift e₀ e (stage :: rest) → Drift e₀ e' (next.toList ++ rest)) :
    Drift e₀ (if b then e' else e)
      (before ++ ((if b then next else none).toList ++ after)) := by
  cases b with
  | false => exact h
  | true =>
    have hfront : Drift e₀ e (stage :: (before ++ after)) := h.perm List.perm_middle.symm
    refine (hnext rfl _ hfront).perm ?_
    exact List.perm_append_comm_assoc before next.toList after

/-- When no hit is storing, the entry was hit some times one after the other. -/
theorem settled (h : Drift e₀ e pending) (hp : ∀ stage ∈ pending, stage = .found) :
    ∃ j, e = Entry.touch^[j] e₀ := by
  have hnone : Drift e₀ e [] := h.congr fun stage hne =>
    ⟨fun hstage => absurd hstage List.not_mem_nil, fun hstage => absurd (hp stage hstage) hne⟩
  obtain ⟨m, hprogress, hclock⟩ := hnone
  rcases Nat.eq_zero_or_pos m with rfl | hm
  · have hle : e.frequency.toNat ≤ e₀.frequency.toNat := hprogress.frequency.le_iterate
    have hge : e₀.frequency.toNat ≤ e.frequency.toNat := by
      rcases hprogress.frequency.moved with ⟨hsame, -⟩ | hmoved
      · exact hsame.ge
      · exact (le_bump _).trans hmoved
    refine ⟨0, Entry.eq_of_content hprogress.content (hle.antisymm hge) ?_⟩
    rcases hclock with hsame | hzero | ⟨stage, hstage, -⟩
    · exact hsame
    · exact absurd hzero (Nat.lt_irrefl 0)
    · exact absurd hstage List.not_mem_nil
  · obtain ⟨hclockBit, hlo, hhi⟩ := hprogress.result hm
    have hmax := toNat_le_max e.frequency
    -- a hit that stored nothing is one of an entry at the limit
    obtain ⟨hcontent, hfrequency, hbit⟩ :=
      e₀.iterate_touch (max 1 (e.frequency.toNat - e₀.frequency.toNat))
    refine ⟨max 1 (e.frequency.toNat - e₀.frequency.toNat), Entry.eq_of_content ?_ ?_ ?_⟩
    · rw [hprogress.content, hcontent]
    · rw [hfrequency]
      omega
    · rw [hclockBit, hbit]
      simp

end Drift

/-! ## Hits on one shard -/

variable [BEq κ]

/-- What the shard `s₀` has become while it was only read, where `pending` are the hits in progress
on each key. -/
structure Drifted [Hashable κ] (s₀ s : Shard κ ν w) (pending : κ → List Stage) : Prop where
  buckets : s.buckets = s₀.buckets
  sizeCurrent : s.sizeCurrent = s₀.sizeCurrent
  sizeCapacity : s.sizeCapacity = s₀.sizeCapacity
  keys : s.storedKeys = s₀.storedKeys
  entries : ∀ k e, s.entries.get? k = some e →
    ∃ e₀, s₀.entries.get? k = some e₀ ∧ Drift e₀ e (pending k)

namespace Shard

variable [Hashable κ] [EquivBEq κ] [LawfulHashable κ] {checks : Bool} {s t : Shard κ ν w}

/-- A hit by key. -/
theorem getHash_key (s : Shard κ ν w) (key : κ) :
    (s.getHash (hash key) (key == ·)).2 =
      { s with entries := s.entries.modify key Entry.touch } := by
  unfold getHash
  split
  · next hnone =>
    have hget : s.entries.get? key = none := congrArg (Option.map Prod.snd) hnone
    have hsame : s.entries.modify key Entry.touch = s.entries := by
      refine HashMap.eq_of_keys (keys_modify _ _ _) fun k => ?_
      rw [HashMap.get?_modify]
      split
      · next hk => rw [← HashMap.get?_congr hk, hget, Option.map_none]
      · rfl
    rw [hsame]
  · next k₀ e hsome =>
    have hk := (HashMap.split_of_getEntry? hsome).1
    have hmodify : s.entries.modify k₀ Entry.touch = s.entries.modify key Entry.touch := by
      simp only [HashMap.modify, BEq.congr_left hk]
    rw [hmodify]

theorem run_hits (checks : Bool) (s : Shard κ ν w) (key : κ) (j : Nat) :
    ∃ rs, Outcome.run (step checks) s (List.replicate j (.get (hash key) (key == ·))) =
      .ok rs { s with entries := s.entries.modify key (Entry.touch^[j]) } := by
  induction j generalizing s with
  | zero =>
    have hsame : s.entries.modify key (Entry.touch^[0]) = s.entries := by
      refine HashMap.eq_of_keys (keys_modify _ _ _) fun k => ?_
      rw [HashMap.get?_modify, Function.iterate_zero, Option.map_id]
      split <;> rfl
    rw [hsame]
    exact ⟨[], rfl⟩
  | succ j ih =>
    obtain ⟨rs, hrs⟩ := ih { s with entries := s.entries.modify key Entry.touch }
    rw [HashMap.modify_modify] at hrs
    have hstep : step checks s (.get (hash key) (key == ·)) =
        .ok (.got (s.getHash (hash key) (key == ·)).1)
          { s with entries := s.entries.modify key Entry.touch } := by
      rw [← getHash_key]
      rfl
    exact ⟨_, Outcome.run_cons_eq_ok.mpr ⟨_, _, rs, hstep, hrs, rfl⟩⟩

/-- A change that hits explain is made by hits, one key after the other. -/
theorem run_all_hits (checks : Bool) (ks : List κ) (hbuckets : t.buckets = s.buckets)
    (hcurrent : t.sizeCurrent = s.sizeCurrent) (hcapacity : t.sizeCapacity = s.sizeCapacity)
    (hkeys : t.storedKeys = s.storedKeys)
    (hhits : ∀ k, ∃ j, t.entries.get? k = (s.entries.get? k).map Entry.touch^[j])
    (hrest : ∀ k, (∀ a ∈ ks, (a == k) = false) → t.entries.get? k = s.entries.get? k) :
    ∃ ops rs, (∀ op ∈ ops, ∃ key : κ, op = .get (hash key) (key == ·)) ∧
      Outcome.run (step checks) s ops = .ok rs t := by
  induction ks generalizing s with
  | nil =>
    have hentries : t.entries = s.entries := HashMap.eq_of_keys hkeys fun k => hrest k (by simp)
    obtain ⟨entries, buckets, sizeCurrent, sizeCapacity⟩ := t
    dsimp only at *
    subst hentries hbuckets hcurrent hcapacity
    exact ⟨[], [], by simp, rfl⟩
  | cons a ks ih =>
    obtain ⟨j, hj⟩ := hhits a
    obtain ⟨rs, hrs⟩ := run_hits checks s a j
    have hget : ∀ k, (s.entries.modify a Entry.touch^[j]).get? k =
        if a == k then t.entries.get? k else s.entries.get? k := by
      intro k
      rw [HashMap.get?_modify]
      split
      · next hk => rw [← HashMap.get?_congr hk, ← HashMap.get?_congr hk, hj]
      · rfl
    have hhits' : ∀ k, ∃ j', t.entries.get? k =
        ((s.entries.modify a Entry.touch^[j]).get? k).map Entry.touch^[j'] := by
      intro k
      rw [hget]
      split
      · exact ⟨0, by simp⟩
      · exact hhits k
    have hrest' : ∀ k, (∀ b ∈ ks, (b == k) = false) →
        t.entries.get? k = (s.entries.modify a Entry.touch^[j]).get? k := by
      intro k hk
      rw [hget]
      split
      · rfl
      · next hak =>
        refine hrest k fun b hb => ?_
        rcases List.mem_cons.mp hb with rfl | hb
        · exact Bool.eq_false_iff.mpr hak
        · exact hk b hb
    obtain ⟨ops, rs', hops, hrun⟩ := ih (s := { s with
      entries := s.entries.modify a Entry.touch^[j] }) hbuckets hcurrent hcapacity
      (hkeys.trans (keys_modify _ _ _).symm) hhits' hrest'
    refine ⟨List.replicate j (.get (hash a) (a == ·)) ++ ops, rs ++ rs', fun op hop => ?_,
      Outcome.run_append_eq_ok.mpr ⟨rs, _, rs', hrs, hrun, rfl⟩⟩
    rcases List.mem_append.mp hop with hop | hop
    · exact ⟨a, (List.mem_replicate.mp hop).2⟩
    · exact hops op hop

end Shard

namespace Drifted

variable [Hashable κ] {s₀ s : Shard κ ν w} {pending pending' : κ → List Stage}

theorem refl (s : Shard κ ν w) (hp : ∀ k, pending k = []) : Drifted s s pending where
  buckets := rfl
  sizeCurrent := rfl
  sizeCapacity := rfl
  keys := rfl
  entries k e he := ⟨e, he, hp k ▸ .refl e⟩

/-- The hits in progress go on, and the entries with them. -/
theorem congr (h : Drifted s₀ s pending)
    (hp : ∀ k e e₀, s.entries.get? k = some e → Drift e₀ e (pending k) → Drift e₀ e (pending' k)) :
    Drifted s₀ s pending' where
  buckets := h.buckets
  sizeCurrent := h.sizeCurrent
  sizeCapacity := h.sizeCapacity
  keys := h.keys
  entries k e he := by
    obtain ⟨e₀, he₀, hdrift⟩ := h.entries k e he
    exact ⟨e₀, he₀, hp k e e₀ he hdrift⟩

variable [EquivBEq κ] [LawfulHashable κ]

theorem modify (h : Drifted s₀ s pending) {key : κ} {f : Entry ν w → Entry ν w}
    (hp : ∀ k e e₀, Drift e₀ e (pending k) →
      Drift e₀ (if key == k then f e else e) (pending' k)) :
    Drifted s₀ { s with entries := s.entries.modify key f } pending' where
  buckets := h.buckets
  sizeCurrent := h.sizeCurrent
  sizeCapacity := h.sizeCapacity
  keys := (Shard.keys_modify _ _ _).trans h.keys
  entries k e he := by
    rw [HashMap.get?_modify] at he
    split at he
    · next hk =>
      obtain ⟨e', he', rfl⟩ := Option.map_eq_some_iff.mp he
      obtain ⟨e₀, he₀, hdrift⟩ := h.entries k e' he'
      have hstep := hp k e' e₀ hdrift
      rw [if_pos hk] at hstep
      exact ⟨e₀, he₀, hstep⟩
    · next hk =>
      obtain ⟨e₀, he₀, hdrift⟩ := h.entries k e he
      have hstep := hp k e e₀ hdrift
      rw [if_neg hk] at hstep
      exact ⟨e₀, he₀, hstep⟩

omit [EquivBEq κ] in
theorem get?_eq_none (h : Drifted s₀ s pending) {k : κ}
    (hk : ∀ a ∈ s₀.storedKeys, (k == a) = false) :
    s.entries.get? k = none ∧ s₀.entries.get? k = none := by
  have hnone : ∀ t : Shard κ ν w, t.storedKeys = s₀.storedKeys → t.entries.get? k = none :=
    fun t ht => HashMap.get?_eq_none_iff.mpr fun kv hkv =>
      hk kv.1 (ht ▸ List.mem_map_of_mem hkv)
  exact ⟨hnone s h.keys, hnone s₀ rfl⟩

/-- When no hit is storing, hits one after the other lead from the one shard to the other. -/
theorem run (checks : Bool) (h : Drifted s₀ s pending)
    (hp : ∀ k, ∀ stage ∈ pending k, stage = .found) :
    ∃ ops rs, (∀ op ∈ ops, ∃ key : κ, op = .get (hash key) (key == ·)) ∧
      Outcome.run (Shard.step checks) s₀ ops = .ok rs s := by
  refine Shard.run_all_hits checks s₀.storedKeys h.buckets h.sizeCurrent h.sizeCapacity h.keys
    (fun k => ?_) fun k hk => ?_
  · cases he : s.entries.get? k with
    | some e =>
      obtain ⟨e₀, he₀, hdrift⟩ := h.entries k e he
      obtain ⟨j, rfl⟩ := hdrift.settled (hp k)
      exact ⟨j, by rw [he₀, Option.map_some]⟩
    | none =>
      have hk : ∀ a ∈ s₀.storedKeys, (k == a) = false := by
        intro a ha
        rw [← h.keys] at ha
        obtain ⟨kv, hkv, rfl⟩ := List.mem_map.mp ha
        exact HashMap.get?_eq_none_iff.mp he kv hkv
      exact ⟨0, by rw [(h.get?_eq_none hk).2, Option.map_none]⟩
  · obtain ⟨hs, hs₀⟩ := h.get?_eq_none fun a ha => BEq.comm.trans (hk a ha)
    rw [hs, hs₀]

end Drifted

/-! ## Where calls come from -/

variable [Hashable κ] [NeZero n] {p : CallOp κ ν w → Prop} {i : Fin n}

/-- An operation of shard `i` that is part of a call which may be started, or a lookup. -/
def ShardOp.From (p : CallOp κ ν w → Prop) (i : Fin n) : ShardOp κ ν w → Prop
  | .insert key entry => getShard w n (hash key) = i ∧ p (.insert key entry)
  | .remove key => getShard w n (hash key) = i ∧ p (.remove key)
  | .drain => p .clear
  | .get _ _ => True
  | .clear => False

/-- An action that is part of a call which may be started. -/
def Action.From (p : CallOp κ ν w → Prop) : Action κ ν w n → Prop
  | .insert key entry => p (.insert key entry)
  | .remove key => p (.remove key)
  | .drain _ => p .clear
  | _ => True

omit [BEq κ] [Hashable κ] [NeZero n] in
theorem Action.from_of_onShard {a : Action κ ν w n} (h : a.onShard = false) : a.From p := by
  cases a <;> simp [onShard, From] at h ⊢

omit [BEq κ] [Hashable κ] [NeZero n] in
theorem CallOp.from_actions {op : CallOp κ ν w} (hop : p op) :
    ∀ a ∈ (op.actions : List (Action κ ν w n)), a.From p := by
  cases op with
  | insert key entry | remove key =>
    intro a ha
    obtain rfl := List.mem_singleton.mp ha
    exact hop
  | clear =>
    intro a ha
    simp only [actions, List.mem_append, List.mem_map] at ha
    rcases ha with ⟨j, -, rfl⟩ | ⟨u, -, rfl⟩
    · exact hop
    · trivial

variable [EquivBEq κ] [LawfulHashable κ] {checks : Bool} {cap : BitVec w}

/-- A run of such operations leads from the empty shard to `s`. -/
def Serial (checks : Bool) (p : CallOp κ ν w → Prop) (i : Fin n) (cap : BitVec w)
    (s : Shard κ ν w) : Prop :=
  ∃ ops rs, Outcome.run (Shard.step checks) (.new cap) ops = .ok rs s ∧ ∀ op ∈ ops, op.From p i

namespace Serial

variable {s t : Shard κ ν w} {pending : κ → List Stage}

theorem start : Serial checks p i cap (.new cap) := ⟨[], [], rfl, by simp⟩

theorem append (h : Serial checks p i cap s) {ops : List (ShardOp κ ν w)}
    {rs : List (ShardReply κ ν w)} (hrun : Outcome.run (Shard.step checks) s ops = .ok rs t)
    (hops : ∀ op ∈ ops, op.From p i) : Serial checks p i cap t := by
  obtain ⟨ops₀, rs₀, hrun₀, hops₀⟩ := h
  refine ⟨ops₀ ++ ops, rs₀ ++ rs, Outcome.run_append_eq_ok.mpr ⟨_, _, _, hrun₀, hrun, rfl⟩, ?_⟩
  exact fun op hop => (List.mem_append.mp hop).elim (hops₀ op) (hops op)

theorem step (h : Serial checks p i cap s) (op : ShardOp κ ν w) {r : ShardReply κ ν w}
    (hstep : Shard.step checks s op = .ok r t) (hop : op.From p i) : Serial checks p i cap t := by
  have hrun : Outcome.run (Shard.step checks) s [op] = .ok [r] t :=
    Outcome.run_cons_eq_ok.mpr ⟨r, t, [], hstep, rfl, rfl⟩
  exact h.append hrun fun op' hop' => List.mem_singleton.mp hop' ▸ hop

theorem drifted (h : Serial checks p i cap s) (hdrift : Drifted s t pending)
    (hp : ∀ k, ∀ stage ∈ pending k, stage = .found) : Serial checks p i cap t := by
  obtain ⟨ops, rs, hops, hrun⟩ := hdrift.run checks hp
  refine h.append hrun fun op hop => ?_
  obtain ⟨key, rfl⟩ := hops op hop
  trivial

end Serial

namespace System

variable {c : Cache κ ν w n} {locked : Fin n → Bool} {a : Action κ ν w n} {e : Effect κ ν w n}

/-- An action on a shard is one of its operations. -/
theorem perform_serial (h : perform checks c locked a = some e) (ha : a.From p)
    (hi : a.lock = some i) (hs : Serial checks p i cap (c.shards i)) :
    Serial checks p i cap (e.cache.shards i) := by
  cases a with
  | insert key entry =>
    obtain rfl := Option.some.inj hi
    obtain ⟨⟨old, stats, evicted⟩, s', hins, hcache⟩ := perform_insert_shard h
    rw [hcache, Cache.shards_setShard, Function.update_self]
    exact hs.step (.insert key entry) (Outcome.bind_eq_ok.mpr ⟨_, _, hins, rfl⟩) ⟨rfl, ha⟩
  | remove key =>
    obtain rfl := Option.some.inj hi
    obtain ⟨r, s', hrem, hcache⟩ := perform_remove_shard h
    rw [hcache, Cache.shards_setShard, Function.update_self]
    exact hs.step (.remove key) (Outcome.bind_eq_ok.mpr ⟨_, _, hrem, rfl⟩) ⟨rfl, ha⟩
  | drain j =>
    obtain rfl := Option.some.inj hi
    have hcache : e.cache.shards j = (c.shards j).drain.2 := by
      rw [perform_drain h]
      exact Function.update_self j _ c.shards
    rw [hcache]
    exact hs.step .drain rfl ha
  | enter key u | update u | unlock j | hook h' => cases hi

/-- The actions in flight are part of calls that were started. -/
theorem step_from {s t : System κ ν w n} {choice : Choice κ ν w n} {shown : List (Event κ ν w)}
    (hs : ∀ a ∈ s.inFlight, a.From p) (hchoice : choice.Starts p)
    (h : step checks s choice = some (shown, t)) : ∀ a ∈ t.inFlight, a.From p := by
  intro b hb
  rcases step_inFlight h with ⟨op, rfl, -, hf⟩ | ⟨-, hf⟩ | ⟨j, a, rest, e, -, -, he, -, hf, hf'⟩ |
    ⟨i, key, clockBit, frequency, -, hf⟩
  · rw [hf] at hb
    exact (List.mem_append.mp hb).elim (hs b) (CallOp.from_actions hchoice b)
  · exact hs b (hf.symm.subset hb)
  · rcases List.mem_append.mp (hf'.subset hb) with hnew | hold
    · exact Action.from_of_onShard (perform_adds he b hnew)
    · exact hs b (hf.symm.subset (List.mem_cons_of_mem a hold))
  · exact hs b (hf ▸ hb)

end System

/-! ## Lookups in progress -/

/-- How far a hit on `k` has come. -/
def Phase.stageAt (k : κ) : Phase κ ν → Option Stage
  | .found key stage => if key == k then some stage else none
  | _ => none

namespace Reader

variable {r : Reader κ ν} {c : Cache κ ν w n} {locked : Fin n → Bool} {e : Reading κ ν w n}

omit [EquivBEq κ] [LawfulHashable κ] in
/-- A lookup writes to its own shard only. -/
theorem Performs.shards_of_ne (h : r.Performs c locked e) (hi : r.shard w n ≠ i) :
    e.cache.shards i = c.shards i := by
  cases h with
  | mark hp | store hp => exact Function.update_of_ne (Ne.symm hi) _ _
  | countHit hp | countMiss hp => rw [Cache.shards_apply]
  | _ => rfl

omit [Hashable κ] [EquivBEq κ] [LawfulHashable κ] in
theorem shard_modify (r : Reader κ ν) (c : Cache κ ν w n) (key : κ) (f : Entry ν w → Entry ν w) :
    (r.modify c key f).shards (r.shard w n) = { c.shards (r.shard w n) with
      entries := (c.shards (r.shard w n)).entries.modify key f } :=
  Function.update_self _ _ _

/-- In its own shard each of its three accesses is one of a hit. -/
theorem Performs.drifted {s₀ : Shard κ ν w} {before after : κ → List Stage}
    (h : r.Performs c locked e)
    (hd : Drifted s₀ (c.shards (r.shard w n)) fun k =>
      before k ++ ((r.phase.stageAt k).toList ++ after k)) :
    Drifted s₀ (e.cache.shards (r.shard w n)) fun k =>
      before k ++ ((e.phase.bind (Phase.stageAt k)).toList ++ after k) := by
  cases h with
  | find hp hk hsome =>
    refine hd.congr fun k en e₀ _ hdrift => hdrift.congr fun stage hne => ?_
    rw [hp, Option.bind_some, Phase.stageAt]
    split <;> simp [hne, Phase.stageAt]
  | @mark key hp =>
    rw [shard_modify]
    refine hd.modify fun k en e₀ hdrift => ?_
    rw [hp, Phase.stageAt] at hdrift
    exact hdrift.splice fun _ _ hrest => hrest.mark
  | @load key en hp hen =>
    refine hd.congr fun k en' e₀ hen' hdrift => ?_
    rw [hp, Phase.stageAt] at hdrift
    rw [← ite_self (c := (key == k) = true) en']
    refine hdrift.splice fun hk _ hrest => ?_
    rw [HashMap.get?_congr hk, hen'] at hen
    obtain rfl := Option.some.inj hen
    exact hrest.load
  | @store key freq hp =>
    rw [shard_modify]
    refine hd.modify fun k en e₀ hdrift => ?_
    rw [hp, Phase.stageAt] at hdrift
    have hstored : Drift e₀ (if key == k then en.increment freq else en)
        (before k ++ ((if key == k then none else none).toList ++ after k)) :=
      hdrift.splice fun _ _ hrest => hrest.store
    rwa [ite_self] at hstored
  | countHit hp | countMiss hp =>
    rw [Cache.shards_apply]
    rwa [hp] at hd
  | lock hp | test hp | miss hp | guard hp | clone hp | drop hp | finish hp => rwa [hp] at hd

end Reader

/-- The lookup is between two of its three accesses. -/
def Phase.storing : Phase κ ν → Bool
  | .found _ .marked | .found _ (.loaded _) => true
  | _ => false

omit [Hashable κ] [EquivBEq κ] [LawfulHashable κ] in
theorem Phase.stage_eq_found {phase : Phase κ ν} {k : κ} {stage : Stage}
    (hphase : phase.storing = false) (h : phase.stageAt k = some stage) : stage = .found := by
  unfold stageAt at h
  split at h
  · split at h
    · cases h
      cases stage with
      | found => rfl
      | marked | loaded f => cases hphase
    · cases h
  · cases h

namespace Shared

/-- How far the hits on `k` in shard `i` have come. -/
def pendingAt (w : Nat) (readers : List (Reader κ ν)) (i : Fin n) (k : κ) : List Stage :=
  readers.filterMap fun r => if r.shard w n = i then r.phase.stageAt k else none

omit [Hashable κ] [EquivBEq κ] [LawfulHashable κ] in
theorem pendingAt_split {before after : List (Reader κ ν)} {r : Option (Reader κ ν)} {k : κ} :
    pendingAt w (before ++ r.toList ++ after) i k = pendingAt w before i k ++
      ((r.bind fun r => if r.shard w n = i then r.phase.stageAt k else none).toList ++
        pendingAt w after i k) := by
  rw [List.append_assoc, pendingAt, List.filterMap_append, List.filterMap_append]
  cases r with
  | none => rfl
  | some r =>
    rw [Option.bind_some]
    cases h : if r.shard w n = i then r.phase.stageAt k else none <;>
      simp [pendingAt, h]

/-- The invariant: since the last call that changed it every shard was only read. -/
structure Serialized (checks : Bool) (p : CallOp κ ν w → Prop) (cap : BitVec w)
    (s : Shared κ ν w n) : Prop where
  inFlight : ∀ a ∈ s.system.inFlight, a.From p
  shards : ∀ i, ∃ s₀, Serial checks p i cap s₀ ∧
    Drifted s₀ (s.system.cache.shards i) (pendingAt w s.readers i)

variable {s t : Shared κ ν w n} {move : Move κ ν w} {shown : List (CacheNote κ ν w)}

theorem Serialized.quiet (hs : Serialized checks p cap s)
    (hquiet : ∀ r ∈ s.readers, r.shard w n = i → r.phase.storing = false) :
    Serial checks p i cap (s.system.cache.shards i) := by
  obtain ⟨s₀, hserial, hdrift⟩ := hs.shards i
  refine hserial.drifted hdrift fun k stage hstage => ?_
  obtain ⟨r, hr, hstage⟩ := List.mem_filterMap.mp hstage
  split at hstage
  · next hi => exact Phase.stage_eq_found (hquiet r hr hi) hstage
  · cases hstage

omit [EquivBEq κ] [LawfulHashable κ] in
/-- Whoever takes the lock finds no hit in progress. -/
theorem quiet_of_lock {j : Nat} {a : Action κ ν w n} (hfree : s.blocked j = false)
    (hnext : s.system.next j = some a) (hlock : a.lock = some i) :
    ∀ r ∈ s.readers, r.shard w n = i → r.phase = .waiting := by
  rintro r hr rfl
  cases hphase : r.phase with
  | waiting => rfl
  | _ =>
    exact absurd hlock (not_blocked hfree hnext hr (by rw [hphase]; rfl))

/-- The actions in flight are part of calls that were started, whatever is looked up. -/
theorem step_from (hs : ∀ a ∈ s.system.inFlight, a.From p) (hmove : move.Starts p)
    (h : Shared.step checks s move = some (shown, t)) : ∀ a ∈ t.system.inFlight, a.From p := by
  rcases step_cases h with ⟨op, rfl, -, rfl⟩ | ⟨j, events, system, rfl, -, hstep, -, rfl⟩ |
    ⟨op, -, -, rfl⟩ | ⟨before, r, after, e, -, -, -, -, rfl⟩
  · have hstart : s.system.step checks (.start op) = some ([], s.system.begin op) := rfl
    refine System.step_from hs ?_ hstart
    exact hmove
  · exact System.step_from hs (by trivial) hstep
  · exact hs
  · exact hs

theorem Serialized.advance (hs : Serialized checks p cap s) {j : Nat}
    {events : List (Event κ ν w)} {system : System κ ν w n} (hfree : s.blocked j = false)
    (h : s.system.step checks (.advance j) = some (events, system)) (i : Fin n) :
    ∃ s₀, Serial checks p i cap s₀ ∧
      Drifted s₀ (system.cache.shards i) (pendingAt w s.readers i) := by
  rcases System.step_cases h with ⟨op, hmove, -⟩ | ⟨j', call, -, -, -, -, rfl⟩ |
    ⟨j', call, a, todo, e, hmove, hj, htodo, he, -, rfl⟩ | ⟨i, key, _, _, hmove, -⟩
  · cases hmove
  · exact hs.shards i
  · cases hmove
    have hnext : s.system.next j = some a := by simp [System.next, hj, htodo]
    have hfrom : a.From p := hs.inFlight a (System.mem_inFlight_of_next hnext)
    by_cases hlock : a.lock = some i
    · -- the hits up to here are over
      have hwaiting := quiet_of_lock hfree hnext hlock
      have hserial : Serial checks p i cap (s.system.cache.shards i) :=
        hs.quiet fun r hr hi => by rw [hwaiting r hr hi]; rfl
      refine ⟨_, System.perform_serial he hfrom hlock hserial, .refl _ fun k => ?_⟩
      refine List.filterMap_eq_nil_iff.mpr fun r hr => ?_
      split
      · next hi => rw [hwaiting r hr hi]; rfl
      · rfl
    · obtain ⟨s₀, hserial, hdrift⟩ := hs.shards i
      refine ⟨s₀, hserial, ?_⟩
      have hshard := (System.perform_local he hlock).1
      exact (congrArg (Drifted s₀ · (pendingAt w s.readers i)) hshard).mpr hdrift
  · cases hmove

theorem Serialized.step (hs : Serialized checks p cap s) (hmove : move.Starts p)
    (h : Shared.step checks s move = some (shown, t)) : Serialized checks p cap t := by
  refine ⟨step_from hs.inFlight hmove h, fun i => ?_⟩
  rcases step_cases h with ⟨op, -, -, rfl⟩ | ⟨j, events, system, -, hfree, hstep, -, rfl⟩ |
    ⟨op, -, -, rfl⟩ | ⟨before, r, after, e, -, hreaders, he, -, rfl⟩
  · exact hs.shards i
  · exact hs.advance hfree hstep i
  · obtain ⟨s₀, hserial, hdrift⟩ := hs.shards i
    refine ⟨s₀, hserial, hdrift.congr fun k en e₀ _ hd => ?_⟩
    have hsame : pendingAt w (s.readers ++ [⟨op, .waiting⟩]) i k = pendingAt w s.readers i k := by
      simp [pendingAt, Phase.stageAt]
    exact hsame ▸ hd
  · obtain ⟨s₀, hserial, hdrift⟩ := hs.shards i
    have hreaders' : s.readers = before ++ (some r).toList ++ after := by simp [hreaders]
    have hold : ∀ k, pendingAt w s.readers i k = pendingAt w before i k ++
        ((if r.shard w n = i then r.phase.stageAt k else none).toList ++
          pendingAt w after i k) := fun k => by rw [hreaders', pendingAt_split]; rfl
    have hnew : ∀ k, pendingAt w (before ++ (e.phase.map (Reader.mk r.op)).toList ++ after) i k =
        pendingAt w before i k ++ ((if r.shard w n = i then e.phase.bind (Phase.stageAt k)
          else none).toList ++ pendingAt w after i k) := fun k => by
      rw [pendingAt_split]
      cases e.phase with
      | none => split <;> rfl
      | some phase => rfl
    refine ⟨s₀, hserial, ?_⟩
    rw [funext hold] at hdrift
    show Drifted s₀ (e.cache.shards i) _
    rw [funext hnew]
    by_cases hi : r.shard w n = i
    · subst hi
      simp only [if_pos] at hdrift ⊢
      exact he.drifted hdrift
    · simp only [if_neg hi] at hdrift ⊢
      rwa [he.shards_of_ne hi]

theorem serialized {maxSizeBytes : BitVec w} {trace : List (CacheNote κ ν w)}
    (h : Execution (Shared.step checks) (fun _ move => move.Starts p) (start maxSizeBytes)
      trace s) : Serialized checks p (Cache.sizePerShard maxSizeBytes n) s :=
  h.state_invariant ⟨by simp [start, System.start, System.inFlight],
    fun i => ⟨_, .start, .refl _ fun _ => rfl⟩⟩ fun _ _ _ _ hs hmove hstep => hs.step hmove hstep

/-- Every shard is in a state of its own sequential runs. In every interleaving in which no call
panics, a shard in which
no lookup is between its three accesses is what some run of operations on the empty shard
leads to: insertions, removals and drains of calls that were started, and hits one after the other.
In particular this holds whenever a call is about to take the lock of the shard, so what is true of
a call on every reachable shard is true of every call in every interleaving. -/
theorem shards_serial {maxSizeBytes : BitVec w} {trace : List (CacheNote κ ν w)}
    (h : Execution (stepOrPanic checks) (fun s move => s.Calm checks move ∧ move.Starts p)
      (start maxSizeBytes) trace s) (i : Fin n)
    (hquiet : (∀ r ∈ s.readers, r.shard w n = i → r.phase.storing = false) ∨
      ∃ j a, s.system.next j = some a ∧ a.lock = some i ∧ s.blocked j = false) :
    ∃ ops rs, Outcome.run (Shard.step checks) (.new (Cache.sizePerShard maxSizeBytes n)) ops =
      .ok rs (s.system.cache.shards i) ∧ ∀ op ∈ ops, op.From p i := by
  refine (serialized (execution_of_calm (fun _ _ hmove => hmove) h)).quiet ?_
  rcases hquiet with hquiet | ⟨j, a, hnext, hlock, hfree⟩
  · exact hquiet
  · intro r hr hi
    rw [quiet_of_lock hfree hnext hlock r hr hi]
    rfl

/-- Two lookups that both load a frequency of 0: the second store undoes the first. -/
def racing : List (Move Nat Nat 8) :=
  .start (.insert 0 (.new 7 3 .standard)) :: List.replicate 5 (.advance 0) ++
    List.replicate 2 (.look ⟨.getClone, hash 0, (0 == ·)⟩) ++
    (List.replicate 5 [.read 0, .read 1]).flatten

theorem shards_serial_racing :
    ∃ trace, ∃ s : Shared Nat Nat 8 2,
      Execution (stepOrPanic true) (fun s move => s.Calm true move ∧ move.Starts fun _ => True)
        (start 20) trace s ∧
      s.readers.length = 2 ∧
      ((s.system.cache.shards 0).entries.get? 0).map Entry.frequency = some 1 ∧
      ∃ ops rs, Outcome.run (Shard.step true) (.new (Cache.sizePerShard 20 2)) ops =
        .ok rs (s.system.cache.shards 0) ∧ ∀ op ∈ ops, op.From (fun _ => True) (0 : Fin 2) := by
  have hfacts : ((Execution.play (stepOrPanic true)
      (fun s move => s.Calm true move ∧ move.Starts fun _ => True)
      (start 20 : Shared Nat Nat 8 2) racing).map fun r =>
        (r.2.readers.length, r.2.readers.all fun r => !r.phase.storing,
          ((r.2.system.cache.shards 0).entries.get? 0).map Entry.frequency)) =
      some (2, true, some 1) := by decide +kernel
  obtain ⟨⟨trace, s⟩, hplay, hs⟩ := Option.map_eq_some_iff.mp hfacts
  simp only [Prod.mk.injEq] at hs
  obtain ⟨hreaders, hquiet, hfrequency⟩ := hs
  have hrun := Execution.of_play hplay
  refine ⟨trace, s, hrun, hreaders, hfrequency, shards_serial hrun 0 (.inl fun r hr _ => ?_)⟩
  simpa using List.all_eq_true.mp hquiet r hr

end Shared

end PriorityLfu
