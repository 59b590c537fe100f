import Mathlib.Tactic.LinearCombination
import PriorityLfu.Shard.Insert

/-!
# Runs of shard operations

The operations of a shard as one step function, the runs from an empty shard, and what
every operation that returns preserves whatever the sizes are: the links between table and
buckets, the capacity, and the total of the sizes as a word.
-/
namespace PriorityLfu
open Keyed

/-- A call on a shard. A lookup is given by the hash it probes and the keys it accepts. -/
inductive ShardOp (κ ν : Type) (w : Nat) where
  | insert (key : κ) (entry : Entry ν w)
  | get (hash : UInt64) (equals : κ → Bool)
  | remove (key : κ)
  | drain
  | clear

/-- What a call on a shard returns. -/
inductive ShardReply (κ ν : Type) (w : Nat) where
  | inserted (old : Option (Entry ν w)) (stats : EvictionStats w)
      (evicted : List (EvictedEntry κ ν w))
  | got (entry : Option (Entry ν w))
  | removed (entry : Option (κ × Entry ν w))
  | drained (entries : List (EvictedEntry κ ν w)) (size : BitVec w) (count : Nat)
  | cleared

/-- The entries a call evicted. -/
def ShardReply.evicted {κ ν : Type} {w : Nat} : ShardReply κ ν w → List (EvictedEntry κ ν w)
  | .inserted _ _ evicted => evicted
  | _ => []

variable {κ ν : Type} {w : Nat} [BEq κ] [Hashable κ] [EquivBEq κ] [LawfulHashable κ]

namespace Shard

def step (checks : Bool) (s : Shard κ ν w) :
    ShardOp κ ν w → Outcome (Shard κ ν w) (ShardReply κ ν w)
  | .insert key entry =>
    (s.insert checks key entry).bind fun (old, stats, evicted) s =>
    .ok (.inserted old stats evicted) s
  | .get hash equals =>
    let (entry, s) := s.getHash hash equals
    .ok (.got entry) s
  | .remove key => (s.remove checks key).bind fun r s => .ok (.removed r) s
  | .drain =>
    let ((entries, size, count), s) := s.drain
    .ok (.drained entries size count) s
  | .clear => .ok .cleared s.clear

/-- The states that runs of calls that all return lead to from an empty shard. What a call that
panics leaves behind is not among them. -/
def Reachable (checks : Bool) (cap : BitVec w) (s : Shard κ ν w) : Prop :=
  ∃ ops rs, Outcome.run (step checks) (new cap) ops = .ok rs s

variable {checks : Bool} {s t : Shard κ ν w}

/-! ## Lookups -/

/-- A change of access statistics only. -/
theorem contentOf_modify {f : Entry ν w → Entry ν w} (hf : ∀ e, (f e).content = e.content)
    (s : Shard κ ν w) (key k : κ) :
    ({ s with entries := s.entries.modify key f } : Shard κ ν w).contentOf k = s.contentOf k := by
  simp only [contentOf, HashMap.get?_modify]
  split
  · rw [Option.map_map]
    congr 1
    funext e
    exact hf e
  · rfl

/-- A lookup changes access statistics only. -/
theorem contentOf_getHash (s : Shard κ ν w) (hash : UInt64) (equals : κ → Bool) (k : κ) :
    (s.getHash hash equals).2.contentOf k = s.contentOf k := by
  unfold getHash
  split
  · rfl
  · exact contentOf_modify Entry.content_touch s _ k

omit [EquivBEq κ] [LawfulHashable κ] in
theorem contents_getHash (s : Shard κ ν w) (hash : UInt64) (equals : κ → Bool) :
    (s.getHash hash equals).2.contents = s.contents := by
  unfold getHash
  split
  · rfl
  · exact HashMap.map_values_modify Entry.content_touch _ _

omit [EquivBEq κ] [LawfulHashable κ] in
theorem getHash_frame (s : Shard κ ν w) (hash : UInt64) (equals : κ → Bool) :
    (s.getHash hash equals).2.buckets = s.buckets ∧
      (s.getHash hash equals).2.sizeCurrent = s.sizeCurrent ∧
      (s.getHash hash equals).2.sizeCapacity = s.sizeCapacity := by
  unfold getHash
  split <;> exact ⟨rfl, rfl, rfl⟩

/-! ## Removal -/

/-- A removal either finds nothing and changes nothing, or takes the stored entry out. -/
theorem remove_cases {key : κ} {r : Option (κ × Entry ν w)}
    (h : s.remove checks key = .ok r t) :
    (r = none ∧ t = s ∧ s.entries.get? key = none) ∨
      ∃ k₀ e, r = some (k₀, e) ∧ (key == k₀) = true ∧ s.entries.get? key = some e ∧
        t.entries = s.entries.erase key ∧
        t.buckets = Function.update s.buckets e.policy ((s.buckets e.policy).remove k₀).2 ∧
        Word.sub checks s.sizeCurrent e.size = some t.sizeCurrent ∧
        t.sizeCapacity = s.sizeCapacity := by
  unfold remove at h
  split at h
  · next hnone =>
    cases h
    exact .inl ⟨rfl, rfl, HashMap.removeEntry_eq_none.mp hnone⟩
  · next k₀ e entries hsome =>
    obtain ⟨hget, rfl⟩ := HashMap.removeEntry_eq_some.mp hsome
    simp only [Outcome.bind_eq_ok, release_eq_ok, Outcome.ok.injEq] at h
    obtain ⟨_, t', ⟨hsub, ht⟩, rfl, rfl⟩ := h
    refine .inr ⟨k₀, e, rfl, (HashMap.split_of_getEntry? hget).1, by simp [HashMap.get?, hget],
      ?_, ?_, hsub, ?_⟩ <;> rw [ht]

/-- The same removal, seen through the links between table and buckets. -/
theorem remove_linked {key k₀ : κ} {e : Entry ν w} (hl : s.Linked nowhere)
    (hk : (key == k₀) = true) (hget : s.entries.get? key = some e)
    (he : t.entries = s.entries.erase key)
    (hb : t.buckets = Function.update s.buckets e.policy ((s.buckets e.policy).remove k₀).2) :
    t.Linked nowhere := by
  have hpol : s.policyOf k₀ = some e.policy := by
    rw [← policyOf_congr hk, policyOf_of_get? hget]
  have hmid := hl.takeOut hpol
    { t with entries := s.entries.erase k₀ } rfl hb
  refine hmid.of_content (fun k => ?_) rfl
  simp only [contentOf, he, HashMap.get?_erase, BEq.congr_left hk]

omit [Hashable κ] [EquivBEq κ] [LawfulHashable κ] in
theorem contents_erase [Hashable κ] [EquivBEq κ] [LawfulHashable κ] {key : κ} {e : Entry ν w}
    (hget : s.entries.get? key = some e) (he : t.entries = s.entries.erase key) :
    s.contents.Perm (e.content :: t.contents) := by
  have := (HashMap.perm_erase hget).map Entry.content
  rwa [← he] at this

/-! ## Clearing -/

omit [EquivBEq κ] [LawfulHashable κ] in
theorem linked_clear (s : Shard κ ν w) : s.clear.Linked nowhere where
  mem p k := by simp [clear, policyOf, contentOf]
  hand p := PolicyBucket.handOk_clear (s.buckets p)

/-! ## Without overflow checks every call returns -/

omit [Hashable κ] [LawfulHashable κ] in
theorem release_unchecked (s : Shard κ ν w) (p : CachePolicy) (key : κ) (size : BitVec w) :
    ∃ t, s.release false p key size = .ok () t := by
  simp [release]

omit [LawfulHashable κ] in
theorem evictFromBucket_unchecked (s : Shard κ ν w) (p : CachePolicy) :
    ∃ r t, s.evictFromBucket false p = .ok r t := by
  have htake : ∀ (s : Shard κ ν w) (key : κ), ∃ r t, s.takeVictim false p key = .ok r t := by
    intro s key
    unfold takeVictim
    split
    · exact ⟨none, s, rfl⟩
    · next e entries _ =>
      obtain ⟨t, ht⟩ := release_unchecked { s with entries } p key e.size
      rw [ht]
      exact ⟨_, _, rfl⟩
  unfold evictFromBucket
  dsimp only
  split
  · exact ⟨_, _, rfl⟩
  · split
    · exact ⟨_, _, rfl⟩
    · exact htake _ _
    · split
      · exact ⟨_, _, rfl⟩
      · exact htake _ _

omit [LawfulHashable κ] in
theorem evictWhile_unchecked (needed : BitVec w) (p : CachePolicy) (rounds : Nat) (s : Shard κ ν w)
    (stats : EvictionStats w) (evicted : List (EvictedEntry κ ν w)) :
    ∃ r t, evictWhile false needed p rounds s stats evicted = .ok r t := by
  induction rounds generalizing s stats evicted with
  | zero =>
    rw [evictWhile, Word.add_unchecked, Outcome.check_some, Outcome.bind_ok]
    split <;> exact ⟨_, _, rfl⟩
  | succ rounds ih =>
    rw [evictWhile, Word.add_unchecked, Outcome.check_some, Outcome.bind_ok]
    obtain ⟨r, t, hr⟩ := evictFromBucket_unchecked s p
    rw [hr]
    split
    · cases r with
      | none => exact ⟨_, _, rfl⟩
      | some e =>
        simp only [Outcome.bind_ok, Word.add_unchecked, Outcome.check_some]
        exact ih _ _ _
    · exact ⟨_, _, rfl⟩

omit [LawfulHashable κ] in
theorem evictBuckets_unchecked (needed : BitVec w) (ps : List CachePolicy) (s : Shard κ ν w)
    (stats : EvictionStats w) (evicted : List (EvictedEntry κ ν w)) :
    ∃ r t, evictBuckets false needed ps s stats evicted = .ok r t := by
  induction ps generalizing s stats evicted with
  | nil => exact ⟨_, _, rfl⟩
  | cons p ps ih =>
    obtain ⟨⟨stats', evicted'⟩, t, ht⟩ :=
      evictWhile_unchecked needed p s.entries.len s stats evicted
    simp only [evictBuckets, ht, Outcome.bind_ok, Word.add_unchecked, Outcome.check_some]
    split
    · exact ⟨_, _, rfl⟩
    · exact ih _ _ _

theorem insert_unchecked (s : Shard κ ν w) (key : κ) (entry : Entry ν w) :
    ∃ r t, s.insert false key entry = .ok r t := by
  obtain ⟨d, hd⟩ : ∃ d, s.detach false key = .ok () d := by
    unfold detach
    split
    · exact ⟨s, rfl⟩
    · exact release_unchecked _ _ _ _
  obtain ⟨⟨stats, evicted⟩, t, ht⟩ := evictBuckets_unchecked entry.size
    CachePolicy.evictionOrder d ⟨0, 0⟩ []
  have hev : d.evictUntilSpace false entry.size = .ok (stats, evicted) t := ht
  simp [insert, hd, hev, setBucket]

omit [LawfulHashable κ] in
theorem remove_unchecked (s : Shard κ ν w) (key : κ) : ∃ r t, s.remove false key = .ok r t := by
  unfold remove
  split
  · exact ⟨_, _, rfl⟩
  · next k₀ e entries _ =>
    obtain ⟨t, ht⟩ := release_unchecked { s with entries } e.policy k₀ e.size
    rw [ht]
    exact ⟨_, _, rfl⟩

/-! ## Every operation -/

theorem step_linked {op : ShardOp κ ν w} {r : ShardReply κ ν w} (hl : s.Linked nowhere)
    (h : step checks s op = .ok r t) : t.Linked nowhere := by
  cases op with
  | insert key entry =>
    obtain ⟨⟨old, stats, evicted⟩, t', hi, ht⟩ := Outcome.bind_eq_ok.mp h
    cases ht
    obtain ⟨d, u, vs, hsteps, -⟩ := insert_cases hl hi
    exact hsteps.linked hl
  | get hash equals =>
    cases h
    exact hl.of_content (contentOf_getHash s hash equals) (getHash_frame s hash equals).1
  | remove key =>
    obtain ⟨r', t', hr, ht⟩ := Outcome.bind_eq_ok.mp h
    cases ht
    rcases remove_cases hr with ⟨-, rfl, -⟩ | ⟨k₀, e, -, hk, hget, he, hb, -, -⟩
    · exact hl
    · exact remove_linked hl hk hget he hb
  | drain => cases h; exact linked_clear s
  | clear => cases h; exact linked_clear s

theorem step_sizeCapacity {op : ShardOp κ ν w} {r : ShardReply κ ν w} (hl : s.Linked nowhere)
    (h : step checks s op = .ok r t) : t.sizeCapacity = s.sizeCapacity := by
  cases op with
  | insert key entry =>
    obtain ⟨⟨old, stats, evicted⟩, t', hi, ht⟩ := Outcome.bind_eq_ok.mp h
    cases ht
    obtain ⟨d, u, vs, hsteps, -⟩ := insert_cases hl hi
    exact hsteps.sizeCapacity_eq hl
  | get hash equals => cases h; exact (getHash_frame s hash equals).2.2
  | remove key =>
    obtain ⟨r', t', hr, ht⟩ := Outcome.bind_eq_ok.mp h
    cases ht
    rcases remove_cases hr with ⟨-, rfl, -⟩ | ⟨k₀, e, -, -, -, -, -, -, hcap⟩
    · rfl
    · exact hcap
  | drain => cases h; rfl
  | clear => cases h; rfl

theorem Reachable.linked {cap : BitVec w} (h : s.Reachable checks cap) : s.Linked nowhere := by
  obtain ⟨ops, rs, hrun⟩ := h
  exact Outcome.run_invariant (fun _ _ _ _ hl hs => step_linked hl hs) (linked_new _ cap) hrun

theorem Reachable.sizeCapacity {cap : BitVec w} (h : s.Reachable checks cap) :
    s.sizeCapacity = cap := by
  obtain ⟨ops, rs, hrun⟩ := h
  refine (Outcome.run_invariant (P := fun s => s.Linked nowhere ∧ s.sizeCapacity = cap)
    (fun _ _ _ _ hP hs => ?_) ⟨linked_new _ cap, rfl⟩ hrun).2
  exact ⟨step_linked hP.1 hs, (step_sizeCapacity hP.1 hs).trans hP.2⟩

/-! ## The total as a word -/

/-- The sizes of all entries. -/
def sizes (s : Shard κ ν w) : List (BitVec w) := s.entries.values.map Entry.size

/-- The exact sum of the sizes of all entries. -/
def totalSize (s : Shard κ ν w) : Nat := (s.entries.values.map fun e => e.size.toNat).sum

omit [Hashable κ] [EquivBEq κ] [LawfulHashable κ] in
theorem sizes_eq (s : Shard κ ν w) : s.sizes = s.contents.map (·.2.1) := by
  simp [sizes, contents, Function.comp_def, Entry.content]

omit [Hashable κ] [EquivBEq κ] [LawfulHashable κ] in
theorem totalSize_eq (s : Shard κ ν w) :
    s.totalSize = (s.contents.map (·.2.1.toNat)).sum := by
  simp [totalSize, contents, Function.comp_def, Entry.content]

/-- What an insertion does to the sum of sizes. -/
theorem InsertSteps.sum_sizes {key : κ} {entry : Entry ν w} {d u : Shard κ ν w}
    {vs : List (Eviction κ ν w)} (h : InsertSteps checks key entry s d u vs t)
    (hl : s.Linked nowhere) :
    ((s.entries.get? key).map Entry.size).getD 0 + (evictedSize vs + t.sizes.sum) =
      entry.size + s.sizes.sum := by
  have := ((h.perm_contents hl).map (·.2.1)).sum_eq
  simp only [List.map_append, List.map_map, List.sum_append, List.map_cons, List.sum_cons,
    ← sizes_eq] at this
  cases hget : s.entries.get? key <;>
    simpa [hget, evictedSize, Entry.content, Function.comp_def] using this

/-- Through an insertion the running total stays the sum of the sizes, in modular
arithmetic. -/
theorem InsertSteps.balanced {key : κ} {entry : Entry ν w} {d u : Shard κ ν w}
    {vs : List (Eviction κ ν w)} (h : InsertSteps checks key entry s d u vs t)
    (hl : s.Linked nowhere) (hs : s.sizeCurrent = s.sizes.sum) : t.sizeCurrent = t.sizes.sum := by
  have hsum := h.sum_sizes hl
  rw [h.sizeCurrent_eq hl, hs]
  linear_combination -hsum

/-- The same through a removal. -/
theorem remove_balanced {key : κ} {e : Entry ν w} (hs : s.sizeCurrent = s.sizes.sum)
    (hget : s.entries.get? key = some e) (he : t.entries = s.entries.erase key)
    (hsub : Word.sub checks s.sizeCurrent e.size = some t.sizeCurrent) :
    t.sizeCurrent = t.sizes.sum := by
  have := ((contents_erase hget he).map (·.2.1)).sum_eq
  rw [List.map_cons, List.sum_cons, ← sizes_eq, ← sizes_eq] at this
  rw [Word.eq_sub hsub, hs, this]
  simp [Entry.content]

omit [EquivBEq κ] [LawfulHashable κ] in
/-- And through a lookup. -/
theorem getHash_balanced (hs : s.sizeCurrent = s.sizes.sum) (hash : UInt64) (equals : κ → Bool) :
    (s.getHash hash equals).2.sizeCurrent = (s.getHash hash equals).2.sizes.sum := by
  rw [(getHash_frame s hash equals).2.1, hs, sizes_eq, sizes_eq, contents_getHash]

theorem step_balanced {op : ShardOp κ ν w} {r : ShardReply κ ν w} (hl : s.Linked nowhere)
    (hs : s.sizeCurrent = s.sizes.sum) (h : step checks s op = .ok r t) :
    t.sizeCurrent = t.sizes.sum := by
  cases op with
  | insert key entry =>
    obtain ⟨⟨old, stats, evicted⟩, t', hi, ht⟩ := Outcome.bind_eq_ok.mp h
    cases ht
    obtain ⟨d, u, vs, hsteps, -⟩ := insert_cases hl hi
    exact hsteps.balanced hl hs
  | get hash equals => cases h; exact getHash_balanced hs hash equals
  | remove key =>
    obtain ⟨r', t', hr, ht⟩ := Outcome.bind_eq_ok.mp h
    cases ht
    rcases remove_cases hr with ⟨-, rfl, -⟩ | ⟨k₀, e, -, -, hget, he, -, hsub, -⟩
    · exact hs
    · exact remove_balanced hs hget he hsub
  | drain => cases h; rfl
  | clear => cases h; rfl

theorem Reachable.balanced {cap : BitVec w} (h : s.Reachable checks cap) :
    s.sizeCurrent = s.sizes.sum := by
  obtain ⟨ops, rs, hrun⟩ := h
  refine (Outcome.run_invariant (P := fun s => s.Linked nowhere ∧ s.sizeCurrent = s.sizes.sum)
    (fun _ _ _ _ hP hs => ?_) ⟨linked_new _ cap, rfl⟩ hrun).2
  exact ⟨step_linked hP.1 hs, step_balanced hP.1 hP.2 hs⟩

end Shard

end PriorityLfu
