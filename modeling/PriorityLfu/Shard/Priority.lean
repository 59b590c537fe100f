import PriorityLfu.Shard.Run

/-!
# Priority of eviction

The eviction loop turns to a bucket only when every bucket of larger discriminant is empty,
and no eviction fills one. So the victims come in the order of the loop, and what was
evicted leaves nothing of lower retention priority behind.
-/
namespace PriorityLfu
open Keyed

variable {κ ν : Type} {w : Nat} [BEq κ] [Hashable κ] [EquivBEq κ] [LawfulHashable κ]

namespace Shard

variable {checks : Bool} {needed : BitVec w} {s t : Shard κ ν w} {vs : List (Eviction κ ν w)}
  {out : κ → Bool}

namespace Evictions

/-- Every bucket below an evicted entry's is empty at the end. -/
theorem lower_empty (h : Evictions checks needed s vs t) (hl : s.Linked out)
    {v : Eviction κ ν w} (hv : v ∈ vs) {q : CachePolicy}
    (hq : v.victim.entry.policy.discriminant < q.discriminant) : (t.buckets q).len = 0 := by
  induction h with
  | nil => cases hv
  | cons _ higher call rest ih =>
    obtain ⟨he, -⟩ := evicts_of_call hl call
    obtain rfl | hv := List.mem_cons.mp hv
    · have hp := he.policy_eq hl
      have hs := higher q (hp ▸ hq)
      have hne : q ≠ _ := fun h => Nat.lt_irrefl _ (h ▸ hp ▸ hq)
      refine rest.empty_bucket (he.linked hl) ?_
      rw [he.buckets, Function.update_of_ne hne, hs]
    · exact ih (he.linked hl) hv

/-- No victim has a larger discriminant than one before it. -/
theorem sorted (h : Evictions checks needed s vs t) (hl : s.Linked out) :
    vs.Pairwise fun a b =>
      b.victim.entry.policy.discriminant ≤ a.victim.entry.policy.discriminant := by
  induction h with
  | nil => exact .nil
  | @cons s s₁ _ p _ _ _ higher call rest ih =>
    obtain ⟨he, -⟩ := evicts_of_call hl call
    have hl₁ := he.linked hl
    refine .cons (fun v hv => ?_) (ih hl₁)
    rw [he.policy_eq hl]
    by_contra hlt
    -- the later victim is in a bucket that is empty already
    obtain ⟨hc, ho, -⟩ := rest.victim hl₁ hv
    have hpol : s₁.policyOf v.victim.key = some v.victim.entry.policy := by
      rw [policyOf, hc]
      rfl
    have hpos := hl₁.bucket_nonempty hpol ho
    have hs := higher v.victim.entry.policy (by omega)
    have hne : v.victim.entry.policy ≠ p := fun h => hlt (Nat.le_of_eq (congrArg _ h))
    rw [he.buckets, Function.update_of_ne hne, hs] at hpos
    exact Nat.lt_irrefl _ hpos

end Evictions

/-- The victims of an insertion come in the order Volatile, Standard, Critical. An evicted
entry leaves none of larger discriminant but the inserted one in the shard; so an evicted
Critical entry means that every other Volatile and Standard entry was evicted. -/
theorem eviction_respects_priority {cap : BitVec w} (hs : s.Reachable checks cap) {key : κ}
    {entry : Entry ν w} {old : Option (Entry ν w)} {stats : EvictionStats w}
    {evicted : List (EvictedEntry κ ν w)}
    (h : s.insert checks key entry = .ok (old, stats, evicted) t) :
    evicted.Pairwise (fun a b => b.entry.policy.discriminant ≤ a.entry.policy.discriminant) ∧
      (∀ v ∈ evicted, ∀ k e, (key == k) = false → t.entries.get? k = some e →
        e.policy.discriminant ≤ v.entry.policy.discriminant) ∧
      ((∃ v ∈ evicted, v.entry.policy = .critical) → ∀ k e, (key == k) = false →
        s.entries.get? k = some e → e.policy ≠ .critical →
        ∃ v ∈ evicted, (v.key == k) = true) := by
  have hl := hs.linked
  obtain ⟨d, u, vs, hsteps, -, rfl, -⟩ := insert_cases hl h
  have hd := hsteps.linked_detached hl
  have hu := hsteps.evictions.linked hd
  have hlower : ∀ v ∈ vs, ∀ k p, (key == k) = false → t.policyOf k = some p →
      p.discriminant ≤ v.victim.entry.policy.discriminant := by
    intro v hv k p hk hp
    by_contra hlt
    have hpu : u.policyOf k = some p := by rwa [policyOf, ← hsteps.contentOf_of_ne hk, ← policyOf]
    have hpos := hu.bucket_nonempty hpu hk
    rw [hsteps.evictions.lower_empty hd hv (by omega)] at hpos
    exact Nat.lt_irrefl _ hpos
  refine ⟨List.pairwise_map.mpr (hsteps.evictions.sorted hd), ?_, ?_⟩
  · rintro _ hv k e hk he
    obtain ⟨v, hmem, rfl⟩ := List.mem_map.mp hv
    exact hlower v hmem k e.policy hk (policyOf_of_get? he)
  · rintro ⟨_, hv, hcrit⟩ k e hk he hne
    obtain ⟨v, hmem, rfl⟩ := List.mem_map.mp hv
    by_contra hnot
    -- an entry that was not evicted is still there, below Critical
    have hkeep : ∀ v ∈ vs, (v.victim.key == k) = false := fun v hv => by
      simpa using fun hk => hnot ⟨v.victim, List.mem_map_of_mem hv, hk⟩
    have hpt : t.policyOf k = some e.policy := by
      rw [policyOf, hsteps.contentOf_frame hl hk hkeep, ← policyOf, policyOf_of_get? he]
    have hle := hlower v hmem k e.policy hk hpt
    rw [hcrit] at hle
    cases hp : e.policy <;> simp_all [CachePolicy.discriminant]

/-- Three entries of size 1, one of each policy. -/
def onePerPolicy : List (ShardOp Nat Unit 8) :=
  [.insert 0 (.new () 1 .critical), .insert 1 (.new () 1 .volatile),
    .insert 2 (.new () 1 .standard)]

/-- An insertion of size 2 into a full shard evicts the Volatile and the Standard entry, in
this order. -/
theorem eviction_respects_priority_two :
    ∃ rs s old stats evicted t, Outcome.run (step true) (new 3) onePerPolicy = .ok rs s ∧
      s.insert true 3 (.new () 2 .critical) = .ok (old, stats, evicted) t ∧
      evicted.map (·.key) = [1, 2] ∧
      evicted.Pairwise fun a b => b.entry.policy.discriminant ≤ a.entry.policy.discriminant := by
  obtain ⟨rs, s, hrun⟩ : ∃ rs s, Outcome.run (step true) (new 3) onePerPolicy = .ok rs s :=
    ⟨_, _, rfl⟩
  have hkeys : ((Outcome.run (step true) (new 3) onePerPolicy).bind fun _ s =>
      s.insert true 3 (.new () 2 .critical)).value?.map (fun r => r.2.2.map (·.key)) =
        some [1, 2] := by decide +kernel
  rw [hrun, Outcome.bind_ok] at hkeys
  obtain ⟨⟨old, stats, evicted⟩, hvalue, hkeys⟩ := Option.map_eq_some_iff.mp hkeys
  obtain ⟨t, hins⟩ := Outcome.value?_eq_some.mp hvalue
  exact ⟨rs, s, old, stats, evicted, t, hrun, hins, hkeys,
    (eviction_respects_priority ⟨onePerPolicy, rs, hrun⟩ hins).1⟩

end Shard

end PriorityLfu
