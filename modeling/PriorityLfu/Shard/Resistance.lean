import PriorityLfu.Shard.Clock
import PriorityLfu.Shard.Starvation

/-!
# What accesses buy an entry

A set clock bit and every unit of frequency are each one more chance: a sweep takes at most one
unit of warmth from an entry, and it evicts a warm entry only when every entry of the bucket is
warm. So an entry outlives as many evictions from its bucket as it is warm, or it goes by
force, and lookups in between only add to that.
-/
namespace PriorityLfu
open Keyed

variable {κ ν : Type} {w : Nat}

theorem Entry.warmth_eq_zero {e : Entry ν w} (h : e.cold = true) : e.warmth = 0 := by
  have hbit : e.clockBit = false ∧ e.frequency = 0 := by simpa [cold] using h
  simp [warmth, hbit]

/-- A hit never makes an entry less warm. -/
theorem Entry.warmth_le_touch (e : Entry ν w) : e.warmth ≤ e.touch.warmth := by
  have hbit : e.clockBit.toNat ≤ 1 := Bool.toNat_le _
  unfold touch warmth
  dsimp only
  split
  · next hlt =>
    have hnext : (e.frequency + 1).toNat = e.frequency.toNat + 1 := by
      have : e.frequency.toNat < 255 := UInt8.lt_iff_toNat_lt.mp hlt
      rw [UInt8.toNat_add]
      exact Nat.mod_eq_of_lt (by simpa using by omega)
    simp only [hnext, Bool.toNat_true]
    omega
  · simp only [Bool.toNat_true]
    omega

variable [BEq κ] [Hashable κ]

/-- The call does not insert or remove `k`; it may look it up. -/
def ShardOp.keeps (k : κ) : ShardOp κ ν w → Bool
  | .insert key _ | .remove key => !(key == k)
  | .get _ _ => true
  | .drain | .clear => false

namespace Eviction

/-- The eviction was from bucket `b`. -/
def leaves (b : CachePolicy) (v : Eviction κ ν w) : Bool := v.victim.entry.policy == b

/-- No entry of the bucket was cold, so that the eviction was forced. -/
def Forced (v : Eviction κ ν w) : Prop :=
  ∀ a ∈ (v.before.buckets v.victim.entry.policy).list.keys, isCold v.before.entries a = false

end Eviction

/-- How the entry `e` of `k` fares through the evictions `vs`: it is still there, with at most
one unit of warmth lost to each of them from its bucket; or it was evicted after as many of
them as it was warm, or by force. -/
def Resists (k : κ) (e : Entry ν w) (vs : List (Eviction κ ν w)) (left : Option (Entry ν w)) :
    Prop :=
  (∃ e', left = some e' ∧ e'.policy = e.policy ∧
    e.warmth ≤ e'.warmth + vs.countP (·.leaves e.policy)) ∨
  ∃ before v after, vs = before ++ v :: after ∧ (v.victim.key == k) = true ∧
    (e.warmth ≤ before.countP (·.leaves e.policy) ∨ v.Forced)

/-- First the one list of evictions, then the other. -/
theorem Resists.trans {k : κ} {e : Entry ν w} {vs vs' : List (Eviction κ ν w)}
    {left left' : Option (Entry ν w)} (h : Resists k e vs left)
    (h' : ∀ e', left = some e' → Resists k e' vs' left') : Resists k e (vs ++ vs') left' := by
  rcases h with ⟨e', rfl, hpol, hwarm⟩ | ⟨before, v, after, rfl, hkey, hgone⟩
  · rcases h' e' rfl with ⟨e'', hleft, hpol', hwarm'⟩ | ⟨before, v, after, rfl, hkey, hgone⟩
    · refine .inl ⟨e'', hleft, hpol'.trans hpol, ?_⟩
      rw [hpol] at hwarm'
      rw [List.countP_append]
      omega
    · refine .inr ⟨vs ++ before, v, after, by simp, hkey, hgone.imp_left fun hle => ?_⟩
      rw [hpol] at hle
      rw [List.countP_append]
      omega
  · exact .inr ⟨before, v, after ++ vs', by simp, hkey, hgone⟩

variable [EquivBEq κ] [LawfulHashable κ]

namespace Shard

variable {checks : Bool} {needed : BitVec w} {s t : Shard κ ν w} {p : CachePolicy} {k : κ}
  {e : Entry ν w} {out : κ → Bool} {vs : List (Eviction κ ν w)}

/-! ## One eviction -/

namespace Evicts

variable {v : EvictedEntry κ ν w}

/-- A victim was cold, or every entry of its bucket was warm. -/
theorem cold_or_forced (h : s.Evicts p v t) :
    isCold s.entries v.key = true ∨
      ∀ a ∈ (s.buckets p).list.keys, isCold s.entries a = false := by
  cases hdrop : (s.order p).dropWhile (fun k => !isCold s.entries k) with
  | nil =>
    refine .inr fun a ha => ?_
    have := List.dropWhile_eq_nil_iff.mp hdrop a (List.mem_rotate.mpr ha)
    simpa using this
  | cons k after => exact .inl (h.evictsCold hdrop).cold

/-- An entry that is not the victim loses at most one unit of warmth, and only in the bucket of
the eviction. -/
theorem warmth_le (h : s.Evicts p v t) (hl : s.Linked out) (he : s.entries.get? k = some e)
    (hne : (v.key == k) = false) : ∃ e', t.entries.get? k = some e' ∧ e'.policy = e.policy ∧
      e.warmth ≤ e'.warmth + if p = e.policy then 1 else 0 := by
  by_cases hswept : ∃ a ∈ s.swept p, (a == k) = true
  · obtain ⟨a, ha, hak⟩ := hswept
    have hpol : p = e.policy := by
      have hin := IndexSet.contains_of_mem (swept_subset ha)
      have := ((hl.mem p a).mp hin).1
      rw [policyOf_congr hak, policyOf_of_get? he] at this
      exact (Option.some.inj this).symm
    have hwarm : e.cold = false := by
      have := swept_warm ha
      rwa [isCold, HashMap.get?_congr hak, he] at this
    have hage : t.entries.get? k = some e.age := by
      rw [h.get?_spared hne, get?_aged_of_mem (s.swept_distinct p) ha hak, he, Option.map_some]
    have hlost := Entry.warmth_age hwarm
    refine ⟨e.age, hage, Entry.policy_eq (Entry.content_age e), ?_⟩
    rw [if_pos hpol]
    omega
  · have hmiss : ∀ a ∈ s.swept p, (a == k) = false :=
      fun a ha => by simpa using fun hak => hswept ⟨a, ha, hak⟩
    refine ⟨e, ?_, rfl, Nat.le_add_right _ _⟩
    rw [h.untouched hne hmiss, he]

end Evicts

/-! ## One insertion -/

theorem Evictions.resists (h : Evictions checks needed s vs t) (hl : s.Linked out)
    (he : s.entries.get? k = some e) : Resists k e vs (t.entries.get? k) := by
  induction h generalizing e with
  | nil => exact .inl ⟨e, he, rfl, Nat.le_add_right _ _⟩
  | @cons s s₁ _ p v vs _ _ call _ ih =>
    obtain ⟨hv, -⟩ := evicts_of_call hl call
    have hpol := hv.policy_eq hl
    cases hk : v.key == k with
    | false =>
      obtain ⟨e₁, he₁, hpol₁, hle⟩ := hv.warmth_le hl he hk
      have hfirst : Resists k e [⟨s, v⟩] (s₁.entries.get? k) := by
        refine .inl ⟨e₁, he₁, hpol₁, ?_⟩
        simpa [Eviction.leaves, hpol] using hle
      exact hfirst.trans fun e' he' => ih (hv.linked hl) he'
    | true =>
      refine .inr ⟨[], ⟨s, v⟩, vs, rfl, hk, ?_⟩
      rcases hv.cold_or_forced with hcold | hforced
      · left
        have hce : e.cold = true := by
          rwa [isCold, HashMap.get?_congr hk, he] at hcold
        rw [Entry.warmth_eq_zero hce]
        exact Nat.zero_le _
      · right
        show ∀ a ∈ (s.buckets v.entry.policy).list.keys, isCold s.entries a = false
        rwa [hpol]

/-! ## Calls and runs -/

/-- A lookup touches an entry or leaves it alone. -/
theorem get?_getHash (hash : UInt64) (equals : κ → Bool) (he : s.entries.get? k = some e) :
    (s.getHash hash equals).2.entries.get? k = some e ∨
      (s.getHash hash equals).2.entries.get? k = some e.touch := by
  unfold getHash
  split
  · exact .inl he
  · rw [HashMap.get?_modify, he]
    split
    · exact .inr rfl
    · exact .inl rfl

/-- One call of a continuation. -/
theorem StepEvictions.resists {op : ShardOp κ ν w} (h : StepEvictions checks s t op vs)
    (hl : s.Linked nowhere) (he : s.entries.get? k = some e) (hop : op.keeps k = true) :
    Resists k e vs (t.entries.get? k) := by
  cases h with
  | @insert key entry d u vs hsteps =>
    have hne : (key == k) = false := by simpa [ShardOp.keeps] using hop
    have hd := hsteps.linked_detached hl
    have hdk : d.entries.get? k = some e := by rw [(detach_cases hl hsteps.detach).2.1, he]
    rw [hsteps.entries, HashMap.get?_put, hne]
    exact hsteps.evictions.resists hd hdk
  | @other op r hinsert hcall =>
    cases op with
    | insert key entry => exact absurd rfl (hinsert key entry)
    | get hash equals =>
      cases hcall
      refine .inl ?_
      rcases get?_getHash hash equals he with hsame | htouch
      · exact ⟨e, hsame, rfl, Nat.le_add_right _ _⟩
      · exact ⟨e.touch, htouch, Entry.policy_eq (Entry.content_touch e),
          e.warmth_le_touch.trans (Nat.le_add_right _ _)⟩
    | remove key =>
      obtain ⟨r', t', hr, ht⟩ := Outcome.bind_eq_ok.mp hcall
      cases ht
      have hne : (key == k) = false := by simpa [ShardOp.keeps] using hop
      refine .inl ⟨e, ?_, rfl, Nat.le_add_right _ _⟩
      rcases remove_cases hr with ⟨-, rfl, -⟩ | ⟨k₀, e₀, -, -, -, hentries, -, -, -⟩
      · exact he
      · rw [hentries, HashMap.get?_erase, hne, he]
        rfl
    | drain | clear => cases hop

theorem run_resists {ops : List (ShardOp κ ν w)} {rs : List (ShardReply κ ν w)}
    (hl : s.Linked nowhere) (he : s.entries.get? k = some e) (hops : ∀ op ∈ ops, op.keeps k = true)
    (h : Outcome.run (step checks) s ops = .ok rs t) :
    ∃ vs, RunEvictions checks s ops vs t ∧ vs.map (·.victim) = rs.flatMap ShardReply.evicted ∧
      Resists k e vs (t.entries.get? k) := by
  induction ops generalizing s rs e with
  | nil =>
    cases h
    exact ⟨[], .nil _, rfl, .inl ⟨e, he, rfl, Nat.le_add_right _ _⟩⟩
  | cons op ops ih =>
    obtain ⟨r, s', rs', hr, hrs, rfl⟩ := Outcome.run_cons_eq_ok.mp h
    obtain ⟨hop, hops⟩ := List.forall_mem_cons.mp hops
    have hl' := step_linked hl hr
    obtain ⟨vs, hcall, hvs⟩ := exists_stepEvictions hl hr
    have hfirst := hcall.resists hl he hop
    cases hleft : s'.entries.get? k with
    | some e' =>
      obtain ⟨vs', hcalls, hvs', hrest⟩ := ih hl' hleft hops hrs
      refine ⟨vs ++ vs', .cons hcall hcalls, ?_, hfirst.trans fun e₁ he₁ => ?_⟩
      · rw [List.map_append, hvs, hvs', List.flatMap_cons]
      · rw [hleft] at he₁
        cases he₁
        exact hrest
    | none =>
      -- the rest of the run goes on without `k`
      obtain ⟨vs', hcalls, hvs'⟩ := exists_runEvictions hl' hrs
      refine ⟨vs ++ vs', .cons hcall hcalls, ?_, hfirst.trans fun e₁ he₁ => ?_⟩
      · rw [List.map_append, hvs, hvs', List.flatMap_cons]
      · rw [hleft] at he₁
        cases he₁

/-- An entry with clock bit `c` and frequency `f` that is neither inserted again nor removed is
still present after a run, with at least `c + f` less one unit for each entry evicted from its
bucket, or it was evicted: after `c + f` other evictions from its bucket at least, or when no
entry of the bucket was cold. -/
theorem warmth_protects {cap : BitVec w} (hs : s.Reachable checks cap)
    (he : s.entries.get? k = some e) {ops : List (ShardOp κ ν w)} {rs : List (ShardReply κ ν w)}
    (hops : ∀ op ∈ ops, op.keeps k = true) (h : Outcome.run (step checks) s ops = .ok rs t) :
    ∃ vs, RunEvictions checks s ops vs t ∧ vs.map (·.victim) = rs.flatMap ShardReply.evicted ∧
      ((∃ e', t.entries.get? k = some e' ∧ e.clockBit.toNat + e.frequency.toNat ≤
          e'.clockBit.toNat + e'.frequency.toNat + vs.countP (·.leaves e.policy)) ∨
        ∃ before v after, vs = before ++ v :: after ∧ (v.victim.key == k) = true ∧
          (e.clockBit.toNat + e.frequency.toNat ≤ before.countP (·.leaves e.policy) ∨
            v.Forced)) := by
  obtain ⟨vs, hcalls, hvs, hresists⟩ := run_resists hs.linked he hops h
  refine ⟨vs, hcalls, hvs, hresists.imp_left ?_⟩
  rintro ⟨e', hleft, -, hwarm⟩
  exact ⟨e', hleft, hwarm⟩

/-- A resident that was looked up twice, among others. -/
def favourite : List (ShardOp Nat Unit 8) :=
  residents ++ List.replicate 2 (.get (hash 0) (0 == ·))

/-- It outlives three newcomers. -/
theorem warmth_protects_favourite :
    ∃ rs s rs' t vs, Outcome.run (step true) (new 3) favourite = .ok rs s ∧
      Outcome.run (step true) s (newcomers 3) = .ok rs' t ∧
      RunEvictions true s (newcomers 3) vs t ∧
      vs.map (·.victim) = rs'.flatMap ShardReply.evicted ∧
      ((∃ e', t.entries.get? 0 = some e' ∧
          1 + 2 ≤ e'.clockBit.toNat + e'.frequency.toNat + vs.countP (·.leaves .standard)) ∨
        ∃ before v after, vs = before ++ v :: after ∧ (v.victim.key == 0) = true ∧
          (1 + 2 ≤ before.countP (·.leaves .standard) ∨ v.Forced)) := by
  obtain ⟨rs, s, hrun⟩ : ∃ rs s, Outcome.run (step true) (new 3) favourite = .ok rs s :=
    ⟨_, _, rfl⟩
  have hfacts : ((Outcome.run (step true) (new 3) favourite).bind fun _ s =>
      (Outcome.run (step true) s (newcomers 3)).bind fun _ t =>
        .ok (s.entries.get? 0) t).value? =
      some (some ⟨(), 1, .standard, 2, true⟩) := by decide +kernel
  rw [hrun, Outcome.bind_ok] at hfacts
  obtain ⟨_, hstream⟩ := Outcome.value?_eq_some.mp hfacts
  obtain ⟨rs', t, hrun', hvalues⟩ := Outcome.bind_eq_ok.mp hstream
  simp only [Outcome.ok.injEq] at hvalues
  obtain ⟨vs, hcalls, hvs, hresists⟩ :=
    warmth_protects ⟨favourite, rs, hrun⟩ hvalues.1 (by decide) hrun'
  exact ⟨rs, s, rs', t, vs, hrun, hrun', hcalls, hvs, hresists⟩

end Shard

end PriorityLfu
