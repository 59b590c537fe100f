import PriorityLfu.Shard.Capacity

/-!
# Evictions are minimal

An insertion first releases the size of the entry it replaces and then evicts only while
the rest and the new entry are more than the capacity. `FreesJustEnough` says so of what an
insertion returns, by the exact sums; it follows from the condition under which each call
of `evict_from_bucket` is made (`Evictions`), and the sums are those of the running total
while they fit in a word.
-/
namespace PriorityLfu
open Keyed

variable {κ ν : Type} {w : Nat}

/-- The exact total size of evicted entries. -/
def freed (evicted : List (EvictedEntry κ ν w)) : Nat := (evicted.map (·.entry.size.toNat)).sum

@[simp] theorem freed_nil : freed ([] : List (EvictedEntry κ ν w)) = 0 := rfl
@[simp] theorem freed_cons (e : EvictedEntry κ ν w) (es : List (EvictedEntry κ ν w)) :
    freed (e :: es) = e.entry.size.toNat + freed es := by simp [freed]

namespace Shard

variable [BEq κ] [Hashable κ]

/-- `size_current` without the entry that an insertion of `key` replaces. -/
def kept (s : Shard κ ν w) (key : κ) : Nat := s.sizeCurrent.toNat - s.sizeAt key

/-- The evictions of an insertion that leads from `s` to `t` are all needed, are enough, and
are reported as they are. -/
structure FreesJustEnough (s : Shard κ ν w) (key : κ) (entry : Entry ν w)
    (stats : EvictionStats w) (evicted : List (EvictedEntry κ ν w)) (t : Shard κ ν w) :
    Prop where
  /-- The differences below are not cut off at 0. -/
  covered : s.sizeAt key ≤ s.sizeCurrent.toNat ∧ freed evicted ≤ s.kept key
  needed : ∀ i < evicted.length,
    s.sizeCapacity.toNat < s.kept key - freed (evicted.take i) + entry.size.toNat
  enough : s.kept key - freed evicted + entry.size.toNat ≤ s.sizeCapacity.toNat ∨
    ∀ kv ∈ t.entries.toList, (key == kv.1) = true
  distinct : evicted.Pairwise fun a b => (a.key == b.key) = false
  former : ∀ e ∈ evicted, (key == e.key) = false ∧ s.contentOf e.key = some e.entry.content
  count : stats.count = evicted.length
  size : stats.size.toNat = freed evicted

variable [EquivBEq κ] [LawfulHashable κ] {checks : Bool} {s d t : Shard κ ν w} {key : κ}
  {entry : Entry ν w} {vs : List (Eviction κ ν w)} {needed : BitVec w}

/-- Each eviction was needed when it was made. -/
theorem Evictions.each_needed (h : Evictions checks needed s vs t) (hs : s.Evicting key)
    (hfits : s.sizeCurrent.toNat + needed.toNat < 2 ^ w) {i : Nat} (hi : i < vs.length) :
    s.sizeCapacity.toNat <
      s.sizeCurrent.toNat - freed ((vs.map (·.victim)).take i) + needed.toNat := by
  induction h generalizing i with
  | nil => cases hi
  | @cons s s₁ _ _ v _ full _ call _ ih =>
    obtain ⟨he, -⟩ := evicts_of_call hs.linked call
    obtain ⟨hs₁, hsize⟩ := he.evicting hs
    cases i with
    | zero =>
      obtain ⟨total, hadd, hlt⟩ := full
      have hsum := Word.toNat_add_fits hfits
      rw [← Word.eq_add hadd] at hsum
      have : s.sizeCapacity.toNat < total.toNat := hlt
      simpa [hsum] using this
    | succ i =>
      have hrest := ih hs₁ (by omega) (Nat.lt_of_succ_lt_succ hi)
      rw [he.sizeCapacity] at hrest
      simp only [List.map_cons, List.take_succ_cons, freed_cons]
      omega

/-- An insertion evicts fewer entries than the table has, if it replaces one. -/
theorem InsertSteps.length_lt {u : Shard κ ν w} (h : InsertSteps checks key entry s d t vs u)
    (hl : s.Linked nowhere) {old : Entry ν w} (hold : s.entries.get? key = some old) :
    vs.length < s.entries.len := by
  have hlen := (h.perm_contents hl).length_eq
  have hu : 0 < u.contents.length := by
    have := List.length_pos_of_mem (HashMap.mem_values_of_get? h.get?_key)
    simpa [contents] using this
  simp [hold, contents] at hlen hu
  omega

/-- The evictions of any insertion whose sizes fit. -/
theorem InsertSteps.freesJustEnough {u : Shard κ ν w} (hs : s.Sound)
    (h : InsertSteps checks key entry s d t vs u)
    (hfits : s.sizeCurrent.toNat + entry.size.toNat < 2 ^ w) :
    s.FreesJustEnough key entry ⟨vs.length, evictedSize vs⟩ (vs.map (·.victim)) u := by
  have hl := hs.linked
  obtain ⟨hd, hkept⟩ := detach_evicting hl hs.size h.detach
  obtain ⟨ht, hfreed⟩ := h.evictions.evicting hd
  have hcap : d.sizeCapacity = s.sizeCapacity := (detach_cases hl h.detach).2.2.1
  have hfreed' : t.sizeCurrent.toNat + freed (vs.map (·.victim)) = s.kept key := by
    rw [kept, ← hkept, ← hfreed, freed, List.map_map]
    rfl
  have hsize := hs.size
  have hat := sizeAt_le s key
  have hle : s.kept key ≤ s.sizeCurrent.toNat := Nat.sub_le _ _
  refine ⟨⟨by omega, by omega⟩, fun i hi => ?_, ?_, ?_, ?_, by simp, ?_⟩
  · have hneeded := h.evictions.each_needed hd (by omega) (by simpa using hi)
    rwa [hcap, hkept] at hneeded
  · rcases h.exit with ⟨total, hadd, hle'⟩ | hempty
    · left
      have hsum := Word.toNat_add_fits (x := t.sizeCurrent) (y := entry.size) (by omega)
      have htcap : t.sizeCapacity = s.sizeCapacity := by
        rw [h.evictions.sizeCapacity hd.linked, hcap]
      rw [← Word.eq_add hadd] at hsum
      have : total.toNat ≤ t.sizeCapacity.toNat := hle'
      rw [htcap] at this
      omega
    · right
      intro kv hkv
      rw [h.entries] at hkv
      by_contra hne
      have hne : (key == kv.1) = false := by simpa using hne
      have hget := HashMap.get?_of_mem hkv
      rw [HashMap.get?_put, hne] at hget
      exact Bool.false_ne_true (hne.symm.trans (ht.linked.out_of_empty hempty hget))
  · exact List.pairwise_map.mpr (h.evictions.distinct hd.linked)
  · intro e he
    obtain ⟨v, hv, rfl⟩ := List.mem_map.mp he
    obtain ⟨hc, hne, -⟩ := h.victim hl hv
    exact ⟨hne, hc⟩
  · have hreport : evictedSize vs = d.sizeCurrent - t.sizeCurrent := by
      rw [h.evictions.sizeCurrent hd.linked, sub_sub_cancel]
    show (evictedSize vs).toNat = _
    rw [hreport, Word.toNat_sub_fits (by omega), hkept, ← kept]
    omega

/-- The evictions of every insertion into a reachable shard are needed one by one, are enough
and are reported as they are, as long as the sizes fit. An insertion that fits already, and
one that replaces a value by one that is no larger, evict nothing. -/
theorem insert_evicts_minimally (checks : Bool) {cap : BitVec w} {ops : List (ShardOp κ ν w)}
    {rs : List (ShardReply κ ν w)} (key : κ) (entry : Entry ν w)
    (hfit : SizesFit cap (ops ++ [.insert key entry]))
    (hrun : Outcome.run (step checks) (new cap) ops = .ok rs s) :
    ∃ old stats evicted t, s.insert checks key entry = .ok (old, stats, evicted) t ∧
      s.FreesJustEnough key entry stats evicted t ∧
      (s.kept key + entry.size.toNat ≤ s.sizeCapacity.toNat → evicted = []) ∧
      ∀ e, s.entries.get? key = some e → entry.size ≤ e.size → evicted = [] := by
  obtain ⟨rs', s', hrun', hs, hcap, hstored⟩ := run_fits checks hfit
  rw [hrun] at hrun'
  obtain ⟨rfl, rfl⟩ := Outcome.ok.inj hrun'
  have hx : s.Admits entry.size :=
    ⟨hcap ▸ hfit.capacity _ (by simp [ShardOp.sizes]),
      fun y hy => hstored y hy _ (by simp [ShardOp.sizes])⟩
  obtain ⟨old, stats, evicted, t, hins, -, -⟩ := insert_returns hs checks key hx
  obtain ⟨d, u, vs, hsteps, -, rfl, rfl⟩ := insert_cases hs.linked hins
  have hmin := hsteps.freesJustEnough hs (hs.fits hx)
  have hfitting : s.kept key + entry.size.toNat ≤ s.sizeCapacity.toNat →
      vs.map (·.victim) = [] := by
    intro hle
    by_contra hne
    have := hmin.needed 0 (List.length_pos_iff.mpr hne)
    simp at this
    omega
  refine ⟨old, _, _, t, hins, hmin, hfitting, fun e he hle => ?_⟩
  have hat : s.sizeAt key = e.size.toNat := by simp [sizeAt, he]
  have hle : entry.size.toNat ≤ e.size.toNat := hle
  rcases hs.bounded with hbound | ⟨e', hall, -⟩
  · have hbound : s.sizeCurrent.toNat ≤ s.sizeCapacity.toNat := hbound
    have := hmin.covered.1
    refine hfitting ?_
    rw [kept]
    omega
  · -- the replaced entry is the only one
    have hlen : s.entries.len = 1 := by rw [← HashMap.length_values, hall, List.length_singleton]
    have := hsteps.length_lt hs.linked he
    rw [List.map_eq_nil_iff]
    exact List.eq_nil_of_length_eq_zero (by omega)

/-- Four entries of size 2, one of them looked up. -/
def packed : List (ShardOp Nat Unit 8) :=
  [.insert 0 (.new () 2 .standard), .insert 1 (.new () 2 .volatile),
    .insert 2 (.new () 2 .standard), .insert 3 (.new () 2 .standard), .get (hash 0) (0 == ·)]

/-- Replacing a value of size 2 by one of size 5 in a full shard of capacity 8 evicts the
Volatile entry and one Standard entry. -/
theorem insert_evicts_minimally_packed : ∃ rs s old stats evicted t,
    Outcome.run (step true) (new 8) packed = .ok rs s ∧
      s.insert true 3 (.new () 5 .standard) = .ok (old, stats, evicted) t ∧
      evicted.map (·.key) = [1, 2] ∧
      s.FreesJustEnough 3 (.new () 5 .standard) stats evicted t := by
  have hkeys : ((Outcome.run (step true) (new 8) packed).bind fun _ s =>
      s.insert true 3 (.new () 5 .standard)).value?.map (fun r => r.2.2.map (·.key)) =
        some [1, 2] := by decide +kernel
  obtain ⟨⟨old, stats, evicted⟩, hvalue, hkeys⟩ := Option.map_eq_some_iff.mp hkeys
  obtain ⟨t, hins⟩ := Outcome.value?_eq_some.mp hvalue
  obtain ⟨rs, s, hrun, hins⟩ := Outcome.bind_eq_ok.mp hins
  obtain ⟨old', stats', evicted', t', hins', hmin, -⟩ :=
    insert_evicts_minimally true 3 (.new () 5 .standard) ⟨by decide, by decide⟩ hrun
  rw [hins] at hins'
  cases hins'
  exact ⟨rs, s, old, stats, evicted, t, hrun, hins, hkeys, hmin⟩

end Shard

end PriorityLfu
