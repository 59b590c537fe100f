import Mathlib.Algebra.Order.BigOperators.Group.List
import PriorityLfu.Cache.Totals

/-!
# The two counters in natural numbers

What an update adds to a counter and what it takes off it, as numbers without a sign. As
long as neither leaves the word, the updates of an operation add up to the change of what is
stored; the signed difference of a replacement either adds or takes off.
-/
namespace PriorityLfu
open Keyed

variable {κ ν : Type} {w n : Nat} [BEq κ]

/-- The global counters. -/
inductive Gauge where
  | bytes | entries
  deriving DecidableEq, Repr

instance {p : Gauge → Prop} [Decidable (p .bytes)] [Decidable (p .entries)] :
    Decidable (∀ g, p g) :=
  decidable_of_iff (p .bytes ∧ p .entries)
    ⟨fun h g => by cases g; exacts [h.1, h.2], fun h => ⟨h _, h _⟩⟩

namespace Gauge

/-- What a stored value of some size counts for. -/
def weight : Gauge → ν × BitVec w × CachePolicy → Nat
  | .bytes, x => x.2.1.toNat
  | .entries, _ => 1

def value : Gauge → Cache κ ν w n → BitVec w
  | .bytes, c => c.currentSize
  | .entries, c => c.entryCount

/-- What a `fetch_add` adds to the counter. -/
def gain : Gauge → Update w → Nat
  | .bytes, .addSize x => x.toNat
  | .entries, .addCount k => k
  | _, _ => 0

/-- What a `fetch_sub` takes off the counter. -/
def loss : Gauge → Update w → Nat
  | .bytes, .subSize x => x.toNat
  | .entries, .subCount k => k
  | _, _ => 0

@[simp] theorem value_setShard (g : Gauge) (c : Cache κ ν w n) (i : Fin n) (s : Shard κ ν w) :
    g.value (c.setShard i s) = g.value c := by cases g <;> rfl

/-- An update that leaves the counter in its range is exact. -/
theorem value_apply (g : Gauge) {c : Cache κ ν w n} {u : Update w}
    (hloss : g.loss u ≤ (g.value c).toNat) (hgain : (g.value c).toNat + g.gain u < 2 ^ w) :
    (g.value (c.apply u)).toNat + g.loss u = (g.value c).toNat + g.gain u := by
  have hcast : ∀ {k : Nat}, k ≤ (g.value c).toNat ∨ (g.value c).toNat + k < 2 ^ w →
      (BitVec.ofNat w k).toNat = k := fun {k} hk => by
    rw [BitVec.toNat_ofNat, Nat.mod_eq_of_lt]
    have := (g.value c).isLt
    omega
  cases g <;> cases u <;> simp only [gain, loss, value, Cache.apply] at * <;> try rfl
  · exact Word.toNat_add_fits hgain
  · rw [Word.toNat_sub_fits hloss]
    omega
  · rw [Word.toNat_add_fits] <;> rw [hcast (.inr hgain)]
    · rfl
    · exact hgain
  · rw [Word.toNat_sub_fits] <;> rw [hcast (.inl hloss)]
    · omega
    · exact hloss

/-! ## Lists of updates -/

def gains (g : Gauge) (us : List (Update w)) : Nat := (us.map g.gain).sum

def losses (g : Gauge) (us : List (Update w)) : Nat := (us.map g.loss).sum

@[simp] theorem gains_nil (g : Gauge) : g.gains ([] : List (Update w)) = 0 := rfl
@[simp] theorem losses_nil (g : Gauge) : g.losses ([] : List (Update w)) = 0 := rfl

@[simp] theorem gains_cons (g : Gauge) (u : Update w) (us : List (Update w)) :
    g.gains (u :: us) = g.gain u + g.gains us := List.sum_cons

@[simp] theorem losses_cons (g : Gauge) (u : Update w) (us : List (Update w)) :
    g.losses (u :: us) = g.loss u + g.losses us := List.sum_cons

theorem gain_eq_zero (g : Gauge) {us : List (Update w)} (h : g.gains us = 0) {u : Update w}
    (hu : u ∈ us) : g.gain u = 0 :=
  List.sum_eq_zero_iff.mp h _ (List.mem_map_of_mem hu)

/-- The updates for an inserted entry account for the difference to the entry it replaces,
and do not both add and take off. -/
theorem insertUpdates_exact (g : Gauge) {checks : Bool} {entry : Entry ν w}
    {old : Option (Entry ν w)} {us : List (Update w)}
    (hnear : ∀ e ∈ old, Word.Near entry.size e.size)
    (h : insertUpdates checks entry.size old = some us) :
    g.gains us + ((old.map Entry.content).map g.weight).getD 0 =
        g.weight entry.content + g.losses us ∧
      (g.gains us = 0 ∨ g.losses us = 0) := by
  cases old with
  | none =>
    cases h
    cases g <;> simp [gain, loss, weight, Entry.content]
  | some e =>
    obtain ⟨diff, hdiff, h⟩ := Option.bind_eq_some_iff.mp h
    obtain rfl := Word.eq_ssub hdiff
    have hpos := Word.slt_sub_iff (hnear e rfl)
    have hlt := e.size.isLt
    split at h
    · next hslt =>
      cases h
      have hle := hpos.mp hslt
      cases g
      · simp only [gains_cons, losses_cons, gain, loss, weight, Entry.content, Option.map_some,
          Option.getD_some, gains_nil, losses_nil, Word.toNat_sub_fits hle.le, or_true, and_true]
        omega
      · simp [gain, loss, weight]
    · next hslt =>
      obtain ⟨neg, hneg, rfl⟩ := Option.map_eq_some_iff.mp h
      obtain rfl := Word.eq_neg hneg
      have hle : entry.size.toNat ≤ e.size.toNat := Nat.le_of_not_lt fun hlt => hslt (hpos.mpr hlt)
      cases g
      · simp only [gains_cons, losses_cons, gain, loss, weight, Entry.content, Option.map_some,
          Option.getD_some, gains_nil, losses_nil, neg_sub, Word.toNat_sub_fits hle, true_or,
          and_true]
        omega
      · simp [gain, loss, weight]

/-- The updates for the victims take off what the victims count for. -/
theorem evictUpdates_exact (g : Gauge) {vs : List (Eviction κ ν w)}
    (hfits : Shard.weighVictims g.weight vs < 2 ^ w) :
    g.gains (evictUpdates ⟨vs.length, Shard.evictedSize vs⟩) = 0 ∧
      g.losses (evictUpdates ⟨vs.length, Shard.evictedSize vs⟩) =
        Shard.weighVictims g.weight vs := by
  cases vs with
  | nil => cases g <;> simp [evictUpdates, Shard.weighVictims]
  | cons v vs =>
    have hcount : (v :: vs).length > 0 := Nat.succ_pos _
    rw [evictUpdates, if_pos hcount]
    cases g
    · have hsize : (Shard.evictedSize (v :: vs)).toNat =
          Shard.weighVictims (weight .bytes) (v :: vs) := by
        have hcast := congrArg BitVec.toNat (Shard.cast_weighVictims (v :: vs))
        rw [BitVec.natCast_eq_ofNat, BitVec.toNat_ofNat] at hcast
        exact hcast.symm.trans (Nat.mod_eq_of_lt hfits)
      simp [gain, loss, hsize]
    · have hlength := Shard.weighVictims_one (v :: vs)
      simp only [gains_cons, losses_cons, gain, loss, gains_nil, losses_nil, true_and]
      exact hlength.symm

theorem removeUpdates_exact (g : Gauge) (e : Entry ν w) :
    g.gains (removeUpdates e) = 0 ∧ g.losses (removeUpdates e) = g.weight e.content := by
  cases g <;> simp [removeUpdates, gain, loss, weight, Entry.content]

/-- The updates for a drained shard take off all it held. -/
theorem drainUpdates_exact [Hashable κ] [NeZero n] (g : Gauge) {c : Cache κ ν w n} (hc : c.Routed)
    (i : Fin n) (hfits : (c.shards i).weigh g.weight < 2 ^ w) :
    g.gains (drainUpdates (c.drainShard i).1.2.1 (c.drainShard i).1.2.2) = 0 ∧
      g.losses (drainUpdates (c.drainShard i).1.2.1 (c.drainShard i).1.2.2) =
        (c.shards i).weigh g.weight := by
  cases g
  · have hsize : (c.drainShard i).1.2.1.toNat = (c.shards i).weigh (weight .bytes) := by
      have hcast := congrArg BitVec.toNat
        ((Shard.cast_totalSize (c.shards i)).trans (hc.total i).symm)
      rw [BitVec.natCast_eq_ofNat, BitVec.toNat_ofNat, Shard.totalSize_eq] at hcast
      exact hcast.symm.trans (Nat.mod_eq_of_lt hfits)
    simp [drainUpdates, gain, loss, hsize]
  · have hlength := Shard.len_eq_weigh (c.shards i)
    simp only [drainUpdates, gains_cons, losses_cons, gain, loss, gains_nil, losses_nil, true_and]
    exact (Nat.zero_add _).trans hlength

end Gauge

end PriorityLfu
