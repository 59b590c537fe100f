import Mathlib.Algebra.BigOperators.Ring.Finset
import Mathlib.Algebra.Order.BigOperators.Group.Finset

/-!
# Owners that share

Owners have something of their own, and shares in things that others may have shares in, too.
Accounts of each owner `alone` count such a thing for everyone who shares in it; what there is
`together` counts it once. The accounts are never too low, and too high by no more than the largest
number of owners of one thing.
-/
namespace Sharing

variable {ι π : Type*} [DecidableEq π] (own : ι → Nat) (shares : ι → Finset π) (weight : π → Nat)

/-- The account of one owner. -/
def alone (v : ι) : Nat := own v + ∑ p ∈ shares v, weight p

/-- What some of the owners share in. -/
def shared (vs : List ι) : Finset π := vs.foldr (fun v s => shares v ∪ s) ∅

/-- What all owners have. -/
def together (vs : List ι) : Nat := (vs.map own).sum + ∑ p ∈ shared shares vs, weight p

/-- How many of the owners share in `p`. -/
def owners (vs : List ι) (p : π) : Nat := vs.countP fun v => p ∈ shares v

variable {own shares weight} {vs : List ι}

theorem mem_shared {p : π} : p ∈ shared shares vs ↔ ∃ v ∈ vs, p ∈ shares v := by
  induction vs with
  | nil => simp [shared]
  | cons v vs ih =>
    have hcons : shared shares (v :: vs) = shares v ∪ shared shares vs := rfl
    simp [hcons, ih]

theorem owners_pos {p : π} : 0 < owners shares vs p ↔ p ∈ shared shares vs := by
  rw [owners, List.countP_pos_iff, mem_shared]
  simp

omit [DecidableEq π] in
theorem sum_alone : (vs.map (alone own shares weight)).sum =
    (vs.map own).sum + (vs.map fun v => ∑ p ∈ shares v, weight p).sum :=
  List.sum_map_add

/-- The shares of all owners, sorted by what they are in. -/
theorem sum_shares : (vs.map fun v => ∑ p ∈ shares v, weight p).sum =
    ∑ p ∈ shared shares vs, owners shares vs p * weight p := by
  suffices hall : ∀ s : Finset π, (∀ v ∈ vs, shares v ⊆ s) →
      (vs.map fun v => ∑ p ∈ shares v, weight p).sum = ∑ p ∈ s, owners shares vs p * weight p from
    hall _ fun v hv p hp => mem_shared.mpr ⟨v, hv, hp⟩
  intro s hs
  induction vs with
  | nil => simp [owners]
  | cons v vs ih =>
    have hv : ∑ p ∈ shares v, weight p = ∑ p ∈ s, if p ∈ shares v then weight p else 0 := by
      rw [Finset.sum_ite_mem, Finset.inter_eq_right.mpr (hs v List.mem_cons_self)]
    rw [List.map_cons, List.sum_cons, ih fun u hu => hs u (List.mem_cons_of_mem _ hu), hv,
      ← Finset.sum_add_distrib]
    refine Finset.sum_congr rfl fun p _ => ?_
    by_cases hp : p ∈ shares v
    · simp [owners, hp, add_mul, add_comm]
    · simp [owners, hp]

/-- The accounts are not too low. -/
theorem together_le : together own shares weight vs ≤ (vs.map (alone own shares weight)).sum := by
  rw [sum_alone, sum_shares]
  refine Nat.add_le_add_left (Finset.sum_le_sum fun p hp => ?_) _
  exact Nat.le_mul_of_pos_left _ (owners_pos.mpr hp)

/-- Where nothing has more than `k` owners they are at most `k` times too high. -/
theorem sum_alone_le {k : Nat} (hk : 0 < k) (h : ∀ p, owners shares vs p ≤ k) :
    (vs.map (alone own shares weight)).sum ≤ k * together own shares weight vs := by
  rw [sum_alone, sum_shares, together, Nat.mul_add, Finset.mul_sum]
  refine Nat.add_le_add (Nat.le_mul_of_pos_left _ hk) (Finset.sum_le_sum fun p _ => ?_)
  exact Nat.mul_le_mul_right _ (h p)

/-! ## Accounts recorded before -/

/-- By how much `f` is above `g`, where it is. -/
def excess {ε : Type*} (f g : ε → Nat) (es : List ε) : Nat := (es.map fun e => f e - g e).sum

theorem sum_le_add_excess {ε : Type*} (f g : ε → Nat) (es : List ε) :
    (es.map f).sum ≤ (es.map g).sum + excess f g es := by
  rw [excess, ← List.sum_map_add]
  exact List.sum_le_sum fun e _ => by omega

theorem excess_eq_zero {ε : Type*} {f g : ε → Nat} {es : List ε} (h : ∀ e ∈ es, f e ≤ g e) :
    excess f g es = 0 := by
  refine List.sum_eq_zero fun x hx => ?_
  obtain ⟨e, he, rfl⟩ := List.mem_map.mp hx
  exact Nat.sub_eq_zero_of_le (h e he)

end Sharing
