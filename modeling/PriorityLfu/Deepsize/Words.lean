import PriorityLfu.Deepsize.Basic

/-!
# What a build makes of a call

A call in the words of a build is the call in natural numbers with its result as a word
(`Sizing.fit`): sums of calls, one after the other, keep to this, and a component of any type has an
exact call behind it (`Sizing.exact`).
-/
namespace PriorityLfu.Deepsize

namespace Sizing

variable {checks : Bool} {w : Nat}

/-- The call with its result as a number. -/
def exact (f : Sizing (Usize checks w)) : Sizing Nat := fun held c =>
  (f held c).map fun (x, d) => (x.toNat, d)

/-- The call with its result as a word, or a panic. -/
def fit (f : Sizing Nat) : Sizing (Usize checks w) := fun held c =>
  (f held c).bind fun (n, d) => (Usize.fit n).map fun x => (x, d)

variable {f g : Sizing Nat} {held : Locks} {c d : Context} {x : Usize checks w} {n : Nat}

theorem fit_eq_some : f.fit held c = some (x, d) ↔
    ∃ n, f held c = some (n, d) ∧ Usize.fit n = some x := by
  simp [fit, Option.bind_eq_some_iff]

theorem fit_apply (h : f held c = some (n, d)) :
    (f.fit held c : Option (Usize checks w × Context)) = (Usize.fit n).map fun x => (x, d) := by
  rw [fit, h, Option.bind_some]

theorem fit_exact (f : Sizing (Usize checks w)) : f.exact.fit = f := by
  refine ext_some fun held c x d => ?_
  simp only [fit_eq_some, exact, Option.map_eq_some_iff, Prod.mk.injEq, Prod.exists]
  constructor
  · rintro ⟨n, ⟨y, d', hf, rfl, rfl⟩, hfit⟩
    rw [Usize.fit_toNat] at hfit
    cases hfit
    exact hf
  · intro hf
    exact ⟨x.toNat, ⟨x, d, hf, rfl, rfl⟩, Usize.fit_toNat x⟩

theorem fit_add (f g : Sizing Nat) : ((f + g).fit : Sizing (Usize checks w)) = f.fit + g.fit := by
  refine ext_some fun held c x e => ?_
  simp only [fit_eq_some, apply_add_iff (α := Usize checks w), add_eq_some_iff]
  constructor
  · rintro ⟨_, ⟨a, b, d, hf, hg, rfl⟩, hfit⟩
    rw [← Usize.fit_add] at hfit
    obtain ⟨y, hy, hfit⟩ := Option.bind_eq_some_iff.mp hfit
    obtain ⟨z, hz, hsum⟩ := Option.bind_eq_some_iff.mp hfit
    exact ⟨y, z, d, ⟨a, hf, hy⟩, ⟨b, hg, hz⟩, hsum⟩
  · rintro ⟨y, z, d, ⟨a, hf, hy⟩, ⟨b, hg, hz⟩, hsum⟩
    refine ⟨a + b, ⟨a, b, d, hf, hg, rfl⟩, ?_⟩
    rw [← Usize.fit_add, hy, Option.bind_some, hz]
    exact hsum

theorem fit_const (h : n < 2 ^ w) : ((const n).fit : Sizing (Usize checks w)) = const n := by
  funext held c
  rw [fit_apply (const_apply n held c)]
  exact congrArg _ (Word.fit_of_lt checks h)

theorem exact_const (h : n < 2 ^ w) : (const n : Sizing (Usize checks w)).exact = const n := by
  funext held c
  have hword : (Usize.ofNat n : Usize checks w).toNat = n := by
    rw [Usize.toNat_ofNat, Nat.mod_eq_of_lt h]
  exact congrArg (fun m => some (m, c)) hword

theorem fit_zero : ((0 : Sizing Nat).fit : Sizing (Usize checks w)) = 0 :=
  fit_const (Nat.two_pow_pos w)

theorem fit_sum {ι : Type} (f : ι → Sizing Nat) (items : List ι) :
    ((items.map f).sum.fit : Sizing (Usize checks w)) = (items.map fun i => (f i).fit).sum := by
  induction items with
  | nil => exact fit_zero
  | cons i is ih => rw [List.map_cons, List.sum_cons, fit_add, ih, List.map_cons, List.sum_cons]

/-- A product that is a word is computed exactly. -/
theorem fit_product {m : Nat} (h : m * n < 2 ^ w) :
    ((product m n).fit : Sizing (Usize checks w)) = product m n := by
  funext held c
  have hexact : (product m n : Sizing Nat) held c = some (m * n, c) := rfl
  rw [fit_apply hexact]
  refine congrArg (Option.map fun x => (x, c)) ?_
  exact (Usize.mul_ofNat h).symm

end Sizing

namespace Component

variable {checks : Bool} {w : Nat}

def exact (self : Component (Usize checks w)) : Component Nat := ⟨self.size, self.children.exact⟩

def fit (self : Component Nat) : Component (Usize checks w) := ⟨self.size, self.children.fit⟩

theorem fit_exact (self : Component (Usize checks w)) : self.exact.fit = self :=
  congrArg (Component.mk self.size) self.children.fit_exact

end Component
end PriorityLfu.Deepsize
