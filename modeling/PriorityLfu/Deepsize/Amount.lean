import PriorityLfu.Library.Word

/-!
# Sizes as numbers and as words

`deep_size_of` adds and multiplies sizes of type `usize`. `Amount` is what it needs of that type.
The words of a build are one (`Usize`), where a sum that is no word wraps or, with overflow checks,
panics; the natural numbers are another, for the exact results. A build gives the exact result if
that is a word (`Usize.fit`).
-/
namespace PriorityLfu.Deepsize

/-- A type of sizes. A computation without a result panics. -/
class Amount (α : Type) where
  ofNat : Nat → α
  add : α → α → Option α
  mul : α → α → Option α
  div : α → Nat → α
  zero_add (a : α) : add (ofNat 0) a = some a
  add_zero (a : α) : add a (ofNat 0) = some a
  add_assoc (a b c : α) : (add a b).bind (add · c) = (add b c).bind (add a)

instance : Amount Nat where
  ofNat := id
  add a b := some (a + b)
  mul a b := some (a * b)
  div a n := a / n
  zero_add a := congrArg some (Nat.zero_add a)
  add_zero _ := rfl
  add_assoc a b c := congrArg some (Nat.add_assoc a b c)

/-- `usize` in a build with or without overflow checks. -/
def Usize (_checks : Bool) (w : Nat) : Type := BitVec w

namespace Usize

variable {checks : Bool} {w : Nat}

def toNat (x : Usize checks w) : Nat := BitVec.toNat x

def ofNat (n : Nat) : Usize checks w := BitVec.ofNat w n

/-- What the build makes of an exact result. -/
def fit (n : Nat) : Option (Usize checks w) := Word.fit checks n

def add (x y : Usize checks w) : Option (Usize checks w) := Word.add checks x y

def mul (x y : Usize checks w) : Option (Usize checks w) := Word.mul checks x y

theorem fit_toNat (x : Usize checks w) : fit x.toNat = some x := Word.fit_toNat checks x

/-- A result that is a word is exact. -/
theorem fit_of_lt {n : Nat} (h : n < 2 ^ w) :
    ∃ x : Usize checks w, fit n = some x ∧ x.toNat = n :=
  have hx := Word.fit_of_lt checks h
  ⟨_, hx, Word.toNat_of_fit hx h⟩

theorem fit_add (m n : Nat) :
    ((fit m).bind fun x => (fit n).bind fun y => add x y) =
      (fit (m + n) : Option (Usize checks w)) := Word.fit_add checks m n

theorem add_eq_fit (x y : Usize checks w) : x.add y = fit (x.toNat + y.toNat) :=
  Word.add_eq_fit checks x y

theorem mul_eq_fit (x y : Usize checks w) : x.mul y = fit (x.toNat * y.toNat) :=
  Word.mul_eq_fit checks x y

theorem toNat_ofNat (n : Nat) : (ofNat n : Usize checks w).toNat = n % 2 ^ w :=
  BitVec.toNat_ofNat n w

/-- A product that is a word is computed exactly. -/
theorem mul_ofNat {m n : Nat} (h : m * n < 2 ^ w) :
    (ofNat m : Usize checks w).mul (ofNat n) = fit (m * n) := by
  rw [mul_eq_fit, toNat_ofNat, toNat_ofNat]
  rcases Nat.eq_zero_or_pos m with rfl | hm
  · simp
  rcases Nat.eq_zero_or_pos n with rfl | hn
  · simp
  have hm' : m < 2 ^ w := (Nat.le_mul_of_pos_right m hn).trans_lt h
  have hn' : n < 2 ^ w := (Nat.le_mul_of_pos_left n hm).trans_lt h
  rw [Nat.mod_eq_of_lt hm', Nat.mod_eq_of_lt hn']

/-- A division by a constant. -/
def div (x : Usize checks w) (n : Nat) : Usize checks w := BitVec.udiv x (BitVec.ofNat w n)

theorem toNat_div (x : Usize checks w) {n : Nat} (h : n < 2 ^ w) :
    (x.div n).toNat = x.toNat / n := by
  have hn : (BitVec.ofNat w n).toNat = n := by rw [BitVec.toNat_ofNat, Nat.mod_eq_of_lt h]
  exact (BitVec.toNat_udiv (x := x) (y := BitVec.ofNat w n)).trans (congrArg (x.toNat / ·) hn)

theorem fit_mul (m : Nat) {n : Nat} (hpos : 0 < n) (hn : n < 2 ^ w) :
    ((fit m).bind fun x => x.mul (ofNat n)) = (fit (m * n) : Option (Usize checks w)) :=
  Word.fit_mul checks m hpos hn

/-- A sum that is no word is less than its second part, where the first one is a word. -/
theorem lt_of_fit {a b : Nat} {x : Usize checks w} (hx : fit (a + b) = some x) (ha : a < 2 ^ w)
    (hb : b ≤ x.toNat) : a + b < 2 ^ w := by
  by_contra hover
  have hword : x.toNat = (a + b) % 2 ^ w := (Word.fit_eq_some.mp hx).2 ▸ toNat_ofNat (a + b)
  rw [hword] at hb
  have hlt := Nat.mod_lt (a + b) (Nat.two_pow_pos w)
  rw [Nat.mod_eq_sub_mod (by omega), Nat.mod_eq_of_lt (by omega)] at hb
  omega

/-- Three sizes added in either order are their exact sum as a word. -/
theorem add_assoc (x y z : Usize checks w) : (x.add y).bind (·.add z) = (y.add z).bind x.add := by
  have hleft : _ = (fit _ : Option (Usize checks w)) := fit_add (x.toNat + y.toNat) z.toNat
  have hright : _ = (fit _ : Option (Usize checks w)) := fit_add x.toNat (y.toNat + z.toNat)
  rw [← Nat.add_assoc] at hright
  simp only [fit_toNat, Option.bind_some, ← add_eq_fit] at hleft hright
  rw [hleft, ← hright]

instance : Amount (Usize checks w) where
  ofNat := ofNat
  add := add
  mul := mul
  div := div
  zero_add x := by
    have hzero : toNat (ofNat 0 : Usize checks w) = 0 := BitVec.toNat_zero
    rw [add_eq_fit, hzero, Nat.zero_add, fit_toNat]
  add_zero x := by
    have hzero : toNat (ofNat 0 : Usize checks w) = 0 := BitVec.toNat_zero
    rw [add_eq_fit, hzero, Nat.add_zero, fit_toNat]
  add_assoc := add_assoc

end Usize
end PriorityLfu.Deepsize
