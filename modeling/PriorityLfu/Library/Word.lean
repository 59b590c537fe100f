import Mathlib.Data.BitVec

/-!
# Machine words with and without overflow checks

A word of `w` bits is a `BitVec w`. Addition and subtraction come in the two forms a
compiled program has: with `checks` an overflow is caught and there is no result,
without them the result wraps. `Fits` bounds are on `toNat`, where sums are exact.
`fit` is what a computation with a given exact result gives.
-/
namespace Word

variable {w : Nat}

/-- `x + y`, or `none` where an overflow check fires. -/
def add (checks : Bool) (x y : BitVec w) : Option (BitVec w) :=
  if checks && x.uaddOverflow y then none else some (x + y)

/-- `x - y`, or `none` where an overflow check fires. -/
def sub (checks : Bool) (x y : BitVec w) : Option (BitVec w) :=
  if checks && x.usubOverflow y then none else some (x - y)

/-- `x * y`, or `none` where an overflow check fires. -/
def mul (checks : Bool) (x y : BitVec w) : Option (BitVec w) :=
  if checks && x.umulOverflow y then none else some (x * y)

/-- What a computation with the exact result `n` gives: `n` as a word, or `none` where an overflow
check fires. -/
def fit (checks : Bool) (n : Nat) : Option (BitVec w) :=
  if checks && decide (2 ^ w ≤ n) then none else some (BitVec.ofNat w n)

/-- `x - y` as signed integers, or `none` where an overflow check fires. -/
def ssub (checks : Bool) (x y : BitVec w) : Option (BitVec w) :=
  if checks && x.ssubOverflow y then none else some (x - y)

/-- `-x` as a signed integer, or `none` where an overflow check fires. -/
def neg (checks : Bool) (x : BitVec w) : Option (BitVec w) :=
  if checks && x.negOverflow then none else some (-x)

theorem eq_add {c : Bool} {x y z : BitVec w} (h : add c x y = some z) : z = x + y := by
  unfold add at h
  split at h <;> simp_all

theorem eq_sub {c : Bool} {x y z : BitVec w} (h : sub c x y = some z) : z = x - y := by
  unfold sub at h
  split at h <;> simp_all

theorem eq_ssub {c : Bool} {x y z : BitVec w} (h : ssub c x y = some z) : z = x - y := by
  unfold ssub at h
  split at h <;> simp_all

theorem eq_neg {c : Bool} {x z : BitVec w} (h : neg c x = some z) : z = -x := by
  unfold neg at h
  split at h <;> simp_all

@[simp] theorem add_unchecked (x y : BitVec w) : add false x y = some (x + y) := by simp [add]
@[simp] theorem sub_unchecked (x y : BitVec w) : sub false x y = some (x - y) := by simp [sub]
@[simp] theorem ssub_unchecked (x y : BitVec w) : ssub false x y = some (x - y) := by
  simp [ssub]
@[simp] theorem neg_unchecked (x : BitVec w) : neg false x = some (-x) := by simp [neg]

theorem add_fits (c : Bool) {x y : BitVec w} (h : x.toNat + y.toNat < 2 ^ w) :
    add c x y = some (x + y) := by
  have : x.uaddOverflow y = false := by simp [BitVec.uaddOverflow]; omega
  simp [add, this]

/-! ## Exact results -/

theorem add_eq_fit (c : Bool) (x y : BitVec w) : add c x y = fit c (x.toNat + y.toNat) := by
  simp [add, fit, BitVec.uaddOverflow, BitVec.ofNat_add]

theorem mul_eq_fit (c : Bool) (x y : BitVec w) : mul c x y = fit c (x.toNat * y.toNat) := by
  simp [mul, fit, BitVec.umulOverflow, BitVec.ofNat_mul]

theorem fit_of_lt (c : Bool) {n : Nat} (h : n < 2 ^ w) : fit c n = some (BitVec.ofNat w n) := by
  simp [fit, Nat.not_le_of_lt h]

theorem fit_toNat (c : Bool) (x : BitVec w) : fit c x.toNat = some x := by
  rw [fit_of_lt c x.isLt, BitVec.ofNat_toNat, BitVec.setWidth_eq]

theorem fit_eq_some {c : Bool} {n : Nat} {x : BitVec w} :
    fit c n = some x ↔ (c = true → n < 2 ^ w) ∧ x = BitVec.ofNat w n := by
  cases c <;> simp [fit, eq_comm]

/-- A result that is the exact one where that is a word. -/
theorem toNat_of_fit {c : Bool} {n : Nat} {x : BitVec w} (h : fit c n = some x)
    (hn : n < 2 ^ w) : x.toNat = n := by
  obtain ⟨-, rfl⟩ := fit_eq_some.mp h
  rw [BitVec.toNat_ofNat, Nat.mod_eq_of_lt hn]

/-- The sum of two results is the result of the sum. -/
theorem fit_add (c : Bool) (m n : Nat) :
    ((fit c m).bind fun x => (fit c n).bind fun y => add c x y) =
      (fit c (m + n) : Option (BitVec w)) := by
  ext z
  simp only [Option.bind_eq_some_iff, fit_eq_some, add_eq_fit]
  constructor
  · rintro ⟨x, ⟨hm, rfl⟩, y, ⟨hn, rfl⟩, hsum, rfl⟩
    refine ⟨fun hc => ?_, ?_⟩
    · have := hsum hc
      rwa [BitVec.toNat_ofNat, BitVec.toNat_ofNat, Nat.mod_eq_of_lt (hm hc),
        Nat.mod_eq_of_lt (hn hc)] at this
    · apply BitVec.eq_of_toNat_eq
      simp
  · rintro ⟨hsum, rfl⟩
    refine ⟨_, ⟨fun hc => ?_, rfl⟩, _, ⟨fun hc => ?_, rfl⟩, fun hc => ?_, ?_⟩
    · have := hsum hc
      omega
    · have := hsum hc
      omega
    · have := hsum hc
      rwa [BitVec.toNat_ofNat, BitVec.toNat_ofNat, Nat.mod_eq_of_lt (by omega),
        Nat.mod_eq_of_lt (by omega)]
    · apply BitVec.eq_of_toNat_eq
      simp

/-- A result multiplied by a word is the result of the product. -/
theorem fit_mul (c : Bool) (m : Nat) {n : Nat} (hpos : 0 < n) (hn : n < 2 ^ w) :
    ((fit c m).bind fun x => mul c x (BitVec.ofNat w n)) =
      (fit c (m * n) : Option (BitVec w)) := by
  ext z
  simp only [Option.bind_eq_some_iff, fit_eq_some, mul_eq_fit, BitVec.toNat_ofNat,
    Nat.mod_eq_of_lt hn]
  constructor
  · rintro ⟨x, ⟨hm, rfl⟩, hprod, rfl⟩
    refine ⟨fun hc => ?_, ?_⟩
    · have := hprod hc
      rwa [BitVec.toNat_ofNat, Nat.mod_eq_of_lt (hm hc)] at this
    · apply BitVec.eq_of_toNat_eq
      simp
  · rintro ⟨hprod, rfl⟩
    have hle : c = true → m < 2 ^ w := fun hc =>
      (Nat.le_mul_of_pos_right m hpos).trans_lt (hprod hc)
    refine ⟨_, ⟨hle, rfl⟩, fun hc => ?_, ?_⟩
    · rw [BitVec.toNat_ofNat, Nat.mod_eq_of_lt (hle hc)]
      exact hprod hc
    · apply BitVec.eq_of_toNat_eq
      simp

/-- The sum of two counts, as far as no overflow check fires. -/
theorem add_natCast {c : Bool} {a b : Nat} (h : c = true → a + b < 2 ^ w) :
    add c (a : BitVec w) (b : BitVec w) = some ((a + b : Nat) : BitVec w) := by
  rw [Nat.cast_add]
  cases c with
  | false => rw [add_unchecked]
  | true =>
    have hfits := h rfl
    refine add_fits true ?_
    have ha := Nat.mod_le a (2 ^ w)
    have hb := Nat.mod_le b (2 ^ w)
    simp only [BitVec.natCast_eq_ofNat, BitVec.toNat_ofNat]
    omega

theorem sub_fits (c : Bool) {x y : BitVec w} (h : y.toNat ≤ x.toNat) :
    sub c x y = some (x - y) := by
  have : x.usubOverflow y = false := by simp [BitVec.usubOverflow]; omega
  simp [sub, this]

/-- An addition whose exact sum is a word is exact. -/
theorem toNat_add_fits {x y : BitVec w} (h : x.toNat + y.toNat < 2 ^ w) :
    (x + y).toNat = x.toNat + y.toNat := by
  rw [BitVec.toNat_add, Nat.mod_eq_of_lt h]

/-- A checked addition that has a result is exact. -/
theorem toNat_add_checked {x y z : BitVec w} (h : add true x y = some z) :
    z.toNat = x.toNat + y.toNat := by
  obtain ⟨hover, rfl⟩ : x.uaddOverflow y = false ∧ x + y = z := by simpa [add] using h
  refine toNat_add_fits ?_
  simpa [BitVec.uaddOverflow] using hover

/-- An addition whose exact sum is no word is caught by the check. -/
theorem add_overflows {x y : BitVec w} (h : 2 ^ w ≤ x.toNat + y.toNat) : add true x y = none := by
  simp [add, BitVec.uaddOverflow, h]

/-- Without the check it wraps. -/
theorem toNat_add_wraps {x y : BitVec w} (h : 2 ^ w ≤ x.toNat + y.toNat) :
    (x + y).toNat + 2 ^ w = x.toNat + y.toNat := by
  have hx := x.isLt
  have hy := y.isLt
  rw [BitVec.toNat_add, Nat.mod_eq_sub_mod h, Nat.mod_eq_of_lt (by omega)]
  omega

theorem toNat_sub_fits {x y : BitVec w} (h : y.toNat ≤ x.toNat) :
    (x - y).toNat = x.toNat - y.toNat := BitVec.toNat_sub_of_le h

/-- Two words are so near that their difference, as a signed number, has the sign it should. -/
def Near (x y : BitVec w) : Prop :=
  2 * (x.toNat - y.toNat) < 2 ^ w ∧ 2 * (y.toNat - x.toNat) ≤ 2 ^ w

instance (x y : BitVec w) : Decidable (Near x y) := inferInstanceAs (Decidable (_ ∧ _))

theorem slt_sub_iff {x y : BitVec w} (h : Near x y) :
    (0#w).slt (x - y) = true ↔ y.toNat < x.toNat := by
  obtain ⟨hup, hdown⟩ := h
  rw [BitVec.slt_iff_toInt_lt, BitVec.toInt_zero, BitVec.toInt_eq_toNat_cond, BitVec.toNat_sub]
  have := x.isLt
  have := y.isLt
  by_cases h : y.toNat < x.toNat
  · have hsub : 2 ^ w - y.toNat + x.toNat = (x.toNat - y.toNat) + 2 ^ w := by omega
    rw [hsub, Nat.add_mod_right, Nat.mod_eq_of_lt (by omega), if_pos (by omega)]
    omega
  · by_cases heq : y.toNat = x.toNat
    · rw [heq, Nat.sub_add_cancel (by omega), Nat.mod_self, if_pos (by omega)]
      simp
    · rw [Nat.mod_eq_of_lt (by omega), if_neg (by omega)]
      omega

/-- The difference of two words below half the range, as signed numbers, is within half the
range. -/
theorem abs_toInt_sub_lt {x y : BitVec w} (hx : 2 * x.toNat < 2 ^ w) (hy : 2 * y.toNat < 2 ^ w) :
    |x.toInt - y.toInt| < 2 ^ (w - 1) := by
  have hpow : (2 : Int) ^ w ≤ 2 * 2 ^ (w - 1) := by
    cases w with
    | zero => decide
    | succ w => rw [Nat.add_sub_cancel, pow_succ, mul_comm]
  have hx' : 2 * (x.toNat : Int) < 2 ^ w := by exact_mod_cast hx
  have hy' : 2 * (y.toNat : Int) < 2 ^ w := by exact_mod_cast hy
  rw [BitVec.toInt_eq_toNat_of_lt hx, BitVec.toInt_eq_toNat_of_lt hy, abs_lt]
  omega

/-- A signed difference of less than half a word does not overflow, and neither does its
negation. -/
theorem ssub_fits (c : Bool) {x y : BitVec w} (h : |x.toInt - y.toInt| < 2 ^ (w - 1)) :
    ssub c x y = some (x - y) ∧ neg c (x - y) = some (-(x - y)) := by
  obtain ⟨hlow, hhigh⟩ := abs_lt.mp h
  have hsub : x.ssubOverflow y = false := by
    simp only [BitVec.ssubOverflow, Bool.or_eq_false_iff, decide_eq_false_iff_not]
    omega
  have hneg : (x - y).negOverflow = false := by
    have hdiff := BitVec.toInt_sub_of_not_ssubOverflow (by simpa using hsub : ¬ x.ssubOverflow y)
    simp only [BitVec.negOverflow, hdiff, beq_eq_false_iff_ne]
    omega
  simp [ssub, neg, hsub, hneg]

end Word
