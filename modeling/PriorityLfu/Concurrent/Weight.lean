import Mathlib.Algebra.Order.BigOperators.Group.List
import PriorityLfu.Concurrent.Basic

/-!
# Weights of actions

A weight gives every counter update a value, which may depend on the key it is made for; the other
actions weigh nothing. All books are kept by the weight of what is in flight: what it adds to a
counter, what it takes off, what it counts for a metric.
-/
namespace PriorityLfu
open Keyed

variable {κ ν : Type} {w n : Nat} {M : Type}

/-- What an update weighs: for the entry that was inserted under a key, or for entries that left. -/
structure Weight (κ : Type) (w : Nat) (M : Type) where
  enter : κ → Update w → M
  update : Update w → M

namespace Weight

/-- An update weighs the same wherever it stands. -/
def plain (f : Update w → M) : Weight κ w M := ⟨fun _ => f, f⟩

@[simp] theorem enter_plain (f : Update w → M) (key : κ) : (plain f).enter key = f := rfl
@[simp] theorem update_plain (f : Update w → M) : (plain f : Weight κ w M).update = f := rfl

variable [AddCommMonoid M] {φ : Weight κ w M}

@[simp] def of (φ : Weight κ w M) : Action κ ν w n → M
  | .enter key u => φ.enter key u
  | .update u => φ.update u
  | _ => 0

def sum (φ : Weight κ w M) (as : List (Action κ ν w n)) : M := (as.map φ.of).sum

@[simp] theorem sum_nil : φ.sum ([] : List (Action κ ν w n)) = 0 := rfl

@[simp] theorem sum_cons (a : Action κ ν w n) (as : List (Action κ ν w n)) :
    φ.sum (a :: as) = φ.of a + φ.sum as := by simp [sum]

@[simp] theorem sum_append (as bs : List (Action κ ν w n)) :
    φ.sum (as ++ bs) = φ.sum as + φ.sum bs := by simp [sum]

theorem sum_perm {as bs : List (Action κ ν w n)} (h : as.Perm bs) : φ.sum as = φ.sum bs :=
  (h.map _).sum_eq

@[simp] theorem sum_enter (key : κ) (us : List (Update w)) :
    φ.sum (us.map (.enter key) : List (Action κ ν w n)) = (us.map (φ.enter key)).sum := by
  simp [sum, of, Function.comp_def]

@[simp] theorem sum_update (us : List (Update w)) :
    φ.sum (us.map .update : List (Action κ ν w n)) = (us.map φ.update).sum := by
  simp [sum, of, Function.comp_def]

@[simp] theorem sum_hook {α : Type} (h : α → Hook κ) (xs : List α) :
    φ.sum (xs.map fun x => .hook (h x) : List (Action κ ν w n)) = 0 := by
  simp [sum, of, Function.comp_def]

/-- Where the actions weigh something, one of them does. -/
theorem exists_of_sum_ne_zero {as : List (Action κ ν w n)} (h : φ.sum as ≠ 0) :
    ∃ a ∈ as, φ.of a ≠ 0 := by
  by_contra hnone
  push Not at hnone
  refine h (List.sum_eq_zero fun x hx => ?_)
  obtain ⟨a, ha, rfl⟩ := List.mem_map.mp hx
  exact hnone a ha

/-- One of the actions weighs no more than all. -/
theorem of_le_sum {φ : Weight κ w Nat} {a : Action κ ν w n} {as : List (Action κ ν w n)}
    (h : a ∈ as) : φ.of a ≤ φ.sum as :=
  List.single_le_sum (fun _ _ => Nat.zero_le _) _ (List.mem_map_of_mem h)

/-- A call starts with no update but those that reset the metrics. -/
theorem sum_actions (hreset : ∀ m, φ.update (.resetMetric m) = 0) (op : CallOp κ ν w) :
    φ.sum (op.actions : List (Action κ ν w n)) = 0 := by
  cases op with
  | insert key entry => simp [CallOp.actions, of]
  | remove key => simp [CallOp.actions, of]
  | clear =>
    have hdrain : φ.sum ((List.finRange n).map .drain : List (Action κ ν w n)) = 0 := by
      simp [sum, of, Function.comp_def]
    rw [CallOp.actions, sum_append, hdrain, sum_update]
    simp [resetUpdates, hreset]

end Weight

end PriorityLfu
