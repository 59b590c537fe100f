import Mathlib.Algebra.BigOperators.Group.List.Basic
import Mathlib.Algebra.Order.Ring.Nat
import PriorityLfu.Library.Outcome

/-!
# Amortised cost

A call costs something that depends on the state it is made in. A potential is a credit kept in
the state: where the cost of a call and the potential it leaves are at most the potential it
found and what the call pays in, a whole run costs at most what its calls pay, whatever a
single call costs.
-/
namespace Outcome

variable {σ ι ρ : Type*} {step : σ → ι → Outcome σ ρ} {cost : σ → ι → Nat} {s t : σ} {is : List ι}
  {rs : List ρ}

/-- The cost of the calls of a run, each in the state the one before it left. -/
def runCost (step : σ → ι → Outcome σ ρ) (cost : σ → ι → Nat) : σ → List ι → Nat
  | _, [] => 0
  | s, i :: is => cost s i + runCost step cost (step s i).state is

/-- The potential method. -/
theorem run_cost_le {I : σ → Prop} {potential : σ → Nat} {pay : ι → ρ → Nat}
    (hstep : ∀ s i r t, I s → step s i = .ok r t →
      I t ∧ cost s i + potential t ≤ potential s + pay i r)
    (hs : I s) (h : run step s is = .ok rs t) :
    runCost step cost s is + potential t ≤
      potential s + ((is.zip rs).map fun p => pay p.1 p.2).sum := by
  induction is generalizing s rs with
  | nil =>
    cases h
    simp [runCost]
  | cons i is ih =>
    obtain ⟨r, s', rs', hr, hrs, rfl⟩ := run_cons_eq_ok.mp h
    obtain ⟨hs', hfirst⟩ := hstep s i r s' hs hr
    have hrest := ih hs' hrs
    simp only [runCost, hr, state, List.zip_cons_cons, List.map_cons, List.sum_cons]
    omega

end Outcome
