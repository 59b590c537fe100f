import PriorityLfu.Deepsize.Shared
import PriorityLfu.Library.Sharing

/-!
# Values in one memory

The memory that some values lead into, as it is at one moment. Each value is measured with a
context of its own, so what two values lead to is counted for both. What they keep alive together
holds it once.
-/
namespace PriorityLfu.Deepsize

/-- What values and pointers hold at one moment. What a pointer leads to does not depend on the
value that it was found in. -/
structure Memory (ν : Type) where
  graph : ν → ObjectGraph
  content : Pointer → Value Part
  content_eq : ∀ v, (graph v).content = content

namespace Memory

variable {ν : Type} (μ : Memory ν)

/-- A value and the heap it owns. -/
def own (v : ν) : Nat := (μ.graph v).drained.root.size + (μ.graph v).drained.root.heap

noncomputable def reached (v : ν) : Finset Pointer := (μ.graph v).drained.reached

def weight (p : Pointer) : Nat := (μ.content p).drained.size + (μ.content p).drained.heap

/-- The memory that some values keep alive: each value with the heap it owns, and the allocations
that they lead to once. -/
noncomputable def kept (vs : List ν) : Nat := Sharing.together μ.own μ.reached μ.weight vs

/-- How many of the values lead to an allocation. -/
noncomputable def holders (vs : List ν) (p : Pointer) : Nat := Sharing.owners μ.reached vs p

/-- A value with all it leads to. -/
noncomputable def account (v : ν) : Nat := Sharing.alone μ.own μ.reached μ.weight v

variable {μ} {v : ν}

theorem kept_le_accounts (vs : List ν) : μ.kept vs ≤ (vs.map μ.account).sum :=
  Sharing.together_le

theorem accounts_le_kept {vs : List ν} {k : Nat} (hk : 0 < k) (h : ∀ p, μ.holders vs p ≤ k) :
    (vs.map μ.account).sum ≤ k * μ.kept vs :=
  Sharing.sum_alone_le hk h

theorem accounted_eq (v : ν) : (μ.graph v).drained.accounted = μ.account v := by
  have hweight : (μ.graph v).drained.weight = μ.weight := funext fun p => by
    rw [Objects.weight, weight, ← μ.content_eq v]
    rfl
  rw [Objects.accounted, hweight]
  rfl

/-- The result of `deep_size_of` on the value, in a memory that nobody else uses meanwhile. -/
def Measures (μ : Memory ν) (v : ν) (size : Nat) : Prop :=
  (μ.graph v).Idle ∧ ∃ fuel, (μ.graph v).live.card ≤ fuel ∧ (μ.graph v).deepSizeOf fuel = some size

theorem Measures.eq_account {size : Nat} (h : μ.Measures v size) : size = μ.account v := by
  obtain ⟨hidle, fuel, hfuel, hsize⟩ := h
  rw [ObjectGraph.deepSizeOf_eq hidle hfuel, accounted_eq] at hsize
  exact (Option.some.inj hsize).symm

end Memory
end PriorityLfu.Deepsize
