import Mathlib.Data.List.Basic
import Mathlib.Data.Set.Insert

/-!
# Depth-first exploration with a set of seen nodes

A search that enters a node only if it has not seen it, marks it before it goes on to its
successors, and works off what it is given piece by piece. `Explores` says what such a search
enters; its rules follow the shape of the search, so that a recursive traversal is verified by
applying one rule in each of its branches.
-/
namespace Explore

variable {α : Type} {succ : α → Set α} {roots more seen : Set α} {a b : α}

/-- What `succ` leads to from `roots`. -/
inductive Reaches (succ : α → Set α) (roots : Set α) : α → Prop
  | root {a : α} (h : a ∈ roots) : Reaches succ roots a
  | next {a b : α} (h : Reaches succ roots a) (hb : b ∈ succ a) : Reaches succ roots b

/-- `new` holds the nodes that a search from `roots` enters, the latest first. -/
structure Explores (succ : α → Set α) (roots seen : Set α) (new : List α) : Prop where
  nodup : new.Nodup
  fresh : ∀ a ∈ new, a ∉ seen
  reached : ∀ a ∈ new, Reaches succ roots a
  roots : ∀ a ∈ roots, a ∈ new ∨ a ∈ seen
  closed : ∀ a ∈ new, ∀ b ∈ succ a, b ∈ new ∨ b ∈ seen

namespace Reaches

theorem of_roots (h : Reaches succ roots a) (hr : ∀ b ∈ roots, Reaches succ more b) :
    Reaches succ more a := by
  induction h with
  | root h => exact hr _ h
  | next _ hb ih => exact ih.next hb

theorem mono (h : Reaches succ roots a) (hr : roots ⊆ more) : Reaches succ more a :=
  h.of_roots fun _ hb => .root (hr hb)

/-- A set that holds the roots and is closed under successors holds all that is reached. -/
theorem mem_of_closed {s : Set α} (h : Reaches succ roots a) (hr : roots ⊆ s)
    (hs : ∀ b ∈ s, succ b ⊆ s) : a ∈ s := by
  induction h with
  | root h => exact hr h
  | next _ hb ih => exact hs _ ih hb

end Reaches

namespace Explores

variable {new later : List α}

theorem nil : Explores succ ∅ seen [] where
  nodup := List.nodup_nil
  fresh := by simp
  reached := by simp
  roots := by simp
  closed := by simp

theorem skip (h : a ∈ seen) : Explores succ {a} seen [] where
  nodup := List.nodup_nil
  fresh := by simp
  reached := by simp
  roots := by simpa using h
  closed := by simp

/-- A node that is entered is marked first. -/
theorem enter (h : a ∉ seen) (hn : Explores succ (succ a) (insert a seen) new) :
    Explores succ {a} seen (new ++ [a]) where
  nodup := by
    have hf := hn.fresh
    have hd := hn.nodup
    grind
  fresh b hb := by
    have hf := hn.fresh
    grind
  reached b hb := by
    have ha : Reaches succ {a} a := .root rfl
    rcases List.mem_append.mp hb with hb | hb
    · exact (hn.reached b hb).of_roots fun c hc => ha.next hc
    · exact .root (List.mem_singleton.mp hb)
  roots := by simp
  closed b hb c hc := by
    have hr := hn.roots
    have hs := hn.closed
    grind

/-- The search of the second part starts from what the first has seen and entered. -/
theorem append (h : Explores succ roots seen new)
    (hl : Explores succ more ({b | b ∈ new} ∪ seen) later) :
    Explores succ (roots ∪ more) seen (later ++ new) where
  nodup := by
    refine List.nodup_append.mpr ⟨hl.nodup, h.nodup, ?_⟩
    rintro b hb _ hn rfl
    exact hl.fresh b hb (Or.inl hn)
  fresh b hb := by
    rcases List.mem_append.mp hb with hb | hb
    · exact fun hs => hl.fresh b hb (Or.inr hs)
    · exact h.fresh b hb
  reached b hb := by
    rcases List.mem_append.mp hb with hb | hb
    · exact (hl.reached b hb).mono Set.subset_union_right
    · exact (h.reached b hb).mono Set.subset_union_left
  roots b hb := by
    have hr := h.roots
    have hm := hl.roots
    grind
  closed b hb c hc := by
    have hs := h.closed
    have hm := hl.closed
    grind

/-- Where nothing that can be reached has been seen, all of it is entered. -/
theorem mem_iff (h : Explores succ roots seen new) (hs : ∀ b ∈ seen, ¬ Reaches succ roots b) :
    a ∈ new ↔ Reaches succ roots a := by
  refine ⟨h.reached a, fun ha => ?_⟩
  induction ha with
  | root hr =>
    rcases h.roots _ hr with hn | hn
    · exact hn
    · exact absurd (.root hr) (hs _ hn)
  | next hr hb ih =>
    rcases h.closed _ ih _ hb with hn | hn
    · exact hn
    · exact absurd (hr.next hb) (hs _ hn)

end Explores
end Explore
