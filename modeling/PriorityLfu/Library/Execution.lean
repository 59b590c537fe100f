import Mathlib.Data.List.Basic
import Mathlib.Order.OrderIsoNat

/-!
# Executions under a scheduler

A system makes one step at a time. Which one is a choice from outside, as by a scheduler;
a step that is possible shows some events and leads to a next state. `Execution` collects
what every sequence of allowed choices can lead to, `play` follows a given one.
-/

/-- What the choices that satisfy `allowed` can lead to from `s₀`, with the events shown. -/
inductive Execution {σ ι ε : Type*} (step : σ → ι → Option (List ε × σ)) (allowed : σ → ι → Prop)
    (s₀ : σ) : List ε → σ → Prop where
  | start : Execution step allowed s₀ [] s₀
  | step {trace shown : List ε} {s t : σ} {choice : ι} (h : Execution step allowed s₀ trace s)
    (ha : allowed s choice) (hs : step s choice = some (shown, t)) :
    Execution step allowed s₀ (trace ++ shown) t

namespace Execution

variable {σ ι ε : Type*} {step : σ → ι → Option (List ε × σ)} {allowed : σ → ι → Prop}
  {s₀ s t : σ} {trace : List ε}

/-- The invariant rule: what holds at the start and is kept by every allowed step holds
throughout, of the events so far and the state. -/
theorem invariant {P : List ε → σ → Prop} (hstart : P [] s₀)
    (hstep : ∀ trace s choice shown t, P trace s → allowed s choice →
      step s choice = some (shown, t) → P (trace ++ shown) t)
    (h : Execution step allowed s₀ trace s) : P trace s := by
  induction h with
  | start => exact hstart
  | step _ ha hs ih => exact hstep _ _ _ _ _ ih ha hs

/-- The same for a property of states. -/
theorem state_invariant {P : σ → Prop} (hstart : P s₀)
    (hstep : ∀ s choice shown t, P s → allowed s choice → step s choice = some (shown, t) → P t)
    (h : Execution step allowed s₀ trace s) : P s :=
  invariant (P := fun _ s => P s) hstart (fun _ => hstep) h

/-- One step. -/
theorem single {shown : List ε} (choice : ι) (ha : allowed s choice)
    (hs : step s choice = some (shown, t)) : Execution step allowed s shown t := by
  have hstart : Execution step allowed s [] s := .start
  exact List.nil_append shown ▸ hstart.step ha hs

/-- One execution after the other. -/
theorem trans {trace' : List ε} (h : Execution step allowed s₀ trace s)
    (k : Execution step allowed s trace' t) : Execution step allowed s₀ (trace ++ trace') t := by
  induction k with
  | start => rwa [List.append_nil]
  | step _ ha hs ih =>
    rw [← List.append_assoc]
    exact ih.step ha hs

/-- Fewer choices lead to nothing else. -/
theorem mono {allowed' : σ → ι → Prop} (hallowed : ∀ s choice, allowed s choice → allowed' s choice)
    (h : Execution step allowed s₀ trace s) : Execution step allowed' s₀ trace s := by
  induction h with
  | start => exact .start
  | step _ ha hs ih => exact ih.step (hallowed _ _ ha) hs

/-- The termination rule: where every allowed step from a state satisfying `P` keeps `P` and
lowers a measure, steps do not go on for ever. -/
theorem no_infinite_run {α : Type*} [Preorder α] [WellFoundedLT α] {P : σ → Prop} (measure : σ → α)
    (hstep : ∀ s choice shown t, P s → allowed s choice → step s choice = some (shown, t) →
      P t ∧ measure t < measure s) (hs : P s) :
    ¬ ∃ f : Nat → σ, f 0 = s ∧
      ∀ k, ∃ choice shown, allowed (f k) choice ∧ step (f k) choice = some (shown, f (k + 1)) := by
  rintro ⟨f, hzero, hruns⟩
  have hP : ∀ k, P (f k) := fun k => by
    induction k with
    | zero => rwa [hzero]
    | succ k ih =>
      obtain ⟨choice, shown, ha, hk⟩ := hruns k
      exact (hstep _ _ _ _ ih ha hk).1
  refine not_strictAnti_of_wellFoundedLT (fun k => measure (f k)) (strictAnti_nat_of_succ_lt ?_)
  intro k
  obtain ⟨choice, shown, ha, hk⟩ := hruns k
  exact (hstep _ _ _ _ (hP k) ha hk).2

/-- The progress rule: where such a step is possible from every state that is not final, a final
state can be reached. -/
theorem reaches_final {α : Type*} [Preorder α] [WellFoundedLT α] {P final : σ → Prop}
    (measure : σ → α)
    (hstep : ∀ s choice shown t, P s → allowed s choice → step s choice = some (shown, t) →
      P t ∧ measure t < measure s)
    (hmoves : ∀ s, P s → ¬ final s → ∃ choice shown t, allowed s choice ∧
      step s choice = some (shown, t)) (hs : P s) :
    ∃ trace t, Execution step allowed s trace t ∧ final t := by
  induction s using (InvImage.wf measure wellFounded_lt).induction with
  | _ s ih =>
    by_cases hfinal : final s
    · exact ⟨[], s, .start, hfinal⟩
    · obtain ⟨choice, shown, u, ha, hu⟩ := hmoves s hs hfinal
      obtain ⟨hP, hlt⟩ := hstep s choice shown u hs ha hu
      obtain ⟨trace, t, hrun, ht⟩ := ih u hlt hP
      exact ⟨_, t, (single choice ha hu).trans hrun, ht⟩

/-- The simulation rule: where every step from related states is matched by an execution that
shows the same, seen through `view`, every execution is. -/
theorem simulation {τ ι' ε' : Type*} {step' : τ → ι' → Option (List ε' × τ)}
    {allowed' : τ → ι' → Prop} {a₀ : τ} {R : σ → τ → Prop} (view : ε → Option ε')
    (hstart : R s₀ a₀)
    (hstep : ∀ s a choice shown t, R s a → allowed s choice → step s choice = some (shown, t) →
      ∃ b, Execution step' allowed' a (shown.filterMap view) b ∧ R t b)
    (h : Execution step allowed s₀ trace s) :
    ∃ a, Execution step' allowed' a₀ (trace.filterMap view) a ∧ R s a := by
  induction h with
  | start => exact ⟨a₀, .start, hstart⟩
  | step _ ha hs ih =>
    obtain ⟨a, hrun, hR⟩ := ih
    obtain ⟨b, hmatch, hR'⟩ := hstep _ a _ _ _ hR ha hs
    refine ⟨b, ?_, hR'⟩
    rw [List.filterMap_append]
    exact hrun.trans hmatch

/-! ## Steps that can fail -/

/-- Some choices fail in some states: `fail` is the state that this leaves. -/
def withFailures (fail : σ → ι → Option σ) (step : σ → ι → Option (List ε × σ)) (s : σ)
    (choice : ι) : Option (List ε × σ) :=
  match fail s choice with
  | some t => some ([], t)
  | none => step s choice

variable {fail : σ → ι → Option σ}

theorem withFailures_of_none {choice : ι} (h : fail s choice = none) :
    withFailures fail step s choice = step s choice := by
  rw [withFailures, h]

/-- An execution without a failure. -/
theorem of_withFailures {allowed' : σ → ι → Prop}
    (hcalm : ∀ s choice, allowed' s choice → fail s choice = none ∧ allowed s choice)
    (h : Execution (withFailures fail step) allowed' s₀ trace s) :
    Execution step allowed s₀ trace s := by
  induction h with
  | start => exact .start
  | step _ ha hs ih =>
    obtain ⟨hnone, hallowed⟩ := hcalm _ _ ha
    rw [withFailures_of_none hnone] at hs
    exact ih.step hallowed hs

/-- Where a choice that fails makes no step, the executions of `step` are those without a
failure. -/
theorem withFailures_iff (hfail : ∀ s choice r, step s choice = some r → fail s choice = none) :
    Execution (withFailures fail step) (fun s choice => fail s choice = none ∧ allowed s choice)
      s₀ trace s ↔ Execution step allowed s₀ trace s := by
  refine ⟨of_withFailures fun _ _ ha => ha, fun h => ?_⟩
  induction h with
  | start => exact .start
  | step _ ha hs ih =>
    have hnone := hfail _ _ _ hs
    exact ih.step ⟨hnone, ha⟩ (by rwa [withFailures_of_none hnone])

/-- The same where no allowed choice fails in a state that is reached without a failure. -/
theorem without_failures
    (hcalm : ∀ trace s choice, Execution step allowed s₀ trace s → allowed s choice →
      fail s choice = none)
    (h : Execution (withFailures fail step) allowed s₀ trace s) :
    Execution step allowed s₀ trace s := by
  induction h with
  | start => exact .start
  | step _ ha hs ih =>
    rw [withFailures_of_none (hcalm _ _ _ ih ha)] at hs
    exact ih.step ha hs

/-! ## Given choices -/

/-- Follow a list of choices, as far as they are allowed and possible. -/
def play (step : σ → ι → Option (List ε × σ)) (allowed : σ → ι → Prop)
    [∀ s choice, Decidable (allowed s choice)] : σ → List ι → Option (List ε × σ)
  | s, [] => some ([], s)
  | s, choice :: choices =>
    if allowed s choice then
      (step s choice).bind fun (shown, t) =>
      (play step allowed t choices).map fun (trace, u) => (shown ++ trace, u)
    else none

/-- What a list of choices leads to is an execution, and may be one with a stronger condition that
all of these choices satisfy. -/
theorem of_play_mem {strong : σ → ι → Prop} [∀ s choice, Decidable (allowed s choice)]
    {choices : List ι} (hplay : play step allowed s choices = some (trace, t))
    (h : ∀ s, ∀ choice ∈ choices, allowed s choice → strong s choice) :
    Execution step strong s trace t := by
  induction choices generalizing s trace with
  | nil =>
    cases hplay
    exact .start
  | cons choice choices ih =>
    unfold play at hplay
    split at hplay
    · next ha =>
      obtain ⟨⟨shown, u⟩, hs, hrest⟩ := Option.bind_eq_some_iff.mp hplay
      obtain ⟨⟨rest, v⟩, hrest, hv⟩ := Option.map_eq_some_iff.mp hrest
      cases hv
      exact (single choice (h _ _ List.mem_cons_self ha) hs).trans
        (ih hrest fun s c hc => h s c (List.mem_cons_of_mem _ hc))
    · cases hplay

theorem of_play [∀ s choice, Decidable (allowed s choice)] {choices : List ι}
    (hplay : play step allowed s choices = some (trace, t)) :
    Execution step allowed s trace t :=
  of_play_mem hplay fun _ _ _ ha => ha

end Execution
