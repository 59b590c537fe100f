import PriorityLfu.Concurrent.Run
import PriorityLfu.Library.Parallel

/-!
# The order of insertions and departures of a key

A record kept beside an execution for one key `k`: the insertions of `k` are numbered as they are
made, and each call is stamped with the number of insertions made when it inserted `k`, or when a
departure of `k` left it a hook to call. So a hook is older than an insertion if its stamp is
smaller. The record changes nothing in what the calls do (`execution_iff`).
-/
namespace PriorityLfu
open Keyed

variable {κ ν : Type} {w n : Nat} [BEq κ]

/-! ## Stamps -/

/-- The call has still to call a hook for `k`. -/
def Call.owes (k : κ) (call : Call κ ν w n) : Bool := call.todo.any (Action.hooks k)

/-- A call that inserted `k` and has only to account for it and to return. -/
def Call.Inserted (k : κ) (call : Call κ ν w n) : Prop :=
  call.op.inserts k = true ∧ ∀ a ∈ call.todo, a.onShard = false

/-- A system with the number of insertions of a key so far, and the stamps of its calls. -/
structure Stamped (κ ν : Type) (w n : Nat) [BEq κ] where
  system : System κ ν w n
  clock : Nat
  stamps : List Nat

namespace Stamped

/-- The calls in progress, each with its stamp. -/
def calls (s : Stamped κ ν w n) : List (Call κ ν w n × Nat) := s.system.calls.zip s.stamps

def start (maxSizeBytes : BitVec w) : Stamped κ ν w n := ⟨.start maxSizeBytes, 0, []⟩

/-- The `m`th insertion of `k` has been made, and its call has not returned. -/
def Running (k : κ) (s : Stamped κ ν w n) (m : Nat) : Prop :=
  ∃ p ∈ s.calls, p.2 = m ∧ p.1.Inserted k

/-- What the call at position `j` comes to owe with the step to `t`. -/
def owesNewly (k : κ) (s : Stamped κ ν w n) (j : Nat) (t : System κ ν w n) : Bool :=
  t.calls[j]?.any (Call.owes k) && !s.system.calls[j]?.any (Call.owes k)

/-- Keep the record with a step to `t`. -/
def record (k : κ) (s : Stamped κ ν w n) (t : System κ ν w n) : Choice κ ν w n → Stamped κ ν w n
  | .start _ => ⟨t, s.clock, s.stamps ++ [0]⟩
  | .advance j =>
    match s.system.next j with
    | none => ⟨t, s.clock, s.stamps.eraseIdx j⟩
    | some a =>
      if a.inserts k then ⟨t, s.clock + 1, s.stamps.set j (s.clock + 1)⟩
      else if s.owesNewly k j t then ⟨t, s.clock, s.stamps.set j s.clock⟩
      else { s with system := t }
  | .access _ _ _ _ => { s with system := t }

variable [Hashable κ] [EquivBEq κ] [LawfulHashable κ] [NeZero n] {checks : Bool}

def step (checks : Bool) (k : κ) (s : Stamped κ ν w n) (choice : Choice κ ν w n) :
    Option (List (Event κ ν w) × Stamped κ ν w n) :=
  (s.system.step checks choice).map fun (shown, t) => (shown, s.record k t choice)

variable {k : κ} {s t : Stamped κ ν w n} {choice : Choice κ ν w n}
  {shown trace : List (Event κ ν w)} {maxSizeBytes : BitVec w}

omit [Hashable κ] [EquivBEq κ] [LawfulHashable κ] [NeZero n] in
@[simp] theorem system_record (u : System κ ν w n) : (s.record k u choice).system = u := by
  unfold record
  split
  · rfl
  · split
    · rfl
    · split
      · rfl
      · split <;> rfl
  · rfl

theorem step_eq_some : step checks k s choice = some (shown, t) ↔
    ∃ u, s.system.step checks choice = some (shown, u) ∧ t = s.record k u choice := by
  simp only [step, Option.map_eq_some_iff, Prod.exists, Prod.mk.injEq]
  constructor
  · rintro ⟨_, u, hstep, rfl, rfl⟩
    exact ⟨u, hstep, rfl⟩
  · rintro ⟨u, hstep, rfl⟩
    exact ⟨_, u, hstep, rfl, rfl⟩

/-- Every execution has its record, and a record is of an execution. -/
theorem execution_iff {u : System κ ν w n} :
    Execution (System.step checks) (fun _ _ => True) (.start maxSizeBytes) trace u ↔
      ∃ s, Execution (step checks k) (fun _ _ => True) (start maxSizeBytes) trace s ∧
        s.system = u := by
  constructor
  · intro h
    induction h with
    | start => exact ⟨_, .start, rfl⟩
    | @step _ _ _ _ choice _ _ hstep ih =>
      obtain ⟨s, hs, rfl⟩ := ih
      exact ⟨_, hs.step trivial (step_eq_some.mpr ⟨_, hstep, rfl⟩), system_record _⟩
  · rintro ⟨s, h, rfl⟩
    induction h with
    | start => exact .start
    | step _ _ hstep ih =>
      obtain ⟨u, hu, rfl⟩ := step_eq_some.mp hstep
      rw [system_record]
      exact ih.step trivial hu

/-! ## One step -/

/-- Every call has its stamp. -/
def Paired (s : Stamped κ ν w n) : Prop := s.stamps.length = s.system.calls.length

omit [Hashable κ] [EquivBEq κ] [LawfulHashable κ] [NeZero n] in
theorem Paired.getElem? (hs : s.Paired) {j : Nat} {call : Call κ ν w n}
    (hj : s.system.calls[j]? = some call) : ∃ d, s.calls[j]? = some (call, d) := by
  obtain ⟨hlt, rfl⟩ := List.getElem?_eq_some_iff.mp hj
  have hlt' : j < s.stamps.length := hs ▸ hlt
  exact ⟨s.stamps[j], by simp [calls, hlt, hlt']⟩

theorem step_paired (hs : s.Paired) (h : step checks k s choice = some (shown, t)) : t.Paired := by
  obtain ⟨u, hu, rfl⟩ := step_eq_some.mp h
  unfold Paired at hs ⊢
  rcases System.step_cases hu with ⟨op, rfl, -, rfl⟩ | ⟨j, call, rfl, hj, htodo, -, rfl⟩ |
    ⟨j, call, a, todo, e, rfl, hj, htodo, -, -, rfl⟩ | ⟨i, key, clockBit, frequency, rfl, -, rfl⟩
  · simpa [record, System.begin] using hs
  · simp [record, System.next, System.finish, hj, htodo, List.length_eraseIdx, hs]
  · have hnext : s.system.next j = some a := by simp [System.next, hj, htodo]
    simp only [record, hnext]
    split
    · simpa [System.resume] using hs
    · split <;> simpa [System.resume] using hs
  · exact hs

/-- A step, seen on the calls with their stamps. A call that goes on keeps its stamp unless it
inserts `k` or comes to owe a hook for `k`. -/
theorem step_cases (hs : s.Paired) (h : step checks k s choice = some (shown, t)) :
    (∃ op, shown = [] ∧ t.system.cache = s.system.cache ∧ t.clock = s.clock ∧
      t.calls = s.calls ++ [(⟨op, none, op.actions⟩, 0)]) ∨
    (∃ j call d, choice = .advance j ∧ s.calls[j]? = some (call, d) ∧ call.todo = [] ∧
      shown = [.returned call.op call.result] ∧ t.system.cache = s.system.cache ∧
      t.clock = s.clock ∧ s.calls.Perm ((call, d) :: t.calls)) ∨
    (∃ j call a todo e d d' rest, choice = .advance j ∧ s.system.calls[j]? = some call ∧
      call.todo = a :: todo ∧
      System.perform checks s.system.cache s.system.locked a = some e ∧ shown = e.shown ∧
      t.system.cache = e.cache ∧ s.calls[j]? = some (call, d) ∧ s.calls.Perm ((call, d) :: rest) ∧
      t.calls.Perm ((call.after todo e, d') :: rest) ∧
      (a.inserts k = true ∧ t.clock = s.clock + 1 ∧ d' = s.clock + 1 ∨
        a.inserts k = false ∧ t.clock = s.clock ∧
          (d' = s.clock ∧ call.owes k = false ∧ (call.after todo e).owes k = true ∨
            d' = d ∧ ((call.after todo e).owes k = true → call.owes k = true)))) ∨
    ∃ i key clockBit frequency, shown = [] ∧ t.clock = s.clock ∧ t.calls = s.calls ∧
      t.system.cache = s.system.cache.access i key clockBit frequency := by
  obtain ⟨u, hu, rfl⟩ := step_eq_some.mp h
  rcases System.step_cases hu with ⟨op, rfl, rfl, rfl⟩ | ⟨j, call, rfl, hj, htodo, rfl, rfl⟩ |
    ⟨j, call, a, todo, e, rfl, hj, htodo, he, rfl, rfl⟩ |
    ⟨i, key, clockBit, frequency, rfl, rfl, rfl⟩
  · exact .inl ⟨op, rfl, rfl, rfl, List.zip_append hs.symm⟩
  · obtain ⟨d, hd⟩ := hs.getElem? hj
    have hrecord : s.record k (s.system.finish j) (.advance j) =
        ⟨s.system.finish j, s.clock, s.stamps.eraseIdx j⟩ := by
      simp [record, System.next, hj, htodo]
    rw [hrecord]
    exact .inr (.inl ⟨j, call, d, rfl, hd, htodo, rfl, rfl, rfl, (List.zip_perm_cons hd).1⟩)
  · obtain ⟨d, hd⟩ := hs.getElem? hj
    obtain ⟨hcalls, hset, hsame⟩ := List.zip_perm_cons hd
    have hnext : s.system.next j = some a := by simp [System.next, hj, htodo]
    have howes : s.owesNewly k j (s.system.resume j call todo e) =
        ((call.after todo e).owes k && !call.owes k) := by
      have hlt := (List.getElem?_eq_some_iff.mp hj).1
      simp only [owesNewly, System.resume, List.getElem?_set_self hlt, hj, Option.any_some]
      rfl
    refine .inr (.inr (.inl ?_))
    simp only [record, hnext, howes]
    cases hinserts : a.inserts k with
    | true =>
      rw [if_pos rfl]
      exact ⟨j, call, a, todo, e, d, _, _, rfl, hj, htodo, he, rfl, rfl, hd, hcalls, hset _ _,
        .inl ⟨hinserts, rfl, rfl⟩⟩
    | false =>
      rw [if_neg Bool.false_ne_true]
      cases hnew : (call.after todo e).owes k && !call.owes k with
      | true =>
        rw [if_pos rfl]
        obtain ⟨hafter, hbefore⟩ := Bool.and_eq_true_iff.mp hnew
        exact ⟨j, call, a, todo, e, d, _, _, rfl, hj, htodo, he, rfl, rfl, hd, hcalls, hset _ _,
          .inr ⟨hinserts, rfl, .inl ⟨rfl, by simpa using hbefore, hafter⟩⟩⟩
      | false =>
        rw [if_neg Bool.false_ne_true]
        exact ⟨j, call, a, todo, e, d, _, _, rfl, hj, htodo, he, rfl, rfl, hd, hcalls, hsame _,
          .inr ⟨hinserts, rfl, .inr ⟨rfl, by simpa using hnew⟩⟩⟩
  · exact .inr (.inr (.inr ⟨i, key, clockBit, frequency, rfl, rfl, rfl, rfl⟩))

end Stamped

end PriorityLfu
