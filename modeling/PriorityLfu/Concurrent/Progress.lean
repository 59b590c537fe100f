import Mathlib.Data.Prod.Lex
import PriorityLfu.Concurrent.Linear

/-!
# Locks and progress

A write lock that is held between actions is held by one call, which gives it back before it
takes another and before it calls a hook. So user code in a hook runs without a lock of its own
call, and what waits for a lock holds none, except where a thread waits with a guard in its hands.
Every step brings its call or lookup closer to its return.
-/
namespace PriorityLfu
open Keyed

variable {κ ν : Type} {w n : Nat} [BEq κ] [Hashable κ] [NeZero n]

/-- The action gives the lock of shard `i` back. -/
def Action.unlocks (i : Fin n) : Action κ ν w n → Bool
  | .unlock j => j == i
  | _ => false

/-- The call has a lock to give back. -/
def Call.Holds (i : Fin n) (c : Call κ ν w n) : Prop := .unlock i ∈ c.todo

namespace System

variable [EquivBEq κ] [LawfulHashable κ] {checks : Bool} {c : Cache κ ν w n}
  {locked : Fin n → Bool} {a : Action κ ν w n} {e : Effect κ ν w n} {i : Fin n}

/-! ## Who holds a lock -/

/-- An action that takes a lock for longer adds the action that gives it back, once. -/
theorem perform_unlocks (h : perform checks c locked a = some e) (i : Fin n)
    (hheld : a.unlocks i = true → locked i = true) :
    (e.front ++ e.back).countP (Action.unlocks i) + (locked i).toNat =
      (a.unlocks i).toNat + (e.locked i).toNat := by
  have hlock : ∀ {j : Fin n}, locked j = false →
      (if j = i then 1 else 0) + (locked i).toNat = (Function.update locked j true i).toNat := by
    intro j hj
    by_cases hij : j = i
    · subst hij
      simp [hj]
    · rw [if_neg hij, Function.update_of_ne (Ne.symm hij), Nat.zero_add]
  cases a with
  | insert key entry =>
    obtain ⟨old, stats, evicted, d, us, -, -, -, rfl⟩ := perform_insert_eq h
    simp [List.countP_map, Function.comp_def, Action.unlocks]
  | remove key =>
    obtain ⟨r, d, -, hfree, ⟨-, rfl⟩ | ⟨k₀, en, -, rfl⟩⟩ := perform_remove_eq h
    · simp [Action.unlocks]
    · have := hlock hfree
      simpa [List.countP_map, List.countP_cons, Function.comp_def, Action.unlocks] using this
  | drain j =>
    have hfree : locked j = false := by
      rw [perform] at h
      split at h
      · cases h
      · next hfree => simpa using hfree
    obtain rfl := perform_drain h
    have := hlock hfree
    simpa [List.countP_map, List.countP_cons, Function.comp_def, Action.unlocks] using this
  | enter key u | update u | hook h' => cases h; simp [Action.unlocks]
  | unlock j =>
    cases h
    by_cases hij : j = i
    · subst hij
      simp [Action.unlocks] at hheld ⊢
      simp [hheld]
    · simp [Action.unlocks, hij, Function.update_of_ne (Ne.symm hij)]

/-- Every lock that is held is held by one call, and no call takes a lock before it has given
back the one it holds. -/
structure Locking (s : System κ ν w n) : Prop where
  owners : ∀ i, s.inFlight.countP (Action.unlocks i) = (s.locked i).toNat
  unlocksFirst : ∀ call ∈ s.calls,
    call.todo.Pairwise fun a b => a.lock ≠ none → ∀ i, b.unlocks i = false

variable {s t : System κ ν w n} {choice : Choice κ ν w n} {shown : List (Event κ ν w)}

omit [BEq κ] [Hashable κ] [NeZero n] [EquivBEq κ] [LawfulHashable κ] in
theorem actions_unlocks (op : CallOp κ ν w) :
    ∀ a ∈ (op.actions : List (Action κ ν w n)), ∀ i, a.unlocks i = false := by
  cases op with
  | insert key entry | remove key => simp [CallOp.actions, Action.unlocks]
  | clear =>
    simp only [CallOp.actions, List.mem_append, List.mem_map]
    rintro a (⟨i, -, rfl⟩ | ⟨u, -, rfl⟩) <;> exact fun _ => rfl

/-- The actions that an action adds take no lock, and those at the end give none back. -/
theorem perform_locks (h : perform checks c locked a = some e) :
    (∀ b ∈ e.front, b.lock = none) ∧ ∀ b ∈ e.back, b.lock = none ∧ ∀ i, b.unlocks i = false := by
  have hnone : ∀ b : Action κ ν w n, b.onShard = false → b.lock = none := fun b hb => by
    cases b <;> simp [Action.onShard, Action.lock] at hb ⊢
  have hadds := perform_adds h
  refine ⟨fun b hb => hnone b (hadds b (List.mem_append_left _ hb)), fun b hb =>
    ⟨hnone b (hadds b (List.mem_append_right _ hb)), ?_⟩⟩
  cases a with
  | drain j =>
    rw [perform_drain h] at hb
    obtain ⟨v, -, rfl⟩ := List.mem_map.mp hb
    exact fun _ => rfl
  | insert key entry =>
    obtain ⟨old, stats, evicted, d, us, -, -, -, rfl⟩ := perform_insert_eq h
    cases hb
  | remove key =>
    obtain ⟨r, d, -, -, ⟨-, rfl⟩ | ⟨k₀, en, -, rfl⟩⟩ := perform_remove_eq h <;> cases hb
  | enter key u | update u | unlock j | hook h' => cases h; cases hb

omit [EquivBEq κ] [LawfulHashable κ] in
theorem locking_start (maxSizeBytes : BitVec w) :
    (start maxSizeBytes : System κ ν w n).Locking where
  owners _ := rfl
  unlocksFirst _ hcall := nomatch hcall

theorem Locking.step (hs : s.Locking) (h : System.step checks s choice = some (shown, t)) :
    t.Locking := by
  rcases step_cases h with ⟨op, -, -, rfl⟩ | ⟨j, call, -, hj, htodo, -, rfl⟩ |
    ⟨j, call, a, todo, e, -, hj, htodo, he, -, rfl⟩ | ⟨i, key, _, _, -, -, rfl⟩
  · refine ⟨fun i => ?_, fun call hcall => ?_⟩
    · have hnone : (op.actions : List (Action κ ν w n)).countP (Action.unlocks i) = 0 :=
        List.countP_eq_zero.mpr fun a ha => by simp [actions_unlocks op a ha i]
      have := hs.owners i
      simpa [inFlight, begin, hnone] using this
    · rcases List.mem_append.mp hcall with hold | hnew
      · exact hs.unlocksFirst call hold
      · obtain rfl := List.mem_singleton.mp hnew
        exact List.pairwise_iff_getElem.mpr fun _ k _ hk _ _ i =>
          actions_unlocks op _ (List.getElem_mem hk) i
  · refine ⟨fun i => ?_, fun call' hcall' =>
      hs.unlocksFirst call' (List.mem_of_mem_eraseIdx hcall')⟩
    have hperm := (inFlight_split hj).1
    rw [htodo, List.nil_append] at hperm
    rw [← hperm.countP_eq]
    exact hs.owners i
  · have hcall := hs.unlocksFirst call (List.mem_of_getElem? hj)
    rw [htodo, List.pairwise_cons] at hcall
    obtain ⟨hfront, hback⟩ := perform_locks he
    refine ⟨fun i => ?_, fun call' hcall' => ?_⟩
    · have hold := hs.owners i
      rw [(inFlight_split hj).1.countP_eq, htodo, List.countP_append, List.countP_cons] at hold
      have hheld : a.unlocks i = true → s.locked i = true := fun ha => by
        by_contra hfree
        rw [ha, Bool.eq_false_of_not_eq_true hfree] at hold
        simp at hold
      have hnew := perform_unlocks he i hheld
      rw [List.countP_append] at hnew
      have hcount := ((inFlight_split hj).2
        ⟨call.op, e.result.getD call.result, e.front ++ todo ++ e.back⟩).countP_eq
          (Action.unlocks i)
      rw [List.countP_append, List.countP_append, List.countP_append] at hcount
      show ((s.calls.set j _).flatMap Call.todo).countP (Action.unlocks i) = (e.locked i).toNat
      rw [hcount]
      cases hai : a.unlocks i <;> simp [hai] at hold hnew <;> omega
    · rcases List.mem_or_eq_of_mem_set hcall' with hold | rfl
      · exact hs.unlocksFirst call' hold
      · refine List.pairwise_append.mpr ⟨List.pairwise_append.mpr ⟨?_, hcall.2, ?_⟩, ?_, ?_⟩
        · exact List.pairwise_iff_getElem.mpr fun _ _ hk _ _ hne =>
            absurd (hfront _ (List.getElem_mem hk)) hne
        · exact fun b hb _ _ hne => absurd (hfront b hb) hne
        · exact List.pairwise_iff_getElem.mpr fun _ _ hk _ _ hne =>
            absurd (hback _ (List.getElem_mem hk)).1 hne
        · exact fun _ _ b hb _ => (hback b hb).2
  · exact ⟨hs.owners, hs.unlocksFirst⟩

omit [EquivBEq κ] [LawfulHashable κ] in
theorem Locking.holds (hs : s.Locking) {call : Call κ ν w n} (hcall : call ∈ s.calls)
    (hholds : call.Holds i) : s.locked i = true := by
  have hpos : 0 < s.inFlight.countP (Action.unlocks i) :=
    List.countP_pos_iff.mpr ⟨.unlock i, List.mem_flatMap.mpr ⟨call, hcall, hholds⟩, by
      simp [Action.unlocks]⟩
  rw [hs.owners i] at hpos
  by_contra hfree
  rw [Bool.eq_false_of_not_eq_true hfree] at hpos
  cases hpos

omit [EquivBEq κ] [LawfulHashable κ] in
theorem Locking.owner (hs : s.Locking) (hlocked : s.locked i = true) :
    ∃ call ∈ s.calls, call.Holds i := by
  have hpos : 0 < s.inFlight.countP (Action.unlocks i) := by
    rw [hs.owners i, hlocked]
    exact Nat.one_pos
  obtain ⟨a, ha, hai⟩ := List.countP_pos_iff.mp hpos
  obtain ⟨call, hcall, hin⟩ := List.mem_flatMap.mp ha
  refine ⟨call, hcall, ?_⟩
  cases a <;> simp [Action.unlocks] at hai
  exact hai ▸ hin

omit [EquivBEq κ] [LawfulHashable κ] in
/-- A call that is about to take a lock holds none. -/
theorem Locking.takes (hs : s.Locking) {call : Call κ ν w n} (hcall : call ∈ s.calls)
    {todo : List (Action κ ν w n)} (htodo : call.todo = a :: todo) (ha : a.lock ≠ none) :
    ¬ call.Holds i := by
  intro hholds
  have hpair := hs.unlocksFirst call hcall
  rw [htodo, List.pairwise_cons] at hpair
  rw [Call.Holds, htodo] at hholds
  rcases List.mem_cons.mp hholds with rfl | hin
  · exact ha rfl
  · have := hpair.1 _ hin ha i
    simp [Action.unlocks] at this

omit [EquivBEq κ] [LawfulHashable κ] in
/-- A call that is about to take a lock holds none, and may end. -/
theorem Locking.finish (hs : s.Locking) {j : Nat} {call : Call κ ν w n}
    {todo : List (Action κ ν w n)} (hj : s.calls[j]? = some call) (htodo : call.todo = a :: todo)
    (ha : a.lock ≠ none) (cache : Cache κ ν w n) : { s.finish j with cache }.Locking := by
  refine ⟨fun i => ?_, fun call' hcall' => hs.unlocksFirst call' (List.mem_of_mem_eraseIdx hcall')⟩
  have hnone : call.todo.countP (Action.unlocks i) = 0 := by
    refine List.countP_eq_zero.mpr fun b hb hunlocks => ?_
    cases b <;> simp [Action.unlocks] at hunlocks
    exact hs.takes (List.mem_of_getElem? hj) htodo ha (hunlocks ▸ hb)
  have howners := hs.owners i
  rw [(inFlight_split hj).1.countP_eq, List.countP_append, hnone, Nat.zero_add] at howners
  exact howners

omit [EquivBEq κ] [LawfulHashable κ] in
/-- No two calls hold the same lock. -/
theorem Locking.unique (hs : s.Locking) {j j' : Nat} {call call' : Call κ ν w n}
    (hj : s.calls[j]? = some call) (hj' : s.calls[j']? = some call') (hholds : call.Holds i)
    (hholds' : call'.Holds i) : j = j' := by
  by_contra hne
  have hunlocks : (Action.unlock i : Action κ ν w n).unlocks i = true := by simp [Action.unlocks]
  have hfirst : 0 < call.todo.countP (Action.unlocks i) :=
    List.countP_pos_iff.mpr ⟨_, hholds, hunlocks⟩
  have hother : 0 < (s.finish j).inFlight.countP (Action.unlocks i) := by
    refine List.countP_pos_iff.mpr ⟨_, List.mem_flatMap.mpr ⟨call', ?_, hholds'⟩, hunlocks⟩
    exact List.mem_eraseIdx_iff_getElem?.mpr ⟨j', Ne.symm hne, hj'⟩
  have htotal := hs.owners i
  rw [(inFlight_split hj).1.countP_eq, List.countP_append] at htotal
  have := Bool.toNat_le (s.locked i)
  omega

/-- Without overflow checks an action is made unless its lock is held. -/
theorem perform_unchecked (c : Cache κ ν w n) (a : Action κ ν w n)
    (hfree : ∀ i, a.lock = some i → locked i = false) : ∃ e, perform false c locked a = some e := by
  cases a with
  | insert key entry =>
    obtain ⟨⟨old, stats, evicted⟩, d, hins⟩ := Cache.insertShard_unchecked c key entry
    obtain ⟨us, hus⟩ := Cache.insertUpdates_unchecked entry.size old
    simp [perform, hfree _ rfl, hins, hus]
  | remove key =>
    obtain ⟨r, d, hrem⟩ := Cache.removeShard_unchecked c key
    cases r <;> simp [perform, hfree _ rfl, hrem]
  | drain i => simp [perform, hfree i rfl]
  | enter key u | update u | unlock i | hook h => exact ⟨_, rfl⟩

end System

/-- A lookup makes its next step unless it waits for a lock that is held. -/
theorem Reader.perform_returns {c : Cache κ ν w n} {locked : Fin n → Bool} {r : Reader κ ν}
    (hs : r.Sees (c.shards (r.shard w n)))
    (hfree : r.phase = .waiting → locked (r.shard w n) = false) :
    ∃ e, r.perform c locked = some e := by
  have hget : ∀ key, r.phase.slot = some key →
      ∃ en, (c.shards (r.shard w n)).entries.get? key = some en := fun key hslot => by
    obtain ⟨-, -, x, hx, -⟩ := hs key hslot
    obtain ⟨en, hen, -⟩ := Option.map_eq_some_iff.mp hx
    exact ⟨en, hen⟩
  unfold perform
  cases hphase : r.phase with
  | waiting => simp [hfree hphase]
  | locked =>
    dsimp only
    split
    · exact ⟨_, rfl⟩
    · split <;> exact ⟨_, rfl⟩
  | found key stage =>
    obtain ⟨en, hen⟩ := hget key (by rw [hphase]; rfl)
    cases stage <;> simp [hen]
  | counted key =>
    obtain ⟨en, hen⟩ := hget key (by rw [hphase]; rfl)
    simp [hen]
  | hit key | missed | guarded key value | done answer => exact ⟨_, rfl⟩

namespace Shared

variable [EquivBEq κ] [LawfulHashable κ] {checks : Bool} {s t : Shared κ ν w n}
  {move : Move κ ν w} {shown : List (CacheNote κ ν w)} {maxSizeBytes : BitVec w}
  {trace : List (CacheNote κ ν w)}

/-! ## Mutual exclusion -/

theorem locking_step (hs : s.system.Locking)
    (h : Shared.stepOrPanic checks s move = some (shown, t)) : t.system.Locking := by
  rcases stepOrPanic_cases h with hstep |
    ⟨j, call, a, todo, i, s', -, -, -, hj, htodo, hlock, rfl⟩
  · rcases step_cases hstep with ⟨op, -, -, rfl⟩ | ⟨j, events, system, -, -, hsystem, -, rfl⟩ |
      ⟨op, -, -, rfl⟩ | ⟨before, r, after, e, -, -, he, -, rfl⟩
    · have hstart : s.system.step checks (.start op) = some ([], s.system.begin op) := rfl
      exact hs.step hstart
    · exact hs.step hsystem
    · exact hs
    · exact ⟨hs.owners, hs.unlocksFirst⟩
  · exact hs.finish hj htodo (by simp [hlock]) _

/-- What holds of the shared cache at all times, also after calls that panicked. -/
structure Orderly (s : Shared κ ν w n) : Prop where
  sighted : s.Sighted
  ordered : ∀ call ∈ s.system.calls, call.Ordered
  locking : s.system.Locking

theorem Orderly.stepOrPanic (hs : s.Orderly)
    (h : Shared.stepOrPanic checks s move = some (shown, t)) : t.Orderly :=
  ⟨hs.sighted.stepOrPanic h, step_ordered hs.ordered h, locking_step hs.locking h⟩

theorem Orderly.step (hs : s.Orderly) (h : Shared.step checks s move = some (shown, t)) :
    t.Orderly :=
  hs.stepOrPanic ((Execution.withFailures_of_none (calm_of_step h)).trans h)

omit [EquivBEq κ] [LawfulHashable κ] in
theorem orderly_start : (start maxSizeBytes : Shared κ ν w n).Orderly where
  sighted := sighted_start maxSizeBytes
  ordered := fun _ hcall => nomatch hcall
  locking := System.locking_start maxSizeBytes

theorem orderly
    (h : Execution (Shared.stepOrPanic checks) (fun _ _ => True) (start maxSizeBytes) trace s) :
    s.Orderly :=
  Execution.state_invariant orderly_start (fun _ _ _ _ hs _ hstep => hs.stepOrPanic hstep) h

/-- In every execution, calls that panic included, a write lock that is held has one call that holds
it and no lookup or guard beside it, a call that takes a lock holds none, and hooks are called
without a lock of their call. -/
theorem locks_exclusive
    (h : Execution (Shared.stepOrPanic checks) (fun _ _ => True) (start maxSizeBytes) trace s) :
    (∀ i, s.system.locked i = true ↔ ∃ call ∈ s.system.calls, call.Holds i) ∧
      (∀ (i : Fin n) (j j' : Nat) (call call' : Call κ ν w n), s.system.calls[j]? = some call →
        s.system.calls[j']? = some call' → call.Holds i → call'.Holds i → j = j') ∧
      (∀ call ∈ s.system.calls, ∀ i, call.Holds i → s.reads i = false) ∧
      ∀ call ∈ s.system.calls, ∀ a todo, call.todo = a :: todo →
        a.lock ≠ none ∨ (∃ hook, a = .hook hook) → ∀ i, ¬ call.Holds i := by
  obtain ⟨hsighted, hordered, hlocking⟩ := orderly h
  refine ⟨fun i => ⟨hlocking.owner, ?_⟩, fun i j j' call call' => hlocking.unique, ?_, ?_⟩
  · rintro ⟨call, hcall, hholds⟩
    exact hlocking.holds hcall hholds
  · intro call hcall i hholds
    have hlocked := hlocking.holds hcall hholds
    refine Bool.eq_false_iff.mpr fun hreads => ?_
    obtain ⟨r, hr, hboth⟩ := List.any_eq_true.mp hreads
    simp only [Bool.and_eq_true, beq_iff_eq] at hboth
    have := hsighted.free r hr hboth.1
    rw [hboth.2, hlocked] at this
    cases this
  · rintro call hcall a todo htodo (hlock | ⟨hook, rfl⟩) i
    · exact hlocking.takes hcall htodo hlock
    · intro hholds
      have hlast := (hordered call hcall).hooksLast
      rw [htodo, List.pairwise_cons] at hlast
      rw [Call.Holds, htodo] at hholds
      rcases List.mem_cons.mp hholds with heq | hin
      · cases heq
      · exact hlast.1 _ hin (Option.some_ne_none _) rfl

/-- A removal that has taken its entry out. -/
def removing : List (Move Nat Nat 8) :=
  .start (.insert 0 (.new 7 3 .standard)) :: List.replicate 5 (.advance 0) ++
    [.start (.remove 0), .advance 0]

theorem locks_exclusive_removing :
    ∃ trace, ∃ s : Shared Nat Nat 8 2,
      Execution (Shared.stepOrPanic true) (fun _ _ => True) (start 20) trace s ∧
      s.system.locked 0 = true ∧ ∃ call ∈ s.system.calls, call.Holds 0 := by
  have hlocked : ((Execution.play (Shared.stepOrPanic true) (fun _ _ => True)
      (start 20 : Shared Nat Nat 8 2) (unwinding ++ removing)).map fun r => r.2.system.locked 0) =
      some true := by decide +kernel
  obtain ⟨⟨trace, s⟩, hplay, hs⟩ := Option.map_eq_some_iff.mp hlocked
  have hrun := Execution.of_play hplay
  exact ⟨trace, s, hrun, hs, ((locks_exclusive hrun).1 0).mp hs⟩

/-! ## What can move -/

/-- Where nothing waits for what a call holds, every call at the head of its list moves. -/
theorem advance_returns (s : Shared κ ν w n) {j : Nat} {call : Call κ ν w n}
    (hj : s.system.calls[j]? = some call)
    (hfree : ∀ a todo i, call.todo = a :: todo → a.lock = some i →
      s.system.locked i = false ∧ s.reads i = false) :
    ∃ shown t, Shared.step false s (.advance j) = some (shown, t) := by
  cases htodo : call.todo with
  | nil => simp [Shared.step, blocked, System.next, System.step, hj, htodo]
  | cons a todo =>
    obtain ⟨e, he⟩ := System.perform_unchecked s.system.cache a
      fun i hi => (hfree a todo i htodo hi).1
    have hblocked : s.blocked j = false := by
      cases hlock : a.lock with
      | none => simp [blocked, System.next, hj, htodo, hlock]
      | some i => simp [blocked, System.next, hj, htodo, hlock, (hfree a todo i htodo hlock).2]
    simp [Shared.step, hblocked, System.step, hj, htodo, he]

/-- A lookup moves unless it waits for a lock that a call holds. -/
theorem read_returns (hs : s.Orderly) {j : Nat} {r : Reader κ ν} (hj : s.readers[j]? = some r)
    (hfree : r.phase = .waiting → s.system.locked (r.shard w n) = false) :
    ∃ shown t, Shared.step checks s (.read j) = some (shown, t) := by
  have hsees := hs.sighted.sees r (List.mem_of_getElem? hj)
  obtain ⟨e, he⟩ := Reader.perform_returns hsees hfree
  exact ⟨e.shown, _, by simp [Shared.step, hj, he]; rfl⟩

end Shared

/-! ## Termination -/

/-- The move is a step of a call or a lookup that is in progress. -/
def Move.GoesOn : Move κ ν w → Prop
  | .advance _ | .read _ => True
  | .start _ | .look _ => False

/-- The steps that a lookup has at most to make. -/
def Phase.rank : Phase κ ν → Nat
  | .waiting => 9
  | .locked => 8
  | .found _ .found => 7
  | .found _ .marked => 6
  | .found _ (.loaded _) => 5
  | .hit _ => 4
  | .counted _ | .missed => 3
  | .guarded _ _ | .done _ => 1

omit [BEq κ] [Hashable κ] [NeZero n] in
theorem Phase.rank_pos (phase : Phase κ ν) : 0 < phase.rank := by
  cases phase with
  | found key stage => cases stage <;> simp [rank]
  | _ => simp [rank]

theorem Reader.Performs.rank_lt {c : Cache κ ν w n} {locked : Fin n → Bool} {r : Reader κ ν}
    {e : Reading κ ν w n} (h : r.Performs c locked e) :
    ((e.phase.map Phase.rank).getD 0) < r.phase.rank := by
  cases h with
  | drop hp | finish hp => exact r.phase.rank_pos
  | _ hp => simp [hp, Phase.rank]

namespace Shared

/-- What a step lowers: the changes of shards still to be made, and then the steps up to the next
of them or to a return. -/
def remaining (s : Shared κ ν w n) : Nat ×ₗ Nat :=
  toLex ((s.system.calls.map fun call => call.parts.length).sum,
    (s.system.calls.map fun call => call.todo.length + 1).sum +
      (s.readers.map fun r => r.phase.rank).sum)

variable [EquivBEq κ] [LawfulHashable κ] {checks : Bool} {s t : Shared κ ν w n}
  {move : Move κ ν w} {shown : List (CacheNote κ ν w)} {maxSizeBytes : BitVec w}
  {trace : List (CacheNote κ ν w)}

theorem advance_lowers (hs : ∀ call ∈ s.system.calls, call.Ordered) {j : Nat} {events : List (Event κ ν w)}
    {system : System κ ν w n} (h : s.system.step checks (.advance j) = some (events, system)) :
    (Shared.mk system s.readers).remaining < s.remaining := by
  rcases System.step_cases h with ⟨op, hmove, -⟩ | ⟨j', call, hmove, hj, htodo, rfl, rfl⟩ |
    ⟨j', call, a, todo, e, hmove, hj, htodo, he, rfl, rfl⟩ | ⟨i, key, _, _, hmove, -⟩
  · cases hmove
  · cases hmove
    obtain ⟨before, after, hcalls, rfl, -, herase⟩ := List.getElem?_split hj
    have hfinish : (s.system.finish before.length).calls = before ++ after := herase
    have hparts : call.parts.length = 0 := by simp [Call.parts, htodo]
    simp only [remaining, Prod.Lex.toLex_lt_toLex, hcalls, hfinish, List.map_append, List.map_cons,
      List.sum_append, List.sum_cons, hparts]
    omega
  · cases hmove
    have hcall := hs call (List.mem_of_getElem? hj)
    obtain ⟨before, after, hcalls, rfl, hset, -⟩ := List.getElem?_split hj
    have hresume : (s.system.resume before.length call todo e).calls =
        before ++ call.after todo e :: after := hset _
    simp only [remaining, Prod.Lex.toLex_lt_toLex, hcalls, hresume, List.map_append, List.map_cons,
      List.sum_append, List.sum_cons]
    cases hpart : a.part with
    | some p =>
      obtain ⟨-, hparts, -⟩ := hcall.part htodo hpart he
      rw [hparts, List.length_cons]
      omega
    | none =>
      obtain ⟨-, hparts, -⟩ := hcall.other htodo hpart he
      obtain ⟨-, -, hfront, hback, -⟩ := System.perform_other hpart he
      have hlen : call.todo.length = (call.after todo e).todo.length + 1 := by
        simp [Call.after, hfront, hback, htodo]
      rw [hparts, hlen]
      omega
  · cases hmove

/-- Every step of a call or lookup lowers what remains. -/
theorem step_lowers (hs : ∀ call ∈ s.system.calls, call.Ordered) (hmove : move.GoesOn)
    (h : Shared.step checks s move = some (shown, t)) : t.remaining < s.remaining := by
  rcases step_cases h with ⟨op, rfl, -⟩ | ⟨j, events, system, rfl, -, hstep, -, rfl⟩ |
    ⟨op, rfl, -⟩ | ⟨before, r, after, e, rfl, hreaders, he, -, rfl⟩
  · exact hmove.elim
  · exact advance_lowers hs hstep
  · exact hmove.elim
  · have hrank := he.rank_lt
    simp only [remaining, Prod.Lex.toLex_lt_toLex, hreaders, List.map_append, List.map_cons,
      List.sum_append, List.sum_cons]
    cases hphase : e.phase <;> simp [hphase] at hrank ⊢ <;> omega

end Shared

end PriorityLfu
