import PriorityLfu.Concurrent.Progress

/-!
# The threads that use the cache

A thread makes one request after the other, and further ones in the hooks of its calls. A guard
belongs to the thread that asked for it (`Guard` is not `Send`), which drops it in code of its
own. A thread that asks for the lock that its own guard holds waits for ever
(`own_guard_blocks`). If no thread makes a request while it holds a guard there is no deadlock, and
when no new requests come everything returns.
-/
namespace PriorityLfu
open Keyed

variable {τ κ ν : Type} {w n : Nat} [BEq κ]

/-- A guard, and no lookup any more. -/
def Phase.isGuard : Phase κ ν → Bool
  | .guarded _ _ => true
  | _ => false

namespace Call

/-- The call is in a hook, which returns with the next step of the call. -/
def inHook (c : Call κ ν w n) : Bool := c.todo.head?.any fun a => a.hook?.isSome

/-- The call has only hooks to call. -/
def Closing (c : Call κ ν w n) : Prop := ∀ a ∈ c.todo, a.hook? ≠ none

/-- The next action of the call takes a lock. -/
def locksNext [Hashable κ] [NeZero n] (c : Call κ ν w n) : Bool :=
  c.todo.head?.any fun a => a.lock.isSome

variable {call : Call κ ν w n} {a : Action κ ν w n} {todo : List (Action κ ν w n)} {i : Fin n}

omit [BEq κ] in
theorem Closing.not_holds (h : call.Closing) : ¬ call.Holds i := fun hholds => h _ hholds rfl

omit [BEq κ] in
theorem Closing.locksNext [Hashable κ] [NeZero n] (h : call.Closing) :
    call.locksNext = false := by
  cases htodo : call.todo with
  | nil => simp [Call.locksNext, htodo]
  | cons a todo =>
    have ha := h a (by simp [htodo])
    cases a <;> simp [Action.hook?] at ha
    simp [Call.locksNext, htodo, Action.lock]

omit [BEq κ] in
/-- Once a call is in a hook, only hooks are left to it. -/
theorem Ordered.closing (hcall : call.Ordered) (h : call.inHook = true) : call.Closing := by
  cases htodo : call.todo with
  | nil => simp [Call.inHook, htodo] at h
  | cons a todo =>
    have ha : a.hook? ≠ none := by
      simpa [Call.inHook, htodo, Option.isSome_iff_ne_none] using h
    have hlast := hcall.hooksLast
    rw [htodo, List.pairwise_cons] at hlast
    intro b hb
    rw [htodo] at hb
    rcases List.mem_cons.mp hb with rfl | hin
    · exact ha
    · exact hlast.1 b hin ha

variable [Hashable κ] [EquivBEq κ] [LawfulHashable κ] [NeZero n] {checks : Bool}
  {c : Cache κ ν w n} {locked : Fin n → Bool} {e : Effect κ ν w n}

theorem Closing.after (h : call.Closing) (htodo : call.todo = a :: todo)
    (he : System.perform checks c locked a = some e) : (call.after todo e).Closing := by
  have ha := h a (by simp [htodo])
  cases a <;> simp [Action.hook?] at ha
  cases he
  exact fun b hb => h b (by simpa [Call.after, htodo] using Or.inr hb)

end Call

/-- The cache with the threads that use it: whose each call is, and whose each lookup or guard. -/
structure Threaded (τ κ ν : Type) (w n : Nat) [BEq κ] where
  shared : Shared κ ν w n
  callers : List τ
  lookers : List τ

namespace Threaded

def start (maxSizeBytes : BitVec w) : Threaded τ κ ν w n := ⟨.start maxSizeBytes, [], []⟩

/-- The calls in progress, each with its thread. -/
def calls (s : Threaded τ κ ν w n) : List (Call κ ν w n × τ) :=
  s.shared.system.calls.zip s.callers

/-- The lookups and the guards. -/
def readers (s : Threaded τ κ ν w n) : List (Reader κ ν × τ) := s.shared.readers.zip s.lookers

/-- The thread waits for the answer of a lookup. -/
def Looks (s : Threaded τ κ ν w n) (t : τ) : Prop :=
  ∃ q ∈ s.readers, q.2 = t ∧ q.1.phase.isGuard = false

def Guards (s : Threaded τ κ ν w n) (t : τ) : Prop :=
  ∃ q ∈ s.readers, q.2 = t ∧ q.1.phase.isGuard = true

/-- The thread runs code of its own: outside the cache, or in hooks of its calls. -/
def Free (s : Threaded τ κ ν w n) (t : τ) : Prop :=
  (∀ p ∈ s.calls, p.2 = t → p.1.inHook = true) ∧ ¬ s.Looks t

/-- The thread can make the move: a request or the drop of a guard in code of its own, a step of a
call when what the hook asked for has returned. -/
def Turn (s : Threaded τ κ ν w n) (t : τ) : Move κ ν w → Prop
  | .start _ | .look _ => s.Free t
  | .advance j => s.calls[j]?.map Prod.snd = some t ∧ (∀ p ∈ s.calls.drop (j + 1), p.2 ≠ t) ∧
      ¬ s.Looks t
  | .read j => s.readers[j]?.map Prod.snd = some t ∧
      (s.readers[j]?.any (fun q => q.1.phase.isGuard) = true → s.Free t)

/-- Whose everything is after a move of the thread that leads to `u`. -/
def record (s : Threaded τ κ ν w n) (u : Shared κ ν w n) (t : τ) :
    Move κ ν w → Threaded τ κ ν w n
  | .start _ => ⟨u, s.callers ++ [t], s.lookers⟩
  | .advance j => ⟨u, s.callers.alongside s.shared.system.calls u.system.calls j, s.lookers⟩
  | .look _ => ⟨u, s.callers, s.lookers ++ [t]⟩
  | .read j => ⟨u, s.callers, s.lookers.alongside s.shared.readers u.readers j⟩

section decidable

variable [DecidableEq τ] (s : Threaded τ κ ν w n) (t : τ)

instance : Decidable (s.Looks t) := inferInstanceAs (Decidable (∃ q ∈ s.readers, _ ∧ _))

instance : Decidable (s.Guards t) := inferInstanceAs (Decidable (∃ q ∈ s.readers, _ ∧ _))

instance : Decidable (s.Free t) := inferInstanceAs (Decidable ((∀ p ∈ s.calls, _ → _) ∧ _))

instance (move : Move κ ν w) : Decidable (s.Turn t move) :=
  match move with
  | .start _ | .look _ => inferInstanceAs (Decidable (s.Free t))
  | .advance _ => inferInstanceAs (Decidable (_ ∧ (∀ p ∈ s.calls.drop _, _) ∧ _))
  | .read _ => inferInstanceAs (Decidable (_ ∧ (_ → s.Free t)))

end decidable

/-- A thread that makes a request holds no guard. -/
def Unguarded (s : Threaded τ κ ν w n) (choice : τ × Move κ ν w) : Prop :=
  match choice.2 with
  | .start _ | .look _ => ¬ s.Guards choice.1
  | .advance _ | .read _ => True

instance [DecidableEq τ] (s : Threaded τ κ ν w n) (choice : τ × Move κ ν w) :
    Decidable (s.Unguarded choice) :=
  match choice with
  | (_, .start _) | (_, .look _) => inferInstanceAs (Decidable (¬ _))
  | (_, .advance _) | (_, .read _) => inferInstanceAs (Decidable True)

variable [Hashable κ] [EquivBEq κ] [LawfulHashable κ] [NeZero n] [DecidableEq τ]

/-- A move of a thread. -/
def step (checks : Bool) (s : Threaded τ κ ν w n) (choice : τ × Move κ ν w) :
    Option (List (CacheNote κ ν w) × Threaded τ κ ν w n) :=
  if s.Turn choice.1 choice.2 then
    (s.shared.step checks choice.2).map fun (shown, u) => (shown, s.record u choice.1 choice.2)
  else none

variable {s u : Threaded τ κ ν w n} {t : τ} {move : Move κ ν w} {checks : Bool}
  {shown trace : List (CacheNote κ ν w)} {maxSizeBytes : BitVec w}

omit [Hashable κ] [EquivBEq κ] [LawfulHashable κ] [NeZero n] [DecidableEq τ] in
@[simp] theorem shared_record (v : Shared κ ν w n) : (s.record v t move).shared = v := by
  cases move <;> rfl

theorem step_eq_some : step checks s (t, move) = some (shown, u) ↔
    s.Turn t move ∧ ∃ v, s.shared.step checks move = some (shown, v) ∧ u = s.record v t move := by
  simp only [step, Option.ite_none_right_eq_some, Option.map_eq_some_iff, Prod.exists,
    Prod.mk.injEq]
  refine and_congr_right fun _ => ⟨?_, ?_⟩
  · rintro ⟨_, v, hv, rfl, rfl⟩
    exact ⟨v, hv, rfl⟩
  · rintro ⟨v, hv, rfl⟩
    exact ⟨_, v, hv, rfl, rfl⟩

/-- What threads can do the calls and lookups can do. -/
theorem execution_shared {allowed : Threaded τ κ ν w n → τ × Move κ ν w → Prop}
    (h : Execution (step checks) allowed (start maxSizeBytes) trace s) :
    Execution (Shared.step checks) (fun _ _ => True) (.start maxSizeBytes) trace s.shared := by
  induction h with
  | start => exact .start
  | step _ _ hs ih =>
    obtain ⟨-, v, hv, rfl⟩ := step_eq_some.mp hs
    rw [shared_record]
    exact ih.step trivial hv

/-! ## One step -/

/-- Everything in progress has its thread. -/
structure Matched (s : Threaded τ κ ν w n) : Prop where
  callers : s.shared.system.calls.length = s.callers.length
  lookers : s.shared.readers.length = s.lookers.length

section matched

omit [Hashable κ] [EquivBEq κ] [LawfulHashable κ] [NeZero n] [DecidableEq τ]

theorem matched_start : (start maxSizeBytes : Threaded τ κ ν w n).Matched := ⟨rfl, rfl⟩

theorem Matched.caller (hs : s.Matched) {j : Nat} {call : Call κ ν w n}
    (hj : s.shared.system.calls[j]? = some call) : ∃ t, s.calls[j]? = some (call, t) := by
  obtain ⟨hlt, rfl⟩ := List.getElem?_eq_some_iff.mp hj
  have hlt' : j < s.callers.length := hs.callers ▸ hlt
  exact ⟨s.callers[j], by simp [calls, hlt, hlt']⟩

theorem Matched.looker (hs : s.Matched) {j : Nat} {r : Reader κ ν}
    (hj : s.shared.readers[j]? = some r) : ∃ t, s.readers[j]? = some (r, t) := by
  obtain ⟨hlt, rfl⟩ := List.getElem?_eq_some_iff.mp hj
  have hlt' : j < s.lookers.length := hs.lookers ▸ hlt
  exact ⟨s.lookers[j], by simp [readers, hlt, hlt']⟩

theorem Matched.exists_caller (hs : s.Matched) {call : Call κ ν w n}
    (hcall : call ∈ s.shared.system.calls) : ∃ t, (call, t) ∈ s.calls := by
  obtain ⟨j, hj⟩ := List.mem_iff_getElem?.mp hcall
  obtain ⟨t, ht⟩ := hs.caller hj
  exact ⟨t, List.mem_of_getElem? ht⟩

theorem Matched.exists_looker (hs : s.Matched) {r : Reader κ ν} (hr : r ∈ s.shared.readers) :
    ∃ t, (r, t) ∈ s.readers := by
  obtain ⟨j, hj⟩ := List.mem_iff_getElem?.mp hr
  obtain ⟨t, ht⟩ := hs.looker hj
  exact ⟨t, List.mem_of_getElem? ht⟩

end matched

/-- What a move does to the threads' requests. -/
inductive Moves (checks : Bool) (s : Threaded τ κ ν w n) (t : τ) (move : Move κ ν w)
    (u : Threaded τ κ ν w n) : Prop
  | request (hmove : ¬ move.GoesOn) (hfree : s.Free t)
    (hnew : (∃ op : CallOp κ ν w, u.calls = s.calls ++ [(⟨op, none, op.actions⟩, t)] ∧
        u.readers = s.readers) ∨
      ∃ op, u.calls = s.calls ∧ u.readers = s.readers ++ [(⟨op, .waiting⟩, t)])
  | advance {before after : List (Call κ ν w n × τ)} {call : Call κ ν w n}
    (hmove : move = .advance before.length) (hcalls : s.calls = before ++ (call, t) :: after)
    (hlast : ∀ p ∈ after, p.2 ≠ t) (hlooks : ¬ s.Looks t)
    (hblocked : s.shared.blocked before.length = false) (hreaders : u.readers = s.readers)
    (hnext : call.todo = [] ∧ u.calls = before ++ after ∨
      ∃ a todo e, call.todo = a :: todo ∧
        System.perform checks s.shared.system.cache s.shared.system.locked a = some e ∧
        u.calls = before ++ (call.after todo e, t) :: after)
  | read (phase : Option (Phase κ ν)) {before after : List (Reader κ ν × τ)} {r : Reader κ ν}
    (hmove : move = .read before.length) (hreaders : s.readers = before ++ (r, t) :: after)
    (hfree : r.phase.isGuard = true → s.Free t) (hcalls : u.calls = s.calls)
    (hnext : u.readers = before ++ (phase.map fun p => (Reader.mk r.op p, t)).toList ++ after)

omit [Hashable κ] [EquivBEq κ] [LawfulHashable κ] [NeZero n] [DecidableEq τ] in
/-- The thread at the position where the pairs are taken apart. -/
theorem thread_eq {α : Type} {before after : List (α × τ)} {a : α} {t' : τ}
    (h : (before ++ (a, t') :: after)[before.length]?.map Prod.snd = some t) : t' = t := by
  simpa using h

omit [DecidableEq τ] in
theorem moves_advance (hs : s.Matched) {j : Nat} {v : Shared κ ν w n}
    (hturn : s.Turn t (.advance j))
    (hv : s.shared.step checks (.advance j) = some (shown, v)) :
    (s.record v t (.advance j)).Matched ∧
      s.Moves checks t (.advance j) (s.record v t (.advance j)) := by
  obtain ⟨hthread, hlast, hlooks⟩ := hturn
  rcases Shared.step_cases hv with ⟨op, hmove, -⟩ |
    ⟨j', events, system, hmove, hblocked, hstep, -, rfl⟩ | ⟨op, hmove, -⟩ |
    ⟨_, r, _, e, hmove, -⟩ <;> cases hmove
  rcases System.step_cases hstep with ⟨op, hmove, -⟩ | ⟨j', call, hmove, hj, htodo, -, rfl⟩ |
    ⟨j', call, a, todo, e, hmove, hj, htodo, he, -, rfl⟩ | ⟨i, key, _, _, hmove, -⟩ <;>
    cases hmove
  · obtain ⟨t', hpair⟩ := hs.caller hj
    obtain ⟨before, after, hcalls, rfl, -, -, herase⟩ := List.zip_split hpair
    have hlt := (List.getElem?_eq_some_iff.mp hj).1
    rw [calls, hcalls] at hthread hlast
    obtain rfl := thread_eq hthread
    refine ⟨⟨?_, hs.lookers⟩, .advance rfl hcalls (by simpa using hlast) hlooks hblocked rfl
      (.inl ⟨htodo, ?_⟩)⟩
    · simp [record, System.finish, List.alongside_eraseIdx _ hlt, List.length_eraseIdx, hs.callers]
    · simpa [calls, record, System.finish, List.alongside_eraseIdx _ hlt] using herase
  · obtain ⟨t', hpair⟩ := hs.caller hj
    obtain ⟨before, after, hcalls, rfl, -, hset, -⟩ := List.zip_split hpair
    rw [calls, hcalls] at hthread hlast
    obtain rfl := thread_eq hthread
    refine ⟨⟨?_, hs.lookers⟩, .advance rfl hcalls (by simpa using hlast) hlooks hblocked rfl
      (.inr ⟨a, todo, e, htodo, he, ?_⟩)⟩
    · simp [record, System.resume, List.alongside_set, hs.callers]
    · simp only [calls, record, System.resume, List.alongside_set]
      exact hset _

omit [DecidableEq τ] in
theorem moves_read (hs : s.Matched) {j : Nat} {v : Shared κ ν w n} (hturn : s.Turn t (.read j))
    (hv : s.shared.step checks (.read j) = some (shown, v)) :
    (s.record v t (.read j)).Matched ∧ s.Moves checks t (.read j) (s.record v t (.read j)) := by
  obtain ⟨hthread, hfree⟩ := hturn
  obtain ⟨r, hr, hv⟩ := Option.bind_eq_some_iff.mp hv
  obtain ⟨e, he, hret⟩ := Option.map_eq_some_iff.mp hv
  cases hret
  obtain ⟨t', hpair⟩ := hs.looker hr
  obtain ⟨before, after, hreaders, rfl, -, hset, herase⟩ := List.zip_split hpair
  have hlt := (List.getElem?_eq_some_iff.mp hr).1
  rw [readers, hreaders] at hthread hfree
  obtain rfl := thread_eq hthread
  cases hphase : e.phase with
  | none =>
    refine ⟨⟨hs.callers, ?_⟩, .read none rfl hreaders (by simpa using hfree) rfl ?_⟩
    · simp [record, List.alongside_eraseIdx _ hlt, List.length_eraseIdx, hs.lookers]
    · simpa [readers, record, List.alongside_eraseIdx _ hlt] using herase
  | some phase =>
    refine ⟨⟨hs.callers, ?_⟩, .read (some phase) rfl hreaders (by simpa using hfree) rfl ?_⟩
    · simp [record, List.alongside_set, hs.lookers]
    · simpa [readers, record, List.alongside_set] using hset ⟨r.op, phase⟩

theorem moves (hs : s.Matched) (h : step checks s (t, move) = some (shown, u)) :
    u.Matched ∧ s.Moves checks t move u := by
  obtain ⟨hturn, v, hv, rfl⟩ := step_eq_some.mp h
  cases move with
  | start op =>
    cases hv
    refine ⟨⟨by simp [record, System.begin, hs.callers], hs.lookers⟩,
      .request (fun h => h) hturn (.inl ⟨op, ?_, rfl⟩)⟩
    exact List.zip_append hs.callers
  | look op =>
    cases hv
    refine ⟨⟨hs.callers, by simp [record, hs.lookers]⟩,
      .request (fun h => h) hturn (.inr ⟨op, rfl, ?_⟩)⟩
    exact List.zip_append hs.lookers
  | advance j => exact moves_advance hs hturn hv
  | read j => exact moves_read hs hturn hv

/-! ## Requests in hooks -/

/-- A call whose thread has made a further one has only hooks to call. -/
def Nested (s : Threaded τ κ ν w n) : Prop :=
  s.calls.Pairwise fun p q => q.2 = p.2 → p.1.Closing

omit [Hashable κ] [EquivBEq κ] [LawfulHashable κ] [NeZero n] [DecidableEq τ] in
/-- The calls of a thread that runs code of its own. -/
theorem Free.closing (hordered : ∀ call ∈ s.shared.system.calls, call.Ordered) (h : s.Free t)
    {p : Call κ ν w n × τ} (hp : p ∈ s.calls) (ht : t = p.2) : p.1.Closing :=
  (hordered _ (List.of_mem_zip hp).1).closing (h.1 p hp ht.symm)

omit [DecidableEq τ] in
theorem Nested.step (hs : s.Nested) (hordered : ∀ call ∈ s.shared.system.calls, call.Ordered)
    (h : s.Moves checks t move u) : u.Nested := by
  unfold Nested at hs ⊢
  cases h with
  | request hmove hfree hnew =>
    rcases hnew with ⟨op, hcalls, -⟩ | ⟨op, hcalls, -⟩
    · rw [hcalls, List.pairwise_append]
      refine ⟨hs, List.pairwise_singleton _ _, fun p hp q hq ht => ?_⟩
      obtain rfl := List.mem_singleton.mp hq
      exact hfree.closing hordered hp ht
    · rwa [hcalls]
  | advance hmove hcalls hlast hlooks hblocked hreaders hnext =>
    rw [hcalls, List.pairwise_append, List.pairwise_cons] at hs
    obtain ⟨hbefore, ⟨-, hafter⟩, hcross⟩ := hs
    rcases hnext with ⟨-, hnext⟩ | ⟨a, todo, e, -, -, hnext⟩
    · rw [hnext, List.pairwise_append]
      exact ⟨hbefore, hafter, fun p hp q hq => hcross p hp q (List.mem_cons_of_mem _ hq)⟩
    · rw [hnext, List.pairwise_append, List.pairwise_cons]
      refine ⟨hbefore, ⟨fun q hq ht => absurd ht (hlast q hq), hafter⟩, fun p hp q hq => ?_⟩
      rcases List.mem_cons.mp hq with rfl | hin
      · exact fun ht => hcross p hp _ List.mem_cons_self ht
      · exact hcross p hp q (List.mem_cons_of_mem _ hin)
  | read phase hmove hreaders hfree hcalls hnext => rwa [hcalls]

/-- What holds where no thread makes a request while it holds a guard: each thread has at most one
lookup or guard, and with it only calls that are in hooks. -/
structure Careful (s : Threaded τ κ ν w n) : Prop extends s.Matched where
  orderly : s.shared.Orderly
  nested : s.Nested
  oneLook : (s.readers.map Prod.snd).Nodup
  beside : ∀ p ∈ s.calls, ∀ q ∈ s.readers, q.2 = p.2 → p.1.Closing

omit [Hashable κ] [EquivBEq κ] [LawfulHashable κ] [NeZero n] [DecidableEq τ] in
/-- A thread that makes a request without a guard has nothing in its hands. -/
theorem Free.no_reader (h : s.Free t) (hguards : ¬ s.Guards t) {q : Reader κ ν × τ}
    (hq : q ∈ s.readers) : q.2 ≠ t := by
  intro ht
  cases hguard : q.1.phase.isGuard with
  | true => exact hguards ⟨q, hq, ht, hguard⟩
  | false => exact h.2 ⟨q, hq, ht, hguard⟩

omit [Hashable κ] [EquivBEq κ] [LawfulHashable κ] [NeZero n] [DecidableEq τ] in
/-- A request without a guard is the first thing of its thread among lookups and guards. -/
theorem first_reader (hunguarded : s.Unguarded (t, move)) (hmove : ¬ move.GoesOn) (hfree : s.Free t)
    {q : Reader κ ν × τ} (hq : q ∈ s.readers) : q.2 ≠ t := by
  refine hfree.no_reader ?_ hq
  cases move with
  | start op | look op => exact hunguarded
  | advance j | read j => exact absurd trivial hmove

omit [DecidableEq τ] in
theorem Careful.step_oneLook (hs : s.Careful) (hunguarded : s.Unguarded (t, move))
    (h : s.Moves checks t move u) : (u.readers.map Prod.snd).Nodup := by
  have hone := hs.oneLook
  cases h with
  | request hmove hfree hnew =>
    rcases hnew with ⟨op, -, hreaders⟩ | ⟨op, -, hreaders⟩
    · rwa [hreaders]
    · rw [hreaders, List.map_append, List.nodup_append]
      refine ⟨hone, List.nodup_singleton _, fun t' ht' t'' ht'' => ?_⟩
      obtain ⟨q, hq, rfl⟩ := List.mem_map.mp ht'
      obtain rfl := List.mem_singleton.mp ht''
      exact first_reader hunguarded hmove hfree hq
  | advance hmove hcalls hlast hlooks hblocked hreaders hnext => rwa [hreaders]
  | read phase hmove hreaders hfree hcalls hnext =>
    rw [hreaders] at hone
    rw [hnext]
    cases phase with
    | none => exact hone.sublist (by simp)
    | some phase => simpa using hone

omit [DecidableEq τ] in
theorem Careful.step_beside (hs : s.Careful) (hunguarded : s.Unguarded (t, move))
    (h : s.Moves checks t move u) :
    ∀ p ∈ u.calls, ∀ q ∈ u.readers, q.2 = p.2 → p.1.Closing := by
  have hbeside := hs.beside
  cases h with
  | request hmove hfree hnew =>
    rcases hnew with ⟨op, hcalls, hreaders⟩ | ⟨op, hcalls, hreaders⟩ <;>
      rw [hcalls, hreaders] <;> intro p hp q hq ht
    · rcases List.mem_append.mp hp with hold | hnew
      · exact hbeside p hold q hq ht
      · obtain rfl := List.mem_singleton.mp hnew
        exact absurd ht (first_reader hunguarded hmove hfree hq)
    · rcases List.mem_append.mp hq with hold | hnew
      · exact hbeside p hp q hold ht
      · obtain rfl := List.mem_singleton.mp hnew
        exact hfree.closing hs.orderly.ordered hp ht
  | advance hmove hcalls hlast hlooks hblocked hreaders hnext =>
    rw [hcalls] at hbeside
    rw [hreaders]
    rcases hnext with ⟨-, hnext⟩ | ⟨a, todo, e, htodo, he, hnext⟩ <;> rw [hnext] <;>
      intro p hp q hq ht
    · exact hbeside p (by grind) q hq ht
    · have hcalling := fun ht => (hbeside _ List.mem_append_cons_self q hq ht).after htodo he
      grind
  | read phase hmove hreaders hfree hcalls hnext =>
    rw [hreaders] at hbeside
    rw [hcalls, hnext]
    intro p hp q hq ht
    have hreading := hbeside p hp _ List.mem_append_cons_self
    cases phase <;> grind

theorem Careful.step (hs : s.Careful) (hunguarded : s.Unguarded (t, move))
    (h : step checks s (t, move) = some (shown, u)) : u.Careful := by
  obtain ⟨hmatched, hmoves⟩ := moves hs.toMatched h
  have horderly : u.shared.Orderly := by
    obtain ⟨-, v, hv, rfl⟩ := step_eq_some.mp h
    rw [shared_record]
    exact hs.orderly.step hv
  exact ⟨hmatched, horderly, hs.nested.step hs.orderly.ordered hmoves,
    hs.step_oneLook hunguarded hmoves, hs.step_beside hunguarded hmoves⟩

omit [EquivBEq κ] [LawfulHashable κ] [DecidableEq τ] in
theorem careful_start : (start maxSizeBytes : Threaded τ κ ν w n).Careful where
  toMatched := matched_start
  orderly := Shared.orderly_start
  nested := .nil
  oneLook := .nil
  beside := fun _ hp => nomatch hp

theorem careful (h : Execution (step checks) Unguarded (start maxSizeBytes) trace s) :
    s.Careful :=
  Execution.state_invariant careful_start
    (fun _ (_, _) _ _ hs hunguarded hstep => hs.step hunguarded hstep) h

/-! ## A thread for each request -/

/-- Each thread has one call, one lookup or one guard. -/
def Single (s : Threaded τ κ ν w n) : Prop :=
  (s.calls.map Prod.snd ++ s.readers.map Prod.snd).Nodup

omit [DecidableEq τ] in
theorem Single.step (hs : s.Single) (hnew : ¬ move.GoesOn →
      (∀ p ∈ s.calls, p.2 ≠ t) ∧ ∀ q ∈ s.readers, q.2 ≠ t)
    (h : s.Moves checks t move u) : u.Single := by
  unfold Single at hs ⊢
  cases h with
  | request hmove hfree hrequest =>
    obtain ⟨hcallers, hlookers⟩ := hnew hmove
    rcases hrequest with ⟨op, hcalls, hreaders⟩ | ⟨op, hcalls, hreaders⟩ <;>
      simp only [hcalls, hreaders, List.map_append, List.nodup_append] at hs ⊢ <;> grind
  | advance hmove hcalls hlast hlooks hblocked hreaders hnext =>
    rcases hnext with ⟨-, hnext⟩ | ⟨a, todo, e, -, -, hnext⟩ <;>
      simp only [hcalls, hreaders, hnext, List.map_append, List.map_cons, List.nodup_append,
        List.nodup_cons] at hs ⊢ <;> grind
  | read phase hmove hreaders hfree hcalls hnext =>
    cases phase <;>
      simp only [hcalls, hreaders, hnext, List.map_append, List.map_cons, List.nodup_append,
        List.nodup_cons] at hs ⊢ <;> grind

/-- A thread can make the move: whoever is in it, or one that has done nothing yet. -/
theorem Single.turn [Infinite τ] (hs : s.Single) (hmatched : s.Matched) {v : Shared κ ν w n}
    (h : s.shared.step checks move = some (shown, v)) :
    ∃ t, s.Turn t move ∧ s.Unguarded (t, move) ∧
      (¬ move.GoesOn → (∀ p ∈ s.calls, p.2 ≠ t) ∧ ∀ q ∈ s.readers, q.2 ≠ t) := by
  obtain ⟨t, ht⟩ := Infinite.exists_notMem_finset
    (s.calls.map Prod.snd ++ s.readers.map Prod.snd).toFinset
  rw [List.mem_toFinset] at ht
  have hcallers : ∀ p ∈ s.calls, p.2 ≠ t := by grind
  have hlookers : ∀ q ∈ s.readers, q.2 ≠ t := by grind
  have hlooks : ¬ s.Looks t := by
    rintro ⟨q, hq, ht, -⟩
    exact hlookers q hq ht
  have hguards : ¬ s.Guards t := by
    rintro ⟨q, hq, ht, -⟩
    exact hlookers q hq ht
  have hfree : s.Free t := ⟨fun p hp ht => absurd ht (hcallers p hp), hlooks⟩
  obtain ⟨hcallersNodup, hlookersNodup, hapart⟩ := List.nodup_append.mp hs
  cases move with
  | start op | look op =>
    exact ⟨t, hfree, hguards, fun _ => ⟨hcallers, hlookers⟩⟩
  | advance j =>
    cases hj : s.shared.system.calls[j]? with
    | none => simp [Shared.step, System.step, hj] at h
    | some call =>
      obtain ⟨t, hpair⟩ := hmatched.caller hj
      have hmem := List.mem_map_of_mem (f := Prod.snd) (List.mem_of_getElem? hpair)
      obtain ⟨before, after, hcalls, rfl, -⟩ := List.getElem?_split hpair
      have hdrop : s.calls.drop (before.length + 1) = after := by simp [hcalls]
      rw [hcalls, List.map_append, List.map_cons, List.nodup_append,
        List.nodup_cons] at hcallersNodup
      refine ⟨t, ⟨by simp [hpair], fun p hp ht => ?_, ?_⟩, trivial,
        fun hmove => absurd trivial hmove⟩
      · rw [hdrop] at hp
        exact hcallersNodup.2.1.1 (List.mem_map.mpr ⟨p, hp, ht⟩)
      · rintro ⟨q, hq, ht, -⟩
        exact hapart t hmem q.2 (List.mem_map_of_mem hq) ht.symm
  | read j =>
    cases hj : s.shared.readers[j]? with
    | none => simp [Shared.step, hj] at h
    | some r =>
      obtain ⟨t, hpair⟩ := hmatched.looker hj
      have hmem := List.mem_of_getElem? hpair
      refine ⟨t, ⟨by simp [hpair], fun hguard => ⟨fun p hp ht => ?_, ?_⟩⟩, trivial,
        fun hmove => absurd trivial hmove⟩
      · exact absurd ht (hapart p.2 (List.mem_map_of_mem hp) t (List.mem_map_of_mem hmem))
      · rintro ⟨q, hq, ht, hnot⟩
        obtain rfl : q = (r, t) := List.inj_on_of_nodup_map hlookersNodup hq hmem ht
        simp [hpair, hnot] at hguard

/-- Every execution of calls and lookups is one of threads that hold no guard when they make a
request, if there are threads enough. -/
theorem exists_threads [Infinite τ] {v : Shared κ ν w n}
    (h : Execution (Shared.step checks) (fun _ _ => True) (.start maxSizeBytes) trace v) :
    ∃ s : Threaded τ κ ν w n, Execution (step checks) Unguarded (start maxSizeBytes) trace s ∧
      s.shared = v ∧ s.Matched ∧ s.Single := by
  induction h with
  | start => exact ⟨_, .start, rfl, matched_start, .nil⟩
  | @step _ _ _ _ move _ _ hstep ih =>
    obtain ⟨s, hs, rfl, hmatched, hsingle⟩ := ih
    obtain ⟨t, hturn, hunguarded, hnew⟩ := hsingle.turn hmatched hstep
    have hmove : step checks s (t, move) = some (_, _) :=
      step_eq_some.mpr ⟨hturn, _, hstep, rfl⟩
    obtain ⟨hmatched', hmoves⟩ := moves hmatched hmove
    exact ⟨_, hs.step hunguarded hmove, shared_record _, hmatched', hsingle.step hnew hmoves⟩

/-! ## No deadlock -/

/-- The call at position `j` is the last one of its thread, which waits for no lookup. -/
def Running (s : Threaded τ κ ν w n) (j : Nat) (call : Call κ ν w n) (t : τ) : Prop :=
  s.calls[j]? = some (call, t) ∧ (∀ p ∈ s.calls.drop (j + 1), p.2 ≠ t) ∧ ¬ s.Looks t

omit [Hashable κ] [EquivBEq κ] [LawfulHashable κ] [NeZero n] [DecidableEq τ] in
/-- A thread with a call waits for a lookup or has a call that can go on. -/
theorem exists_running {p : Call κ ν w n × τ} (hp : p ∈ s.calls) (hlooks : ¬ s.Looks p.2) :
    ∃ j call, s.Running j call p.2 := by
  have hcall : ∃ q ∈ s.calls, q.2 = p.2 := ⟨p, hp, rfl⟩
  obtain ⟨j, ⟨call, t⟩, hj, ht, hlast⟩ := List.exists_getElem?_last hcall
  obtain rfl : t = p.2 := ht
  exact ⟨j, call, hj, hlast, hlooks⟩

theorem Running.step {j : Nat} {call : Call κ ν w n} (h : s.Running j call t)
    {v : Shared κ ν w n} (hv : s.shared.step checks (.advance j) = some (shown, v)) :
    ∃ u, step checks s (t, .advance j) = some (shown, u) :=
  ⟨_, step_eq_some.mpr ⟨⟨by simp [h.1], h.2⟩, v, hv, rfl⟩⟩

omit [EquivBEq κ] [LawfulHashable κ] [DecidableEq τ] in
/-- A call that is not the running one of its thread has only hooks to call. -/
theorem Careful.closing (hs : s.Careful) {p : Call κ ν w n × τ} (hp : p ∈ s.calls)
    (hnot : ∀ j, ¬ s.Running j p.1 p.2) : p.1.Closing := by
  obtain ⟨j, hj⟩ := List.mem_iff_getElem?.mp hp
  by_cases hlooks : s.Looks p.2
  · obtain ⟨q, hq, ht, -⟩ := hlooks
    exact hs.beside p hp q hq ht
  · obtain ⟨before, after, hcalls, rfl, -⟩ := List.getElem?_split hj
    have hnested := hs.nested
    rw [Nested, hcalls, List.pairwise_append, List.pairwise_cons] at hnested
    by_contra hopen
    refine hnot before.length ⟨hj, fun q hq ht => hopen ?_, hlooks⟩
    exact hnested.2.1.1 q (by simpa [hcalls] using hq) ht

omit [EquivBEq κ] [LawfulHashable κ] [DecidableEq τ] in
/-- Where all calls that can go on are about to take a lock, no lock is held. -/
theorem Careful.unlocked (hs : s.Careful)
    (hlocks : ∀ j call t, s.Running j call t → call.locksNext = true) (i : Fin n) :
    s.shared.system.locked i = false := by
  by_contra hlocked
  obtain ⟨call, hcall, hholds⟩ :=
    hs.orderly.locking.owner (Bool.eq_true_of_not_eq_false hlocked)
  obtain ⟨t, hpair⟩ := hs.exists_caller hcall
  by_cases hrun : ∃ k, s.Running k call t
  · obtain ⟨k, hrun⟩ := hrun
    have hnext := hlocks k call t hrun
    cases htodo : call.todo with
    | nil => simp [Call.locksNext, htodo] at hnext
    | cons a todo =>
      refine hs.orderly.locking.takes hcall htodo ?_ hholds
      simpa [Call.locksNext, htodo, Option.isSome_iff_ne_none] using hnext
  · have hclosing := hs.closing hpair fun k hk => hrun ⟨k, hk⟩
    exact hclosing.not_holds hholds

omit [EquivBEq κ] [LawfulHashable κ] [DecidableEq τ] in
/-- There the thread that holds a guard runs code of its own. -/
theorem Careful.free (hs : s.Careful)
    (hlocks : ∀ j call t, s.Running j call t → call.locksNext = true) {q : Reader κ ν × τ}
    (hq : q ∈ s.readers) (hguard : q.1.phase.isGuard = true) : s.Free q.2 := by
  have hlooks : ¬ s.Looks q.2 := by
    rintro ⟨q', hq', ht, hnot⟩
    obtain rfl : q' = q := List.inj_on_of_nodup_map hs.oneLook hq' hq ht
    rw [hguard] at hnot
    cases hnot
  refine ⟨fun p hp ht => ?_, hlooks⟩
  obtain ⟨j, call, hrun⟩ := exists_running hp (ht ▸ hlooks)
  have hclosing : call.Closing := hs.beside _ (List.mem_of_getElem? hrun.1) q hq ht.symm
  have hnext := hlocks j call p.2 hrun
  rw [hclosing.locksNext] at hnext
  cases hnext

/-- A call that can go on moves unless the lock that it takes is held. -/
theorem Running.moves {j : Nat} {call : Call κ ν w n} (hrun : s.Running j call t)
    (hfree : ∀ a todo i, call.todo = a :: todo → a.lock = some i →
      s.shared.system.locked i = false ∧ s.shared.reads i = false) :
    ∃ shown u, Threaded.step false s (t, .advance j) = some (shown, u) := by
  have hj := (List.getElem?_zip_eq_some.mp hrun.1).1
  obtain ⟨shown, v, hv⟩ := Shared.advance_returns s.shared hj hfree
  exact ⟨shown, hrun.step hv⟩

/-- A lookup or guard moves where all calls that can go on are about to take a lock. -/
theorem Careful.reads (hs : s.Careful)
    (hlocks : ∀ j call t, s.Running j call t → call.locksNext = true) {q : Reader κ ν × τ}
    (hq : q ∈ s.readers) : ∃ j shown u, s.shared.readers[j]? = some q.1 ∧
      Threaded.step checks s (q.2, .read j) = some (shown, u) := by
  obtain ⟨j, hj⟩ := List.mem_iff_getElem?.mp hq
  have hr := (List.getElem?_zip_eq_some.mp hj).1
  obtain ⟨shown, v, hv⟩ := Shared.read_returns hs.orderly hr fun _ => hs.unlocked hlocks _
  refine ⟨j, shown, _, hr, step_eq_some.mpr ⟨⟨by simp [hj], fun hguard => ?_⟩, v, hv, rfl⟩⟩
  exact hs.free hlocks hq (by simpa [hj] using hguard)

omit [EquivBEq κ] [LawfulHashable κ] [DecidableEq τ] in
/-- Where no call can go on, each is in a hook and its thread waits for a lookup. -/
theorem Careful.stalled (hs : s.Careful) (hnone : ∀ j call t, ¬ s.Running j call t)
    {call : Call κ ν w n} (hcall : call ∈ s.shared.system.calls) :
    call.locksNext = false ∧ ∃ q, q ∈ s.readers := by
  obtain ⟨t, hpair⟩ := hs.exists_caller hcall
  refine ⟨(hs.closing hpair fun j => hnone j call t).locksNext, ?_⟩
  by_contra hnot
  have hlooks : ¬ s.Looks t := fun ⟨q, hq, _⟩ => hnot ⟨q, hq⟩
  obtain ⟨j, call', hrun⟩ := exists_running hpair hlooks
  exact hnone j call' t hrun

theorem Careful.moves (hs : s.Careful)
    (hbusy : s.shared.system.calls ≠ [] ∨ s.shared.readers ≠ []) :
    (∃ t j shown u, Threaded.step false s (t, .advance j) = some (shown, u)) ∨
      ∃ t j r shown u, s.shared.readers[j]? = some r ∧
        (r.phase = .waiting → ∀ call ∈ s.shared.system.calls, call.locksNext = false) ∧
        Threaded.step false s (t, .read j) = some (shown, u) := by
  by_cases hruns : ∃ j call t, s.Running j call t ∧ call.locksNext = false
  · obtain ⟨j, call, t, hrun, hnone⟩ := hruns
    refine .inl ⟨t, j, hrun.moves fun a todo i htodo hlock => ?_⟩
    simp [Call.locksNext, htodo, hlock] at hnone
  · -- no call holds a lock
    have hlocks : ∀ j call t, s.Running j call t → call.locksNext = true :=
      fun j call t hrun => Bool.eq_true_of_not_eq_false fun hnone => hruns ⟨j, call, t, hrun, hnone⟩
    by_cases hholds : ∃ q ∈ s.readers, q.1.phase ≠ .waiting
    · obtain ⟨q, hq, hphase⟩ := hholds
      obtain ⟨j, shown, u, hr, hstep⟩ := hs.reads hlocks hq
      exact .inr ⟨q.2, j, q.1, shown, u, hr, fun hwaits => absurd hwaits hphase, hstep⟩
    · by_cases hany : ∃ j call t, s.Running j call t
      · obtain ⟨j, call, t, hrun⟩ := hany
        refine .inl ⟨t, j, hrun.moves fun a todo i _ _ => ⟨hs.unlocked hlocks i, ?_⟩⟩
        refine Bool.eq_false_iff.mpr fun hi => ?_
        obtain ⟨r, hr, hboth⟩ := List.any_eq_true.mp hi
        obtain ⟨t', hpair⟩ := hs.exists_looker hr
        have hphase : r.phase = .waiting := by
          by_contra hne
          exact hholds ⟨_, hpair, hne⟩
        simp [hphase, Phase.holds] at hboth
      · have hnone : ∀ j call t, ¬ s.Running j call t :=
          fun j call t hrun => hany ⟨j, call, t, hrun⟩
        obtain ⟨q, hq⟩ : ∃ q, q ∈ s.readers := by
          rcases hbusy with hcalls | hreaders
          · obtain ⟨call, hcall⟩ := List.exists_mem_of_ne_nil _ hcalls
            exact (hs.stalled hnone hcall).2
          · obtain ⟨r, hr⟩ := List.exists_mem_of_ne_nil _ hreaders
            obtain ⟨t, hpair⟩ := hs.exists_looker hr
            exact ⟨_, hpair⟩
        obtain ⟨j, shown, u, hr, hstep⟩ := hs.reads hlocks hq
        exact .inr ⟨q.2, j, q.1, shown, u, hr, fun _ call hcall => (hs.stalled hnone hcall).1,
          hstep⟩

/-- Without overflow checks, in every execution in which no thread makes a request while it holds a
guard, there is no deadlock: as long as a call, a lookup or a guard is in progress, some thread can
make a step. A lookup need not get ahead of a call that waits for a lock. -/
theorem no_deadlock (h : Execution (step false) Unguarded (start maxSizeBytes) trace s)
    (hbusy : s.shared.system.calls ≠ [] ∨ s.shared.readers ≠ []) :
    (∃ t j shown u, step false s (t, .advance j) = some (shown, u)) ∨
      ∃ t j r shown u, s.shared.readers[j]? = some r ∧
        (r.phase = .waiting → ∀ call ∈ s.shared.system.calls, call.locksNext = false) ∧
        step false s (t, .read j) = some (shown, u) := (careful h).moves hbusy

/-- A thread with a guard, and another one that waits to remove the entry. -/
def guarding : List (Nat × Move Nat Nat 8) := Shared.guarding.map fun move =>
  match move with
  | .start (.remove _) => (1, move)
  | _ => (0, move)

theorem exists_guarding : ∃ trace, ∃ s : Threaded Nat Nat Nat 8 2,
    Execution (step false) Unguarded (start 20) trace s ∧ s.shared.system.calls ≠ [] ∧
      s.shared.readers ≠ [] := by
  have hbusy : ((Execution.play (step false) Unguarded
      (start 20 : Threaded Nat Nat Nat 8 2) guarding).map fun r =>
        (r.2.shared.system.calls.isEmpty, r.2.shared.readers.isEmpty)) = some (false, false) := by
    decide +kernel
  obtain ⟨⟨trace, s⟩, hplay, hs⟩ := Option.map_eq_some_iff.mp hbusy
  obtain ⟨hcalls, hreaders⟩ := Prod.mk.inj hs
  exact ⟨trace, s, Execution.of_play hplay, by simpa using hcalls, by simpa using hreaders⟩

theorem no_deadlock_guarding : ∃ trace, ∃ s : Threaded Nat Nat Nat 8 2,
    Execution (step false) Unguarded (start 20) trace s ∧ s.shared.system.calls ≠ [] ∧
      ((∃ t j shown u, step false s (t, .advance j) = some (shown, u)) ∨
        ∃ t j r shown u, s.shared.readers[j]? = some r ∧
          (r.phase = .waiting → ∀ call ∈ s.shared.system.calls, call.locksNext = false) ∧
          step false s (t, .read j) = some (shown, u)) := by
  obtain ⟨trace, s, hrun, hcalls, -⟩ := exists_guarding
  exact ⟨trace, s, hrun, hcalls, no_deadlock hrun (.inl hcalls)⟩

/-! ## A guard in the way of its own thread -/

/-- The thread waits for the lock of a shard of which it holds a guard. -/
def SelfBlocked (s : Threaded τ κ ν w n) (t : τ) : Prop :=
  ∃ call r a todo, (call, t) ∈ s.calls ∧ call.todo = a :: todo ∧ a.lock = some (r.shard w n) ∧
    (r, t) ∈ s.readers ∧ r.phase.isGuard = true

omit [DecidableEq τ] in
theorem SelfBlocked.step (hs : s.SelfBlocked t) {t' : τ} (h : s.Moves checks t' move u) :
    u.SelfBlocked t := by
  obtain ⟨call, r, a, todo, hcall, htodo, hlock, hr, hguard⟩ := hs
  have hsuffices : (call, t) ∈ u.calls → (r, t) ∈ u.readers → u.SelfBlocked t :=
    fun hcall hr => ⟨call, r, a, todo, hcall, htodo, hlock, hr, hguard⟩
  cases h with
  | request hmove hfree hnew =>
    rcases hnew with ⟨op, hcalls, hreaders⟩ | ⟨op, hcalls, hreaders⟩ <;> grind
  | @advance before after call' hmove hcalls hlast hlooks hblocked hreaders hnext =>
    have hother : (call, t) ≠ (call', t') := fun heq => by
      cases heq
      have hj : s.calls[before.length]? = some (call, t) := by simp [hcalls]
      have hnext : s.shared.system.next before.length = some a := by
        simp [System.next, (List.getElem?_zip_eq_some.mp hj).1, htodo]
      have hreads : s.shared.reads (r.shard w n) = true := by
        refine List.any_eq_true.mpr ⟨r, (List.of_mem_zip hr).1, ?_⟩
        cases hphase : r.phase <;> simp [hphase, Phase.isGuard] at hguard
        simp [Phase.holds]
      simp [Shared.blocked, hnext, hlock, hreads] at hblocked
    rcases hnext with ⟨-, hnext⟩ | ⟨a', todo', e, -, -, hnext⟩ <;> grind
  | @read phase before after r' hmove hreaders hfree hcalls hnext =>
    have hother : (r, t) ≠ (r', t') := fun heq => by
      cases heq
      have hin := (hfree hguard).1 _ hcall rfl
      cases a <;> simp [Call.inHook, htodo, Action.hook?, Action.lock] at hin hlock
    grind

/-- Whatever other threads do, a thread that waits for the lock that its own guard holds waits for
ever. -/
theorem own_guard_blocks {allowed allowed' : Threaded τ κ ν w n → τ × Move κ ν w → Prop}
    {later : List (CacheNote κ ν w)}
    (h : Execution (step checks) allowed (start maxSizeBytes) trace s) (hs : s.SelfBlocked t)
    (hlater : Execution (step checks) allowed' s later u) : u.SelfBlocked t := by
  have hmatched : s.Matched := Execution.state_invariant matched_start
    (fun _ (_, _) _ _ hs _ hstep => (moves hs hstep).1) h
  have hstart : s.Matched ∧ s.SelfBlocked t := ⟨hmatched, hs⟩
  refine (Execution.state_invariant (P := fun v => v.Matched ∧ v.SelfBlocked t) hstart ?_ hlater).2
  rintro v ⟨t', move⟩ shown v' ⟨hv, hblocked⟩ - hstep
  obtain ⟨hv', hmoves⟩ := moves hv hstep
  exact ⟨hv', hblocked.step hmoves⟩

/-! ## Termination -/

/-- From every state of every execution without overflow checks in which no thread makes a request
while it holds a guard, whatever the order of the steps: if no further request comes the steps come
to an end, and when no step is possible any more every call has returned, every lookup has answered,
and every guard is dropped. -/
theorem everything_returns (h : Execution (step false) Unguarded (start maxSizeBytes) trace s) :
    (¬ ∃ f : Nat → Threaded τ κ ν w n, f 0 = s ∧ ∀ k, ∃ (choice : τ × Move κ ν w) (shown : _),
      choice.2.GoesOn ∧ step false (f k) choice = some (shown, f (k + 1))) ∧
    (∀ later u, Execution (step false) (fun _ choice => choice.2.GoesOn) s later u →
      (∀ choice, choice.2.GoesOn → step false u choice = none) →
      u.shared.system.calls = [] ∧ u.shared.readers = []) ∧
    ∃ later u, Execution (step false) (fun _ choice => choice.2.GoesOn) s later u ∧
      u.shared.system.calls = [] ∧ u.shared.readers = [] := by
  have hlowers : ∀ (v : Threaded τ κ ν w n) (choice : τ × Move κ ν w) shown v', v.Careful →
      choice.2.GoesOn → step false v choice = some (shown, v') →
      v'.Careful ∧ v'.shared.remaining < v.shared.remaining := by
    rintro v ⟨t, move⟩ shown v' hv hmove hstep
    have hunguarded : v.Unguarded (t, move) := by
      cases move with
      | start op | look op => exact hmove.elim
      | advance j | read j => trivial
    refine ⟨hv.step hunguarded hstep, ?_⟩
    obtain ⟨-, u, hu, rfl⟩ := step_eq_some.mp hstep
    rw [shared_record]
    exact Shared.step_lowers hv.orderly.ordered hmove hu
  have hmoves : ∀ v : Threaded τ κ ν w n, v.Careful →
      ¬ (v.shared.system.calls = [] ∧ v.shared.readers = []) →
      ∃ (choice : τ × Move κ ν w) (shown : _) (v' : _), choice.2.GoesOn ∧
        step false v choice = some (shown, v') := fun v hv hbusy => by
    rcases hv.moves (by by_contra hrest; exact hbusy (by simpa using hrest)) with
      ⟨t, j, shown, v', hstep⟩ | ⟨t, j, r, shown, v', -, -, hstep⟩
    · exact ⟨(t, .advance j), shown, v', trivial, hstep⟩
    · exact ⟨(t, .read j), shown, v', trivial, hstep⟩
  have hs := careful h
  refine ⟨Execution.no_infinite_run (fun v => v.shared.remaining) hlowers hs,
    fun later u hrun hstuck => ?_,
    Execution.reaches_final (fun v => v.shared.remaining) hlowers hmoves hs⟩
  have hu : u.Careful := Execution.state_invariant hs
    (fun v choice shown v' hv hmove hstep => (hlowers v choice shown v' hv hmove hstep).1) hrun
  by_contra hbusy
  obtain ⟨choice, shown, v', hmove, hstep⟩ := hmoves u hu hbusy
  rw [hstuck choice hmove] at hstep
  cases hstep

theorem everything_returns_guarding : ∃ trace, ∃ s : Threaded Nat Nat Nat 8 2,
    Execution (step false) Unguarded (start 20) trace s ∧ s.shared.readers ≠ [] ∧
      ∃ later u, Execution (step false) (fun _ choice => choice.2.GoesOn) s later u ∧
        u.shared.system.calls = [] ∧ u.shared.readers = [] := by
  obtain ⟨trace, s, hrun, -, hreaders⟩ := exists_guarding
  exact ⟨trace, s, hrun, hreaders, (everything_returns hrun).2.2⟩

end Threaded

end PriorityLfu
