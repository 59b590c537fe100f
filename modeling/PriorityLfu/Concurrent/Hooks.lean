import PriorityLfu.Concurrent.Stamps

/-!
# Hooks and external indexes

Hooks are called after the lock is released, so another call may insert the key again, and
return, before the hook for its departure is delivered; the index that listens to both then loses
a key that is present. Where no insertion of a key returns before the hooks for its earlier
departures are delivered, the index holds, at rest, the key if the cache does.
-/
namespace PriorityLfu
open Keyed

variable {κ ν : Type} {w n : Nat} [BEq κ]

/-! ## An external index -/

/-- An index that adds the key of an insertion when it returns and deletes the key of
every hook. -/
def note (index : κ → Bool) : Event κ ν w → κ → Bool
  | .returned (.insert key _) _ => fun k => key == k || index k
  | .hook h => fun k => !(h.key == k) && index k
  | _ => index

def indexOf (trace : List (Event κ ν w)) : κ → Bool := trace.foldl note fun _ => false

theorem indexOf_append (trace shown : List (Event κ ν w)) :
    indexOf (trace ++ shown) = shown.foldl note (indexOf trace) := List.foldl_append

variable [Hashable κ] [EquivBEq κ] [LawfulHashable κ] [NeZero n] {checks : Bool}

variable {k : κ} {shown : List (Event κ ν w)}

omit [Hashable κ] [EquivBEq κ] [LawfulHashable κ] [NeZero n] in
theorem note_keeps {index : κ → Bool} (hk : index k = true) {ev : Event κ ν w}
    (hev : ∀ h, ev = .hook h → (h.key == k) = false) : note index ev k = true := by
  cases ev with
  | hook h => simp [note, hk, hev h rfl]
  | returned op result => cases op <;> simp [note, hk]

namespace System

/-- An action that shows something calls a hook that was in flight. -/
theorem perform_shown {c : Cache κ ν w n} {locked : Fin n → Bool} {a : Action κ ν w n}
    {e : Effect κ ν w n} (hc : c.Routed) (h : perform checks c locked a = some e) :
    e.shown = [] ∨ ∃ h', a = .hook h' ∧ e.shown = [.hook h'] := by
  cases a with
  | insert key entry =>
    obtain ⟨vs, s', us, -, -, rfl⟩ := perform_insert hc h
    exact .inl rfl
  | remove key =>
    rcases perform_remove hc h with ⟨rfl, -⟩ | ⟨k₀, en, s', -, rfl⟩
    · exact .inl rfl
    · exact .inl rfl
  | drain i => rw [perform_drain h]; exact .inl rfl
  | enter key u => cases h; exact .inl rfl
  | update u => cases h; exact .inl rfl
  | unlock i => cases h; exact .inl rfl
  | hook h' => cases h; exact .inr ⟨h', rfl, rfl⟩

/-- An action that changes no shard adds no hook. -/
theorem perform_offShard {c : Cache κ ν w n} {locked : Fin n → Bool} {a : Action κ ν w n}
    {e : Effect κ ν w n} (hc : c.Routed) (h : perform checks c locked a = some e)
    (ha : a.onShard = false) (hook : Hook κ) : .hook hook ∉ e.front ++ e.back := by
  intro hin
  rcases perform_hooks hc h hin with ⟨key, entry, vs, rfl, -⟩ | ⟨key, k₀, en, rfl, -⟩ |
    ⟨i, rfl, -⟩ <;> cases ha

end System

/-! ## Calls with hooks to call -/

namespace Call

variable {call : Call κ ν w n} {a : Action κ ν w n} {todo : List (Action κ ν w n)}
  {e : Effect κ ν w n}

omit [Hashable κ] [EquivBEq κ] [LawfulHashable κ] [NeZero n] in
theorem owes_iff :
    call.owes k = true ↔ ∃ hook, .hook hook ∈ call.todo ∧ (hook.key == k) = true := by
  simp only [owes, List.any_eq_true]
  constructor
  · rintro ⟨b, hb, hk⟩
    cases b with
    | hook hook => exact ⟨hook, hb, hk⟩
    | _ => cases hk
  · rintro ⟨hook, hb, hk⟩
    exact ⟨_, hb, hk⟩

omit [Hashable κ] [EquivBEq κ] [LawfulHashable κ] [NeZero n] in
/-- What a call owes after an action it owed before, or the action added it. -/
theorem owes_of_after (htodo : call.todo = a :: todo) (h : (call.after todo e).owes k = true) :
    call.owes k = true ∨ ∃ hook, .hook hook ∈ e.front ++ e.back ∧ (hook.key == k) = true := by
  obtain ⟨hook, hin, hk⟩ := owes_iff.mp h
  simp only [after, List.mem_append] at hin
  rcases hin with (hin | hin) | hin
  · exact .inr ⟨hook, List.mem_append_left _ hin, hk⟩
  · exact .inl (owes_iff.mpr ⟨hook, htodo ▸ List.mem_cons_of_mem _ hin, hk⟩)
  · exact .inr ⟨hook, List.mem_append_right _ hin, hk⟩

/-- A call that inserted `k` goes on as one. -/
theorem Inserted.after {c : Cache κ ν w n} {locked : Fin n → Bool} (h : call.Inserted k)
    (hc : c.Routed) (htodo : call.todo = a :: todo)
    (he : System.perform checks c locked a = some e) :
    (call.after todo e).Inserted k ∧
      ((call.after todo e).owes k = true → call.owes k = true) := by
  obtain ⟨hop, hall⟩ := h
  refine ⟨⟨hop, fun b hb => ?_⟩, fun howes => ?_⟩
  · simp only [Call.after, List.mem_append] at hb
    rcases hb with (hb | hb) | hb
    · exact System.perform_adds he b (List.mem_append_left _ hb)
    · exact hall b (htodo ▸ List.mem_cons_of_mem _ hb)
    · exact System.perform_adds he b (List.mem_append_right _ hb)
  · refine (owes_of_after htodo howes).resolve_right fun ⟨hook, hin, _⟩ => ?_
    exact System.perform_offShard hc he (hall a (htodo ▸ List.mem_cons_self)) hook hin

end Call

/-! ## The invariant -/

namespace Stamped

/-- No insertion of `k` returns while a hook for an earlier departure of `k` is to be called. -/
def OnTime (k : κ) (s : Stamped κ ν w n) : Choice κ ν w n → Prop
  | .advance j =>
    match s.calls[j]? with
    | some (call, m) => call.todo.isEmpty = true → call.op.inserts k = true →
      ∀ p ∈ s.calls, p.1.owes k = true → m ≤ p.2
    | none => True
  | _ => True

instance (k : κ) (s : Stamped κ ν w n) (choice : Choice κ ν w n) :
    Decidable (s.OnTime k choice) := by
  unfold OnTime
  split
  · split <;> infer_instance
  · infer_instance

/-- A hook for `k` is older than the insertion of `k` that is present, all insertions after its
departure are still in progress, and `k` is in the index unless its insertion is. -/
structure Ordered (k : κ) (trace : List (Event κ ν w)) (s : Stamped κ ν w n) : Prop where
  routed : s.system.cache.Routed
  fresh : s.system.Fresh
  paired : s.Paired
  bounded : ∀ p ∈ s.calls, p.2 ≤ s.clock
  older : s.system.cache.contentAt k ≠ none → ∀ p ∈ s.calls, p.1.owes k = true → p.2 < s.clock
  running : ∀ p ∈ s.calls, p.1.owes k = true → ∀ m, p.2 < m → m ≤ s.clock → s.Running k m
  indexed : s.system.cache.contentAt k ≠ none → indexOf trace k = true ∨ s.Running k s.clock

omit [EquivBEq κ] [LawfulHashable κ] in
theorem ordered_start (k : κ) (maxSizeBytes : BitVec w) :
    Ordered k [] (start maxSizeBytes : Stamped κ ν w n) where
  routed := System.routed_start maxSizeBytes
  fresh _ hcall := nomatch hcall
  paired := rfl
  bounded _ hp := nomatch hp
  older hk := absurd rfl hk
  running _ hp := nomatch hp
  indexed hk := absurd rfl hk

variable {s t : Stamped κ ν w n} {trace : List (Event κ ν w)} {choice : Choice κ ν w n}

omit [EquivBEq κ] [LawfulHashable κ] in
/-- A call starts with no hook to call. -/
theorem Ordered.begin (hs : s.Ordered k trace) {op : CallOp κ ν w}
    (hcalls : t.calls = s.calls ++ [(⟨op, none, op.actions⟩, 0)]) (hclock : t.clock = s.clock)
    (hcache : t.system.cache = s.system.cache) (hfresh : t.system.Fresh) (hpaired : t.Paired) :
    t.Ordered k trace := by
  have hnone : Call.owes k (⟨op, none, op.actions⟩ : Call κ ν w n) = false := by
    rw [Bool.eq_false_iff]
    intro howes
    obtain ⟨hook, hin, -⟩ := Call.owes_iff.mp howes
    cases op <;> simp [CallOp.actions] at hin
  have howing : ∀ p ∈ t.calls, p.1.owes k = true → p ∈ s.calls := fun p hp howes => by
    rw [hcalls] at hp
    rcases List.mem_append.mp hp with hp | hp
    · exact hp
    · rw [List.mem_singleton.mp hp, hnone] at howes
      cases howes
  have hrunning : ∀ m, s.Running k m → t.Running k m := by
    rintro m ⟨q, hq, hm⟩
    exact ⟨q, hcalls ▸ List.mem_append_left _ hq, hm⟩
  refine ⟨hcache ▸ hs.routed, hfresh, hpaired, fun p hp => ?_, fun hk p hp howes => ?_,
    fun p hp howes m hlt hle => ?_, fun hk => ?_⟩
  · rw [hcalls] at hp
    rcases List.mem_append.mp hp with hp | hp
    · exact hclock ▸ hs.bounded p hp
    · rw [List.mem_singleton.mp hp]
      exact Nat.zero_le _
  · exact hclock ▸ hs.older (hcache ▸ hk) p (howing p hp howes) howes
  · exact hrunning m (hs.running p (howing p hp howes) howes m hlt (hclock ▸ hle))
  · exact (hs.indexed (hcache ▸ hk)).imp_right fun hlast => hclock ▸ hrunning _ hlast

omit [EquivBEq κ] [LawfulHashable κ] in
/-- A call returns in time: the insertions that are younger than a hook are not it, and if it is
the last one the index gets its key. -/
theorem Ordered.finish (hs : s.Ordered k trace) {call : Call κ ν w n} {m : Nat}
    (hcalls : s.calls.Perm ((call, m) :: t.calls)) (hclock : t.clock = s.clock)
    (hcache : t.system.cache = s.system.cache) (hfresh : t.system.Fresh) (hpaired : t.Paired)
    (htime : call.op.inserts k = true →
      ∀ p ∈ s.calls, p.1.owes k = true → m ≤ p.2) :
    t.Ordered k (trace ++ [.returned call.op call.result]) := by
  have hold : ∀ p ∈ t.calls, p ∈ s.calls := fun p hp =>
    hcalls.symm.subset (List.mem_cons_of_mem _ hp)
  refine ⟨hcache ▸ hs.routed, hfresh, hpaired, fun p hp => hclock ▸ hs.bounded p (hold p hp),
    fun hk p hp howes => hclock ▸ hs.older (hcache ▸ hk) p (hold p hp) howes,
    fun p hp howes m' hlt hle => ?_, fun hk => ?_⟩
  · obtain ⟨q, hq, rfl, hinserted⟩ := hs.running p (hold p hp) howes m' hlt (hclock ▸ hle)
    rcases List.mem_cons.mp (hcalls.subset hq) with rfl | hq
    · exact absurd hlt (Nat.not_lt_of_le (htime hinserted.1 p (hold p hp) howes))
    · exact ⟨q, hq, rfl, hinserted⟩
  · rw [indexOf_append, List.foldl_cons, List.foldl_nil]
    rcases hs.indexed (hcache ▸ hk) with hindex | ⟨q, hq, hlast, hinserted⟩
    · exact .inl (note_keeps hindex fun h hh => by cases hh)
    · rcases List.mem_cons.mp (hcalls.subset hq) with rfl | hq
      · left
        have hop := hinserted.1
        dsimp only at hop
        cases hcall : call.op with
        | insert key entry =>
          rw [hcall] at hop
          exact Bool.or_eq_true_iff.mpr (.inl hop)
        | remove key | clear =>
          rw [hcall] at hop
          cases hop
      · exact .inr ⟨q, hq, hclock ▸ hlast, hinserted⟩

section action

variable {j : Nat} {call : Call κ ν w n} {a : Action κ ν w n} {todo : List (Action κ ν w n)}
  {e : Effect κ ν w n} {d d' : Nat} {rest : List (Call κ ν w n × Nat)}

/-- An insertion of `k` comes last, and is in progress. -/
theorem Ordered.insert (hs : s.Ordered k trace) (hj : s.system.calls[j]? = some call)
    (htodo : call.todo = a :: todo)
    (he : System.perform checks s.system.cache s.system.locked a = some e)
    (hcalls : s.calls.Perm ((call, d) :: rest))
    (hcalls' : t.calls.Perm ((call.after todo e, s.clock + 1) :: rest))
    (ha : a.inserts k = true) (hclock : t.clock = s.clock + 1)
    (hcache : t.system.cache = e.cache) (hfresh : t.system.Fresh) (hpaired : t.Paired) :
    t.Ordered k (trace ++ e.shown) := by
  obtain ⟨key, entry, rfl, hkey⟩ : ∃ key entry, a = .insert key entry ∧ (key == k) = true := by
    cases a with
    | insert key entry => exact ⟨key, entry, rfl, ha⟩
    | _ => cases ha
  obtain ⟨hop, rfl⟩ := hs.fresh.todo_eq_nil hj htodo
  have hrest : ∀ p ∈ rest, p ∈ s.calls := fun p hp => hcalls.symm.subset (List.mem_cons_of_mem _ hp)
  have hadds : ∀ b ∈ (call.after [] e).todo, b ∈ e.front ++ e.back := fun b hb => by
    simpa [Call.after] using hb
  have hself : t.Running k (s.clock + 1) :=
    ⟨_, hcalls'.symm.subset List.mem_cons_self, rfl,
      by simp [Call.after, hop, CallOp.inserts, hkey],
      fun b hb => System.perform_adds he b (hadds b hb)⟩
  -- it owes no hook for `k`, which is present
  have hnone : (call.after [] e).owes k = false := by
    rw [Bool.eq_false_iff]
    intro howes
    obtain ⟨hook, hin, hk⟩ := Call.owes_iff.mp howes
    rcases System.perform_hooks hs.routed he (hadds _ hin) with ⟨_, _, vs, ha', hi, v, hv, rfl⟩ |
      ⟨_, _, _, ha', -⟩ | ⟨_, ha', -⟩
    · cases ha'
      have hne := (hi.victim hs.routed hv).2
      have heq : (key == v.victim.key) = true := BEq.trans hkey (BEq.symm hk)
      rw [heq] at hne
      cases hne
    · cases ha'
    · cases ha'
  have howing : ∀ p ∈ t.calls, p.1.owes k = true → p ∈ s.calls := fun p hp howes => by
    rcases List.mem_cons.mp (hcalls'.subset hp) with rfl | hp
    · rw [hnone] at howes
      cases howes
    · exact hrest p hp
  refine ⟨hcache ▸ System.perform_routed hs.routed he, hfresh, hpaired, fun p hp => ?_,
    fun _ p hp howes => ?_, fun p hp howes m hlt hle => ?_, fun _ => .inr (hclock ▸ hself)⟩
  · rcases List.mem_cons.mp (hcalls'.subset hp) with rfl | hp
    · exact hclock.ge
    · exact hclock ▸ (hs.bounded p (hrest p hp)).trans (Nat.le_succ _)
  · exact hclock ▸ Nat.lt_succ_of_le (hs.bounded p (howing p hp howes))
  · rcases Nat.lt_or_eq_of_le (hclock ▸ hle) with hle | rfl
    · obtain ⟨q, hq, rfl, hinserted⟩ :=
        hs.running p (howing p hp howes) howes m hlt (Nat.le_of_lt_succ hle)
      rcases List.mem_cons.mp (hcalls.subset hq) with rfl | hq
      · cases hinserted.2 _ (htodo ▸ List.mem_cons_self)
      · exact ⟨q, hcalls'.symm.subset (List.mem_cons_of_mem _ hq), rfl, hinserted⟩
    · exact hself

/-- An insertion of `k` in progress stays in progress with any other action. -/
theorem Running.act {m : Nat} (h : s.Running k m) (hrouted : s.system.cache.Routed)
    (htodo : call.todo = a :: todo)
    (he : System.perform checks s.system.cache s.system.locked a = some e)
    (hcalls : s.calls.Perm ((call, d) :: rest))
    (hcalls' : t.calls.Perm ((call.after todo e, d') :: rest))
    (hd : d' = s.clock ∧ call.owes k = false ∧ (call.after todo e).owes k = true ∨
      d' = d ∧ ((call.after todo e).owes k = true → call.owes k = true)) : t.Running k m := by
  obtain ⟨q, hq, rfl, hinserted⟩ := h
  rcases List.mem_cons.mp (hcalls.subset hq) with rfl | hq
  · obtain ⟨hinserted', howes⟩ := hinserted.after hrouted htodo he
    obtain rfl : d' = d := by
      rcases hd with ⟨-, hno, hyes⟩ | ⟨hd, -⟩
      · rw [howes hyes] at hno
        cases hno
      · exact hd
    exact ⟨_, hcalls'.symm.subset List.mem_cons_self, rfl, hinserted'⟩
  · exact ⟨q, hcalls'.symm.subset (List.mem_cons_of_mem _ hq), rfl, hinserted⟩

/-- Where `k` is after any other action it was before, and no hook for it is added. -/
theorem present_of_act (hrouted : s.system.cache.Routed) (htodo : call.todo = a :: todo)
    (he : System.perform checks s.system.cache s.system.locked a = some e)
    (ha : a.inserts k = false) (hk : e.cache.contentAt k ≠ none) :
    s.system.cache.contentAt k ≠ none ∧
      ((call.after todo e).owes k = true → call.owes k = true) := by
  rcases System.perform_contentAt hrouted he k with hnone |
    ⟨hnew, ⟨key, entry, rfl, hkey, -⟩ | hsame⟩
  · exact absurd hnone hk
  · exact absurd hkey (Bool.eq_false_iff.mp ha)
  · refine ⟨hsame ▸ hk, fun howes => (Call.owes_of_after htodo howes).resolve_right ?_⟩
    rintro ⟨hook, hin, hhook⟩
    rw [hnew hook hin] at hhook
    cases hhook

/-- Any other action. -/
theorem Ordered.act (hs : s.Ordered k trace) (htodo : call.todo = a :: todo)
    (he : System.perform checks s.system.cache s.system.locked a = some e)
    (hcalls : s.calls.Perm ((call, d) :: rest))
    (hcalls' : t.calls.Perm ((call.after todo e, d') :: rest))
    (ha : a.inserts k = false) (hclock : t.clock = s.clock)
    (hd : d' = s.clock ∧ call.owes k = false ∧ (call.after todo e).owes k = true ∨
      d' = d ∧ ((call.after todo e).owes k = true → call.owes k = true))
    (hcache : t.system.cache = e.cache) (hfresh : t.system.Fresh) (hpaired : t.Paired) :
    t.Ordered k (trace ++ e.shown) := by
  have hcall : (call, d) ∈ s.calls := hcalls.symm.subset List.mem_cons_self
  have hrest : ∀ p ∈ rest, p ∈ s.calls := fun p hp => hcalls.symm.subset (List.mem_cons_of_mem _ hp)
  have hrunning : ∀ m, s.Running k m → t.Running k m := fun m hm =>
    hm.act hs.routed htodo he hcalls hcalls' hd
  have hstays := present_of_act hs.routed htodo he ha
  rw [← hcache] at hstays
  refine ⟨hcache ▸ System.perform_routed hs.routed he, hfresh, hpaired, fun p hp => ?_,
    fun hk p hp howes => ?_, fun p hp howes m hlt hle => ?_, fun hk => ?_⟩
  · rw [hclock]
    rcases List.mem_cons.mp (hcalls'.subset hp) with rfl | hp
    · rcases hd with ⟨rfl, -⟩ | ⟨rfl, -⟩
      · exact le_rfl
      · exact hs.bounded (call, _) hcall
    · exact hs.bounded p (hrest p hp)
  · obtain ⟨hk, hold⟩ := hstays hk
    rw [hclock]
    rcases List.mem_cons.mp (hcalls'.subset hp) with rfl | hp
    · rcases hd with ⟨-, hno, hyes⟩ | ⟨rfl, -⟩
      · rw [hold hyes] at hno
        cases hno
      · exact hs.older hk (call, _) hcall (hold howes)
    · exact hs.older hk p (hrest p hp) howes
  · rw [hclock] at hle
    rcases List.mem_cons.mp (hcalls'.subset hp) with rfl | hp
    · rcases hd with ⟨rfl, -⟩ | ⟨rfl, hold⟩
      · exact absurd hle (Nat.not_le_of_lt hlt)
      · exact hrunning m (hs.running _ hcall (hold howes) m hlt hle)
    · exact hrunning m (hs.running p (hrest p hp) howes m hlt hle)
  · obtain ⟨hk, -⟩ := hstays hk
    rw [hclock]
    rcases hs.indexed hk with hindex | hlast
    · rcases System.perform_shown hs.routed he with hshown | ⟨hook, rfl, hshown⟩
      · exact .inl (by rwa [hshown, List.append_nil])
      · cases hhook : hook.key == k with
        | false =>
          left
          rw [hshown, indexOf_append, List.foldl_cons, List.foldl_nil]
          refine note_keeps hindex fun h hh => ?_
          cases hh
          exact hhook
        | true =>
          -- the hook is older than the insertion of what is there
          have howes : call.owes k = true :=
            Call.owes_iff.mpr ⟨hook, htodo ▸ List.mem_cons_self, hhook⟩
          exact .inr (hrunning _
            (hs.running _ hcall howes s.clock (hs.older hk _ hcall howes) le_rfl))
    · exact .inr (hrunning _ hlast)

end action

theorem step_ordered (hs : s.Ordered k trace) (htime : s.OnTime k choice)
    (h : step checks k s choice = some (shown, t)) : t.Ordered k (trace ++ shown) := by
  have hpaired := step_paired hs.paired h
  have hfresh : t.system.Fresh := by
    obtain ⟨u, hu, rfl⟩ := step_eq_some.mp h
    rw [system_record]
    exact System.step_fresh hs.fresh hu
  rcases step_cases hs.paired h with ⟨op, rfl, hcache, hclock, hcalls⟩ |
    ⟨j, call, m, rfl, hj, htodo, rfl, hcache, hclock, hcalls⟩ |
    ⟨j, call, a, todo, e, d, d', rest, rfl, hj, htodo, he, rfl, hcache, -, hcalls, hcalls',
      ⟨ha, hclock, rfl⟩ | ⟨ha, hclock, hd⟩⟩ |
    ⟨i, key, clockBit, frequency, rfl, hclock, hcalls, hcache⟩
  · rw [List.append_nil]
    exact hs.begin hcalls hclock hcache hfresh hpaired
  · rw [OnTime, hj] at htime
    exact hs.finish hcalls hclock hcache hfresh hpaired (htime (by simp [htodo]))
  · exact hs.insert hj htodo he hcalls hcalls' ha hclock hcache hfresh hpaired
  · exact hs.act htodo he hcalls hcalls' ha hclock hd hcache hfresh hpaired
  · rw [List.append_nil]
    have hcontent : t.system.cache.contentAt k = s.system.cache.contentAt k := by
      rw [hcache]
      exact Cache.contentAt_access _ _ _ _ _ k
    have hrunning : ∀ m, t.Running k m = s.Running k m := fun m => by rw [Running, hcalls, Running]
    refine ⟨?_, hfresh, hpaired, ?_, ?_, ?_, ?_⟩
    · rw [hcache]
      exact Cache.routed_access hs.routed i key clockBit frequency
    · rw [hcalls, hclock]
      exact hs.bounded
    · rw [hcontent, hcalls, hclock]
      exact hs.older
    · simp only [hcalls, hclock, hrunning]
      exact hs.running
    · rw [hcontent, hclock, hrunning]
      exact hs.indexed

/-- Whatever the interleaving of calls that do not panic, where no insertion of `k` returns while a
hook for an earlier departure of `k` is to be called: a hook for `k` is never called after a later
insertion of `k` has returned, since all of them are still in progress, among them the one that
stored what is present. So whenever no call is in progress the index holds `k` if the cache does. -/
theorem hooks_on_time (checks : Bool) (maxSizeBytes : BitVec w) (k : κ)
    (h : Execution (step checks k) (OnTime k) (start maxSizeBytes) trace s) :
    (∀ j shown t hook, step checks k s (.advance j) = some (shown, t) → .hook hook ∈ shown →
      (hook.key == k) = true → ∃ call departed, s.calls[j]? = some (call, departed) ∧
        (∀ m, departed < m → m ≤ s.clock → s.Running k m) ∧
        (s.system.cache.contentAt k ≠ none → departed < s.clock)) ∧
    (s.system.calls = [] → s.system.cache.contentAt k ≠ none → indexOf trace k = true) := by
  have hs : s.Ordered k trace := h.invariant (ordered_start k maxSizeBytes)
    fun _ _ _ _ _ hs htime hstep => step_ordered hs htime hstep
  constructor
  · intro j shown t hook hstep hshown hkey
    rcases step_cases hs.paired hstep with ⟨op, rfl, -⟩ | ⟨j', call, m, -, -, -, rfl, -⟩ |
      ⟨j', call, a, todo, e, d, d', rest, hchoice, -, htodo, he, rfl, -, hj, hcalls, -⟩ |
      ⟨i, key, clockBit, frequency, rfl, -⟩
    · cases hshown
    · simp at hshown
    · cases hchoice
      rcases System.perform_shown hs.routed he with hnil | ⟨h', rfl, heq⟩
      · rw [hnil] at hshown
        cases hshown
      · rw [heq, List.mem_singleton] at hshown
        cases hshown
        have hcall : (call, d) ∈ s.calls := hcalls.symm.subset List.mem_cons_self
        have howes : call.owes k = true :=
          Call.owes_iff.mpr ⟨hook, htodo ▸ List.mem_cons_self, hkey⟩
        exact ⟨call, d, hj, hs.running _ hcall howes, fun hk => hs.older hk _ hcall howes⟩
    · cases hshown
  · intro hrest hk
    rcases hs.indexed hk with hindex | ⟨q, hq, -⟩
    · exact hindex
    · rw [calls, hrest] at hq
      cases hq

/-- A key is removed and inserted again before the hook for its departure is called. -/
def againInTime : List (Choice Nat Unit 64 2) :=
  [.start (.insert 0 (.new () 40 .standard))] ++ List.replicate 5 (.advance 0) ++
    [.start (.remove 0)] ++ List.replicate 5 (.advance 0) ++
    [.start (.insert 0 (.new () 30 .standard)), .advance 1] ++ List.replicate 6 (.advance 0)

theorem hooks_on_time_again :
    ∃ trace s, Execution (step false 0) (OnTime 0) (start 100 : Stamped Nat Unit 64 2) trace s ∧
      s.system.cache.contentAt 0 ≠ none ∧ indexOf trace 0 = true := by
  have hend : ((Execution.play (step false 0) (OnTime 0) (start 100) againInTime).map fun r =>
      r.2.system.calls.isEmpty && (r.2.system.cache.contentAt 0).isSome) = some true := by
    decide +kernel
  obtain ⟨⟨trace, s⟩, hplay, hs⟩ := Option.map_eq_some_iff.mp hend
  obtain ⟨hrest, hk⟩ := Bool.and_eq_true_iff.mp hs
  have hk' : s.system.cache.contentAt 0 ≠ none := Option.isSome_iff_ne_none.mp hk
  have hexec := Execution.of_play hplay
  exact ⟨trace, s, hexec, hk',
    (hooks_on_time false 100 0 hexec).2 (List.isEmpty_iff.mp hrest) hk'⟩

end Stamped

namespace System

/-- Another call inserts the key again between the removal and its hook. -/
def overtaken : List (Choice Nat Unit 64 2) :=
  [.start (.insert 0 (.new () 40 .standard))] ++ List.replicate 5 (.advance 0) ++
    [.start (.remove 0)] ++ List.replicate 5 (.advance 0) ++
    [.start (.insert 0 (.new () 40 .standard))] ++ List.replicate 5 (.advance 1) ++
    List.replicate 2 (.advance 0)

/-- The hook for the first departure is delivered after the second insertion has returned;
the key is present and no call is in progress, but the index has lost it. -/
theorem late_hook_loses_key :
    ∃ trace s, Execution (step false) (fun _ _ => True) (start 100 : System Nat Unit 64 2) trace s ∧
      trace = [.returned (.insert 0 (.new () 40 .standard)) none,
        .returned (.insert 0 (.new () 40 .standard)) none, .hook (.onRemove 0),
        .returned (.remove 0) (some (.new () 40 .standard))] ∧
      s.calls = [] ∧ s.cache.contentAt 0 ≠ none ∧ indexOf trace 0 = false := by
  have hend : ((Execution.play (step false) (fun _ _ => True) (start 100) overtaken).map fun r =>
      decide (r.1 = [.returned (.insert 0 (.new () 40 .standard)) none,
        .returned (.insert 0 (.new () 40 .standard)) none, .hook (.onRemove 0),
        .returned (.remove 0) (some (.new () 40 .standard))]) && (r.2.calls.isEmpty &&
          ((r.2.cache.contentAt 0).isSome && !indexOf r.1 0))) = some true := by decide +kernel
  obtain ⟨⟨trace, s⟩, hplay, hs⟩ := Option.map_eq_some_iff.mp hend
  simp only [Bool.and_eq_true, decide_eq_true_eq, List.isEmpty_iff, Option.isSome_iff_ne_none,
    Bool.not_eq_true'] at hs
  exact ⟨trace, s, Execution.of_play hplay, hs⟩

end System

end PriorityLfu
