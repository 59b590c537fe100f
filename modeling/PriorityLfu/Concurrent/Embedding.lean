import PriorityLfu.Cache.Refinement
import PriorityLfu.Concurrent.Readers
import PriorityLfu.Concurrent.Sequential

/-!
# The sequential cache among the executions

A request that no other overlaps does in its steps what the operation of the cache does at once:
the same answer, the same hooks, and the same cache afterwards, to the last counter and bit of
access statistics. So a run of the sequential cache, typed calls included, is an execution of the
shared one.
-/
namespace PriorityLfu
open Keyed

/-- A lookup made at once. -/
def Cache.look {κ ν : Type} {w n : Nat} [BEq κ] [Hashable κ] [NeZero n] (c : Cache κ ν w n)
    (op : Lookup κ) : Found ν × Cache κ ν w n :=
  match op.kind with
  | .contains => (.present (c.containsEntry op.hash op.equals), c)
  | _ =>
    let (entry, c) := c.lookup op.hash op.equals
    (.value (entry.map Entry.value), c)

/-- A request made at once: its answer and the hooks it calls. -/
def Cache.request {κ ν : Type} {w n : Nat} [BEq κ] [Hashable κ] [EquivBEq κ] [LawfulHashable κ]
    [NeZero n] (checks : Bool) (c : Cache κ ν w n) :
    Request κ ν w → Outcome (Cache κ ν w n) (Answer ν w × List (Hook κ))
  | .call op => (c.call checks op).bind fun (old, hooks) c => .ok (.result old, hooks) c
  | .look op => .ok (.found (c.look op).1, []) (c.look op).2

/-- What can be observed of it. -/
def Request.shown {κ ν : Type} {w : Nat} (req : Request κ ν w) (r : Answer ν w × List (Hook κ)) :
    List (CacheNote κ ν w) :=
  .invoked req :: r.2.map .shown ++ [.returned req r.1]

namespace Shared

variable {κ ν : Type} {w n : Nat} [BEq κ] [Hashable κ] [EquivBEq κ] [LawfulHashable κ] [NeZero n]
  {checks : Bool} {c d : Cache κ ν w n}

/-- Nothing is in progress. -/
def idle (c : Cache κ ν w n) : Shared κ ν w n := ⟨.idle c, []⟩

/-! ## A call -/

/-- Without lookups calls go on as they do in the system. -/
theorem of_advances {s t : System κ ν w n} {events : List (Event κ ν w)}
    (h : Execution (System.step checks) (fun _ choice => choice.Advances) s events t) :
    Execution (Shared.step checks) (fun _ _ => True) ⟨s, []⟩ (events.map Event.note) ⟨t, []⟩ := by
  have hmatch : ∃ a : Shared κ ν w n, Execution (Shared.step checks) (fun _ _ => True) ⟨s, []⟩
      (events.filterMap fun ev => some ev.note) a ∧ a = ⟨t, []⟩ := by
    refine Execution.simulation (R := fun s (a : Shared κ ν w n) => a = ⟨s, []⟩)
      (fun ev => some (Event.note ev)) rfl ?_ h
    rintro s _ choice shown t rfl hadvances hstep
    cases choice with
    | start op | access i key clockBit frequency => exact hadvances.elim
    | advance j =>
      have hfree : (Shared.mk s []).blocked j = false := by
        rw [blocked]
        cases (s.next j).bind Action.lock <;> rfl
      refine ⟨⟨t, []⟩, .single (.advance j) trivial ?_, rfl⟩
      simp [Shared.step, hfree, hstep, List.filterMap_eq_map']
  obtain ⟨_, hexec, rfl⟩ := hmatch
  rwa [List.filterMap_eq_map'] at hexec

theorem alone_call {op : CallOp κ ν w} {r : Option (Entry ν w) × List (Hook κ)}
    (h : c.call checks op = .ok r d) :
    Execution (Shared.step checks) (fun _ _ => True) (idle c)
      ((Request.call op).shown (.result r.1, r.2)) (idle d) := by
  have hstart : Shared.step checks (idle c) (.start op) = some ([.invoked (.call op)],
      ⟨System.alone c (fun _ => false) op none op.actions, []⟩) := rfl
  have hcall := (Execution.single _ trivial hstart).trans (of_advances (System.alone_call h))
  have hshown : (op.shown r).map Event.note =
      (r.2.map .shown ++ [.returned (.call op) (.result r.1)] : List (CacheNote κ ν w)) := by
    simp [CallOp.shown, Event.note, Function.comp_def]
  rwa [hshown] at hcall

/-! ## A lookup -/

/-- One lookup is in progress. -/
def looking (c : Cache κ ν w n) (op : Lookup κ) (phase : Phase κ ν) : Shared κ ν w n :=
  ⟨.idle c, [⟨op, phase⟩]⟩

variable {op : Lookup κ} {phase phase' : Phase κ ν} {shown : List (CacheNote κ ν w)}

theorem looking_step (h : Reader.perform c (fun _ => false) ⟨op, phase⟩ =
      some ⟨d, some phase', shown⟩) :
    Execution (Shared.step checks) (fun _ _ => True) (looking c op phase) shown
      (looking d op phase') := by
  refine .single (.read 0) trivial ?_
  simp [Shared.step, looking, System.idle, h]

theorem looking_end (h : Reader.perform c (fun _ => false) ⟨op, phase⟩ = some ⟨d, none, shown⟩) :
    Execution (Shared.step checks) (fun _ _ => True) (looking c op phase) shown (idle d) := by
  refine .single (.read 0) trivial ?_
  simp [Shared.step, looking, idle, System.idle, h]

theorem looking_start (c : Cache κ ν w n) (op : Lookup κ) :
    Execution (Shared.step checks) (fun _ _ => True) (idle c) [.invoked (.look op)]
      (looking c op .locked) := by
  have hlook : Execution (Shared.step checks) (fun _ _ => True) (idle c) [.invoked (.look op)]
      (looking c op .waiting) := .single (.look op) trivial rfl
  exact hlook.trans (looking_step rfl)

theorem looking_done (c : Cache κ ν w n) (op : Lookup κ) (answer : Found ν) :
    Execution (Shared.step checks) (fun _ _ => True) (looking c op (.done answer))
      [.returned (.look op) (.found answer)] (idle c) :=
  looking_end rfl

/-- The two stores of a hit are one touch of its entry. -/
theorem modify_touch {i : Fin n} {key : κ} {e : Entry ν w} (r : Reader κ ν)
    (hshard : r.shard w n = i) (he : (c.shards i).entries.get? key = some e) :
    r.modify (r.modify c key Entry.mark) key (Entry.increment e.frequency) =
      r.modify c key Entry.touch := by
  subst hshard
  have htouch : ((c.shards (r.shard w n)).entries.modify key Entry.mark).modify key
      (Entry.increment e.frequency) = (c.shards (r.shard w n)).entries.modify key Entry.touch := by
    rw [HashMap.modify_modify]
    exact HashMap.modify_congr he e.touch_eq.symm
  simp [Reader.modify, Cache.setShard, htouch]

theorem get?_modify {i : Fin n} {key : κ} {e : Entry ν w} (r : Reader κ ν)
    (hshard : r.shard w n = i) (f : Entry ν w → Entry ν w)
    (he : (c.shards i).entries.get? key = some e) :
    ((r.modify c key f).shards i).entries.get? key = some (f e) := by
  subst hshard
  simp [Reader.modify, HashMap.get?_modify, he]

/-- A hit, from the entry it found to its counter. -/
theorem looking_touch {key : κ} {e : Entry ν w}
    (he : (c.shards (getShard w n op.hash)).entries.get? key = some e) :
    Execution (Shared.step checks) (fun _ _ => True) (looking c op (.found key .found)) []
      (looking (Reader.modify ⟨op, .waiting⟩ c key Entry.touch) op (.hit key)) := by
  let marked : Cache κ ν w n := Reader.modify ⟨op, .waiting⟩ c key Entry.mark
  have hmark : Execution (Shared.step checks) (fun _ _ => True) (looking c op (.found key .found))
      [] (looking marked op (.found key .marked)) := looking_step rfl
  have hmarked : (marked.shards (getShard w n op.hash)).entries.get? key = some e.mark :=
    get?_modify ⟨op, .waiting⟩ rfl _ he
  have hload : Execution (Shared.step checks) (fun _ _ => True)
      (looking marked op (.found key .marked)) []
      (looking marked op (.found key (.loaded e.frequency))) :=
    looking_step (by simp [Reader.perform, Reader.shard, hmarked])
  have hstore : Execution (Shared.step checks) (fun _ _ => True)
      (looking marked op (.found key (.loaded e.frequency))) []
      (looking (Reader.modify ⟨op, .waiting⟩ marked key (Entry.increment e.frequency)) op
        (.hit key)) := looking_step rfl
  rw [modify_touch ⟨op, .waiting⟩ rfl he] at hstore
  exact (hmark.trans hload).trans hstore

/-- A lookup that finds an entry. -/
theorem looking_hit (hkind : op.kind ≠ .contains) {key : κ} {e : Entry ν w}
    (hfind : (c.shards (getShard w n op.hash)).entries.fromHash op.hash op.equals = some (key, e)) :
    Execution (Shared.step checks) (fun _ _ => True) (looking c op .locked)
      [.returned (.look op) (.found (.value (some e.value)))]
      (idle (c.lookup op.hash op.equals).2) := by
  have he := (HashMap.fromHash_eq_some hfind).2.2
  let touched : Cache κ ν w n := Reader.modify ⟨op, .waiting⟩ c key Entry.touch
  have htouched : (touched.shards (getShard w n op.hash)).entries.get? key = some e.touch :=
    get?_modify ⟨op, .waiting⟩ rfl _ he
  have hvalue : e.touch.value = e.value := Entry.value_eq (Entry.content_touch e)
  have hlookup : (c.lookup op.hash op.equals).2 = touched.apply (.addMetric .hits 1) := by
    rw [Cache.lookup_eq, Shard.getHash, hfind]
    rfl
  have hfound : Execution (Shared.step checks) (fun _ _ => True) (looking c op .locked) []
      (looking c op (.found key .found)) :=
    looking_step (by cases hk : op.kind <;> simp_all [Reader.perform, Reader.shard])
  have hcount : Execution (Shared.step checks) (fun _ _ => True) (looking touched op (.hit key)) []
      (looking (touched.apply (.addMetric .hits 1)) op (.counted key)) := looking_step rfl
  rw [hlookup]
  refine ((hfound.trans (looking_touch he)).trans hcount).trans ?_
  cases hk : op.kind with
  | contains => exact absurd hk hkind
  | get =>
    have hguard : Execution (Shared.step checks) (fun _ _ => True)
        (looking (touched.apply (.addMetric .hits 1)) op (.counted key))
        [.returned (.look op) (.found (.value (some e.value)))]
        (looking (touched.apply (.addMetric .hits 1)) op (.guarded key e.value)) :=
      looking_step (by simp [Reader.perform, Reader.shard, htouched, hvalue, hk])
    exact hguard.trans (looking_end rfl)
  | getClone =>
    have hclone : Execution (Shared.step checks) (fun _ _ => True)
        (looking (touched.apply (.addMetric .hits 1)) op (.counted key)) []
        (looking (touched.apply (.addMetric .hits 1)) op (.done (.value (some e.value)))) :=
      looking_step (by simp [Reader.perform, Reader.shard, htouched, hvalue, hk])
    exact hclone.trans (looking_done _ _ _)

/-- A lookup that finds nothing. -/
theorem looking_miss (hkind : op.kind ≠ .contains)
    (hfind : (c.shards (getShard w n op.hash)).entries.fromHash op.hash op.equals = none) :
    Execution (Shared.step checks) (fun _ _ => True) (looking c op .locked)
      [.returned (.look op) (.found (.value none))] (idle (c.lookup op.hash op.equals).2) := by
  have hlookup : (c.lookup op.hash op.equals).2 = c.apply (.addMetric .misses 1) := by
    rw [Cache.lookup_eq, Shard.getHash, hfind]
    simp
  have hmissed : Execution (Shared.step checks) (fun _ _ => True) (looking c op .locked) []
      (looking c op .missed) :=
    looking_step (by cases hk : op.kind <;> simp_all [Reader.perform, Reader.shard])
  have hcount : Execution (Shared.step checks) (fun _ _ => True) (looking c op .missed) []
      (looking (c.apply (.addMetric .misses 1)) op (.done (.value none))) := looking_step rfl
  rw [hlookup]
  exact (hmissed.trans hcount).trans (looking_done _ _ _)

theorem looking_contains (hkind : op.kind = .contains) :
    Execution (Shared.step checks) (fun _ _ => True) (looking c op .locked)
      [.returned (.look op) (.found (.present (c.containsEntry op.hash op.equals)))] (idle c) := by
  have htest : Execution (Shared.step checks) (fun _ _ => True) (looking c op .locked) []
      (looking c op (.done (.present (c.containsEntry op.hash op.equals)))) :=
    looking_step (by simp [Reader.perform, hkind, Cache.containsEntry, Reader.shard])
  exact htest.trans (looking_done _ _ _)

/-- A lookup that holds its lock ends as the lookup made at once. -/
theorem looking_look (c : Cache κ ν w n) (op : Lookup κ) :
    Execution (Shared.step checks) (fun _ _ => True) (looking c op .locked)
      [.returned (.look op) (.found (c.look op).1)] (idle (c.look op).2) := by
  by_cases hkind : op.kind = .contains
  · have hlook : c.look op = (.present (c.containsEntry op.hash op.equals), c) := by
      rw [Cache.look, hkind]
    rw [hlook]
    exact looking_contains hkind
  · have hlook : c.look op = (.value ((c.lookup op.hash op.equals).1.map Entry.value),
        (c.lookup op.hash op.equals).2) := by
      unfold Cache.look
      split
      · next hk => exact absurd hk hkind
      · rfl
    rw [hlook]
    cases hfind : (c.shards (getShard w n op.hash)).entries.fromHash op.hash op.equals with
    | none =>
      have hnone : (c.lookup op.hash op.equals).1 = none := by rw [Cache.lookup_eq, hfind]; rfl
      rw [hnone]
      exact looking_miss hkind hfind
    | some kv =>
      have hsome : (c.lookup op.hash op.equals).1 = some kv.2.touch := by
        rw [Cache.lookup_eq, hfind]; rfl
      rw [hsome, Option.map_some, Entry.value_eq (Entry.content_touch kv.2)]
      exact looking_hit hkind hfind

/-- A request that overlaps no other does what it does at once. -/
theorem alone_request {req : Request κ ν w} {r : Answer ν w × List (Hook κ)}
    (h : c.request checks req = .ok r d) :
    Execution (Shared.step checks) (fun _ _ => True) (idle c) (req.shown r) (idle d) := by
  cases req with
  | call op =>
    obtain ⟨⟨old, hooks⟩, c', hcall, hret⟩ := Outcome.bind_eq_ok.mp h
    cases hret
    exact alone_call hcall
  | look op =>
    cases h
    exact (looking_start c op).trans (looking_look c op)

end Shared

/-! ## Typed calls -/

variable {w n : Nat} [NeZero n] {T : Types w} {H : Heap T}

/-- The value in an answer. -/
def Answer.value {ν : Type} {w : Nat} : Answer ν w → Option ν
  | .result old => old.map Entry.value
  | .found (.value v) => v
  | .found (.present _) => none

def Answer.present {ν : Type} {w : Nat} : Answer ν w → Bool
  | .found (.present b) => b
  | _ => false

namespace CacheOp

/-- The request that a typed call makes. -/
def request : CacheOp H → Request (ErasedKey H) (Any T.Val) w
  | .insert key value => .call (.insert (ErasedKey.new key)
      (Entry.new (Any.mk _ value) (T.deepSizeOf value) (T.policy key.get.value)))
  | .get key => let keyRef := ErasedKeyRef.new key.value
    .look ⟨.get, keyRef.hash, keyRef.equals⟩
  | .getClone key => let keyRef := ErasedKeyRef.new key.value
    .look ⟨.getClone, keyRef.hash, keyRef.equals⟩
  | .getBy _ key => let keyRef := ErasedKeyLookup.new key
    .look ⟨.get, keyRef.hash, keyRef.equals⟩
  | .getCloneBy _ key => let keyRef := ErasedKeyLookup.new key
    .look ⟨.getClone, keyRef.hash, keyRef.equals⟩
  | .contains key => let keyRef := ErasedKeyRef.new key.value
    .look ⟨.contains, keyRef.hash, keyRef.equals⟩
  | .containsBy _ key => let keyRef := ErasedKeyLookup.new key
    .look ⟨.contains, keyRef.hash, keyRef.equals⟩
  | .remove key => .call (.remove (ErasedKey.new key))
  | .clear => .call .clear

/-- What it makes of the answer: the downcast of the value. -/
def result (answer : Answer (Any T.Val) w) : CacheOp H → CacheResult T
  | .insert key _ | .remove key => .value
    ((answer.value.bind fun v => v.downcast (T.Value key.get.typeId)).map (Any.mk _))
  | .get key | .getClone key => .value
    ((answer.value.bind fun v => v.downcast (T.Value key.typeId)).map (Any.mk _))
  | .getBy t _ | .getCloneBy t _ => .value
    ((answer.value.bind fun v => v.downcast (T.Value t)).map (Any.mk _))
  | .contains _ | .containsBy _ _ => .present answer.present
  | .clear => .done

def reply (op : CacheOp H) (r : Answer (Any T.Val) w × List (Hook (ErasedKey H))) :
    CacheReply T where
  result := op.result r.1
  hooks := r.2.map (Hook.map fun k => k.data.get)

variable {checks : Bool} {c d : Cache (ErasedKey H) (Any T.Val) w n}

theorem look_eq (c : Cache (ErasedKey H) (Any T.Val) w n) (kind : LookupKind)
    (hkind : kind ≠ .contains) (v : T.ValueId) (hash : UInt64) (equals : ErasedKey H → Bool) :
    (((Answer.found (c.look ⟨kind, hash, equals⟩).1 : Answer _ w).value.bind
        fun x => x.downcast v), (c.look ⟨kind, hash, equals⟩).2) = c.lookupAs v hash equals := by
  cases kind with
  | contains => exact absurd rfl hkind
  | get | getClone => simp [Cache.look, Answer.value, Cache.lookupAs, Option.bind_map]

/-- A typed call is its request, with the value in the answer downcast. -/
theorem step_eq_ok {op : CacheOp H} {r : CacheReply T} (h : c.step checks op = .ok r d) :
    ∃ answer, c.request checks op.request = .ok answer d ∧ op.reply answer = r := by
  cases op with
  | insert key value | remove key =>
    obtain ⟨⟨v, shown⟩, c', hcall, hret⟩ := Outcome.bind_eq_ok.mp h
    cases hret
    obtain ⟨⟨old, hooks⟩, c'', hentry, hret⟩ := Outcome.bind_eq_ok.mp hcall
    cases hret
    refine ⟨(.result old, hooks), Outcome.bind_eq_ok.mpr ⟨(old, hooks), _, hentry, rfl⟩, ?_⟩
    simp [reply, result, Answer.value, Option.bind_map]
  | clear =>
    cases h
    exact ⟨_, rfl, rfl⟩
  | get key | getClone key | getBy t key | getCloneBy t key =>
    simp only [Cache.step, Cache.get, Cache.getClone, Cache.getBy, Cache.getCloneBy,
      ← look_eq c .get (by decide), Outcome.ok.injEq] at h
    obtain ⟨rfl, rfl⟩ := h
    exact ⟨_, rfl, rfl⟩
  | contains key | containsBy t key =>
    cases h
    exact ⟨_, rfl, rfl⟩

end CacheOp

/-- What can be observed of a run of typed calls. -/
def Cache.shown (ops : List (CacheOp H))
    (answers : List (Answer (Any T.Val) w × List (Hook (ErasedKey H)))) :
    List (CacheNote (ErasedKey H) (Any T.Val) w) :=
  (ops.zip answers).flatMap fun (op, r) => op.request.shown r

namespace Shared

variable {checks : Bool} {c d : Cache (ErasedKey H) (Any T.Val) w n}

/-- Every run of the sequential cache is an execution of the shared one, in which each typed call
is a request that overlaps no other. It takes its locks, writes, counts and delivers its hooks
one step after the other. Its reply is the answer downcast, and the cache afterwards is the
same to the last counter and bit of access statistics. -/
theorem sequential {ops : List (CacheOp H)} {rs : List (CacheReply T)}
    (h : Outcome.run (Cache.step checks) c ops = .ok rs d) :
    ∃ answers, answers.length = ops.length ∧ List.zipWith CacheOp.reply ops answers = rs ∧
      Execution (Shared.step checks) (fun _ _ => True) (idle c) (Cache.shown ops answers)
        (idle d) := by
  induction ops generalizing c rs with
  | nil =>
    cases h
    exact ⟨[], rfl, rfl, .start⟩
  | cons op ops ih =>
    obtain ⟨r, c', rs', hr, hrs, rfl⟩ := Outcome.run_cons_eq_ok.mp h
    obtain ⟨answer, hanswer, rfl⟩ := CacheOp.step_eq_ok hr
    obtain ⟨answers, hlength, rfl, hexec⟩ := ih hrs
    exact ⟨answer :: answers, congrArg (· + 1) hlength, rfl, (alone_request hanswer).trans hexec⟩

theorem sequential_twoTypes :
    ∃ rs, ∃ c : Cache (ErasedKey Cache.alternating) (Any Cache.colliding.Val) 64 2,
      Outcome.run (Cache.step false) (Cache.withShardsAndLifecycleInternal 900 2)
        Cache.twoTypes = .ok rs c ∧
      ∃ answers, List.zipWith CacheOp.reply Cache.twoTypes answers = rs ∧
        Execution (Shared.step false) (fun _ _ => True) (start 900)
          (Cache.shown Cache.twoTypes answers) (idle c) := by
  obtain ⟨rs, c, h⟩ := Cache.run_unchecked
    (Cache.withShardsAndLifecycleInternal (900 : BitVec 64) 2) Cache.twoTypes
  obtain ⟨answers, -, hreplies, hexec⟩ := sequential h
  exact ⟨rs, c, h, answers, hreplies, hexec⟩

end Shared

end PriorityLfu
