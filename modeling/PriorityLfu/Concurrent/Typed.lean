import PriorityLfu.Concurrent.Balance
import PriorityLfu.Concurrent.Embedding
import PriorityLfu.Concurrent.Stored

/-!
# Types in every interleaving

What `get`, `insert` and `remove` return is downcast to the value type of their key, after the
hit or the removal was counted. A downcast that failed would lose a value, and a guard gives
access to its value through a pointer that was cast once. As long as all insertions are typed
calls, what is stored under a key has the value type of the key's type, whatever calls overlap.
-/
namespace PriorityLfu
open Keyed

variable {w n : Nat} {T : Types w} {H : Heap T}

/-- The value has the value type of the key's type. -/
def ErasedKey.Admits (key : ErasedKey H) (v : Any T.Val) : Prop :=
  v.typeId = T.Value key.data.get.typeId

/-- The value has a type that the caller expects. -/
def Request.Admits (v : Any T.Val) : Request (ErasedKey H) (Any T.Val) w → Prop
  | .call (.insert key _) | .call (.remove key) => key.Admits v
  | .call .clear => False
  | .look op => op.kind ≠ .contains ∧ ∃ key, op.equals key = true ∧ key.Admits v

namespace Contents

/-- What is stored has the type that its key gives it. -/
def Typed (m : Contents (ErasedKey H) (Any T.Val) w) : Prop := m.All fun k x => k.Admits x.1

/-- A value in the answer has a type that the caller expects. -/
theorem Effect.admits [NeZero n] {m m' : Contents (ErasedKey H) (Any T.Val) w}
    {req : Request (ErasedKey H) (Any T.Val) w} {part : Part (ErasedKey H) (Any T.Val) w n}
    {answer : Answer (Any T.Val) w} {owed : List (Hook (ErasedKey H))} (hpart : part ∈ req.parts)
    (hm : m.Typed) (h : Effect m part answer owed m') :
    ∀ v, answer.value = some v → req.Admits v := by
  intro v hv
  cases h with
  | @insert key entry old lost hold hlost hkey =>
    obtain rfl := Request.eq_of_insert_mem hpart
    obtain ⟨e, rfl, rfl⟩ := Option.map_eq_some_iff.mp hv
    exact hm key _ hold.symm
  | @remove key k₀ e hkey hsome =>
    obtain rfl := Request.eq_of_remove_mem hpart
    cases hv
    exact hm key _ hsome
  | @hit op key x hkind hhash hequals hx =>
    obtain rfl := Request.eq_of_look_mem hpart
    cases hv
    exact ⟨hkind, key, hequals, hm key x hx⟩
  | absent | drain | miss | present | missing => cases hv

end Contents

namespace CacheOp

theorem map_downcast {key : ErasedKey H} {t : T.KeyId} {v : Any T.Val}
    (ht : key.data.get.typeId = t) (hv : key.Admits v) :
    (v.downcast (T.Value t)).map (Any.mk _) = some v := by
  subst ht
  exact Any.map_mk_downcast hv

/-- A value that a typed call expects is what the call returns. -/
theorem result_of_admits {op : CacheOp H} {answer : Answer (Any T.Val) w} {v : Any T.Val}
    (hanswer : answer.value = some v) (hv : op.request.Admits v) :
    op.result answer = .value (some v) := by
  cases op with
  | insert key value | remove key =>
    have hadmits : (ErasedKey.new key).Admits v := hv
    simp only [result, hanswer, Option.bind_some]
    exact congrArg CacheResult.value (map_downcast rfl hadmits)
  | clear => exact hv.elim
  | get key | getClone key =>
    obtain ⟨-, k, hk, hadmits⟩ := hv
    simp only [result, hanswer, Option.bind_some]
    exact congrArg CacheResult.value (map_downcast (ErasedKeyRef.typeId_of_equals hk) hadmits)
  | getBy t key | getCloneBy t key =>
    obtain ⟨-, k, hk, hadmits⟩ := hv
    simp only [result, hanswer, Option.bind_some]
    exact congrArg CacheResult.value (map_downcast (ErasedKeyLookup.typeId_of_equals hk) hadmits)
  | contains key | containsBy t key => exact absurd rfl hv.1

/-- The move that starts it. -/
def move (op : CacheOp H) : Move (ErasedKey H) (Any T.Val) w :=
  match op.request with
  | .call call => .start call
  | .look op => .look op

theorem starts_move (op : CacheOp H) :
    (op.move : Move _ _ w).Starts fun call => ∃ op : CacheOp H, op.request = .call call := by
  rw [move]
  split
  · next hop => exact ⟨op, hop⟩
  · trivial

end CacheOp

/-- The type of the value behind a guard. -/
def Phase.guardType {ι κ : Type} {C : ι → Type} : Phase κ (Any C) → Option ι
  | .guarded _ value => some value.typeId
  | _ => none

namespace Shared

variable [NeZero n] {checks : Bool} {s : Shared (ErasedKey H) (Any T.Val) w n}
  {trace : List (CacheNote (ErasedKey H) (Any T.Val) w)}

/-- What is stored stays typed, and every answer is one that its call expects. -/
theorem typed {maxSizeBytes : BitVec w}
    (h : Execution (Shared.step checks)
      (fun _ move => move.Starts fun call => ∃ op : CacheOp H, op.request = .call call)
      (start maxSizeBytes) trace s) :
    Contents.Typed s.system.cache.contentAt ∧
      ∀ req answer, .returned req answer ∈ trace → ∀ v, answer.value = some v → req.Admits v := by
  refine stored (P := fun k x => k.Admits x.1)
    (fun req answer => ∀ v, answer.value = some v → req.Admits v) ?_ ?_ ?_ h
  · exact fun a b x hab ha => ha.trans (congrArg T.Value (Cache.typeId_congr hab))
  · rintro key entry ⟨op, hop⟩
    cases op <;> cases hop
    rfl
  · exact fun req m part answer owed m' _ hpart hm heffect => heffect.admits hpart hm

/-- No downcast fails in any interleaving in which all insertions are typed calls: a value that
was found, replaced or removed is what its call returns, and the value behind a guard has the type
that it was cast to. -/
theorem downcasts_succeed {maxSizeBytes : BitVec w}
    (h : Execution (Shared.step checks)
      (fun _ move => move.Starts fun call => ∃ op : CacheOp H, op.request = .call call)
      (start maxSizeBytes) trace s) :
    (∀ (op : CacheOp H) answer v, .returned op.request answer ∈ trace → answer.value = some v →
      op.result answer = .value (some v)) ∧
    ∀ r ∈ s.readers, ∀ key value, r.phase = .guarded key value →
      r.op.equals key = true ∧ value.typeId = T.Value key.data.get.typeId := by
  obtain ⟨hcontent, hanswers⟩ := typed h
  refine ⟨fun op answer v hreturned hanswer =>
    op.result_of_admits hanswer (hanswers _ _ hreturned v hanswer), ?_⟩
  intro r hr key value hguard
  have hheld := held (h.mono fun _ _ _ => trivial)
  obtain ⟨hhash, hequals, x, hx, hvalue⟩ := hheld.sees r hr key (by rw [hguard]; rfl)
  have hstored : s.system.cache.contentAt key = some x := by
    rwa [Cache.contentAt, hhash]
  exact ⟨hequals, (congrArg Any.typeId (hvalue value hguard)).symm.trans (hcontent key x hstored)⟩

/-- Overlapping insertions of one number under two key types with colliding hashes, the removal of
one of them, and a guard of the other. -/
def twoTypes : List (Move (ErasedKey Cache.alternating) (Any Cache.colliding.Val) 64) :=
  [CacheOp.move (.insert ⟨0⟩ (100 : Nat)), CacheOp.move (.insert ⟨1⟩ (200 : Nat))] ++
    List.replicate 3 (.advance 0) ++ List.replicate 5 (.advance 1) ++
    List.replicate 2 (.advance 0) ++ CacheOp.move (.remove ⟨0⟩) ::
    List.replicate 7 (.advance 0) ++ CacheOp.move (.get ⟨true, (0 : Nat)⟩) ::
    List.replicate 7 (.read 0)

theorem downcasts_succeed_twoTypes :
    ∃ trace, ∃ s : Shared (ErasedKey Cache.alternating) (Any Cache.colliding.Val) 64 2,
      Execution (Shared.step false) (fun _ move => move.Starts fun call =>
        ∃ op : CacheOp Cache.alternating, op.request = .call call) (start 900) trace s ∧
      (∃ key : Arc Cache.alternating, ∃ old : Entry (Any Cache.colliding.Val) 64,
        .returned (.call (.remove (ErasedKey.new key))) (.result (some old)) ∈ trace ∧
        (CacheOp.remove key).result (.result (some old) : Answer (Any Cache.colliding.Val) 64) =
          .value (some old.value)) ∧
      ∃ r ∈ s.readers, ∃ key value, r.phase = .guarded key value ∧
        value.typeId = Cache.colliding.Value key.data.get.typeId := by
  have hfacts : ((Execution.play (Shared.step false) (fun _ _ => True)
      (start 900 : Shared (ErasedKey Cache.alternating) (Any Cache.colliding.Val) 64 2)
      twoTypes).map fun r =>
        (r.1.any (Atomic.answers (Request.removes (ErasedKey.new ⟨0⟩))),
          r.2.readers.any fun r => r.phase.guardType == some false)) = some (true, true) := by
    decide +kernel
  obtain ⟨⟨trace, s⟩, hplay, hs⟩ := Option.map_eq_some_iff.mp hfacts
  obtain ⟨htrace, hreaders⟩ := Prod.mk.inj hs
  have hrun : Execution (Shared.step false) (fun _ move => move.Starts fun call =>
      ∃ op : CacheOp Cache.alternating, op.request = .call call) (start 900) trace s := by
    refine Execution.of_play_mem hplay fun _ move hmove _ => ?_
    simp only [twoTypes, List.mem_append, List.mem_cons, List.mem_replicate, List.not_mem_nil,
      or_false] at hmove
    rcases hmove with (((((rfl | rfl) | ⟨-, rfl⟩) | ⟨-, rfl⟩) | ⟨-, rfl⟩) | rfl | ⟨-, rfl⟩) | rfl |
      ⟨-, rfl⟩ <;> first | exact CacheOp.starts_move _ | trivial
  obtain ⟨hreturned, hguards⟩ := downcasts_succeed hrun
  refine ⟨trace, s, hrun, ?_, ?_⟩
  · obtain ⟨note, hnote, hremoved⟩ := List.any_eq_true.mp htrace
    unfold Atomic.answers at hremoved
    split at hremoved
    · unfold Request.removes at hremoved
      split at hremoved
      · next key old =>
        obtain ⟨_, _, key, _, rfl, rfl, rfl⟩ := key
        exact ⟨key, old, hnote, hreturned (.remove key) _ _ hnote rfl⟩
      · cases hremoved
    · cases hremoved
  · obtain ⟨r, hr, hguard⟩ := List.any_eq_true.mp hreaders
    unfold Phase.guardType at hguard
    split at hguard
    · next key value hphase => exact ⟨r, hr, key, value, hphase, (hguards r hr key value hphase).2⟩
    · cases hguard

end Shared

end PriorityLfu
