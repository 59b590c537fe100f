import PriorityLfu.Concurrent.AtRest
import PriorityLfu.Concurrent.Linear
import PriorityLfu.Concurrent.Projection

/-!
# What is stored

Entries come into the cache by insertions and by nothing else, and nothing changes the content of
one that is stored. So what holds of every insertion that is started holds of everything that is
stored, in every interleaving.
-/
namespace PriorityLfu
open Keyed

variable {κ ν : Type} {w n : Nat} [BEq κ] [Hashable κ] [NeZero n]

/-- What is inserted satisfies `P`. -/
def Request.Inserts (P : κ → ν × BitVec w × CachePolicy → Prop) : Request κ ν w → Prop
  | .call (.insert key entry) => P key entry.content
  | _ => True

namespace Contents

/-- What is stored satisfies `P`. -/
def All (P : κ → ν × BitVec w × CachePolicy → Prop) (m : Contents κ ν w) : Prop :=
  ∀ k x, m k = some x → P k x

variable {P : κ → ν × BitVec w × CachePolicy → Prop} {m m' : Contents κ ν w} {req : Request κ ν w}
  {part : Part κ ν w n} {answer : Answer ν w} {owed : List (Hook κ)}

/-- An effect stores what is inserted, and otherwise only what was there. -/
theorem Effect.all (hP : ∀ a b x, (a == b) = true → P a x → P b x) (hreq : req.Inserts P)
    (hpart : part ∈ req.parts) (hm : m.All P) (h : Effect m part answer owed m') : m'.All P := by
  intro k x hx
  cases h with
  | @insert key entry old lost hold hlost hkey =>
    obtain rfl := Request.eq_of_insert_mem hpart
    dsimp only at hx
    split at hx
    · next hk =>
      cases hx
      exact hP key k _ hk hreq
    · split at hx
      · cases hx
      · exact hm k x hx
  | remove hkey hsome =>
    dsimp only at hx
    split at hx
    · cases hx
    · exact hm k x hx
  | drain hleft hall =>
    dsimp only at hx
    split at hx
    · cases hx
    · exact hm k x hx
  | absent | hit | miss | present | missing => exact hm k x hx

end Contents

namespace Shared

variable [EquivBEq κ] [LawfulHashable κ] {checks : Bool} {p : CallOp κ ν w → Prop}
  {s : Shared κ ν w n} {trace : List (CacheNote κ ν w)}

/-- Only what may be started is invoked. -/
theorem starts_of_invoked {s₀ : Shared κ ν w n}
    (h : Execution (Shared.step checks) (fun _ move => move.Starts p) s₀ trace s) :
    ∀ op, .invoked (.call op) ∈ trace → p op := by
  refine Execution.invariant (P := fun trace _ => ∀ op, .invoked (.call op) ∈ trace → p op)
    (by simp) ?_ h
  intro trace s move shown t hs hmove hstep op hop
  rcases List.mem_append.mp hop with hold | hnew
  · exact hs op hold
  · rcases step_cases hstep with ⟨op', rfl, rfl, -⟩ | ⟨j, events, system, -, -, -, rfl, -⟩ |
      ⟨op', -, rfl, -⟩ | ⟨before, r, after, e, -, -, he, rfl, -⟩
    · cases List.mem_singleton.mp hnew
      exact hmove
    · obtain ⟨event, -, hevent⟩ := List.mem_map.mp hnew
      cases event <;> cases hevent
    · cases List.mem_singleton.mp hnew
    · cases he <;> simp at hnew

/-- What is stored was inserted, and the answers are about what is stored. -/
theorem stored {P : κ → ν × BitVec w × CachePolicy → Prop} (A : Request κ ν w → Answer ν w → Prop)
    {maxSizeBytes : BitVec w} (hP : ∀ a b x, (a == b) = true → P a x → P b x)
    (hp : ∀ key entry, p (.insert key entry) → P key entry.content)
    (hA : ∀ req m (part : Part κ ν w n) answer owed m', Request.Inserts P req → part ∈ req.parts →
      Contents.All P m → Contents.Effect m part answer owed m' → A req answer)
    (h : Execution (Shared.step checks) (fun _ move => move.Starts p) (start maxSizeBytes)
      trace s) :
    Contents.All P s.system.cache.contentAt ∧
      ∀ req answer, .returned req answer ∈ trace → A req answer := by
  obtain ⟨-, hruns⟩ := runs_abs (h.mono fun _ _ _ => trivial)
  refine Atomic.Object.runs_answers (Contents.All P) (Request.Inserts P) A ?_ ?_ hruns ?_
  · exact fun k x hx => by cases hx
  · exact fun req part m answer owed m' hreq hpart hm heffect =>
      ⟨heffect.all hP hreq hpart hm, hA req m part answer owed m' hreq hpart hm heffect⟩
  · rintro (call | op) hinvoked
    · cases call with
      | insert key entry => exact hp key entry (starts_of_invoked h _ hinvoked)
      | remove key | clear => trivial
    · trivial

end Shared

/-! ## Insertions that fit -/

namespace System

variable [EquivBEq κ] [LawfulHashable κ] {checks : Bool} {cap : BitVec w} {s t : System κ ν w n}

/-- Where there is room and nothing stored is larger than half of a word, no call panics. -/
theorem Roomy.calm (hs : s.Roomy cap)
    (hstored : ∀ key old, s.cache.oldEntry key = some old → 2 * old.size.toNat < 2 ^ w)
    (choice : Choice κ ν w n) : s.Calm checks choice := by
  cases choice with
  | start op | access i key clockBit frequency => rfl
  | advance j =>
    rw [Calm, unwound, Option.bind_eq_none_iff]
    intro a ha
    rw [Option.map_eq_none_iff]
    cases a with
    | insert key entry =>
      obtain ⟨hsize, hfits⟩ := hs.inserts key entry (mem_inFlight_of_next ha)
      have hle : entry.size.toNat ≤ cap.toNat := hsize
      refine unwind_insert (hs.within _).sound ?_ fun old hold =>
        Word.abs_toInt_sub_lt (by omega) (hstored key old hold)
      have hcur := (hs.within (getShard w n (hash key))).size
      unfold Shard.demand
      omega
    | remove key => exact unwind_remove (hs.within _).sound
    | drain i | enter key u | update u | unlock i | hook h => rfl

end System

namespace Shared

variable [EquivBEq κ] [LawfulHashable κ] {checks : Bool} {p : CallOp κ ν w → Prop}
  {s : Shared κ ν w n} {trace : List (CacheNote κ ν w)}

/-- Where every insertion fits the share of a shard, no call panics. -/
theorem calm_of_fits {maxSizeBytes : BitVec w}
    (hp : ∀ op, p op → (Choice.start op : Choice κ ν w n).Fits (Cache.sizePerShard maxSizeBytes n))
    (h : Execution (Shared.step checks) (fun _ move => move.Starts p) (start maxSizeBytes) trace s)
    (move : Move κ ν w) : s.Calm checks move := by
  obtain ⟨a, ha, hagrees⟩ := projection h
  have hroomy := System.roomy (ha.mono fun _ choice hchoice => by
    cases choice with
    | start op => exact hp op hchoice
    | advance j | access i key clockBit frequency => trivial)
  have hs : s.system.Roomy (Cache.sizePerShard maxSizeBytes n) := by
    refine ⟨fun i => hagrees.cache.shards ▸ hroomy.within i, ?_⟩
    simpa only [System.inFlight, hagrees.calls] using hroomy.inserts
  obtain ⟨hstored, -⟩ := stored (P := fun _ x => 2 * x.2.1.toNat < 2 ^ w) (fun _ _ => True)
    (fun _ _ _ _ hx => hx) (fun key entry hop => by
      obtain ⟨hsize, hfits⟩ := hp _ hop
      have hle : entry.size.toNat ≤ _ := hsize
      show 2 * entry.size.toNat < 2 ^ w
      omega) (fun _ _ _ _ _ _ _ _ _ _ => trivial) h
  have hcalm : ∀ choice, s.system.Calm checks choice := hs.calm fun key old hold => by
    refine hstored key old.content ?_
    rw [Cache.contentAt_eq_oldEntry, hold, Option.map_some]
  cases move with
  | start op | look op | read j => rfl
  | advance j =>
    have hadvance := hcalm (.advance j)
    rw [System.Calm] at hadvance
    rw [Calm, unwound, hadvance, Option.map_none, ite_self]

theorem execution_of_fits {maxSizeBytes : BitVec w}
    (hp : ∀ op, p op → (Choice.start op : Choice κ ν w n).Fits (Cache.sizePerShard maxSizeBytes n))
    (h : Execution (stepOrPanic checks) (fun _ move => move.Starts p) (start maxSizeBytes)
      trace s) :
    Execution (Shared.step checks) (fun _ move => move.Starts p) (start maxSizeBytes) trace s :=
  Execution.without_failures (fun _ _ move hrun _ => calm_of_fits hp hrun move) h

end Shared

end PriorityLfu
