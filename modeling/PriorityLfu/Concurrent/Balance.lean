import PriorityLfu.Concurrent.Linear

/-!
# The ledger of hooks in every interleaving

An entry comes in when an insertion finds its key absent, and leaves by one hook. On the plain
map this is a balance that every effect keeps. So the cache calls no hook twice and loses none,
whatever calls, lookups and `clear` overlap: a hook is late at most, as long as its call is in
progress.
-/
namespace PriorityLfu
open Keyed

variable {κ ν : Type} {w n : Nat} [BEq κ]

/-! ## What is counted -/

/-- An insertion of `k` that found it absent. -/
def Request.opens (k : κ) : Request κ ν w → Answer ν w → Bool
  | .call (.insert key _), .result none => key == k
  | _, _ => false

/-- A removal of `k` that found it. -/
def Request.removes (k : κ) : Request κ ν w → Answer ν w → Bool
  | .call (.remove key), .result (some _) => key == k
  | _, _ => false

def Hook.concerns (k : κ) (h : Hook κ) : Bool := h.key == k

def Hook.isRemove (k : κ) : Hook κ → Bool
  | .onRemove key => key == k
  | _ => false

section parts

variable {op : Request κ ν w} {k key : κ} {entry : Entry ν w}

/-- Only an insertion opens. -/
theorem Request.opens_eq_false {part : Part κ ν w n} {answer : Answer ν w}
    (hop : part ∈ op.parts) (hne : ∀ key entry, part ≠ .insert key entry) :
    op.opens k answer = false := by
  cases op with
  | look op' => rfl
  | call op' =>
    cases op' with
    | insert key entry => exact absurd (List.mem_singleton.mp hop) (hne key entry)
    | remove key | clear => rfl

theorem Request.removes_eq_false {part : Part κ ν w n} {answer : Answer ν w}
    (hop : part ∈ op.parts) (hne : ∀ key, part ≠ .remove key) :
    op.removes k answer = false := by
  cases op with
  | look op' => rfl
  | call op' =>
    cases op' with
    | remove key => exact absurd (List.mem_singleton.mp hop) (hne key)
    | insert key entry | clear => rfl

end parts

/-! ## The plain map balances -/

namespace Contents

/-- Equal keys have the same content. -/
def Congruent (m : Contents κ ν w) : Prop := ∀ a b, (a == b) = true → m a = m b

/-- Whether `k` is present, as a number. -/
def presence (k : κ) (m : Contents κ ν w) : Nat := (m k).isSome.toNat

variable [EquivBEq κ] {m : Contents κ ν w} {keys : List κ}

/-- Of keys no two of which are equal one at most is `k`. -/
theorem Lists.countP (h : m.Lists keys) (k : κ) :
    keys.countP (· == k) = (keys.any (· == k)).toNat := by
  let set : IndexSet κ := ⟨keys, h.distinct⟩
  have hcount : keys.countP (· == k) = set.keys.countP (k == ·) :=
    List.countP_congr fun b _ => by rw [BEq.comm]
  have hany : keys.any (· == k) = set.contains k := by
    simp only [set, IndexSet.contains]
    congr 1
    funext b
    exact BEq.comm
  rw [hcount, hany]
  cases hin : set.contains k with
  | true => exact IndexSet.countP_eq_one hin
  | false =>
    refine List.countP_eq_zero.mpr fun b hb => ?_
    simpa using IndexSet.not_contains_iff.mp hin b hb

omit [EquivBEq κ] in
theorem Lists.present_of_any (h : m.Lists keys) (hm : m.Congruent) {k : κ}
    (hany : keys.any (· == k) = true) : (m k).isSome = true := by
  obtain ⟨b, hb, hbk⟩ := List.any_eq_true.mp hany
  rw [← hm b k hbk]
  exact Option.isSome_iff_ne_none.mpr (h.present b hb)

end Contents

variable [Hashable κ] [EquivBEq κ] [LawfulHashable κ] [NeZero n]

namespace Contents

variable {m m' : Contents κ ν w} {part : Part κ ν w n} {answer : Answer ν w}
  {owed : List (Hook κ)}

/-- Whatever takes effect, equal keys have the same content afterwards. -/
theorem Effect.congruent (h : Effect m part answer owed m') (hm : m.Congruent) :
    m'.Congruent := by
  intro a b hab
  cases h with
  | insert hold hlost hkey =>
    simp only [BEq.congr_right hab, hm a b hab]
  | remove hkey hsome => simp only [BEq.congr_right hab, hm a b hab]
  | drain hleft hall => simp only [hash_eq hab, hm a b hab]
  | absent | hit | miss | present | missing => exact hm a b hab

omit [LawfulHashable κ] in
/-- An effect balances: an answer that opens and what was there are the hooks it makes its call
owe and what is there. -/
theorem Effect.opens (h : Effect m part answer owed m') (hm : m.Congruent) (k : κ)
    {op : Request κ ν w} (hop : part ∈ op.parts) :
    (op.opens k answer).toNat + presence k m = owed.countP (Hook.concerns k) + presence k m' := by
  cases h with
  | @insert key entry old lost hold hlost hkey =>
    obtain rfl := Request.eq_of_insert_mem hop
    have hhooks : (lost.map Hook.onEvict).countP (Hook.concerns k) =
        (lost.any (· == k)).toNat := by
      rw [List.countP_map]
      exact hlost.countP k
    have hopens : Request.opens k (.call (.insert key entry) : Request κ ν w) (.result old) =
        ((key == k) && (m key).isNone) := by
      rw [← hold]
      cases old <;> simp [Request.opens]
    rw [hhooks, hopens]
    by_cases hk : (key == k) = true
    · have hnot : lost.any (· == k) = false := by
        refine List.any_eq_false.mpr fun b hb => ?_
        rw [BEq.comm, ← BEq.congr_left hk, hkey b hb]
        exact Bool.false_ne_true
      rw [hm key k hk]
      cases hmk : m k <;> simp [presence, hk, hnot, hmk]
    · cases hany : lost.any (· == k) with
      | true => simp [presence, hk, hany, hlost.present_of_any hm hany]
      | false => simp [presence, hk, hany]
  | absent hnone => simp [Request.opens_eq_false hop]
  | @remove key k₀ e hkey hsome =>
    rw [Request.opens_eq_false hop (by simp)]
    by_cases hk : (key == k) = true
    · have hpresent : m k = some e.content := by rw [← hm key k hk]; exact hsome
      simp [presence, Hook.concerns, Hook.key, hk, hpresent, ← BEq.congr_left hkey]
    · simp [presence, Hook.concerns, Hook.key, hk, ← BEq.congr_left hkey]
  | @drain i left hleft hall =>
    have hhooks : (left.map Hook.onClear).countP (Hook.concerns k) =
        (left.any (· == k)).toNat := by
      rw [List.countP_map]
      exact hleft.countP k
    rw [Request.opens_eq_false hop (by simp), hhooks]
    by_cases hi : getShard w n (hash k) = i
    · cases hk : m k with
      | none =>
        have hnot : left.any (· == k) = false :=
          Bool.eq_false_iff.mpr fun hany => ((hall k).mp hany).2 hk
        simp [presence, hi, hk, hnot]
      | some x =>
        have hany : left.any (· == k) = true := (hall k).mpr ⟨hi, by simp [hk]⟩
        simp [presence, hi, hk, hany]
    · have hnot : left.any (· == k) = false :=
        Bool.eq_false_iff.mpr fun hany => hi ((hall k).mp hany).1
      simp [presence, hi, hnot]
  | hit | miss | present | missing => simp [Request.opens_eq_false hop]

omit [LawfulHashable κ] in
/-- A removal that found its key owes `on_remove`, and nothing else does. -/
theorem Effect.removes (h : Effect m part answer owed m') (k : κ) {op : Request κ ν w}
    (hop : part ∈ op.parts) :
    (op.removes k answer).toNat = owed.countP (Hook.isRemove k) := by
  have hzero : ∀ (keys : List κ) (f : κ → Hook κ), (∀ x, Hook.isRemove k (f x) = false) →
      (keys.map f).countP (Hook.isRemove k) = 0 := by
    intro keys f hf
    simp [List.countP_map, List.countP_eq_zero, hf]
  cases h with
  | absent hnone =>
    obtain rfl := Request.eq_of_remove_mem hop
    rfl
  | @remove key k₀ e hkey hsome =>
    obtain rfl := Request.eq_of_remove_mem hop
    rw [List.countP_singleton, Hook.isRemove, ← BEq.congr_left hkey, Request.removes]
    cases key == k <;> rfl
  | insert | drain =>
    rw [Request.removes_eq_false hop (by simp), hzero _ _ fun _ => rfl]
    rfl
  | hit | miss | present | missing =>
    rw [Request.removes_eq_false hop (by simp)]
    rfl

end Contents

/-! ## The cache balances -/

namespace Shared

variable {checks : Bool} {s : Shared κ ν w n} {trace : List (CacheNote κ ν w)}

/-- The entries that came in and the hooks, up to what calls in progress have still to return and
to call. -/
theorem balance {maxSizeBytes : BitVec w}
    (h : Execution (Shared.step checks) (fun _ _ => True) (start maxSizeBytes) trace s) (k : κ) :
    trace.countP (Atomic.answers (Request.opens k)) +
        s.abs.pending.countP (fun p => p.answer.any (p.op.opens k)) =
      trace.countP (Atomic.shows (Hook.concerns k)) +
        (s.abs.pending.flatMap Atomic.Pending.owed).countP (Hook.concerns k) +
        Contents.presence k s.system.cache.contentAt := by
  refine Atomic.Object.runs_balance Contents.Congruent (Request.opens k) (Hook.concerns k)
    (Contents.presence k) (runs_abs h).2 (fun _ _ _ => rfl) ?_ fun m part answer owed m' hm he => ?_
  · rintro (⟨key, entry⟩ | ⟨key⟩ | _ | op) hlen a <;> first | rfl | simp [Request.parts] at hlen
  · exact ⟨Contents.Effect.congruent he hm, fun op hop => Contents.Effect.opens he hm k hop⟩

/-- The same for the removals that found their key. -/
theorem balance_remove {maxSizeBytes : BitVec w}
    (h : Execution (Shared.step checks) (fun _ _ => True) (start maxSizeBytes) trace s) (k : κ) :
    trace.countP (Atomic.answers (Request.removes k)) +
        s.abs.pending.countP (fun p => p.answer.any (p.op.removes k)) =
      trace.countP (Atomic.shows (Hook.isRemove k)) +
        (s.abs.pending.flatMap Atomic.Pending.owed).countP (Hook.isRemove k) := by
  refine Atomic.Object.runs_balance (fun _ => True) (Request.removes k) (Hook.isRemove k)
    (fun _ => 0) (runs_abs h).2 trivial ?_ fun m part answer owed m' _ he => ?_
  · rintro (⟨key, entry⟩ | ⟨key⟩ | _ | op) hlen a <;> first | rfl | simp [Request.parts] at hlen
  · exact ⟨trivial, fun op hop => Contents.Effect.removes he k hop⟩

omit [EquivBEq κ] [LawfulHashable κ] in
/-- Lookups owe no hooks. -/
theorem owed_pending (s : Shared κ ν w n) :
    s.abs.pending.flatMap Atomic.Pending.owed = s.system.inFlight.filterMap Action.hook? := by
  have hreaders : (s.readers.filterMap (Reader.abs s.system.cache)).flatMap
      Atomic.Pending.owed = [] := by
    refine List.flatMap_eq_nil_iff.mpr fun p hp => ?_
    obtain ⟨r, -, hr⟩ := List.mem_filterMap.mp hp
    rw [Reader.abs] at hr
    split at hr <;> cases hr <;> rfl
  simp only [abs, List.flatMap_append, hreaders, List.append_nil, List.flatMap_map,
    System.inFlight, List.filterMap_flatMap]
  rfl

omit [EquivBEq κ] [LawfulHashable κ] in
/-- Only calls have answers that count before they return. -/
theorem answered_pending (s : Shared κ ν w n) {f : Request κ ν w → Answer ν w → Bool}
    (hlook : ∀ op a, f (.look op) a = false) :
    s.abs.pending.countP (fun p => p.answer.any (f p.op)) =
      s.system.calls.countP fun call => call.abs.answer.any (f (.call call.op)) := by
  have hreaders : (s.readers.filterMap (Reader.abs s.system.cache)).countP
      (fun p => p.answer.any (f p.op)) = 0 := by
    refine List.countP_eq_zero.mpr fun p hp => ?_
    obtain ⟨r, -, hr⟩ := List.mem_filterMap.mp hp
    have hop : p.op = .look r.op := by
      rw [Reader.abs] at hr
      split at hr <;> cases hr <;> rfl
    cases ha : p.answer <;> simp [hop, hlook]
  rw [abs, List.countP_append, hreaders, List.countP_map]
  rfl

/-- The ledger of hooks in every interleaving of calls, lookups and guards in which no call panics,
for every key. No hook is called twice: hooks and the entry that is there are no more than the
insertions that found the key absent and those still in progress. None is lost: what came in is
there, or its hook was called, or its hook is in flight. Whenever no call is in progress they are
equal, and
`on_remove` was called once for every removal that returned a value. -/
theorem hooks_balance {maxSizeBytes : BitVec w}
    (h : Execution (stepOrPanic checks) (Calm checks) (start maxSizeBytes) trace s) (k : κ) :
    let opened := trace.countP (Atomic.answers (Request.opens k))
    let called := trace.countP (Atomic.shows (Hook.concerns k))
    let present := (s.system.cache.contentAt k).isSome.toNat
    called + present ≤ opened + s.system.calls.countP (fun call => call.op.inserts k) ∧
    opened ≤ called + present +
      (s.system.inFlight.filterMap Action.hook?).countP (Hook.concerns k) ∧
    (s.system.calls = [] → opened = called + present ∧
      trace.countP (Atomic.answers (Request.removes k)) =
        trace.countP (Atomic.shows (Hook.isRemove k))) := by
  intro opened called present
  have hcalm : Execution (step checks) (fun _ _ => True) (start maxSizeBytes) trace s :=
    execution_of_calm (fun _ _ hcalm => ⟨hcalm, trivial⟩) h
  have hbalance := balance hcalm k
  have hremove := balance_remove hcalm k
  rw [answered_pending s fun _ _ => rfl, owed_pending] at hbalance hremove
  have hpresent : Contents.presence k s.system.cache.contentAt = present := rfl
  have hinserts : s.system.calls.countP (fun call =>
      call.abs.answer.any (Request.opens k (.call call.op))) ≤
        s.system.calls.countP fun call => call.op.inserts k := by
    refine List.countP_mono_left fun call _ hcall => ?_
    obtain ⟨a, -, ha⟩ := (Option.any_eq_true _ _).mp hcall
    cases hop : call.op with
    | insert key entry =>
      cases a with
      | found answer => simp [hop, Request.opens] at ha
      | result old => cases old <;> simp_all [Request.opens, CallOp.inserts]
    | remove key | clear => simp [hop, Request.opens] at ha
  refine ⟨by omega, by omega, fun hrest => ?_⟩
  have hflight : s.system.inFlight = [] := by rw [System.inFlight, hrest, List.flatMap_nil]
  simp only [hrest, hflight, List.countP_nil, List.filterMap_nil, add_zero] at hbalance hremove
  exact ⟨by omega, hremove⟩

/-- A removal, an insertion of the same key and a `clear` that overlap, beside a guard. -/
def colliding : List (Move Nat Nat 8) :=
  .start (.insert 0 (.new 7 3 .standard)) :: List.replicate 5 (.advance 0) ++
    [.start (.remove 0), .start (.insert 0 (.new 9 2 .standard)), .start .clear,
      .look ⟨.get, hash 1, (1 == ·)⟩] ++ List.replicate 5 (.advance 0) ++
    List.replicate 5 (.advance 1) ++ List.replicate 18 (.advance 0)

theorem hooks_balance_colliding :
    ∃ trace, ∃ s : Shared Nat Nat 8 2,
      Execution (stepOrPanic true) (Calm true) (start 20) trace s ∧ s.system.calls = [] ∧
      trace.countP (Atomic.answers (Request.opens 0)) =
        trace.countP (Atomic.shows (Hook.concerns 0)) +
          (s.system.cache.contentAt 0).isSome.toNat := by
  have hrest : ((Execution.play (stepOrPanic true) (Calm true)
      (start 20 : Shared Nat Nat 8 2) colliding).map fun r =>
        (r.2.system.calls.isEmpty, r.1.countP (Atomic.answers (Request.opens 0)))) =
      some (true, 2) := by decide +kernel
  obtain ⟨⟨trace, s⟩, hplay, hs⟩ := Option.map_eq_some_iff.mp hrest
  have hcalls := List.isEmpty_iff.mp (Prod.mk.inj hs).1
  have hrun := Execution.of_play hplay
  exact ⟨trace, s, hrun, hcalls, ((hooks_balance hrun 0).2.2 hcalls).1⟩

end Shared

end PriorityLfu
