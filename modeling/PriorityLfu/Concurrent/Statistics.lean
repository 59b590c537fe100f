import PriorityLfu.Library.Racing
import PriorityLfu.Concurrent.RwLock

/-!
# Access statistics under racing hits

The increment of a frequency is not atomic, so a store can undo the increments of hits that
overlap it. Still no hit loads less than what the entry had before all of them, nor more than
what they add up to: a batch of hits counts for at least one and for no more than its number,
short of the limit of 255. A sweep is alone, so what it decrements is what it has just read.
-/
namespace PriorityLfu
open Keyed

variable {κ ν : Type} {w : Nat}

/-! ## One increment -/

/-- The frequency after one more hit. -/
def bump (f : Nat) : Nat := if f < 255 then f + 1 else f

theorem le_bump (f : Nat) : f ≤ bump f := by
  unfold bump
  split <;> omega

theorem bump_mono : Monotone bump := fun a b h => by
  unfold bump
  split <;> split <;> omega

theorem bump_iterate {f : Nat} (hf : f ≤ 255) (n : Nat) : bump^[n] f = min 255 (f + n) := by
  induction n with
  | zero =>
    rw [Function.iterate_zero_apply]
    omega
  | succ n ih =>
    rw [Function.iterate_succ_apply', ih]
    unfold bump
    split <;> omega

theorem toNat_le_max (f : UInt8) : f.toNat ≤ 255 := by
  have := f.toNat_lt
  omega

/-- The increment of a frequency does not wrap: it is made below 255 only. -/
theorem toNat_increment (freq : UInt8) (e : Entry ν w) :
    (e.increment freq).frequency = e.frequency ∧ bump freq.toNat = freq.toNat ∨
      (e.increment freq).frequency.toNat = freq.toNat + 1 ∧ bump freq.toNat = freq.toNat + 1 := by
  rw [Entry.frequency_increment]
  by_cases h : freq < 255
  · have hlt : freq.toNat < 255 := h
    refine .inr ⟨?_, if_pos hlt⟩
    rw [if_pos h, UInt8.toNat_add]
    simp
    omega
  · exact .inl ⟨if_neg h, if_neg h⟩

/-! ## A batch of hits -/

/-- The frequencies that hits in progress have loaded. -/
def loads (pending : List Stage) : Set Nat :=
  {f | ∃ freq, .loaded freq ∈ pending ∧ freq.toNat = f}

theorem loads_subset {pending rest : List Stage}
    (h : ∀ freq, .loaded freq ∈ rest → .loaded freq ∈ pending) : loads rest ⊆ loads pending :=
  fun _ ⟨freq, hfreq, hf⟩ => ⟨freq, h freq hfreq, hf⟩

/-- What the entry `e₀` has become, `e`, when `m` hits on it are complete and `pending` are in
progress. -/
structure Progress (e₀ : Entry ν w) (m : Nat) (e : Entry ν w) (pending : List Stage) : Prop where
  content : e.content = e₀.content
  clockBit : 0 < m ∨ (∃ stage ∈ pending, stage ≠ .found) → e.clockBit = true
  frequency : Racing.Between bump e₀.frequency.toNat m e.frequency.toNat (loads pending)

namespace Progress

variable {e₀ e : Entry ν w} {m : Nat} {pending rest : List Stage} {freq : UInt8}

theorem start (e₀ : Entry ν w) : Progress e₀ 0 e₀ [] where
  content := rfl
  clockBit h := by simp at h
  frequency := Racing.Between.start.mono fun _ ⟨_, hfreq, _⟩ => nomatch hfreq

/-- A hit that has not made a step yet does not matter. -/
theorem mono (h : Progress e₀ m e pending)
    (hp : ∀ stage ∈ rest, stage ≠ .found → stage ∈ pending) : Progress e₀ m e rest where
  content := h.content
  clockBit hm := by
    refine h.clockBit (hm.imp_right fun ⟨stage, hstage, hne⟩ => ?_)
    exact ⟨stage, hp stage hstage hne, hne⟩
  frequency := h.frequency.mono (loads_subset fun freq hfreq => hp _ hfreq nofun)

theorem perm (h : Progress e₀ m e pending) (hp : rest.Perm pending) : Progress e₀ m e rest :=
  h.mono fun _ hstage _ => hp.subset hstage

theorem mark (h : Progress e₀ m e (.found :: rest)) : Progress e₀ m e.mark (.marked :: rest) where
  content := h.content
  clockBit _ := rfl
  frequency := h.frequency.mono (loads_subset fun freq hfreq => by simpa using hfreq)

theorem load (h : Progress e₀ m e (.marked :: rest)) :
    Progress e₀ m e (.loaded e.frequency :: rest) where
  content := h.content
  clockBit _ := h.clockBit (.inr ⟨.marked, by simp⟩)
  frequency := by
    refine (h.frequency.load le_bump).mono ?_
    rintro _ ⟨freq, hfreq, rfl⟩
    rcases List.mem_cons.mp hfreq with heq | hrest
    · cases heq
      exact .inl rfl
    · exact .inr ⟨freq, List.mem_cons_of_mem _ hrest, rfl⟩

theorem store (h : Progress e₀ m e (.loaded freq :: rest)) :
    Progress e₀ (m + 1) (e.increment freq) rest where
  content := by rw [Entry.content_increment, h.content]
  clockBit _ := by
    rw [Entry.clockBit_increment]
    exact h.clockBit (.inr ⟨.loaded freq, by simp⟩)
  frequency := by
    have hloaded : freq.toNat ∈ loads (.loaded freq :: rest) := ⟨freq, List.mem_cons_self, rfl⟩
    have hrest : loads rest ⊆ loads (.loaded freq :: rest) :=
      loads_subset fun _ hfreq => List.mem_cons_of_mem _ hfreq
    rcases toNat_increment freq e with ⟨hsame, hmax⟩ | ⟨hstored, hbump⟩
    · rw [hsame]
      exact (h.frequency.skip le_bump hloaded hmax).mono hrest
    · rw [hstored, ← hbump]
      exact (h.frequency.store bump_mono le_bump hloaded).mono hrest

/-- All hits are complete, and there was one at least. -/
theorem result (h : Progress e₀ m e []) (hm : 0 < m) :
    e.clockBit = true ∧ min 255 (e₀.frequency.toNat + 1) ≤ e.frequency.toNat ∧
      e.frequency.toNat ≤ min 255 (e₀.frequency.toNat + m) := by
  have hmax : e₀.frequency.toNat ≤ 255 := toNat_le_max _
  obtain ⟨hlo, hhi⟩ := h.frequency.result hm
  have hone := bump_iterate hmax 1
  rw [Function.iterate_one] at hone
  rw [hone] at hlo
  rw [bump_iterate hmax] at hhi
  exact ⟨h.clockBit (.inl hm), hlo, hhi⟩

end Progress

variable [BEq κ] [Hashable κ] [EquivBEq κ] [LawfulHashable κ]

namespace RwLock

variable {checks : Bool} {s t : RwLock κ ν w} {turn : Turn κ ν w} {shown trace : List κ} {k : κ}
  {e₀ : Entry ν w} {n : Nat}

/-- `n` hits on the entry that was `e₀` have begun. -/
def Batch (k : κ) (e₀ : Entry ν w) (n : Nat) (s : RwLock κ ν w) : Prop :=
  ∃ e m, s.entry k = some e ∧ m + (s.pending k).length = n ∧ Progress e₀ m e (s.pending k)

omit [EquivBEq κ] [LawfulHashable κ] in
/-- Every step of a hit keeps track of the batch. -/
theorem Batch.moves (h : Batch k e₀ n s) (hmove : Moves k s shown t) :
    Batch k e₀ (n + shown.countP (· == k)) t := by
  obtain ⟨e, m, he, hn, hp⟩ := h
  cases hmove with
  | idle hshown het hpt =>
    exact ⟨e, m, het.trans he, by rw [hshown, hpt.length_eq, hn, Nat.add_zero], hp.perm hpt⟩
  | begin hshown hentry het hpt =>
    refine ⟨e, m, het.trans he, ?_, ?_⟩
    · rw [hshown, hpt.length_eq, List.length_cons]
      omega
    · refine hp.mono fun stage hstage hne => ?_
      exact (List.mem_cons.mp (hpt.subset hstage)).resolve_left hne
  | mark hshown het hps hpt =>
    refine ⟨e.mark, m, by rw [het, he]; rfl, ?_, (hp.perm hps.symm).mark.perm hpt⟩
    rw [hshown, hpt.length_eq, ← hn, hps.length_eq]
    rfl
  | load hshown hentry het hps hpt =>
    obtain rfl := Option.some.inj (hentry.symm.trans he)
    refine ⟨_, m, het.trans he, ?_, (hp.perm hps.symm).load.perm hpt⟩
    rw [hshown, hpt.length_eq, ← hn, hps.length_eq]
    rfl
  | store hshown het hps hpt =>
    refine ⟨e.increment _, m + 1, by rw [het, he]; rfl, ?_, (hp.perm hps.symm).store.perm hpt⟩
    rw [hshown, hpt.length_eq, ← hn, hps.length_eq, List.length_cons]
    omega

theorem Batch.step (h : Batch k e₀ n s) (ha : turn.Spares k)
    (hstep : step checks s turn = some (shown, t)) :
    Batch k e₀ (n + shown.countP (· == k)) t := by
  rcases step_cases hstep with ⟨op, rfl, -, rfl, rfl⟩ | hmoves
  · obtain ⟨e, m, he, hn, hp⟩ := h
    exact ⟨e, m, (Write.get?_apply_of_spares ha).trans he, hn, hp⟩
  · exact h.moves (hmoves k)

/-- The batch over a run. -/
theorem Batch.execution (hs : s.pending k = []) (he : s.entry k = some e₀)
    (h : Execution (RwLock.step checks) (fun _ turn => turn.Spares k) s trace t) :
    Batch k e₀ (trace.countP (· == k)) t := by
  refine Execution.invariant (P := fun trace t => Batch k e₀ (trace.countP (· == k)) t) ?_ ?_ h
  · exact ⟨e₀, 0, he, by rw [hs]; rfl, hs ▸ .start e₀⟩
  · intro trace s turn shown t hb ha hstep
    rw [List.countP_append]
    exact hb.step ha hstep

end RwLock

/-! ## Every reachable state -/

/-- A set clock bit stands for a hit that is counted in the frequency or still in progress. -/
structure Counted (e : Entry ν w) (pending : List Stage) : Prop where
  clockBit : e.clockBit = true → e.frequency ≠ 0 ∨ ∃ stage ∈ pending, stage ≠ .found
  /-- While a hit is in progress the frequency does not return to 0. -/
  loaded : ∀ freq, .loaded freq ∈ pending → freq ≠ 0 → e.frequency ≠ 0

namespace Counted

variable {e : Entry ν w} {pending rest : List Stage} {freq : UInt8}

theorem of_not_clockBit (h : e.clockBit = false) : Counted e [] where
  clockBit hbit := by rw [h] at hbit; cases hbit
  loaded _ hfreq := nomatch hfreq

theorem congr (h : Counted e pending)
    (hp : ∀ stage, stage ≠ .found → (stage ∈ rest ↔ stage ∈ pending)) : Counted e rest where
  clockBit hbit := by
    refine (h.clockBit hbit).imp_right fun ⟨stage, hstage, hne⟩ => ?_
    exact ⟨stage, (hp stage hne).mpr hstage, hne⟩
  loaded freq hfreq := h.loaded freq ((hp (.loaded freq) nofun).mp hfreq)

theorem perm (h : Counted e pending) (hp : rest.Perm pending) : Counted e rest :=
  h.congr fun _ _ => hp.mem_iff

theorem mark (h : Counted e (.found :: rest)) : Counted e.mark (.marked :: rest) where
  clockBit _ := .inr ⟨.marked, by simp⟩
  loaded freq hfreq := h.loaded freq (by simpa using hfreq)

theorem load (h : Counted e (.marked :: rest)) : Counted e (.loaded e.frequency :: rest) where
  clockBit _ := .inr ⟨.loaded e.frequency, by simp⟩
  loaded freq hfreq hne := by
    rcases List.mem_cons.mp hfreq with heq | hrest
    · cases heq
      exact hne
    · exact h.loaded freq (List.mem_cons_of_mem _ hrest) hne

/-- A completed hit is counted, though it may have stored nothing. -/
theorem store (h : Counted e (.loaded freq :: rest)) : Counted (e.increment freq) rest := by
  have hne : (e.increment freq).frequency ≠ 0 := by
    rcases toNat_increment freq e with ⟨hsame, hmax⟩ | ⟨hstored, -⟩
    · rw [hsame]
      refine h.loaded freq List.mem_cons_self ?_
      rintro rfl
      cases hmax
    · intro hzero
      rw [hzero] at hstored
      cases hstored
  exact ⟨fun _ => .inl hne, fun _ _ _ => hne⟩

end Counted

theorem Entry.clockBit_age (e : Entry ν w) : e.age.clockBit = false := by
  unfold age
  split
  · rfl
  · next h => simpa using h

/-- The steps a hit has still to make. -/
def Stage.left : Stage → Nat
  | .found => 3
  | .marked => 2
  | .loaded _ => 1

namespace RwLock

/-- The invariant of all runs. -/
structure Sound (s : RwLock κ ν w) : Prop where
  exclusive : s.writer = true → s.readers = []
  present : ∀ k, s.pending k ≠ [] → (s.entry k).isSome
  counted : ∀ k e, s.entry k = some e → Counted e (s.pending k)

variable {checks : Bool} {s t : RwLock κ ν w} {turn : Turn κ ν w} {shown trace : List κ} {k : κ}

omit [EquivBEq κ] [LawfulHashable κ] in
theorem sound_start (sizeCapacity : BitVec w) : (start sizeCapacity : RwLock κ ν w).Sound where
  exclusive _ := rfl
  present _ h := (h rfl).elim
  counted _ _ he := nomatch he

theorem step_exclusive (hs : s.writer = true → s.readers = [])
    (h : RwLock.step checks s turn = some (shown, t)) : t.writer = true → t.readers = [] := by
  intro ht
  cases steps h with
  | miss hw => exact hs ht
  | find hw hget =>
    rw [hw] at ht
    cases ht
  | advance hw hadvances =>
    -- a hit in progress holds the read lock
    exact absurd (hs (hw ▸ ht)) hadvances.readers_ne_nil
  | lock hw hr => exact hr
  | write hw => exact hs hw
  | unlock hw => cases ht

omit [EquivBEq κ] [LawfulHashable κ] in
theorem Moves.present (hmove : Moves k s shown t) (hs : s.pending k ≠ [] → (s.entry k).isSome) :
    t.pending k ≠ [] → (t.entry k).isSome := by
  intro ht
  cases hmove with
  | idle hshown het hpt =>
    rw [het]
    exact hs fun h => ht (List.perm_nil.mp (h ▸ hpt))
  | begin hshown hentry het hpt => rwa [het]
  | mark hshown het hps hpt =>
    rw [het, Option.isSome_map]
    exact hs fun h => by simp [h] at hps
  | load hshown hentry het hps hpt =>
    rw [het, hentry]
    rfl
  | store hshown het hps hpt =>
    rw [het, Option.isSome_map]
    exact hs fun h => by simp [h] at hps

omit [EquivBEq κ] [LawfulHashable κ] in
theorem Moves.counted (hmove : Moves k s shown t)
    (hs : ∀ e, s.entry k = some e → Counted e (s.pending k)) {e : Entry ν w}
    (he : t.entry k = some e) : Counted e (t.pending k) := by
  cases hmove with
  | idle hshown het hpt => exact (hs e (het ▸ he)).perm hpt
  | begin hshown hentry het hpt =>
    refine (hs e (het ▸ he)).congr fun stage hne => ?_
    rw [hpt.mem_iff, List.mem_cons, or_iff_right hne]
  | mark hshown het hps hpt =>
    obtain ⟨e₀, he₀, rfl⟩ := Option.map_eq_some_iff.mp (het ▸ he)
    exact ((hs e₀ he₀).perm hps.symm).mark.perm hpt
  | load hshown hentry het hps hpt =>
    obtain rfl := Option.some.inj (hentry.symm.trans (het ▸ he))
    exact ((hs _ hentry).perm hps.symm).load.perm hpt
  | store hshown het hps hpt =>
    obtain ⟨e₀, he₀, rfl⟩ := Option.map_eq_some_iff.mp (het ▸ he)
    exact ((hs e₀ he₀).perm hps.symm).store.perm hpt

omit [Hashable κ] [EquivBEq κ] [LawfulHashable κ] in
theorem pending_of_readers (h : s.readers = []) (k : κ) : s.pending k = [] := by
  rw [pending, h]
  rfl

theorem Sound.step (hs : s.Sound) (h : RwLock.step checks s turn = some (shown, t)) :
    t.Sound := by
  have hexclusive := step_exclusive hs.exclusive h
  rcases step_cases h with ⟨op, rfl, hw, rfl, rfl⟩ | hmoves
  · -- nobody reads while a write is made
    have hidle := pending_of_readers (hs.exclusive hw)
    refine ⟨hexclusive, fun k hk => (hk (hidle k)).elim, fun k e' he' => ?_⟩
    have hidle' : ({ s with data := op.apply checks s.data } : RwLock κ ν w).pending k = [] :=
      hidle k
    rw [hidle']
    rcases Write.get?_apply he' with he | ⟨p, e, -, he, -, rfl⟩ |
      ⟨key, value, size, policy, -, -, rfl⟩
    · have := hs.counted k e' he
      rwa [hidle k] at this
    · exact .of_not_clockBit e.clockBit_age
    · exact .of_not_clockBit rfl
  · exact ⟨hexclusive, fun k => (hmoves k).present (hs.present k),
      fun k e he => (hmoves k).counted (hs.counted k) he⟩

theorem sound_execution {sizeCapacity : BitVec w} {allowed : RwLock κ ν w → Turn κ ν w → Prop}
    (h : Execution (RwLock.step checks) allowed (start sizeCapacity) trace s) : s.Sound :=
  Execution.state_invariant (sound_start sizeCapacity) (fun _ _ _ _ hs _ => hs.step) h

/-- A hit in progress can always go on. -/
theorem Sound.advance_isSome (hs : s.Sound) (checks : Bool) {j : Nat} (hj : j < s.readers.length) :
    (RwLock.step checks s (.advance j)).isSome := by
  obtain ⟨hit, hget⟩ : ∃ hit, s.readers[j]? = some hit := ⟨_, List.getElem?_eq_getElem hj⟩
  obtain ⟨key, stage⟩ := hit
  have hmem : stage ∈ s.pending key := by
    have := List.mem_of_getElem? hget
    exact List.mem_map.mpr ⟨⟨key, stage⟩, by simpa using this, rfl⟩
  have hentry : (s.data.entries.get? key).isSome := hs.present key (List.ne_nil_of_mem hmem)
  cases stage with
  | found => simp [RwLock.step, hget]
  | marked => simp [RwLock.step, hget, hentry]
  | loaded freq => simp [RwLock.step, hget]

/-- The steps that the hits in progress have still to make. -/
def left (s : RwLock κ ν w) : Nat := (s.readers.map fun hit => hit.stage.left).sum

omit [Hashable κ] [EquivBEq κ] [LawfulHashable κ] in
theorem left_of_perm {readers : List (Hit κ)} (h : s.readers.Perm readers) :
    s.left = (readers.map fun hit => hit.stage.left).sum := by
  rw [left, (h.map fun hit => hit.stage.left).sum_eq]

omit [EquivBEq κ] [LawfulHashable κ] in
theorem Advances.left_lt (h : Advances s t) : t.left < s.left := by
  cases h with
  | mark hs ht hdata => simp [left_of_perm hs, left_of_perm ht, Stage.left]
  | load hs ht hget hdata => simp [left_of_perm hs, left_of_perm ht, Stage.left]
  | store hs ht hdata => simp [left_of_perm hs, left_of_perm ht, Stage.left]

/-- The hits in progress can all finish. -/
theorem Sound.finish (hs : s.Sound) (checks : Bool) :
    ∃ t, Execution (RwLock.step checks) (fun _ turn => turn = .advance 0) s [] t ∧
      t.readers = [] := by
  induction hleft : s.left using Nat.strong_induction_on generalizing s with
  | _ n ih =>
    by_cases hr : s.readers = []
    · exact ⟨s, .start, hr⟩
    · have hlen := List.length_pos_iff.mpr hr
      obtain ⟨⟨shown, u⟩, hstep⟩ := Option.isSome_iff_exists.mp (hs.advance_isSome checks hlen)
      obtain ⟨rfl, -, hadvance⟩ := advances hstep
      obtain ⟨t, hexec, ht⟩ := ih u.left (hleft ▸ hadvance.left_lt) (hs.step hstep) rfl
      have hfirst : Execution (RwLock.step checks) (fun _ turn => turn = .advance 0) s [] u :=
        .single _ rfl hstep
      exact ⟨t, hfirst.trans hexec, ht⟩

/-! ## No frequency wraps -/

/-- What a step may do to the frequency under `k`. Sums and differences are exact. -/
inductive Counts (k : κ) (turn : Turn κ ν w) (pending : List Stage) (f f' : UInt8) : Prop where
  | same (h : f' = f)
  | increment {freq : UInt8} (hp : .loaded freq ∈ pending) (h : f'.toNat = freq.toNat + 1)
  | decrement {p : CachePolicy} (hturn : turn = .write (.sweep p)) (h : f'.toNat + 1 = f.toNat)
  /-- A new entry replaces the one that was stored. -/
  | fresh {key : κ} {value : ν} {size : BitVec w} {policy : CachePolicy}
    (hturn : turn = .write (.store key value size policy)) (hk : (key == k) = true) (h : f' = 0)

/-- A sweep decrements a frequency that is not 0. -/
theorem frequency_age {e : Entry ν w} (h : e.cold = false) :
    e.age.frequency = e.frequency ∨ e.age.frequency.toNat + 1 = e.frequency.toNat := by
  unfold Entry.age
  split
  · exact .inl rfl
  · next hbit =>
    right
    have hne : e.frequency ≠ 0 := by
      rintro hzero
      simp [Entry.cold, hbit, hzero] at h
    have hpos : 0 < e.frequency.toNat :=
      Nat.pos_of_ne_zero fun hzero => hne (UInt8.toNat_inj.mp hzero)
    have hsub : (e.frequency - 1).toNat = e.frequency.toNat - 1 := UInt8.toNat_sub_of_le _ _ hpos
    simp only [hsub]
    omega

theorem step_counts (h : RwLock.step checks s turn = some (shown, t)) {e e' : Entry ν w}
    (he : s.entry k = some e) (he' : t.entry k = some e') :
    Counts k turn (s.pending k) e.frequency e'.frequency := by
  rcases step_cases h with ⟨op, rfl, -, rfl, rfl⟩ | hmoves
  · rcases Write.get?_apply he' with hsame | ⟨p, e₀, rfl, he₀, hwarm, rfl⟩ |
      ⟨key, value, size, policy, rfl, hk, rfl⟩
    · obtain rfl := Option.some.inj (he.symm.trans hsame)
      exact .same rfl
    · obtain rfl := Option.some.inj (he.symm.trans he₀)
      rcases frequency_age hwarm with hsame | hless
      · exact .same hsame
      · exact .decrement rfl hless
    · exact .fresh rfl hk rfl
  · cases hmoves k with
    | idle hshown het hpt => exact .same (by rw [Option.some.inj (he'.symm.trans (het.trans he))])
    | begin hshown hentry het hpt =>
      exact .same (by rw [Option.some.inj (he'.symm.trans (het.trans he))])
    | mark hshown het hps hpt =>
      rw [he, Option.map_some, he'] at het
      exact .same (by rw [Option.some.inj het, Entry.frequency_mark])
    | load hshown hentry het hps hpt =>
      exact .same (by rw [Option.some.inj (he'.symm.trans (het.trans he))])
    | @store rest freq hshown het hps hpt =>
      rw [he, Option.map_some, he'] at het
      rw [Option.some.inj het]
      rcases toNat_increment freq e with ⟨hsame, -⟩ | ⟨hstored, -⟩
      · exact .same hsame
      · exact .increment (hps.mem_iff.mpr List.mem_cons_self) hstored

/-- Access statistics under racing hits: the bounds on a batch, and what holds in every run. -/
theorem statistics_stay_sound (checks : Bool) :
    (∀ (s t : RwLock κ ν w) trace k e, s.pending k = [] → s.entry k = some e →
      Execution (RwLock.step checks) (fun _ turn => turn.Spares k) s trace t →
      t.pending k = [] → 1 ≤ trace.countP (· == k) →
      ∃ e', t.entry k = some e' ∧ e'.clockBit = true ∧
        min 255 (e.frequency.toNat + 1) ≤ e'.frequency.toNat ∧
        e'.frequency.toNat ≤ min 255 (e.frequency.toNat + trace.countP (· == k))) ∧
    ∀ sizeCapacity trace (s : RwLock κ ν w),
      Execution (RwLock.step checks) (fun _ _ => True) (start sizeCapacity) trace s →
      (∀ turn shown t, RwLock.step checks s turn = some (shown, t) → ∀ k e e',
        s.entry k = some e → t.entry k = some e' →
          Counts k turn (s.pending k) e.frequency e'.frequency) ∧
      ∀ k e, s.pending k = [] → s.entry k = some e → e.clockBit = true →
        1 ≤ e.frequency.toNat := by
  constructor
  · intro s t trace k e hs he hexec ht hn
    obtain ⟨e', m, he', hm, hp⟩ := Batch.execution hs he hexec
    rw [ht, List.length_nil, Nat.add_zero] at hm
    rw [ht] at hp
    exact ⟨e', he', hm ▸ hp.result (hm ▸ hn)⟩
  · intro sizeCapacity trace s hexec
    refine ⟨fun turn shown t hstep k e e' => step_counts hstep, fun k e hk he hbit => ?_⟩
    have hcounted := (sound_execution hexec).counted k e he
    rw [hk] at hcounted
    rcases hcounted.clockBit hbit with hne | ⟨_, hstage, -⟩
    · exact Nat.pos_of_ne_zero fun hzero => hne (UInt8.toNat_inj.mp hzero)
    · cases hstage

/-- Store one entry. -/
def stored : List (Turn Nat Unit 64) := [.lock, .write (.store 0 () 8 .standard), .unlock]

/-- Two hits on it that both load 0. -/
def overlapping : List (Turn Nat Unit 64) :=
  List.replicate 2 (.lookUp (hash 0) (0 == ·)) ++
    [.advance 0, .advance 1, .advance 0, .advance 1, .advance 0, .advance 0]

theorem statistics_stay_sound_overlapping :
    (∃ (s t : RwLock Nat Unit 64) (trace : List Nat) (e' : Entry Unit 64),
      Execution (RwLock.step false) (fun _ turn => turn.Spares 0) s trace t ∧
      trace = [0, 0] ∧ t.entry 0 = some e' ∧ e'.clockBit = true ∧
      1 ≤ e'.frequency.toNat ∧ e'.frequency.toNat ≤ 2) ∧
    ∃ (s : RwLock Nat Unit 64) (trace : List Nat) (e : Entry Unit 64),
      Execution (RwLock.step false) (fun _ _ => True) (start 100) trace s ∧
      s.pending 0 = [] ∧ s.entry 0 = some e ∧ e.clockBit = true ∧ 1 ≤ e.frequency.toNat := by
  constructor
  · have hend : ((Execution.play (RwLock.step false) (fun _ _ => True)
        (start 100 : RwLock Nat Unit 64) stored).bind fun r =>
          (Execution.play (RwLock.step false) (fun _ turn => turn.Spares 0) r.2 overlapping).map
            fun q => (r.2.pending 0).isEmpty && decide (r.2.entry 0 = some (.new () 8 .standard)) &&
              decide (q.1 = [0, 0]) && (q.2.pending 0).isEmpty) = some true := by
      decide +kernel
    obtain ⟨⟨trace₀, s⟩, -, hend⟩ := Option.bind_eq_some_iff.mp hend
    obtain ⟨⟨trace, t⟩, hplay, hend⟩ := Option.map_eq_some_iff.mp hend
    simp only [Bool.and_eq_true, decide_eq_true_eq, List.isEmpty_iff] at hend
    obtain ⟨⟨⟨hs, he⟩, rfl⟩, ht⟩ := hend
    have hexec := Execution.of_play hplay
    obtain ⟨e', he', hbit, hlo, hhi⟩ :=
      (statistics_stay_sound false).1 s t [0, 0] 0 _ hs he hexec ht (by decide)
    exact ⟨s, t, [0, 0], e', hexec, rfl, he', hbit, hlo, hhi⟩
  · have hend : ((Execution.play (RwLock.step false) (fun _ _ => True)
        (start 100 : RwLock Nat Unit 64) (stored ++ overlapping)).map fun r =>
          (r.2.pending 0).isEmpty && (r.2.entry 0).any Entry.clockBit) = some true := by
      decide +kernel
    obtain ⟨⟨trace, s⟩, hplay, hend⟩ := Option.map_eq_some_iff.mp hend
    simp only [Bool.and_eq_true, List.isEmpty_iff, Option.any_eq_true] at hend
    obtain ⟨hs, e, he, hbit⟩ := hend
    have hexec := Execution.of_play hplay
    exact ⟨s, trace, e, hexec, hs, he, hbit,
      ((statistics_stay_sound false).2 100 trace s hexec).2 0 e hs he hbit⟩

end RwLock

end PriorityLfu
