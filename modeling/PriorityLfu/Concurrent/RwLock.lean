import Mathlib.Data.List.Perm.Basic
import PriorityLfu.Library.Execution
import PriorityLfu.Shard.Sweep

/-!
# A shard under its lock

Hits on the entries of one shard run side by side under the read lock. Each makes three
accesses to shared memory after it has found its entry: it sets the clock bit, loads the
frequency, and stores the increment of what it loaded. Whoever holds the write lock is
alone; a call that changes the shard makes its writes in one section, an eviction sweep
being one of them. A scheduler picks who makes the next step.

A hit gives the read lock back when it is done. A guard keeps it for longer, and that only
delays writers.
-/
namespace PriorityLfu
open Keyed

/-! ## The three steps of a hit -/

namespace Entry

variable {ν : Type} {w : Nat}

/-- Set the clock bit. -/
def mark (e : Entry ν w) : Entry ν w := { e with clockBit := true }

/-- Store the increment of a frequency that was loaded, saturating at 255. -/
def increment (freq : UInt8) (e : Entry ν w) : Entry ν w :=
  if freq < 255 then { e with frequency := freq + 1 } else e

@[simp] theorem frequency_mark (e : Entry ν w) : e.mark.frequency = e.frequency := rfl

@[simp] theorem clockBit_increment (freq : UInt8) (e : Entry ν w) :
    (e.increment freq).clockBit = e.clockBit := by
  unfold increment
  split <;> rfl

@[simp] theorem content_increment (freq : UInt8) (e : Entry ν w) :
    (e.increment freq).content = e.content := by
  unfold increment
  split <;> rfl

theorem frequency_increment (freq : UInt8) (e : Entry ν w) :
    (e.increment freq).frequency = if freq < 255 then freq + 1 else e.frequency := by
  unfold increment
  split <;> rfl

/-- A hit that no other overlaps loads what it then increments. -/
theorem touch_eq (e : Entry ν w) : e.touch = e.mark.increment e.frequency := rfl

end Entry

/-- How far a hit has come. -/
inductive Stage where
  | found
  | marked
  | loaded (frequency : UInt8)
  deriving DecidableEq, Repr

/-- A reader that found an entry, with the key the entry is stored under. -/
structure Hit (κ : Type) where
  key : κ
  stage : Stage

/-! ## What the holder of the write lock does -/

variable {κ ν : Type} {w : Nat} [BEq κ] [Hashable κ] [EquivBEq κ] [LawfulHashable κ]

/-- The last part of `insert`: the entry goes into the table and into its bucket. -/
def Shard.store (self : Shard κ ν w) (checks : Bool) (key : κ) (entry : Entry ν w) :
    Outcome (Shard κ ν w) (Option (Entry ν w)) :=
  let (old, entries) := self.entries.put key entry
  let self := { self with entries }
  let self := self.setBucket entry.policy ((self.buckets entry.policy).insert key)
  (Outcome.check (Word.add checks self.sizeCurrent entry.size) self).bind fun sizeCurrent self =>
  .ok old { self with sizeCurrent }

/-- A write under the lock. Entries that are stored are new ones. -/
inductive Write (κ ν : Type) (w : Nat) where
  | detach (key : κ)
  | sweep (p : CachePolicy)
  | store (key : κ) (value : ν) (size : BitVec w) (policy : CachePolicy)
  | remove (key : κ)
  | drain

/-- The shard after a write, whether the write returned or panicked. -/
def Write.apply (checks : Bool) (shard : Shard κ ν w) : Write κ ν w → Shard κ ν w
  | .detach key => (shard.detach checks key).state
  | .sweep p => (shard.evictFromBucket checks p).state
  | .store key value size policy => (shard.store checks key (.new value size policy)).state
  | .remove key => (shard.remove checks key).state
  | .drain => shard.drain.2

/-- The write leaves the entry under `k` alone, by what it is. -/
def Write.Spares (k : κ) : Write κ ν w → Prop
  | .detach _ => True
  | .store key .. | .remove key => (key == k) = false
  | .sweep _ | .drain => False

instance (k : κ) : DecidablePred (Write.Spares k : Write κ ν w → Prop)
  | .detach _ => .isTrue trivial
  | .store key _ _ _ | .remove key => inferInstanceAs (Decidable ((key == k) = false))
  | .sweep _ | .drain => .isFalse id

/-! ## The lock -/

structure RwLock (κ ν : Type) (w : Nat) [BEq κ] where
  data : Shard κ ν w
  /-- The hits in progress. Each of them holds the read lock. -/
  readers : List (Hit κ)
  /-- The write lock is held. -/
  writer : Bool

/-- A choice of the scheduler. -/
inductive Turn (κ ν : Type) (w : Nat) where
  /-- A reader looks an entry up. -/
  | lookUp (hash : UInt64) (equals : κ → Bool)
  /-- The hit at position `j` makes its next step. -/
  | advance (j : Nat)
  | lock
  | write (op : Write κ ν w)
  | unlock

def Turn.Spares (k : κ) : Turn κ ν w → Prop
  | .write op => op.Spares k
  | _ => True

instance (k : κ) : DecidablePred (Turn.Spares k : Turn κ ν w → Prop)
  | .write op => inferInstanceAs (Decidable (op.Spares k))
  | .lookUp _ _ | .advance _ | .lock | .unlock => .isTrue trivial

namespace RwLock

/-- An empty shard that nobody uses. -/
def start (sizeCapacity : BitVec w) : RwLock κ ν w where
  data := .new sizeCapacity
  readers := []
  writer := false

/-- One step. It shows the key of an entry that is hit. -/
def step (checks : Bool) (s : RwLock κ ν w) : Turn κ ν w → Option (List κ × RwLock κ ν w)
  | .lookUp hash equals =>
    if s.writer then none
    else
      match s.data.entries.fromHash hash equals with
      | none => some ([], s)
      | some (key, _) => some ([key], { s with readers := s.readers ++ [⟨key, .found⟩] })
  | .advance j =>
    match s.readers[j]? with
    | none => none
    | some ⟨key, .found⟩ => some ([],
      { s with
        data := { s.data with entries := s.data.entries.modify key Entry.mark }
        readers := s.readers.set j ⟨key, .marked⟩ })
    | some ⟨key, .marked⟩ =>
      (s.data.entries.get? key).map fun e => ([],
        { s with readers := s.readers.set j ⟨key, .loaded e.frequency⟩ })
    | some ⟨key, .loaded freq⟩ => some ([],
      { s with
        data := { s.data with entries := s.data.entries.modify key (Entry.increment freq) }
        readers := s.readers.eraseIdx j })
  | .lock => if s.writer || !s.readers.isEmpty then none else some ([], { s with writer := true })
  | .write op =>
    if s.writer then some ([], { s with data := op.apply checks s.data }) else none
  | .unlock => if s.writer then some ([], { s with writer := false }) else none

/-- The entry under `k`. -/
def entry (s : RwLock κ ν w) (k : κ) : Option (Entry ν w) := s.data.entries.get? k

/-- The hits in progress on the entry under `k`. -/
def pending (s : RwLock κ ν w) (k : κ) : List Stage :=
  (s.readers.filter fun hit => hit.key == k).map Hit.stage

end RwLock

/-! ## What a write does to an entry -/

namespace Shard

omit [LawfulHashable κ] in
theorem entries_detach (s : Shard κ ν w) (checks : Bool) (key : κ) :
    (s.detach checks key).state.entries = s.entries := by
  unfold detach
  split
  · rfl
  · exact entries_release s checks _ key _

theorem entries_store (s : Shard κ ν w) (checks : Bool) (key : κ) (entry : Entry ν w) :
    (s.store checks key entry).state.entries = (s.entries.put key entry).2 := by
  unfold store
  refine Outcome.state_bind (P := fun t : Shard κ ν w => t.entries = (s.entries.put key entry).2)
    ?_ fun _ _ h => h
  rw [Outcome.state_check]
  rfl

theorem entries_remove (s : Shard κ ν w) (checks : Bool) (key : κ) :
    (s.remove checks key).state.entries = s.entries.erase key := by
  unfold remove
  split
  · next hnone =>
    exact (HashMap.erase_of_get?_none (HashMap.removeEntry_eq_none.mp hnone)).symm
  · next hsome =>
    obtain ⟨-, rfl⟩ := HashMap.removeEntry_eq_some.mp hsome
    exact Outcome.state_bind (P := fun t : Shard κ ν w => t.entries = s.entries.erase key)
      (entries_release _ checks _ _ _) fun _ _ h => h

/-- `insert` is made of writes. -/
theorem insert_eq (s : Shard κ ν w) (checks : Bool) (key : κ) (entry : Entry ν w) :
    s.insert checks key entry =
      (s.detach checks key).bind fun _ s =>
      (s.evictUntilSpace checks entry.size).bind fun r s =>
      (s.store checks key entry).bind fun old s => .ok (old, r.1, r.2) s := by
  unfold insert
  congr 1
  funext _ d
  congr 1
  funext r t
  unfold store
  dsimp only
  rw [Outcome.bind_assoc]
  rfl

end Shard

namespace Write

variable {checks : Bool} {s : Shard κ ν w} {k : κ}

/-- An entry that is there after a write is the one that was there, aged by a sweep at most
once, or a new one. -/
theorem get?_apply {op : Write κ ν w} {e' : Entry ν w}
    (h : (op.apply checks s).entries.get? k = some e') :
    s.entries.get? k = some e' ∨
      (∃ p e, op = .sweep p ∧ s.entries.get? k = some e ∧ e.cold = false ∧ e' = e.age) ∨
      ∃ key value size policy, op = .store key value size policy ∧ (key == k) = true ∧
        e' = .new value size policy := by
  cases op with
  | detach key =>
    rw [apply, Shard.entries_detach] at h
    exact .inl h
  | sweep p =>
    rcases Shard.get?_evictFromBucket h with hsame | ⟨e, he, hwarm, hage⟩
    · exact .inl hsame
    · exact .inr (.inl ⟨p, e, rfl, he, hwarm, hage⟩)
  | store key value size policy =>
    rw [apply, Shard.entries_store, HashMap.get?_put] at h
    split at h
    · next hk => exact .inr (.inr ⟨key, value, size, policy, rfl, hk, (Option.some.inj h).symm⟩)
    · exact .inl h
  | remove key =>
    rw [apply, Shard.entries_remove] at h
    exact .inl (HashMap.get?_of_get?_erase h)
  | drain => cases h

theorem get?_apply_of_spares {op : Write κ ν w} (h : op.Spares k) :
    (op.apply checks s).entries.get? k = s.entries.get? k := by
  cases op with
  | detach key => rw [apply, Shard.entries_detach]
  | sweep p => exact h.elim
  | store key value size policy =>
    have hk : (key == k) = false := h
    rw [apply, Shard.entries_store, HashMap.get?_put, hk]
    rfl
  | remove key =>
    have hk : (key == k) = false := h
    rw [apply, Shard.entries_remove, HashMap.get?_erase, hk]
    rfl
  | drain => exact h.elim

end Write

/-! ## What a step can be -/

namespace RwLock

/-- A step of a hit, with the hits in progress up to their order. -/
inductive Advances (s t : RwLock κ ν w) : Prop where
  | mark {key : κ} {readers : List (Hit κ)} (hs : s.readers.Perm (⟨key, .found⟩ :: readers))
    (ht : t.readers.Perm (⟨key, .marked⟩ :: readers))
    (hdata : t.data = { s.data with entries := s.data.entries.modify key Entry.mark })
  | load {key : κ} {readers : List (Hit κ)} {e : Entry ν w}
    (hs : s.readers.Perm (⟨key, .marked⟩ :: readers))
    (ht : t.readers.Perm (⟨key, .loaded e.frequency⟩ :: readers))
    (hget : s.data.entries.get? key = some e) (hdata : t.data = s.data)
  | store {key : κ} {readers : List (Hit κ)} {freq : UInt8}
    (hs : s.readers.Perm (⟨key, .loaded freq⟩ :: readers)) (ht : t.readers.Perm readers)
    (hdata : t.data = { s.data with entries := s.data.entries.modify key (Entry.increment freq) })

/-- A step, with what has to hold for it. -/
inductive Steps (checks : Bool) (s : RwLock κ ν w) :
    Turn κ ν w → List κ → RwLock κ ν w → Prop where
  | miss {hash : UInt64} {equals : κ → Bool} (hw : s.writer = false) :
    Steps checks s (.lookUp hash equals) [] s
  | find {hash : UInt64} {equals : κ → Bool} {key : κ} {e : Entry ν w} (hw : s.writer = false)
    (hget : s.data.entries.get? key = some e) :
    Steps checks s (.lookUp hash equals) [key] { s with readers := s.readers ++ [⟨key, .found⟩] }
  | advance {j : Nat} {t : RwLock κ ν w} (hw : t.writer = s.writer) (h : Advances s t) :
    Steps checks s (.advance j) [] t
  | lock (hw : s.writer = false) (hr : s.readers = []) :
    Steps checks s .lock [] { s with writer := true }
  | write {op : Write κ ν w} (hw : s.writer = true) :
    Steps checks s (.write op) [] { s with data := op.apply checks s.data }
  | unlock (hw : s.writer = true) : Steps checks s .unlock [] { s with writer := false }

variable {checks : Bool} {s t : RwLock κ ν w} {turn : Turn κ ν w} {shown : List κ}
  {key k : κ} {stage : Stage} {readers : List (Hit κ)}

omit [EquivBEq κ] [LawfulHashable κ] in
theorem Advances.readers_ne_nil (h : Advances s t) : s.readers ≠ [] := by
  intro hnone
  cases h with
  | mark hs ht hdata => simp [hnone] at hs
  | load hs ht hget hdata => simp [hnone] at hs
  | store hs ht hdata => simp [hnone] at hs

theorem advances {j : Nat} (h : step checks s (.advance j) = some (shown, t)) :
    shown = [] ∧ t.writer = s.writer ∧ Advances s t := by
  rw [step] at h
  split at h
  · cases h
  · next key hj =>
    cases h
    obtain ⟨hlt, hget⟩ := List.getElem?_eq_some_iff.mp hj
    exact ⟨rfl, rfl, .mark (hget ▸ (List.getElem_cons_eraseIdx_perm hlt).symm)
      (List.set_perm_cons_eraseIdx hlt _) rfl⟩
  · next key hj =>
    obtain ⟨e, he, h⟩ := Option.map_eq_some_iff.mp h
    cases h
    obtain ⟨hlt, hget⟩ := List.getElem?_eq_some_iff.mp hj
    exact ⟨rfl, rfl, .load (hget ▸ (List.getElem_cons_eraseIdx_perm hlt).symm)
      (List.set_perm_cons_eraseIdx hlt _) he rfl⟩
  · next key freq hj =>
    cases h
    obtain ⟨hlt, hget⟩ := List.getElem?_eq_some_iff.mp hj
    exact ⟨rfl, rfl, .store (hget ▸ (List.getElem_cons_eraseIdx_perm hlt).symm) (.refl _) rfl⟩

theorem steps (h : step checks s turn = some (shown, t)) : Steps checks s turn shown t := by
  cases turn with
  | lookUp hash equals =>
    rw [step] at h
    split at h
    · cases h
    · next hw =>
      have hw : s.writer = false := by simpa using hw
      split at h
      · cases h
        exact .miss hw
      · next key e hfind =>
        cases h
        exact .find hw (HashMap.fromHash_eq_some hfind).2.2
  | advance j =>
    obtain ⟨rfl, hw, hadvances⟩ := advances h
    exact .advance hw hadvances
  | lock =>
    rw [step] at h
    split at h
    · cases h
    · next hfree =>
      cases h
      obtain ⟨hw, hr⟩ : s.writer = false ∧ s.readers = [] := by simpa using hfree
      exact .lock hw hr
  | write op =>
    rw [step] at h
    split at h
    · next hw =>
      cases h
      exact .write hw
    · cases h
  | unlock =>
    rw [step] at h
    split at h
    · next hw =>
      cases h
      exact .unlock hw
    · cases h

/-! ## What it does to an entry and the hits on it -/

/-- A step other than a write, seen on the entry under `k` and the hits in progress on it. -/
inductive Moves (k : κ) (s : RwLock κ ν w) (shown : List κ) (t : RwLock κ ν w) : Prop where
  | idle (hn : shown.countP (· == k) = 0) (he : t.entry k = s.entry k)
    (hp : (t.pending k).Perm (s.pending k))
  | begin (hn : shown.countP (· == k) = 1) (hentry : (s.entry k).isSome)
    (he : t.entry k = s.entry k) (hp : (t.pending k).Perm (.found :: s.pending k))
  | mark {rest : List Stage} (hn : shown.countP (· == k) = 0)
    (he : t.entry k = (s.entry k).map Entry.mark) (hs : (s.pending k).Perm (.found :: rest))
    (ht : (t.pending k).Perm (.marked :: rest))
  | load {rest : List Stage} {e : Entry ν w} (hn : shown.countP (· == k) = 0)
    (hentry : s.entry k = some e) (he : t.entry k = s.entry k)
    (hs : (s.pending k).Perm (.marked :: rest))
    (ht : (t.pending k).Perm (.loaded e.frequency :: rest))
  | store {rest : List Stage} {freq : UInt8} (hn : shown.countP (· == k) = 0)
    (he : t.entry k = (s.entry k).map (Entry.increment freq))
    (hs : (s.pending k).Perm (.loaded freq :: rest)) (ht : (t.pending k).Perm rest)

omit [Hashable κ] [EquivBEq κ] [LawfulHashable κ] in
/-- A hit on the entry apart from the others. -/
theorem pending_of_beq (h : s.readers.Perm (⟨key, stage⟩ :: readers)) (hk : (key == k) = true) :
    (s.pending k).Perm (stage :: (readers.filter fun hit => hit.key == k).map Hit.stage) := by
  simpa [pending, hk] using (h.filter fun hit => hit.key == k).map Hit.stage

omit [Hashable κ] [EquivBEq κ] [LawfulHashable κ] in
theorem pending_of_not_beq (h : s.readers.Perm (⟨key, stage⟩ :: readers))
    (hk : (key == k) = false) :
    (s.pending k).Perm ((readers.filter fun hit => hit.key == k).map Hit.stage) := by
  simpa [pending, hk] using (h.filter fun hit => hit.key == k).map Hit.stage

theorem entry_modify {f : Entry ν w → Entry ν w}
    (h : t.data = { s.data with entries := s.data.entries.modify key f }) (k : κ) :
    t.entry k = if key == k then (s.entry k).map f else s.entry k := by
  rw [entry, h, HashMap.get?_modify]
  rfl

theorem Advances.moves (h : Advances s t) (k : κ) : Moves k s [] t := by
  cases h with
  | @mark key readers hs ht hdata =>
    cases hk : key == k with
    | true =>
      exact .mark rfl (by rw [entry_modify hdata, if_pos hk]) (pending_of_beq hs hk)
        (pending_of_beq ht hk)
    | false =>
      exact .idle rfl (by rw [entry_modify hdata, hk]; rfl)
        ((pending_of_not_beq ht hk).trans (pending_of_not_beq hs hk).symm)
  | @load key readers e hs ht hget hdata =>
    have hsame : t.entry k = s.entry k := by rw [entry, hdata, entry]
    cases hk : key == k with
    | true =>
      have hentry : s.entry k = some e := by rw [entry, ← HashMap.get?_congr hk, hget]
      exact .load rfl hentry hsame (pending_of_beq hs hk) (pending_of_beq ht hk)
    | false =>
      exact .idle rfl hsame ((pending_of_not_beq ht hk).trans (pending_of_not_beq hs hk).symm)
  | @store key readers freq hs ht hdata =>
    have hrest : (t.pending k).Perm ((readers.filter fun hit => hit.key == k).map Hit.stage) :=
      (ht.filter _).map _
    cases hk : key == k with
    | true =>
      exact .store rfl (by rw [entry_modify hdata, if_pos hk]) (pending_of_beq hs hk) hrest
    | false =>
      exact .idle rfl (by rw [entry_modify hdata, hk]; rfl)
        (hrest.trans (pending_of_not_beq hs hk).symm)

theorem step_cases (h : step checks s turn = some (shown, t)) :
    (∃ op, turn = .write op ∧ s.writer = true ∧ shown = [] ∧
      t = { s with data := op.apply checks s.data }) ∨ ∀ k, Moves k s shown t := by
  cases steps h with
  | miss hw => exact .inr fun k => .idle rfl rfl (.refl _)
  | @find hash equals key e hw hget =>
    refine .inr fun k => ?_
    have hreaders := List.perm_append_singleton ⟨key, .found⟩ s.readers
    cases hk : key == k with
    | true =>
      have hentry : (s.entry k).isSome := by
        rw [entry, ← HashMap.get?_congr hk, hget]
        rfl
      exact .begin (by simp [hk]) hentry rfl (pending_of_beq hreaders hk)
    | false => exact .idle (by simp [hk]) rfl (pending_of_not_beq hreaders hk)
  | advance hw hadvances => exact .inr hadvances.moves
  | lock hw hr => exact .inr fun k => .idle rfl rfl (.refl _)
  | @write op hw => exact .inl ⟨op, rfl, hw, rfl, rfl⟩
  | unlock hw => exact .inr fun k => .idle rfl rfl (.refl _)

/-! ## Calls that no other overlaps -/

/-- A hit that no other overlaps does in its steps what `getHash` does at once. -/
theorem alone_hit (data : Shard κ ν w) (hash : UInt64) (equals : κ → Bool) :
    Execution (step checks) (fun _ _ => True) ⟨data, [], false⟩
      ((data.entries.fromHash hash equals).map Prod.fst).toList
      ⟨(data.getHash hash equals).2, [], false⟩ := by
  unfold Shard.getHash
  cases hfind : data.entries.fromHash hash equals with
  | none => exact .single (.lookUp hash equals) trivial (by simp [step, hfind])
  | some kv =>
    obtain ⟨key, e⟩ := kv
    obtain ⟨-, -, hget⟩ := HashMap.fromHash_eq_some hfind
    have hmarked : (data.entries.modify key Entry.mark).get? key = some e.mark := by
      simp [HashMap.get?_modify, hget]
    have hlookUp : step checks ⟨data, [], false⟩ (.lookUp hash equals) =
        some ([key], ⟨data, [⟨key, .found⟩], false⟩) := by
      simp [step, hfind]
    have hmark : step checks ⟨data, [⟨key, .found⟩], false⟩ (.advance 0) = some ([],
        ⟨{ data with entries := data.entries.modify key Entry.mark }, [⟨key, .marked⟩], false⟩) :=
      rfl
    have hload : step checks
        ⟨{ data with entries := data.entries.modify key Entry.mark }, [⟨key, .marked⟩], false⟩
        (.advance 0) = some ([], ⟨{ data with entries := data.entries.modify key Entry.mark },
          [⟨key, .loaded e.frequency⟩], false⟩) := by
      simp [step, hmarked]
    have hstore : step checks ⟨{ data with entries := data.entries.modify key Entry.mark },
        [⟨key, .loaded e.frequency⟩], false⟩ (.advance 0) = some ([],
          ⟨{ data with entries := data.entries.modify key Entry.touch }, [], false⟩) := by
      have htouch := HashMap.modify_congr (f := Entry.increment e.frequency ∘ Entry.mark)
        (g := Entry.touch) hget e.touch_eq.symm
      simp [step, HashMap.modify_modify, htouch]
    exact (((Execution.single _ trivial hlookUp).step trivial hmark).step trivial hload).step
      trivial hstore

/-- Writes of one section lead from one shard to the other. -/
def Section (checks : Bool) (a b : Shard κ ν w) : Prop :=
  Execution (step checks) (fun _ _ => True) ⟨a, [], true⟩ [] ⟨b, [], true⟩

variable {a b : Shard κ ν w}

theorem Section.write (h : Section checks a b) (op : Write κ ν w) :
    Section checks a (op.apply checks b) := by
  have hwrite : step checks ⟨b, [], true⟩ (.write op) = some ([], ⟨op.apply checks b, [], true⟩) :=
    rfl
  exact Execution.step h trivial hwrite

/-- A call that changes the shard takes the lock, makes its writes and releases it. -/
theorem Section.alone (h : Section checks a b) :
    Execution (step checks) (fun _ _ => True) ⟨a, [], false⟩ [] ⟨b, [], false⟩ := by
  have hlock : step checks ⟨a, [], false⟩ .lock = some ([], ⟨a, [], true⟩) := rfl
  have hunlock : step checks ⟨b, [], true⟩ .unlock = some ([], ⟨b, [], false⟩) := rfl
  exact ((Execution.single .lock trivial hlock).trans h).step trivial hunlock

theorem Section.evictWhile {needed : BitVec w} {p : CachePolicy} {rounds : Nat}
    {stats : EvictionStats w} {evicted : List (EvictedEntry κ ν w)} (h : Section checks a b) :
    Section checks a (Shard.evictWhile checks needed p rounds b stats evicted).state := by
  induction rounds generalizing b stats evicted with
  | zero =>
    rw [Shard.evictWhile]
    refine Outcome.state_bind (by rwa [Outcome.state_check]) fun total b h => ?_
    split <;> exact h
  | succ rounds ih =>
    rw [Shard.evictWhile]
    refine Outcome.state_bind (by rwa [Outcome.state_check]) fun total b h => ?_
    split
    · refine Outcome.state_bind (h.write (.sweep p)) fun e b h => ?_
      split
      · exact h
      · refine Outcome.state_bind (by rwa [Outcome.state_check]) fun size b h => ?_
        exact ih h
    · exact h

theorem Section.evictBuckets {needed : BitVec w} {ps : List CachePolicy}
    {stats : EvictionStats w} {evicted : List (EvictedEntry κ ν w)} (h : Section checks a b) :
    Section checks a (Shard.evictBuckets checks needed ps b stats evicted).state := by
  induction ps generalizing b stats evicted with
  | nil => exact h
  | cons p ps ih =>
    rw [Shard.evictBuckets]
    refine Outcome.state_bind h.evictWhile fun r b h => ?_
    refine Outcome.state_bind (by rwa [Outcome.state_check]) fun total b h => ?_
    split
    · exact h
    · exact ih h

/-- `insert` makes its writes in one section, even where it panics. -/
theorem alone_insert (data : Shard κ ν w) (checks : Bool) (key : κ) (value : ν) (size : BitVec w)
    (policy : CachePolicy) :
    Execution (step checks) (fun _ _ => True) ⟨data, [], false⟩ []
      ⟨(data.insert checks key (.new value size policy)).state, [], false⟩ := by
  refine Section.alone ?_
  rw [Shard.insert_eq]
  refine Outcome.state_bind (Section.write .start (.detach key)) fun _ b h => ?_
  refine Outcome.state_bind h.evictBuckets fun r b h => ?_
  exact Outcome.state_bind (h.write (.store key value size policy)) fun _ _ h => h

end RwLock
end PriorityLfu
