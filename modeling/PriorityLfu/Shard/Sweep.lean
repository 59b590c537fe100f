import Mathlib.Data.List.TakeWhile
import PriorityLfu.Shard.Bucket

/-!
# The clock sweep in closed form

A sweep reads the keys of its bucket in circular order from the hand. It passes over the
warm ones, ageing each once, and stops at the first cold one; when there is none it comes
back to the hand after one lap. `evictFromBucket` is thereby one formula in both phases:
age the keys `swept`, put the hand on position `victimIndex` and take the key there.
-/
namespace PriorityLfu
open Keyed

variable {κ ν : Type} {w : Nat} [BEq κ]

/-- Age the entries under `keys` in turn. -/
def aged (entries : HashMap κ (Entry ν w)) (keys : List κ) : HashMap κ (Entry ν w) :=
  keys.foldl (fun m k => m.modify k Entry.age) entries

@[simp] theorem aged_nil (entries : HashMap κ (Entry ν w)) : aged entries [] = entries := rfl

theorem aged_cons (entries : HashMap κ (Entry ν w)) (k : κ) (ks : List κ) :
    aged entries (k :: ks) = aged (entries.modify k Entry.age) ks := rfl

/-- Ageing changes no value, size or policy. -/
theorem map_content_aged (entries : HashMap κ (Entry ν w)) (keys : List κ) :
    (aged entries keys).values.map Entry.content = entries.values.map Entry.content := by
  induction keys generalizing entries with
  | nil => rfl
  | cons k ks ih => rw [aged_cons, ih, HashMap.map_values_modify Entry.content_age]

variable [Hashable κ]

/-- The entry under `key` is there and cold. -/
def isCold (entries : HashMap κ (Entry ν w)) (key : κ) : Bool :=
  (entries.get? key).any Entry.cold

namespace Shard

/-- The keys the next sweep of bucket `p` passes over. -/
def swept (s : Shard κ ν w) (p : CachePolicy) : List κ :=
  ((s.buckets p).list.keys.rotate (s.buckets p).hand).takeWhile fun k => !isCold s.entries k

/-- The position at which the next sweep of bucket `p` evicts. -/
def victimIndex (s : Shard κ ν w) (p : CachePolicy) : Nat :=
  ((s.buckets p).hand + (s.swept p).length) % (s.buckets p).len

theorem victimIndex_lt {s : Shard κ ν w} {p : CachePolicy} (h : 0 < (s.buckets p).len) :
    s.victimIndex p < (s.buckets p).len := Nat.mod_lt _ h

theorem swept_subset {s : Shard κ ν w} {p : CachePolicy} {k : κ} (h : k ∈ s.swept p) :
    k ∈ (s.buckets p).list.keys :=
  List.mem_rotate.mp ((List.takeWhile_sublist _).subset h)

theorem swept_warm {s : Shard κ ν w} {p : CachePolicy} {k : κ} (h : k ∈ s.swept p) :
    isCold s.entries k = false := by
  simpa using List.mem_takeWhile_imp h

/-- A sweep passes over the positions from the hand on. -/
theorem swept_getElem? {s : Shard κ ν w} {p : CachePolicy} {j : Nat}
    (hj : j < (s.swept p).length) :
    (s.swept p)[j]? =
      (s.buckets p).list.keys[((s.buckets p).hand + j) % (s.buckets p).len]? := by
  have hprefix := List.takeWhile_prefix (fun k => !isCold s.entries k)
    (l := (s.buckets p).list.keys.rotate (s.buckets p).hand)
  have hlen : j < (s.buckets p).list.keys.length := by
    have := hprefix.length_le
    simp only [List.length_rotate] at this
    exact Nat.lt_of_lt_of_le hj this
  have hget := List.prefix_iff_getElem?.mp hprefix j hj
  rw [List.getElem?_rotate hlen, Nat.add_comm] at hget
  rw [List.getElem?_eq_getElem hj]
  exact hget.symm

end Shard

variable [EquivBEq κ]

theorem Shard.swept_distinct (s : Shard κ ν w) (p : CachePolicy) :
    (s.swept p).Pairwise fun a b => (a == b) = false := by
  refine List.Pairwise.sublist (List.takeWhile_sublist _) ?_
  exact ((List.rotate_perm _ _).pairwise_iff fun hab => by rwa [BEq.comm]).mpr
    (s.buckets p).list.distinct

variable [LawfulHashable κ]

theorem get?_aged_of_not_any {entries : HashMap κ (Entry ν w)} {keys : List κ} {k : κ}
    (h : ∀ a ∈ keys, (a == k) = false) : (aged entries keys).get? k = entries.get? k := by
  induction keys generalizing entries with
  | nil => rfl
  | cons a ks ih =>
    rw [aged_cons, ih fun b hb => h b (List.mem_cons_of_mem _ hb), HashMap.get?_modify]
    simp [h a List.mem_cons_self]

/-- Distinct keys are aged once each. -/
theorem get?_aged_of_mem {entries : HashMap κ (Entry ν w)} {keys : List κ} {a k : κ}
    (hd : keys.Pairwise fun a b => (a == b) = false) (ha : a ∈ keys) (hk : (a == k) = true) :
    (aged entries keys).get? k = (entries.get? k).map Entry.age := by
  induction keys generalizing entries with
  | nil => cases ha
  | cons b ks ih =>
    obtain ⟨hb, hks⟩ := List.pairwise_cons.mp hd
    rw [aged_cons]
    obtain rfl | ha := List.mem_cons.mp ha
    · have hrest : ∀ c ∈ ks, (c == k) = false := fun c hc => by
        rw [← BEq.congr_right hk, BEq.comm]
        exact hb c hc
      rw [get?_aged_of_not_any hrest, HashMap.get?_modify, if_pos hk]
    · have : (b == k) = false := by
        rw [← BEq.congr_right hk]
        exact hb a ha
      rw [ih hks ha, HashMap.get?_modify]
      simp [this]

theorem content_get?_aged (entries : HashMap κ (Entry ν w)) (keys : List κ) (k : κ) :
    ((aged entries keys).get? k).map Entry.content = (entries.get? k).map Entry.content := by
  induction keys generalizing entries with
  | nil => rfl
  | cons a ks ih =>
    rw [aged_cons, ih, HashMap.get?_modify]
    split
    · rw [Option.map_map]
      congr 1
      funext e
      exact Entry.content_age e
    · rfl

theorem isSome_get?_aged (entries : HashMap κ (Entry ν w)) (keys : List κ) (k : κ) :
    ((aged entries keys).get? k).isSome = (entries.get? k).isSome := by
  have := congrArg Option.isSome (content_get?_aged entries keys k)
  simpa using this

/-! ## One sweep -/

theorem advance_eq_mod {n hand : Nat} (h : hand < n) : advance n hand = (hand + 1) % n := by
  unfold advance
  split
  · have : hand + 1 = n := by omega
    simp [this]
  · rw [Nat.mod_eq_of_lt (by omega)]

/-- The circular order from position `h`: the element there, then the order from the
next position. -/
theorem take_rotate_succ {α : Type*} {l : List α} {h n : Nat} (hh : h < l.length)
    (hn : n < l.length) :
    (l.rotate h).take (n + 1) = l[h] :: (l.rotate ((h + 1) % l.length)).take n := by
  rw [List.rotate_mod, ← List.rotate_rotate]
  have hlen := List.length_rotate l h
  have hget : (l.rotate h)[0]? = some l[h] := by
    rw [List.getElem?_rotate (by omega), Nat.zero_add, Nat.mod_eq_of_lt hh,
      List.getElem?_eq_getElem hh]
  generalize l.rotate h = r at *
  cases r with
  | nil => simp at hget
  | cons a r =>
    obtain rfl : a = l[h] := by simpa using hget
    simp only [List.length_cons] at hlen
    have hr : n ≤ r.length := by omega
    simp [List.rotate_cons_succ, List.take_append_of_le_length hr]

theorem takeWhile_dropWhile_congr {α : Type*} {p q : α → Bool} {l : List α}
    (h : ∀ a ∈ l, p a = q a) :
    l.takeWhile p = l.takeWhile q ∧ l.dropWhile p = l.dropWhile q := by
  induction l with
  | nil => exact ⟨rfl, rfl⟩
  | cons a l ih =>
    obtain ⟨ht, hd⟩ := ih fun b hb => h b (List.mem_cons_of_mem _ hb)
    simp only [List.takeWhile_cons, List.dropWhile_cons, h a List.mem_cons_self, ht, hd,
      and_self]

/-- A sweep ages a warm entry under the hand and goes on from the next one. -/
theorem sweep_of_warm {list : IndexSet κ} {len n hand : Nat} {entries : HashMap κ (Entry ν w)}
    {k₀ : κ} {e : Entry ν w} (hget : list.getIndex hand = some k₀)
    (he : entries.get? k₀ = some e) (hwarm : e.cold = false) :
    sweep list len (n + 1) entries hand =
      sweep list len n (entries.modify k₀ Entry.age) (advance len hand) := by
  by_cases hbit : e.clockBit = true
  · have := HashMap.modify_congr (f := fun e => { e with clockBit := false }) (g := Entry.age) he
      (by simp [Entry.age, hbit])
    simp [sweep, hget, he, hbit, this]
  · have hfreq : e.frequency ≠ 0 := by
      intro h0
      simp [Entry.cold, hbit, h0] at hwarm
    have := HashMap.modify_congr (f := fun e => { e with frequency := e.frequency - 1 })
      (g := Entry.age) he (by simp [Entry.age, hbit])
    simp [sweep, hget, he, hbit, hfreq, this]

/-- A sweep of `n` steps from `hand`, over keys that all have entries. -/
theorem sweep_eq {list : IndexSet κ} {n hand : Nat} {entries : HashMap κ (Entry ν w)}
    (hn : n ≤ list.len) (hh : hand < list.len)
    (hp : ∀ k ∈ list.keys, (entries.get? k).isSome) :
    sweep list list.len n entries hand =
      let order := (list.keys.rotate hand).take n
      let swept := order.takeWhile fun k => !isCold entries k
      match order.dropWhile fun k => !isCold entries k with
      | [] => .lap (aged entries swept) ((hand + n) % list.len)
      | k :: _ => .victim (aged entries swept) ((hand + swept.length) % list.len) k := by
  induction n generalizing entries hand with
  | zero => simp [sweep, Nat.mod_eq_of_lt hh]
  | succ n ih =>
    have hlen : hand < list.keys.length := hh
    have horder := take_rotate_succ (n := n) hlen hn
    have hmem : list.keys[hand] ∈ list.keys := List.getElem_mem hlen
    obtain ⟨e, he⟩ := Option.isSome_iff_exists.mp (hp _ hmem)
    have hget : list.getIndex hand = some list.keys[hand] := List.getElem?_eq_getElem hlen
    rw [horder]
    generalize list.keys[hand] = k₀ at *
    by_cases hcold : e.cold = true
    · have hbit : e.clockBit = false ∧ e.frequency = 0 := by simpa [Entry.cold] using hcold
      simp [sweep, hget, he, hbit, isCold, hcold, Nat.mod_eq_of_lt hh]
    · -- the entry under the hand is warm: it is aged, and the sweep goes on from the next
      have hstep : sweep list list.len (n + 1) entries hand =
          sweep list list.len n (entries.modify k₀ Entry.age) (advance list.len hand) :=
        sweep_of_warm hget he (by simpa using hcold)
      have hwarm : isCold entries k₀ = false := by simpa [isCold, he] using hcold
      have hp' : ∀ k ∈ list.keys, ((entries.modify k₀ Entry.age).get? k).isSome := by
        intro k hk
        have := isSome_get?_aged entries [k₀] k
        rw [aged_cons, aged_nil] at this
        rw [this]
        exact hp k hk
      have hnext : (hand + 1) % list.len < list.len := Nat.mod_lt _ (by omega)
      -- the other keys of the order are not equal to the aged one
      have hd : (k₀ :: (list.keys.rotate ((hand + 1) % list.keys.length)).take n).Pairwise
          fun a b => (a == b) = false := by
        rw [← horder]
        refine List.Pairwise.sublist (List.take_sublist _ _) ?_
        exact ((List.rotate_perm _ _).pairwise_iff fun hab => by rwa [BEq.comm]).mpr list.distinct
      have hsame : ∀ k ∈ (list.keys.rotate ((hand + 1) % list.keys.length)).take n,
          (!isCold (entries.modify k₀ Entry.age) k) = !isCold entries k := by
        intro k hk
        have hne := (List.pairwise_cons.mp hd).1 k hk
        simp [isCold, HashMap.get?_modify, hne]
      rw [hstep, advance_eq_mod hh, ih (by omega) hnext hp']
      obtain ⟨htake, hdrop⟩ := takeWhile_dropWhile_congr hsame
      dsimp only
      have hl : list.len = list.keys.length := rfl
      rw [hl, htake, hdrop, List.takeWhile_cons, List.dropWhile_cons]
      simp only [hwarm, Bool.not_false, if_true, aged_cons, List.length_cons]
      split <;> simp [Nat.add_assoc, Nat.add_comm, Nat.add_left_comm]

/-! ## The entries after a sweep of any bucket -/

/-- The table a sweep leaves. -/
def Sweep.entries : Sweep κ ν w → HashMap κ (Entry ν w)
  | .missing entries | .victim entries .. | .lap entries _ => entries

/-- One step of a sweep: it ends, or it goes on from an aged entry. -/
theorem sweep_succ (list : IndexSet κ) (len n hand : Nat) (entries : HashMap κ (Entry ν w)) :
    (sweep list len (n + 1) entries hand).entries = entries ∨
      ∃ k₀ e, list.getIndex hand = some k₀ ∧ entries.get? k₀ = some e ∧ e.cold = false ∧
        sweep list len (n + 1) entries hand =
          sweep list len n (entries.modify k₀ Entry.age) (advance len hand) := by
  cases hget : list.getIndex hand with
  | none => exact .inl (by simp [sweep, hget, Sweep.entries])
  | some k₀ =>
    cases he : entries.get? k₀ with
    | none => exact .inl (by simp [sweep, hget, he, Sweep.entries])
    | some e =>
      cases hcold : e.cold with
      | true =>
        have hbit : e.clockBit = false ∧ e.frequency = 0 := by simpa [Entry.cold] using hcold
        exact .inl (by simp [sweep, hget, he, hbit, Sweep.entries])
      | false => exact .inr ⟨k₀, e, rfl, he, hcold, sweep_of_warm hget he hcold⟩

/-- The positions of a sweep from the next one on. -/
theorem add_mod_succ (hand j len : Nat) :
    ((hand + 1) % len + j) % len = (hand + (j + 1)) % len := by
  rw [Nat.mod_add_mod]
  congr 1
  omega

/-- A sweep leaves entries alone whose keys it does not come past. -/
theorem get?_sweep_of_not_swept {list : IndexSet κ} {n hand : Nat}
    {entries : HashMap κ (Entry ν w)} {k : κ} (hh : hand < list.len)
    (hk : ∀ j < n, ∀ a, list.getIndex ((hand + j) % list.len) = some a → (a == k) = false) :
    (sweep list list.len n entries hand).entries.get? k = entries.get? k := by
  induction n generalizing entries hand with
  | zero => rfl
  | succ n ih =>
    rcases sweep_succ list list.len n hand entries with hend | ⟨k₀, e, hget, -, -, hnext⟩
    · rw [hend]
    · have hk₀ : (k₀ == k) = false := by
        refine hk 0 (Nat.succ_pos n) k₀ ?_
        rwa [Nat.add_zero, Nat.mod_eq_of_lt hh]
      have hlt : (hand + 1) % list.len < list.len := Nat.mod_lt _ (by omega)
      rw [hnext, advance_eq_mod hh, ih hlt fun j hj a ha => ?_, HashMap.get?_modify, if_neg]
      · simp [hk₀]
      · refine hk (j + 1) (Nat.succ_lt_succ hj) a ?_
        rwa [add_mod_succ] at ha

/-- A lap changes an entry at most once, and then it ages a warm one. -/
theorem get?_sweep {list : IndexSet κ} {n hand : Nat} {entries : HashMap κ (Entry ν w)} (k : κ)
    (hn : n ≤ list.len) (hh : hand < list.len) :
    (sweep list list.len n entries hand).entries.get? k = entries.get? k ∨
      ∃ e, entries.get? k = some e ∧ e.cold = false ∧
        (sweep list list.len n entries hand).entries.get? k = some e.age := by
  induction n generalizing entries hand with
  | zero => exact .inl rfl
  | succ n ih =>
    rcases sweep_succ list list.len n hand entries with hend | ⟨k₀, e, hget, he, hwarm, hnext⟩
    · exact .inl (by rw [hend])
    · have hlt : (hand + 1) % list.len < list.len := Nat.mod_lt _ (by omega)
      rw [hnext, advance_eq_mod hh]
      cases hk : k₀ == k with
      | true =>
        -- the rest of the lap does not come back to this position
        right
        refine ⟨e, by rw [← HashMap.get?_congr hk, he], hwarm, ?_⟩
        rw [get?_sweep_of_not_swept hlt fun j hj a ha => ?_, HashMap.get?_modify, if_pos hk,
          ← HashMap.get?_congr hk, he, Option.map_some]
        by_contra hak
        rw [add_mod_succ] at ha
        have hsame : (a == k₀) = true := by
          rw [BEq.congr_right hk]
          simpa using hak
        have hpos := IndexSet.index_eq_of_beq ha hget hsame
        have hmod := Nat.div_add_mod (hand + (j + 1)) list.len
        rw [hpos] at hmod
        have : list.len ∣ j + 1 := ⟨(hand + (j + 1)) / list.len, by omega⟩
        have := Nat.le_of_dvd (Nat.succ_pos j) this
        omega
      | false =>
        have hsame : (entries.modify k₀ Entry.age).get? k = entries.get? k := by
          rw [HashMap.get?_modify, hk]
          rfl
        rw [← hsame]
        exact ih (by omega) hlt

/-! ## One eviction -/

namespace Shard

/-- `evictFromBucket` on a bucket that is not empty: both phases in one formula. -/
theorem evictFromBucket_eq {s : Shard κ ν w} {p : CachePolicy} (checks : Bool)
    (hne : 0 < (s.buckets p).len) (hb : (s.buckets p).HandOk)
    (hp : ∀ k ∈ (s.buckets p).list.keys, (s.entries.get? k).isSome) :
    ∃ k, (s.buckets p).list.keys[s.victimIndex p]? = some k ∧
      s.evictFromBucket checks p =
        (({ s with entries := aged s.entries (s.swept p) } : Shard κ ν w).setHand p
          (s.victimIndex p)).takeVictim checks p k := by
  have hh := hb.2 hne
  have hempty : (s.buckets p).isEmpty = false := by
    rw [← Bool.not_eq_true, PolicyBucket.isEmpty_iff]
    omega
  have hsweep := sweep_eq (n := (s.buckets p).list.len) (le_refl _) hh hp
  have htake : ((s.buckets p).list.keys.rotate (s.buckets p).hand).take (s.buckets p).list.len =
      (s.buckets p).list.keys.rotate (s.buckets p).hand := by simp [IndexSet.len]
  have horder := List.takeWhile_append_dropWhile (p := fun k => !isCold s.entries k)
    (l := (s.buckets p).list.keys.rotate (s.buckets p).hand)
  have hlt : s.victimIndex p < (s.buckets p).list.keys.length := victimIndex_lt hne
  refine ⟨_, List.getElem?_eq_getElem hlt, ?_⟩
  simp only [htake] at hsweep
  unfold evictFromBucket
  simp only [hempty, Bool.false_eq_true, if_false]
  have hlen : (s.buckets p).len = (s.buckets p).list.len := rfl
  rw [hlen, hsweep]
  cases hd : ((s.buckets p).list.keys.rotate (s.buckets p).hand).dropWhile
      fun k => !isCold s.entries k with
  | nil =>
    -- nothing cold: the lap ends under the hand
    have hidx : s.victimIndex p = ((s.buckets p).hand + (s.buckets p).list.len) %
        (s.buckets p).list.len := by
      rw [hd, List.append_nil] at horder
      have : (s.swept p).length = (s.buckets p).list.len := by simp [swept, horder, IndexSet.len]
      simp [victimIndex, this, PolicyBucket.len]
    simp only [IndexSet.getIndex, ← hidx, List.getElem?_eq_getElem hlt]
    rfl
  | cons k rest =>
    have hget : ((s.buckets p).list.keys.rotate (s.buckets p).hand)[(s.swept p).length]? =
        some k := by
      rw [hd] at horder
      rw [← horder]
      simp [swept]
    have hj : (s.swept p).length < (s.buckets p).list.keys.length := by
      have := (List.getElem?_eq_some_iff.mp hget).1
      simpa using this
    rw [List.getElem?_rotate hj, Nat.add_comm] at hget
    have hk : (s.buckets p).list.keys[s.victimIndex p] = k :=
      (List.getElem?_eq_some_iff.mp hget).2
    rw [hk]
    rfl

/-! ### The entries it leaves, whether it returns or panics -/

variable {s : Shard κ ν w} {p : CachePolicy} {checks : Bool}

omit [Hashable κ] [LawfulHashable κ] in
theorem entries_release (s : Shard κ ν w) (checks : Bool) (p : CachePolicy) (key : κ)
    (size : BitVec w) : (s.release checks p key size).state.entries = s.entries := by
  unfold release
  refine Outcome.state_bind (P := fun t : Shard κ ν w => t.entries = s.entries) ?_ fun _ _ h => h
  rw [Outcome.state_check]
  rfl

/-- Without the victim, if it is there. -/
theorem entries_takeVictim (s : Shard κ ν w) (checks : Bool) (p : CachePolicy) (key : κ) :
    (s.takeVictim checks p key).state.entries = s.entries.erase key := by
  unfold takeVictim
  split
  · next hnone =>
    exact (HashMap.erase_of_get?_none (HashMap.removeEntry_eq_none.mp hnone)).symm
  · next hsome =>
    obtain ⟨-, rfl⟩ := HashMap.removeEntry_eq_some.mp hsome
    exact Outcome.state_bind (P := fun t : Shard κ ν w => t.entries = s.entries.erase key)
      (entries_release _ checks p key _) fun _ _ h => h

/-- The table that an eviction leaves is the one of its sweep, perhaps without the victim. -/
theorem get?_evictFromBucket {k : κ} {e' : Entry ν w}
    (h : (s.evictFromBucket checks p).state.entries.get? k = some e') :
    s.entries.get? k = some e' ∨
      ∃ e, s.entries.get? k = some e ∧ e.cold = false ∧ e' = e.age := by
  unfold evictFromBucket at h
  dsimp only at h
  split at h
  · exact .inl h
  · next hempty =>
    by_cases hh : (s.buckets p).hand < (s.buckets p).list.len
    · have hlap : (sweep (s.buckets p).list (s.buckets p).len (s.buckets p).len s.entries
          (s.buckets p).hand).entries.get? k = some e' := by
        split at h
        · next m hm =>
          rw [hm]
          exact h
        · next m hand key hm =>
          rw [hm]
          rw [entries_takeVictim] at h
          exact HashMap.get?_of_get?_erase h
        · next m hand hm =>
          rw [hm]
          split at h
          · exact h
          · rw [entries_takeVictim] at h
            exact HashMap.get?_of_get?_erase h
      rcases get?_sweep k le_rfl hh with hsame | ⟨e, he, hwarm, hage⟩
      · exact .inl (hsame ▸ hlap)
      · refine .inr ⟨e, he, hwarm, ?_⟩
        rw [show (s.buckets p).len = (s.buckets p).list.len from rfl, hage] at hlap
        exact (Option.some.inj hlap).symm
    · -- no key under the hand: the first step ends the sweep
      have hnone : (s.buckets p).list.getIndex (s.buckets p).hand = none :=
        List.getElem?_eq_none (by simpa [IndexSet.len] using hh)
      rw [PolicyBucket.isEmpty_iff] at hempty
      obtain ⟨n, hn⟩ := Nat.exists_eq_succ_of_ne_zero hempty
      rw [hn] at h
      simp only [sweep, hnone] at h
      exact .inl h

end Shard

end PriorityLfu
