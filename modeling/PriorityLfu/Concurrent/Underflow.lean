import PriorityLfu.Cache.Gauge
import PriorityLfu.Concurrent.AtRest

/-!
# When the counters stay above zero

`insert` counts its entry after it released the lock, and any other call that takes the
entry out in between subtracts what was not yet added: the counter wraps. Where no call takes
out an entry that is still to be counted, the additions in flight for a key are at most what
is stored under it, so all of them are at most what is stored, and a counter holds at least
the subtractions in flight. Nor may an insertion panic after it changed its shard: what it leaves
is never counted.
-/
namespace PriorityLfu
open Keyed

variable {κ ν : Type} {w n : Nat}

/-! ## Additions and subtractions in flight -/

namespace Gauge

/-- What is added to the counter for insertions of keys that satisfy `p`. -/
def arriving (g : Gauge) (p : κ → Bool) : Weight κ w Nat where
  enter key u := if p key then g.gain u else 0
  update _ := 0

/-- What is taken off the counter. -/
def departing (g : Gauge) : Weight κ w Nat := .plain g.loss

variable {g : Gauge} {p : κ → Bool}

@[simp] theorem arriving_enter (key : κ) (us : List (Update w)) :
    (us.map ((g.arriving p).enter key)).sum = if p key then g.gains us else 0 := by
  by_cases h : p key <;> simp [arriving, gains, h]

@[simp] theorem arriving_update (us : List (Update w)) :
    (us.map (g.arriving p).update).sum = 0 := by simp [arriving]

@[simp] theorem departing_enter (key : κ) (us : List (Update w)) :
    (us.map (g.departing.enter key)).sum = g.losses us := rfl

@[simp] theorem departing_update (us : List (Update w)) :
    (us.map (g.departing : Weight κ w Nat).update).sum = g.losses us := rfl

theorem arriving_actions (op : CallOp κ ν w) :
    (g.arriving p).sum (op.actions : List (Action κ ν w n)) = 0 :=
  Weight.sum_actions (fun _ => rfl) op

theorem departing_actions (op : CallOp κ ν w) :
    g.departing.sum (op.actions : List (Action κ ν w n)) = 0 :=
  Weight.sum_actions (fun _ => by cases g <;> rfl) op

end Gauge

/-- The action is an update for an insertion of `k`. -/
def Action.enters [BEq κ] (k : κ) : Action κ ν w n → Bool
  | .enter key _ => key == k
  | _ => false

theorem Gauge.of_arriving [BEq κ] (g : Gauge) (k : κ) (a : Action κ ν w n) :
    (g.arriving (· == k)).of a = if a.enters k then (g.arriving fun _ => true).of a else 0 := by
  cases a <;> simp [arriving, Action.enters]

/-- The key of an insertion for which the action adds to a counter. -/
def Action.counts (g : Gauge) : Action κ ν w n → Option κ
  | .enter key u => if g.gain u = 0 then none else some key
  | _ => none

/-- Where something arrives for a key that satisfies `p`, such a key is still to be counted. -/
theorem exists_counts {g : Gauge} {p : κ → Bool} {as : List (Action κ ν w n)}
    (h : (g.arriving p).sum as ≠ 0) : ∃ k ∈ as.filterMap (Action.counts g), p k = true := by
  obtain ⟨a, ha, hne⟩ := Weight.exists_of_sum_ne_zero h
  cases a with
  | enter key u =>
    obtain ⟨hp, hgain⟩ : p key = true ∧ g.gain u ≠ 0 := by
      simpa [Gauge.arriving, Classical.not_imp] using hne
    exact ⟨key, List.mem_filterMap.mpr ⟨_, ha, if_neg hgain⟩, hp⟩
  | _ => exact absurd rfl hne

variable [BEq κ] [Hashable κ] [EquivBEq κ] [LawfulHashable κ] [NeZero n] {checks : Bool}

/-! ## What a change of a shard leaves in place -/

/-- The action takes out what is stored under `k`, or puts in its place what counts for less. -/
def Action.takes (checks : Bool) (c : Cache κ ν w n) (g : Gauge) (k : κ) : Action κ ν w n → Bool
  | .insert key entry =>
    match c.insertShard checks key entry with
    | .panic _ => false
    | .ok (_, _, evicted) _ => (evicted.any fun e => e.key == k) ||
      (key == k && (c.contentAt k).any fun x => g.weight entry.content < g.weight x)
  | .remove key => key == k
  | .drain i => getShard w n (hash k) == i
  | _ => false

/-- An insertion puts a value in the place of another only where the difference of their sizes is
a signed number. -/
def Action.near (c : Cache κ ν w n) : Action κ ν w n → Prop
  | .insert key entry => ∀ old ∈ c.oldEntry key, Word.Near entry.size old.size
  | _ => True

instance (c : Cache κ ν w n) (a : Action κ ν w n) : Decidable (a.near c) := by
  unfold Action.near
  split <;> infer_instance

namespace System

/-- The keys of the insertions for which a counter is still to be added to. -/
def uncounted (g : Gauge) (s : System κ ν w n) : List κ := s.inFlight.filterMap (Action.counts g)

/-- All that is stored or still to be taken off a counter fits in a word, and so does the
difference of the sizes where a value replaces another, which with overflow checks does not panic;
no action takes from a counter's total what is still to be added to the counter. -/
def Steady (checks : Bool) (s : System κ ν w n) : Choice κ ν w n → Prop
  | .advance j => (∀ g : Gauge, s.cache.total g.weight + g.departing.sum s.inFlight < 2 ^ w) ∧
      ∀ a ∈ s.next j, a.accommodated checks s.cache ∧ a.near s.cache ∧
        ∀ g, ∀ k ∈ s.uncounted g, a.takes checks s.cache g k = false
  | _ => True

instance (s : System κ ν w n) (choice : Choice κ ν w n) : Decidable (s.Steady checks choice) :=
  match choice with
  | .advance _ => inferInstanceAs (Decidable (_ ∧ _))
  | .start _ | .access _ _ _ _ => isTrue trivial

/-- No call is about to take more off a counter than it holds. -/
def Solvent (s : System κ ν w n) : Prop :=
  ∀ j, ∀ a ∈ s.next j, Gauge.bytes.departing.of a ≤ s.cache.size.toNat ∧
    Gauge.entries.departing.of a ≤ s.cache.len.toNat

/-- What an action does not take is there after it, at no smaller size. -/
theorem weighAt_of_takes {c : Cache κ ν w n} {locked : Fin n → Bool} {a : Action κ ν w n}
    {e : Effect κ ν w n} (hc : c.Routed) (h : perform checks c locked a = some e) {g : Gauge}
    {k : κ} (hk : a.takes checks c g k = false) :
    c.weighAt g.weight k ≤ e.cache.weighAt g.weight k := by
  cases a with
  | insert key entry =>
    rw [perform] at h
    split at h
    · cases h
    · split at h
      · cases h
      · next old stats evicted d hins =>
        obtain ⟨us, -, rfl⟩ := Option.map_eq_some_iff.mp h
        obtain ⟨vs, s', hi, -, -, -, rfl⟩ := Cache.insertShard_cases hc hins
        rw [Action.takes, hins] at hk
        obtain ⟨hspared, hsmaller⟩ := Bool.or_eq_false_iff.mp hk
        have hcontent := hi.contentAt_eq hc k
        by_cases hkey : (key == k) = true
        · rw [if_pos hkey] at hcontent
          rw [hkey, Bool.true_and] at hsmaller
          rw [Cache.weighAt, Cache.weighAt, hcontent]
          cases hold : c.contentAt k with
          | none => exact Nat.zero_le _
          | some x =>
            rw [hold] at hsmaller
            exact Nat.le_of_not_lt (of_decide_eq_false hsmaller)
        · have hnot : ¬ (vs.any fun v => v.victim.key == k) = true := by
            rw [Bool.not_eq_true, ← hspared, List.any_map]
            rfl
          rw [if_neg hkey, if_neg hnot] at hcontent
          rw [Cache.weighAt, Cache.weighAt, hcontent]
  | remove key =>
    rcases perform_remove hc h with ⟨rfl, -⟩ | ⟨k₀, en, s', hr, -⟩
    · exact le_refl _
    · have hkey : ¬ (key == k) = true := by
        rw [Bool.not_eq_true]
        exact hk
      rw [Cache.weighAt, Cache.weighAt, hr.contentAt_eq, if_neg hkey]
  | drain i =>
    have hne : getShard w n (hash k) ≠ i := ne_of_beq_false hk
    rw [perform_drain h, Cache.weighAt, Cache.weighAt, Cache.contentAt_drainShard, if_neg hne]
  | enter key u =>
    cases h
    rw [Cache.weighAt, Cache.weighAt, Cache.contentAt_congr (Cache.shards_apply c u)]
  | update u =>
    cases h
    rw [Cache.weighAt, Cache.weighAt, Cache.contentAt_congr (Cache.shards_apply c u)]
  | unlock i => cases h; exact le_refl _
  | hook h' => cases h; exact le_refl _

/-! ## The invariant -/

/-- What has been added to a counter and what has still to be is all that is stored and all
that has still to be taken off; what has still to be added for a key is at most what is
stored under it. -/
structure Level (s : System κ ν w n) : Prop where
  routed : s.cache.Routed
  update : ∀ u, .update u ∈ s.inFlight → ∀ g : Gauge, g.gain u = 0
  account : ∀ g : Gauge, (g.value s.cache).toNat + (g.arriving fun _ => true).sum s.inFlight =
    s.cache.total g.weight + g.departing.sum s.inFlight
  covered : ∀ (g : Gauge) k, (g.arriving (· == k)).sum s.inFlight ≤ s.cache.weighAt g.weight k

/-- Where what arrives for every key is at most what is stored under it, all that arrives is
at most all that is stored. -/
theorem arriving_le_total {c : Cache κ ν w n} (hc : c.Routed) {g : Gauge}
    {as : List (Action κ ν w n)}
    (hcovered : ∀ k, (g.arriving (· == k)).sum as ≤ c.weighAt g.weight k) :
    (g.arriving fun _ => true).sum as ≤ c.total g.weight := by
  rw [← Cache.sum_stored]
  refine sum_le_sum_of_cover (m := fun a kv => a.enters kv.1) (fun a ha hne => ?_) fun kv hkv => ?_
  · cases a with
    | enter key u =>
      have hle : g.gain u ≤ (g.arriving (· == key)).sum as := by
        refine (Nat.le_of_eq ?_).trans (Weight.of_le_sum ha)
        simp [Gauge.arriving]
      exact Cache.mem_stored_of_weighAt (g := g.weight)
        (Nat.ne_of_gt (Nat.lt_of_lt_of_le (Nat.pos_of_ne_zero hne) (hle.trans (hcovered key))))
    | _ => exact absurd rfl hne
  · refine le_trans (Nat.le_of_eq ?_) ((hcovered kv.1).trans_eq
      (Cache.weighAt_of_mem_stored hc g.weight hkv))
    rw [Weight.sum, List.map_congr_left fun a _ => g.of_arriving kv.1 a]

/-- What an action does to a counter and to what is stored, and what it puts in flight. -/
theorem perform_account {c : Cache κ ν w n} {locked : Fin n → Bool} {a : Action κ ν w n}
    {e : Effect κ ν w n} (hc : c.Routed) (h : perform checks c locked a = some e) (g : Gauge)
    (hnear : a.near c)
    (hupdate : ∀ u, a = .update u → g.gain u = 0) (hfits : c.total g.weight < 2 ^ w)
    (hloss : g.departing.of a ≤ (g.value c).toNat)
    (hgain : (g.value c).toNat + (g.arriving fun _ => true).of a < 2 ^ w) :
    (g.value e.cache).toNat + (g.arriving fun _ => true).sum (e.front ++ e.back) +
        c.total g.weight + g.departing.of a =
      (g.value c).toNat + (g.arriving fun _ => true).of a + e.cache.total g.weight +
        g.departing.sum (e.front ++ e.back) := by
  cases a with
  | insert key entry =>
    obtain ⟨vs, s', us, hi, hus, rfl⟩ := perform_insert hc h
    have htotal := hi.total hc g.weight
    have hvictims := Nat.lt_of_le_of_lt (hi.weighVictims_le hc g.weight) hfits
    obtain ⟨hexact, -⟩ := g.insertUpdates_exact hnear hus
    have hlosses := (g.evictUpdates_exact hvictims).2
    simp only [Gauge.value_setShard, Weight.sum_append, Weight.sum_enter, Weight.sum_update,
      Weight.sum_hook, Weight.sum_nil, Weight.of, Gauge.arriving_enter, Gauge.arriving_update,
      Gauge.departing_enter, Gauge.departing_update, if_true, hlosses]
    rw [Cache.weighAt, Cache.contentAt_eq_oldEntry] at htotal
    dsimp only at htotal
    omega
  | remove key =>
    rcases perform_remove hc h with ⟨rfl, -⟩ | ⟨k₀, en, s', hr, rfl⟩
    · simp
    · have htotal := hr.total g.weight
      have hlosses := (g.removeUpdates_exact en).2
      simp only [Gauge.value_setShard, Weight.sum_append, Weight.sum_update, Weight.sum_cons,
        Weight.sum_nil, Weight.of, Gauge.arriving_update, Gauge.departing_update,
        hlosses] at htotal ⊢
      omega
  | drain i =>
    rw [perform_drain h]
    have htotal := Cache.total_drainShard c i g.weight
    have hlosses := (g.drainUpdates_exact hc i (by omega)).2
    have hvalue : g.value (c.drainShard i).2 = g.value c := by cases g <;> rfl
    simp only [hvalue, Weight.sum_append, Weight.sum_update, Weight.sum_cons, Weight.sum_hook,
      Weight.sum_nil, Weight.of, Gauge.arriving_update, Gauge.departing_update, hlosses]
    omega
  | enter key u =>
    cases h
    have hvalue := g.value_apply hloss hgain
    simp only [Cache.total_congr (Cache.shards_apply c u), List.append_nil, Weight.sum_nil,
      Weight.of, Gauge.arriving, Gauge.departing, Weight.enter_plain, if_true]
    omega
  | update u =>
    cases h
    have hvalue := g.value_apply hloss (hupdate u rfl ▸ hgain)
    rw [hupdate u rfl] at hvalue
    simp only [Cache.total_congr (Cache.shards_apply c u), List.append_nil, Weight.sum_nil,
      Weight.of, Gauge.arriving, Gauge.departing, Weight.update_plain]
    omega
  | unlock i | hook h' => cases h; simp

/-- What has still to be added for a key after an action, where `r` of it is for others. -/
theorem perform_covered {c : Cache κ ν w n} {locked : Fin n → Bool} {a : Action κ ν w n}
    {e : Effect κ ν w n} (hc : c.Routed) (h : perform checks c locked a = some e) (g : Gauge)
    (hnear : a.near c) {k : κ} {r : Nat} (hle : r ≤ c.weighAt g.weight k)
    (hkept : r ≠ 0 → c.weighAt g.weight k ≤ e.cache.weighAt g.weight k) :
    (g.arriving (· == k)).sum (e.front ++ e.back) + r ≤ e.cache.weighAt g.weight k := by
  have hrest : r ≤ e.cache.weighAt g.weight k := by
    by_cases hr : r = 0
    · omega
    · exact hle.trans (hkept hr)
  cases a with
  | insert key entry =>
    obtain ⟨vs, s', us, hi, hus, rfl⟩ := perform_insert hc h
    obtain ⟨hexact, hone⟩ := g.insertUpdates_exact hnear hus
    have hnew := hi.contentAt_eq hc k
    simp only [Weight.sum_append, Weight.sum_enter, Weight.sum_update, Weight.sum_hook,
      Weight.sum_nil, Gauge.arriving_enter, Gauge.arriving_update, Nat.add_zero]
    by_cases hkey : (key == k) = true
    · rw [← Cache.contentAt_eq_oldEntry] at hexact
      change g.gains us + c.weighAt g.weight key = _ at hexact
      rw [Cache.weighAt_congr_key c g.weight hkey] at hexact
      rw [if_pos hkey] at hnew ⊢
      rw [Cache.weighAt, hnew, Option.map_some, Option.getD_some] at hrest ⊢
      omega
    · rw [if_neg hkey, Nat.zero_add]
      exact hrest
  | remove key =>
    rcases perform_remove hc h with ⟨rfl, -⟩ | ⟨k₀, en, s', hr, rfl⟩
    · simpa using hrest
    · simpa using hrest
  | drain i =>
    have harriving : (g.arriving (· == k)).sum (e.front ++ e.back) = 0 := by
      rw [perform_drain h]
      simp
    rw [harriving, Nat.zero_add]
    exact hrest
  | enter key u => cases h; simpa using hrest
  | update u => cases h; simpa using hrest
  | unlock i => cases h; simpa using hrest
  | hook h' => cases h; simpa using hrest

/-- The updates that are not for an inserted entry add nothing. -/
theorem perform_updates {c : Cache κ ν w n} {locked : Fin n → Bool} {a : Action κ ν w n}
    {e : Effect κ ν w n} (hc : c.Routed) (h : perform checks c locked a = some e) (g : Gauge)
    (hfits : c.total g.weight < 2 ^ w) {u : Update w} (hu : .update u ∈ e.front ++ e.back) :
    g.gain u = 0 := by
  cases a with
  | insert key entry =>
    obtain ⟨vs, s', us, hi, hus, rfl⟩ := perform_insert hc h
    have hvictims := Nat.lt_of_le_of_lt (hi.weighVictims_le hc g.weight) hfits
    refine g.gain_eq_zero (g.evictUpdates_exact hvictims).1 ?_
    simpa using hu
  | remove key =>
    rcases perform_remove hc h with ⟨rfl, -⟩ | ⟨k₀, en, s', hr, rfl⟩
    · simp at hu
    · refine g.gain_eq_zero (g.removeUpdates_exact en).1 ?_
      simpa using hu
  | drain i =>
    rw [perform_drain h] at hu
    have htotal := Cache.total_drainShard c i g.weight
    refine g.gain_eq_zero (g.drainUpdates_exact hc i (by omega)).1 ?_
    simpa using hu
  | enter key u => cases h; simp at hu
  | update u => cases h; simp at hu
  | unlock i => cases h; simp at hu
  | hook h' => cases h; simp at hu

omit [EquivBEq κ] [LawfulHashable κ] in
theorem level_start (maxSizeBytes : BitVec w) : (start maxSizeBytes : System κ ν w n).Level where
  routed := routed_start maxSizeBytes
  update u h := by cases h
  account g := by
    have htotal : (start maxSizeBytes : System κ ν w n).cache.total g.weight = 0 :=
      Finset.sum_eq_zero fun _ _ => rfl
    rw [htotal]
    cases g <;> rfl
  covered g k := Nat.zero_le _

variable {s t : System κ ν w n} {choice : Choice κ ν w n} {shown : List (Event κ ν w)}

/-- A counter holds at least all that has still to be taken off. -/
theorem Level.departing_le (hs : s.Level) (g : Gauge) :
    g.departing.sum s.inFlight ≤ (g.value s.cache).toNat := by
  have := arriving_le_total hs.routed (hs.covered g)
  have := hs.account g
  omega

/-- Where something is still to be added for a key, the key is uncounted and no steady action
takes it. -/
theorem weighAt_of_steady {j : Nat} {a : Action κ ν w n} {e : Effect κ ν w n}
    (hc : s.cache.Routed) (hsteady : s.Steady checks (.advance j)) (ha : s.next j = some a)
    (he : perform checks s.cache s.locked a = some e) {g : Gauge} {k : κ}
    (h : (g.arriving (· == k)).sum s.inFlight ≠ 0) :
    s.cache.weighAt g.weight k ≤ e.cache.weighAt g.weight k := by
  obtain ⟨k', hk', hkey⟩ := exists_counts h
  rw [← Cache.weighAt_congr_key s.cache g.weight hkey,
    ← Cache.weighAt_congr_key e.cache g.weight hkey]
  exact weighAt_of_takes hc he ((hsteady.2 a ha).2.2 g k' hk')

omit [EquivBEq κ] [LawfulHashable κ] in
/-- The invariant reads the cache and what is in flight, in any order. -/
theorem Level.of_perm (hs : s.Level) (hc : t.cache = s.cache) (hf : s.inFlight.Perm t.inFlight) :
    t.Level where
  routed := hc ▸ hs.routed
  update u hin := hs.update u (hf.symm.subset hin)
  account g := by
    rw [hc, ← Weight.sum_perm hf, ← Weight.sum_perm hf]
    exact hs.account g
  covered g k := by
    rw [hc, ← Weight.sum_perm hf]
    exact hs.covered g k

omit [EquivBEq κ] [LawfulHashable κ] in
theorem Level.begin {op : CallOp κ ν w} (hs : s.Level) (hc : t.cache = s.cache)
    (hf : t.inFlight = s.inFlight ++ op.actions) : t.Level where
  routed := hc ▸ hs.routed
  update u hin g := by
    rw [hf, List.mem_append] at hin
    rcases hin with hin | hin
    · exact hs.update u hin g
    · cases op with
      | insert key' entry' => simp [CallOp.actions] at hin
      | remove key' => simp [CallOp.actions] at hin
      | clear =>
        have hreset : g.gains (resetUpdates : List (Update w)) = 0 := by cases g <;> rfl
        refine g.gain_eq_zero hreset ?_
        simpa [CallOp.actions] using hin
  account g := by
    rw [hc, hf, Weight.sum_append, Weight.sum_append, Gauge.arriving_actions,
      Gauge.departing_actions]
    exact hs.account g
  covered g k := by
    rw [hc, hf, Weight.sum_append, Gauge.arriving_actions]
    exact hs.covered g k

theorem Level.access {i : Fin n} {key : κ} {clockBit : Bool} {frequency : UInt8} (hs : s.Level)
    (hc : t.cache = s.cache.access i key clockBit frequency) (hf : t.inFlight = s.inFlight) :
    t.Level where
  routed := hc ▸ Cache.routed_access hs.routed i key clockBit frequency
  update := hf ▸ hs.update
  account g := by
    have hvalue : g.value (s.cache.access i key clockBit frequency) = g.value s.cache := by
      cases g <;> rfl
    rw [hc, hf, hvalue, Cache.total_access]
    exact hs.account g
  covered g k := by
    rw [hc, hf, Cache.weighAt, Cache.contentAt_access, ← Cache.weighAt]
    exact hs.covered g k

/-- An action of the call at position `j`, with all that others have in flight in `rest`. -/
theorem Level.perform {j : Nat} {a : Action κ ν w n} {rest : List (Action κ ν w n)}
    {e : Effect κ ν w n} (hs : s.Level) (hsteady : s.Steady checks (.advance j))
    (ha : s.next j = some a) (he : perform checks s.cache s.locked a = some e)
    (hc : t.cache = e.cache) (hf : s.inFlight.Perm (a :: rest))
    (hf' : t.inFlight.Perm (e.front ++ e.back ++ rest)) : t.Level := by
  have hain : a ∈ s.inFlight := hf.symm.subset List.mem_cons_self
  have hrest : ∀ b ∈ rest, b ∈ s.inFlight := fun b hb =>
    hf.symm.subset (List.mem_cons_of_mem _ hb)
  have hnear := (hsteady.2 a ha).2.1
  have hfits : ∀ g : Gauge, s.cache.total g.weight < 2 ^ w := fun g =>
    Nat.lt_of_le_of_lt (Nat.le_add_right _ _) (hsteady.1 g)
  refine ⟨hc ▸ perform_routed hs.routed he, fun u hin g => ?_, fun g => ?_, fun g k => ?_⟩
  · rcases List.mem_append.mp (hf'.subset hin) with hin | hin
    · exact perform_updates hs.routed he g (hfits g) hin
    · exact hs.update u (hrest _ hin) g
  · have haccount := hs.account g
    have hroom := hsteady.1 g
    rw [Weight.sum_perm hf, Weight.sum_cons] at haccount
    have hperform := perform_account hs.routed he g hnear
      (fun u ha' => hs.update u (ha' ▸ hain) g) (hfits g)
      ((Weight.of_le_sum hain).trans (hs.departing_le g)) (by omega)
    rw [Weight.sum_perm hf, Weight.sum_cons] at haccount
    rw [hc, Weight.sum_perm hf', Weight.sum_perm hf']
    simp only [Weight.sum_append] at hperform ⊢
    omega
  · have hcovered := hs.covered g k
    rw [Weight.sum_perm hf, Weight.sum_cons] at hcovered
    rw [hc, Weight.sum_perm hf', Weight.sum_append]
    refine perform_covered hs.routed he g hnear (by omega) fun hr => ?_
    refine weighAt_of_steady hs.routed hsteady ha he ?_
    rw [Weight.sum_perm hf, Weight.sum_cons]
    omega

theorem step_level (hs : s.Level) (hsteady : s.Steady checks choice)
    (h : step checks s choice = some (shown, t)) : t.Level := by
  rcases step_inFlight h with ⟨op, rfl, hc, hf⟩ | ⟨hc, hf⟩ |
    ⟨j, a, rest, e, rfl, ha, he, hc, hf, hf'⟩ |
    ⟨i, key, clockBit, frequency, hc, hf⟩
  · exact hs.begin hc hf
  · exact hs.of_perm hc hf
  · exact hs.perform hsteady ha he hc hf hf'
  · exact hs.access hc hf

omit [EquivBEq κ] [LawfulHashable κ] in
/-- Without a call that only had to insert. -/
theorem Level.finish (hs : s.Level) {key : κ} {entry : Entry ν w} (hc : t.cache = s.cache)
    (hf : s.inFlight.Perm (.insert key entry :: t.inFlight)) : t.Level where
  routed := hc ▸ hs.routed
  update u hin := hs.update u (hf.symm.subset (List.mem_cons_of_mem _ hin))
  account g := by
    have haccount := hs.account g
    simp only [Weight.sum_perm hf, Weight.sum_cons, Weight.of, Nat.zero_add] at haccount
    rw [hc]
    exact haccount
  covered g k := by
    have hcovered := hs.covered g k
    simp only [Weight.sum_perm hf, Weight.sum_cons, Weight.of, Nat.zero_add] at hcovered
    rw [hc]
    exact hcovered

theorem Steady.accommodates (h : s.Steady checks choice) : s.Accommodates checks choice := by
  cases choice with
  | start op | access i key clockBit frequency => trivial
  | advance j => exact fun a ha => (h.2 a ha).1

theorem stepOrPanic_level (hs : s.Level) (hconsistent : s.Consistent checks)
    (hsteady : s.Steady checks choice) (h : stepOrPanic checks s choice = some (shown, t)) :
    t.Level := by
  rw [stepOrPanic, Execution.withFailures] at h
  split at h
  · next u hpanic =>
    cases h
    cases checks with
    | false =>
      rw [calm_unchecked s choice] at hpanic
      cases hpanic
    | true =>
      obtain ⟨j, key, entry, hnext, rfl⟩ :=
        unwound_harmless (hconsistent.sound rfl) hsteady.accommodates hpanic
      exact hs.finish rfl (hconsistent.fresh.inFlight_finish hnext)
  · exact step_level hs hsteady h

theorem level {maxSizeBytes : BitVec w} {trace : List (Event κ ν w)}
    (h : Execution (stepOrPanic checks) (Steady checks) (start maxSizeBytes) trace s) : s.Level :=
  (h.state_invariant (P := fun s => s.Level ∧ s.Consistent checks)
    ⟨level_start maxSizeBytes, consistent_start maxSizeBytes⟩
    fun _ _ _ _ hs hsteady hstep => ⟨stepOrPanic_level hs.1 hs.2 hsteady hstep,
      stepOrPanic_consistent hs.2 hsteady.accommodates hstep⟩).1

/-- Whatever the interleaving, if no step takes out, or makes smaller, an entry that is still
to be counted, and none panics where it replaces one, then at every point no call is about to take
more off a counter than it holds, and `size()` and `len()` are at most what is stored and what has
still to be taken off. -/
theorem counters_stay_solvent (checks : Bool) (maxSizeBytes : BitVec w)
    {trace : List (Event κ ν w)} {s : System κ ν w n}
    (h : Execution (stepOrPanic checks) (Steady checks) (start maxSizeBytes) trace s) :
    s.Solvent ∧ s.cache.size.toNat ≤ s.cache.byteTotal + Gauge.bytes.departing.sum s.inFlight ∧
      s.cache.len.toNat ≤ s.cache.entryTotal + Gauge.entries.departing.sum s.inFlight := by
  have hs := level h
  refine ⟨fun j a ha => ?_, ?_, ?_⟩
  · obtain ⟨call, hcall, hhead⟩ := Option.bind_eq_some_iff.mp ha
    have hin : a ∈ s.inFlight := List.mem_flatMap.mpr
      ⟨call, List.mem_of_getElem? hcall, List.mem_of_mem_head? hhead⟩
    exact ⟨(Weight.of_le_sum hin).trans (hs.departing_le .bytes),
      (Weight.of_le_sum hin).trans (hs.departing_le .entries)⟩
  · rw [Cache.byteTotal_eq]
    exact Nat.le.intro (hs.account .bytes)
  · rw [Cache.entryTotal_eq]
    exact Nat.le.intro (hs.account .entries)

/-- An entry is replaced by a larger one before it is counted, and removed when both
insertions have counted it; in between an insertion panics before it changes anything. -/
def patient : List (Choice Nat Unit 64 2) :=
  [.start (.insert 0 (.new () 10 .standard)), .advance 0,
    .start (.insert 2 (.new () (2 ^ 64 - 3) .standard)), .advance 1,
    .start (.insert 0 (.new () 12 .standard)), .advance 1, .advance 1] ++
    List.replicate 3 (.advance 0) ++ [.start (.remove 0), .advance 2]

theorem counters_stay_solvent_patient :
    ∃ trace s a, Execution (stepOrPanic true) (Steady true)
        (start 100 : System Nat Unit 64 2) trace s ∧
      s.next 2 = some a ∧ Gauge.bytes.departing.of a = 12 ∧
      Gauge.bytes.departing.of a ≤ s.cache.size.toNat := by
  have hend : ((Execution.play (stepOrPanic true) (Steady true) (start 100) patient).map fun r =>
      (r.2.next 2).any fun a => Gauge.bytes.departing.of a == 12) = some true := by decide +kernel
  obtain ⟨⟨trace, s⟩, hplay, hs⟩ := Option.map_eq_some_iff.mp hend
  obtain ⟨a, hnext, hloss⟩ := (Option.any_eq_true _ _).mp hs
  have hexec := Execution.of_play hplay
  exact ⟨trace, s, a, hexec, hnext, eq_of_beq hloss,
    ((counters_stay_solvent true 100 hexec).1 2 a hnext).1⟩

/-- `remove` finds the entry of an insertion that has released the lock and counted nothing. -/
def hasty : List (Choice Nat Unit 64 2) :=
  [.start (.insert 0 (.new () 10 .standard)), .advance 0, .start (.remove 0), .advance 1]

/-- Ten bytes are taken off a counter of zero: `size()` wraps, with the insertion and the
removal still in progress. -/
theorem uncounted_removal_wraps :
    ∃ trace s shown t,
      Execution (step false) (fun _ _ => True) (start 100 : System Nat Unit 64 2) trace s ∧
      ¬ s.Solvent ∧ step false s (.advance 1) = some (shown, t) ∧
      t.cache.size.toNat = 2 ^ 64 - 10 := by
  have hend : ((Execution.play (step false) (fun _ _ => True) (start 100) hasty).map fun r =>
      ((r.2.next 1).any fun a => Gauge.bytes.departing.of a == 10) && (r.2.cache.size == 0 &&
        (step false r.2 (.advance 1)).any fun q => q.2.cache.size.toNat == 2 ^ 64 - 10)) =
          some true := by decide +kernel
  obtain ⟨⟨trace, s⟩, hplay, hs⟩ := Option.map_eq_some_iff.mp hend
  obtain ⟨hnext, hs⟩ := Bool.and_eq_true_iff.mp hs
  obtain ⟨hzero, hwrap⟩ := Bool.and_eq_true_iff.mp hs
  obtain ⟨a, ha, hloss⟩ := (Option.any_eq_true _ _).mp hnext
  obtain ⟨⟨shown, t⟩, ht, hsize⟩ := (Option.any_eq_true _ _).mp hwrap
  refine ⟨trace, s, shown, t, Execution.of_play hplay, fun hsolvent => ?_, ht, eq_of_beq hsize⟩
  have hle := (hsolvent 1 a ha).1
  rw [eq_of_beq hloss, eq_of_beq hzero] at hle
  exact absurd hle (by decide)

end System

end PriorityLfu
