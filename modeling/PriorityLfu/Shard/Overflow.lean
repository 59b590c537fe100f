import PriorityLfu.Shard.Capacity

/-!
# Insertions of any size

Nothing bounds the sizes here. `demand` is the sum that the eviction loop starts from, as a
number: the total without the replaced entry, and the new size. If it is a word, the insertion
is exact. If it is not, an overflow check fires, which is harmless only before anything was
changed; without checks the sum wraps, which is harmless only if it is found too large even so.
-/
namespace PriorityLfu
open Keyed

variable {κ ν : Type} {w : Nat} [BEq κ] [Hashable κ]

namespace Shard

/-- The total is the exact sum of the sizes, and within the capacity unless there is only one
entry. -/
structure Exact (s : Shard κ ν w) : Prop where
  size : s.sizeCurrent.toNat = s.totalSize
  bounded : s.sizeCurrent ≤ s.sizeCapacity ∨ ∃ e, s.entries.values = [e]

/-- Entries, buckets and total are the same. -/
structure Unchanged (s t : Shard κ ν w) : Prop where
  entries : t.entries = s.entries
  buckets : t.buckets = s.buckets
  sizeCurrent : t.sizeCurrent = s.sizeCurrent

/-- The sum that the eviction loop starts from. -/
def demand (s : Shard κ ν w) (key : κ) (x : BitVec w) : Nat :=
  s.sizeCurrent.toNat - s.sizeAt key + x.toNat

/-- The sum is a word; or with checks, the key is absent, and without, the sum exceeds the
capacity even when it has wrapped. -/
def Withstands (s : Shard κ ν w) (checks : Bool) (key : κ) (x : BitVec w) : Prop :=
  s.demand key x < 2 ^ w ∨
    if checks then s.entries.get? key = none
    else s.sizeCapacity.toNat + 2 ^ w < s.demand key x

variable {checks : Bool} {s t u d : Shard κ ν w} {key : κ} {entry : Entry ν w}
  {needed : BitVec w} {stats : EvictionStats w} {evicted : List (EvictedEntry κ ν w)}

theorem Sound.exact (hs : s.Sound) : s.Exact where
  size := hs.size
  bounded := hs.bounded.imp id fun ⟨e, he, _⟩ => ⟨e, he⟩

/-- The links complete an exact shard to a sound one. -/
theorem Exact.sound (h : s.Exact) (hl : s.Linked nowhere) : s.Sound where
  linked := hl
  size := h.size
  bounded := by
    rcases h.bounded with hle | ⟨e, he⟩
    · exact .inl hle
    · by_cases hle : s.sizeCurrent ≤ s.sizeCapacity
      · exact .inl hle
      · refine .inr ⟨e, he, ?_⟩
        have hsize := h.size
        rw [totalSize, he, List.map_singleton, List.sum_singleton] at hsize
        rwa [BitVec.not_le, BitVec.eq_of_toNat_eq hsize] at hle

theorem Unchanged.sound (h : s.Unchanged t) (hcap : t.sizeCapacity = s.sizeCapacity)
    (hs : s.Sound) : t.Sound := by
  obtain ⟨he, hb, hc⟩ := h
  obtain ⟨te, tb, tc, tcap⟩ := t
  obtain ⟨se, sb, sc, scap⟩ := s
  cases he
  cases hb
  cases hc
  cases hcap
  exact hs

variable [EquivBEq κ] [LawfulHashable κ]

/-- An insertion is exact, or panics and leaves the shard as it was. -/
structure InsertsCleanly (s : Shard κ ν w) (checks : Bool) (key : κ) (entry : Entry ν w) :
    Prop where
  returned : ∀ r t, s.insert checks key entry = .ok r t → t.Exact
  panicked : ∀ t, s.insert checks key entry = .panic t → s.Unchanged t

/-! ## The first addition overflows -/

omit [LawfulHashable κ] in
theorem evictWhile_overflow (h : Word.add checks s.sizeCurrent needed = none) (p : CachePolicy)
    (rounds : Nat) : evictWhile checks needed p rounds s stats evicted = .panic s := by
  cases rounds <;> rw [evictWhile, h] <;> rfl

omit [LawfulHashable κ] in
/-- An overflow check in the eviction loop fires before the loop changes anything. -/
theorem evictUntilSpace_overflow (h : Word.add checks s.sizeCurrent needed = none) :
    s.evictUntilSpace checks needed = .panic s := by
  simp [evictUntilSpace, CachePolicy.evictionOrder, evictBuckets, evictWhile_overflow h]

theorem insert_overflow (hdet : s.detach checks key = .ok () d)
    (h : Word.add checks d.sizeCurrent entry.size = none) :
    s.insert checks key entry = .panic d := by
  simp [insert, hdet, evictUntilSpace_overflow h]

/-- A key that left its bucket has changed the buckets. -/
theorem detach_changes {old : Entry ν w} (hl : s.Linked nowhere)
    (hget : s.entries.get? key = some old) (h : s.detach checks key = .ok () d) :
    d.buckets ≠ s.buckets := by
  intro hb
  have hd := (detach_cases hl h).1
  have hin : (s.buckets old.policy).list.contains key = true :=
    (hl.mem old.policy key).mpr ⟨policyOf_of_get? hget, rfl⟩
  rw [← hb, hd.mem] at hin
  simp at hin

/-! ## The sum wraps -/

/-- The exact sum once the new entry is stored is the one the loop started from, less what was
evicted. -/
theorem InsertSteps.totalSize_eq {vs : List (Eviction κ ν w)}
    (h : InsertSteps checks key entry s d t vs u) (hs : s.Sound) :
    t.Evicting key ∧ u.totalSize = t.sizeCurrent.toNat + entry.size.toNat ∧
      t.sizeCurrent.toNat + (vs.map fun v => v.victim.entry.size.toNat).sum =
        s.sizeCurrent.toNat - s.sizeAt key := by
  obtain ⟨hd, hcur⟩ := detach_evicting hs.linked hs.size h.detach
  obtain ⟨ht, hsum⟩ := h.evictions.evicting hd
  exact ⟨ht, ht.totalSize_put h.entries, hsum.trans hcur⟩

/-- A wrapped sum that is within the capacity is taken for the sum. -/
theorem not_exact_of_wraps {vs : List (Eviction κ ν w)} (hs : s.Sound)
    (h : InsertSteps false key entry s d t vs u) (hover : 2 ^ w ≤ s.demand key entry.size)
    (hle : s.demand key entry.size ≤ s.sizeCapacity.toNat + 2 ^ w) : ¬ u.Exact := by
  obtain ⟨hdl, -, hcap, -⟩ := detach_cases hs.linked h.detach
  obtain ⟨hd, hcur⟩ := detach_evicting hs.linked hs.size h.detach
  have hwraps := Word.toNat_add_wraps (x := d.sizeCurrent) (y := entry.size)
    (by rw [hcur]; exact hover)
  have hfits : d.sizeCurrent + entry.size ≤ d.sizeCapacity := by
    rw [hcap, BitVec.le_def]
    simp only [demand] at hle
    omega
  have hnone : vs = [] ∧ t = d := by
    cases h.evictions with
    | nil => exact ⟨rfl, rfl⟩
    | cons full =>
      obtain ⟨total, hadd, hlt⟩ := full
      rw [Word.eq_add hadd] at hlt
      exact absurd hfits (BitVec.not_le.mpr hlt)
  obtain ⟨rfl, rfl⟩ := hnone
  intro hexact
  have hsize := hexact.size
  rw [hd.totalSize_put h.entries, Word.eq_add h.sizeCurrent] at hsize
  have hpos := Nat.two_pow_pos w
  omega

/-- The first eviction from a shard with one entry takes all there is. -/
theorem Evictions.sizeCurrent_eq_zero {vs : List (Eviction κ ν w)} {v : Eviction κ ν w}
    (h : Evictions checks needed d (v :: vs) t) (hd : d.Evicting key)
    (hlen : d.entries.len = 1) : t.sizeCurrent.toNat = 0 := by
  obtain ⟨ht, hsum⟩ := h.evicting hd
  cases h with
  | @cons _ rest _ _ _ _ _ _ call _ =>
    obtain ⟨he, -⟩ := evicts_of_call hd.linked call
    have hlenRest := he.len_eq
    have htotal := he.totalSize_eq
    have hsize := hd.size
    have hnone : rest.entries.len = 0 := by omega
    have hnil : rest.entries.toList = [] := List.eq_nil_of_length_eq_zero hnone
    have hzero : rest.totalSize = 0 := by simp [totalSize, HashMap.values, hnil]
    simp only [List.map_cons, List.sum_cons] at hsum
    omega

/-- A wrapped sum beyond the capacity starts evictions: only an oversized entry makes the sum
wrap so far, and it goes. -/
theorem exact_of_wraps {vs : List (Eviction κ ν w)} (hs : s.Sound)
    (h : InsertSteps false key entry s d t vs u)
    (hlt : s.sizeCapacity.toNat + 2 ^ w < s.demand key entry.size) : u.Exact := by
  obtain ⟨hdl, hde, hcap, -⟩ := detach_cases hs.linked h.detach
  obtain ⟨hd, hcur⟩ := detach_evicting hs.linked hs.size h.detach
  have hx := entry.size.isLt
  simp only [demand] at hlt
  have hlen : d.entries.len = 1 := by
    rcases hs.bounded with hle | ⟨e, he, -⟩
    · have hle' : s.sizeCurrent.toNat ≤ s.sizeCapacity.toNat := hle
      omega
    · rw [hde, ← HashMap.length_values, he]
      rfl
  have hzero : t.sizeCurrent.toNat = 0 := by
    have hev := h.evictions
    cases vs with
    | cons v vs => exact hev.sizeCurrent_eq_zero hd hlen
    | nil =>
      obtain rfl : d = t := by cases hev; rfl
      rcases h.exit with ⟨total, hadd, hle⟩ | hempty
      · have hwraps := Word.toNat_add_wraps (x := d.sizeCurrent) (y := entry.size) (by omega)
        rw [Word.eq_add hadd, BitVec.le_def, hcap] at hle
        omega
      · rw [(hd.alone hempty entry).2]
        rfl
  obtain ⟨ht, -, -⟩ := h.totalSize_eq hs
  have hfits : t.sizeCurrent.toNat + entry.size.toNat < 2 ^ w := by omega
  have hstore := ht.store hfits h.exit h.entries h.buckets (Word.eq_add h.sizeCurrent)
    h.sizeCapacity
  exact hstore.1.exact

/-! ## Insertions -/

theorem InsertsCleanly.of_returns {r : Option (Entry ν w) × EvictionStats w ×
    List (EvictedEntry κ ν w)} (h : s.insert checks key entry = .ok r t) (ht : t.Exact) :
    s.InsertsCleanly checks key entry where
  returned r' t' h' := by
    rw [h] at h'
    cases h'
    exact ht
  panicked t' h' := by
    rw [h] at h'
    cases h'

theorem InsertsCleanly.of_panics (h : s.insert checks key entry = .panic t) (ht : s.Unchanged t) :
    s.InsertsCleanly checks key entry where
  returned r' t' h' := by
    rw [h] at h'
    cases h'
  panicked t' h' := by
    rw [h] at h'
    cases h'
    exact ht

theorem insertsCleanly_of_fits (hs : s.Sound) (hfits : s.demand key entry.size < 2 ^ w) :
    s.InsertsCleanly checks key entry := by
  obtain ⟨old, stats, evicted, u, hu, hsound, -⟩ := insert_returns_of_fits hs checks key hfits
  exact .of_returns hu hsound.exact

/-- With checks an overflow panics once the key is detached. -/
theorem insert_panics (hs : s.Sound) (hover : 2 ^ w ≤ s.demand key entry.size) :
    ∃ d, s.detach true key = .ok () d ∧ s.insert true key entry = .panic d := by
  obtain ⟨d, hdet, -⟩ := detach_returns hs true key
  obtain ⟨-, hcur⟩ := detach_evicting hs.linked hs.size hdet
  have hadd : Word.add true d.sizeCurrent entry.size = none :=
    Word.add_overflows (by rw [hcur]; exact hover)
  exact ⟨d, hdet, insert_overflow hdet hadd⟩

/-- An insertion into a sound shard can only panic before it evicts anything. -/
theorem insert_returns_or_panics (hs : s.Sound) (checks : Bool) (key : κ) (entry : Entry ν w) :
    (∃ r t, s.insert checks key entry = .ok r t) ∨
      ∃ d, s.detach checks key = .ok () d ∧ s.insert checks key entry = .panic d := by
  by_cases hfits : s.demand key entry.size < 2 ^ w
  · obtain ⟨old, stats, evicted, t, ht, -⟩ := insert_returns_of_fits hs checks key hfits
    exact .inl ⟨_, t, ht⟩
  · cases checks with
    | false => exact .inl (insert_unchecked s key entry)
    | true => exact .inr (insert_panics hs (Nat.le_of_not_lt hfits))

/-- An insertion of a new key that panics leaves the shard as it was. -/
theorem eq_of_insert_panics (hs : s.Sound) (hget : s.entries.get? key = none)
    (h : s.insert checks key entry = .panic t) : t = s := by
  obtain ⟨old, d, hret⟩ | ⟨d, hdet, hpanic⟩ := insert_returns_or_panics hs checks key entry
  · rw [hret] at h
    cases h
  · rw [hpanic] at h
    cases h
    rw [detach, hget] at hdet
    cases hdet
    rfl

/-- With checks an insertion that returns is exact. -/
theorem Sound.insert_checked (hs : s.Sound) {r : Option (Entry ν w) × EvictionStats w ×
    List (EvictedEntry κ ν w)} (h : s.insert true key entry = .ok r t) : t.Sound := by
  by_cases hfits : s.demand key entry.size < 2 ^ w
  · obtain ⟨old, stats, evicted, u, hok, hu, -⟩ := insert_returns_of_fits hs true key hfits
    rw [hok] at h
    cases h
    exact hu
  · obtain ⟨d, -, hpanic⟩ := insert_panics hs (Nat.le_of_not_lt hfits)
    rw [hpanic] at h
    cases h

/-- That is harmless only if there was nothing to detach. -/
theorem insertsCleanly_checked_iff (hs : s.Sound) (hover : 2 ^ w ≤ s.demand key entry.size) :
    s.InsertsCleanly true key entry ↔ s.entries.get? key = none := by
  obtain ⟨d, hdet, hpanic⟩ := insert_panics hs hover
  constructor
  · intro h
    cases hget : s.entries.get? key with
    | none => rfl
    | some old => exact absurd (h.panicked d hpanic).buckets (detach_changes hs.linked hget hdet)
  · intro hget
    obtain rfl := eq_of_insert_panics hs hget hpanic
    exact .of_panics hpanic ⟨rfl, rfl, rfl⟩

/-- Without checks the sum has to be found too large. -/
theorem insertsCleanly_unchecked_iff (hs : s.Sound)
    (hover : 2 ^ w ≤ s.demand key entry.size) : s.InsertsCleanly false key entry ↔
      s.sizeCapacity.toNat + 2 ^ w < s.demand key entry.size := by
  obtain ⟨⟨old, stats, evicted⟩, u, hu⟩ := insert_unchecked s key entry
  obtain ⟨d, t, vs, hsteps, -⟩ := insert_cases hs.linked hu
  constructor
  · intro h
    by_contra hle
    exact not_exact_of_wraps hs hsteps hover (Nat.le_of_not_lt hle) (h.returned _ _ hu)
  · intro hlt
    exact .of_returns hu (exact_of_wraps hs hsteps hlt)

/-- An insertion into a sound shard is exact or leaves the shard as it was, exactly if it
withstands the overflow. -/
theorem insertsCleanly_iff (hs : s.Sound) (checks : Bool) (key : κ) (entry : Entry ν w) :
    s.InsertsCleanly checks key entry ↔ s.Withstands checks key entry.size := by
  by_cases hfits : s.demand key entry.size < 2 ^ w
  · exact iff_of_true (insertsCleanly_of_fits hs hfits) (Or.inl hfits)
  · have hover : 2 ^ w ≤ s.demand key entry.size := Nat.le_of_not_lt hfits
    rw [Withstands, or_iff_right hfits]
    cases checks with
    | true => exact insertsCleanly_checked_iff hs hover
    | false => exact insertsCleanly_unchecked_iff hs hover

/-! ## Runs -/

/-- A call is clean if it is not an insertion, or a clean one. -/
def CleanCall (checks : Bool) (s : Shard κ ν w) : ShardOp κ ν w → Prop
  | .insert key entry => s.InsertsCleanly checks key entry
  | _ => True

def WithstandsCall (checks : Bool) (s : Shard κ ν w) : ShardOp κ ν w → Prop
  | .insert key entry => s.Withstands checks key entry.size
  | _ => True

theorem sound_of_cleanCall (hs : s.Sound) {op : ShardOp κ ν w} (h : s.CleanCall checks op) :
    (step checks s op).state.Sound := by
  have hreturns : op.sizes = [] → (step checks s op).state.Sound := by
    intro hnone
    have hadmits : ∀ x ∈ op.sizes, s.Admits x := by simp [hnone]
    obtain ⟨r, t, ht, hsound, -⟩ := step_returns hs checks hadmits
    rw [ht]
    exact hsound
  cases op with
  | insert key entry =>
    rcases insert_returns_or_panics hs checks key entry with ⟨r, t, ht⟩ | ⟨d, hdet, hd⟩
    · have hstep : step checks s (.insert key entry) = .ok (.inserted r.1 r.2.1 r.2.2) t := by
        simp [step, ht]
      rw [hstep]
      exact (h.returned r t ht).sound (step_linked hs.linked hstep)
    · have hstep : step checks s (.insert key entry) = .panic d := by simp [step, hd]
      rw [hstep]
      exact (h.panicked d hd).sound (detach_cases hs.linked hdet).2.2.1 hs
  | get hash equals => exact hreturns rfl
  | remove key => exact hreturns rfl
  | drain => exact hreturns rfl
  | clear => exact hreturns rfl

/-- In a run that goes on after panics all insertions are exact or leave the shard as it was,
exactly if each of them withstands the overflow, in the state that it finds. -/
theorem clean_throughout_iff (checks : Bool) (cap : BitVec w) (ops : List (ShardOp κ ν w)) :
    Outcome.Throughout (step checks) (CleanCall checks) (new cap) ops ↔
      Outcome.Throughout (step checks) (WithstandsCall checks) (new cap) ops := by
  refine Outcome.throughout_congr (fun s op hs => ?_) (fun s op hs h => sound_of_cleanCall hs h)
    (sound_new cap)
  cases op with
  | insert key entry => exact insertsCleanly_iff hs checks key entry
  | _ => rfl

/-- A new entry that overflows the total, and a replacement that makes room for another. -/
def crowded : List (ShardOp Nat Unit 64) :=
  [.insert 1 (.new () 100 .standard), .insert 2 (.new () 60 .standard),
    .insert 3 (.new () (2 ^ 64 - 6) .standard), .insert 1 (.new () 150 .standard)]

theorem clean_throughout_iff_crowded :
    (step true (step true (step true (new 200) (.insert 1 (.new () 100 .standard))).state
      (.insert 2 (.new () 60 .standard))).state
      (.insert 3 (.new () (2 ^ 64 - 6) .standard)) : Outcome (Shard Nat Unit 64) _).value?.isNone ∧
      Outcome.Throughout (step true) (CleanCall true) (new 200) crowded :=
  ⟨by decide +kernel, (clean_throughout_iff true 200 crowded).mpr
    ⟨.inl (by decide +kernel), .inl (by decide +kernel), .inr (by decide +kernel),
      .inl (by decide +kernel), trivial⟩⟩

/-- The key of the grown entry stays out of its bucket. -/
def grown : List (ShardOp Nat Unit 64) :=
  [.insert 1 (.new () 100 .standard), .insert 2 (.new () 20 .standard),
    .insert 1 (.new () (2 ^ 64 - 6) .standard)]

/-- The two entries pass for 44 bytes. -/
def overfilled : List (ShardOp Nat Unit 64) :=
  [.insert 1 (.new () 100 .standard), .insert 2 (.new () (2 ^ 64 - 56) .standard)]

theorem overflow_breaks_insertions :
    ¬ Outcome.Throughout (step true) (CleanCall true) (new 200) grown ∧
      ¬ Outcome.Throughout (step false) (CleanCall false) (new 200) overfilled := by
  constructor
  · rintro ⟨-, -, h, -⟩
    have hnone : ((step true (step true (new 200) (.insert 1 (.new () 100 .standard))).state
        (.insert 2 (.new () 20 .standard)) : Outcome (Shard Nat Unit 64) _).state.insert true
        1 (.new () (2 ^ 64 - 6) .standard)).value?.isNone := by decide +kernel
    have hpanic := Outcome.eq_panic (Option.isNone_iff_eq_none.mp hnone)
    have hbuckets := congrFun (h.panicked _ hpanic).buckets .standard
    exact absurd (congrArg PolicyBucket.len hbuckets) (by decide +kernel)
  · rintro ⟨-, h, -⟩
    obtain ⟨r, t, ht⟩ := insert_unchecked
      (step false (new 200) (.insert 1 (.new () 100 .standard)) :
        Outcome (Shard Nat Unit 64) _).state 2 (.new () (2 ^ 64 - 56) .standard)
    have hstate : Outcome.state _ = t := congrArg Outcome.state ht
    have hsize := (h.returned r t ht).size
    rw [← hstate] at hsize
    exact absurd hsize (by decide +kernel)

end Shard
end PriorityLfu
