import PriorityLfu.Concurrent.Guards

/-!
# Linearizability

The plain map that the cache is for its users, as an atomic object. An insertion sets its key,
returns what was there, and may make the map lose other keys, each of which it reports to
`on_evict`. A removal deletes its key, a lookup reads. `clear` is no single instant: it empties
shard after shard. Every history of calls and lookups on the shared cache is a history of this
object, so each call and each shard of a `clear` takes effect in one instant between request and
answer.
-/
namespace PriorityLfu
open Keyed

variable {κ ν : Type} {w n : Nat} [BEq κ] [Hashable κ] [NeZero n]

/-! ## The plain map -/

/-- Values with their sizes and policies under keys. -/
abbrev Contents (κ ν : Type) (w : Nat) : Type := κ → Option (ν × BitVec w × CachePolicy)

/-- What takes effect in one instant. -/
inductive Part (κ ν : Type) (w n : Nat) where
  | insert (key : κ) (entry : Entry ν w)
  | remove (key : κ)
  | drain (i : Fin n)
  | look (op : Lookup κ)

def Request.parts : Request κ ν w → List (Part κ ν w n)
  | .call (.insert key entry) => [.insert key entry]
  | .call (.remove key) => [.remove key]
  | .call .clear => (List.finRange n).map .drain
  | .look op => [.look op]

section parts

variable {req : Request κ ν w} {key : κ} {entry : Entry ν w} {op : Lookup κ}

omit [BEq κ] [Hashable κ] [NeZero n] in
theorem Request.eq_of_insert_mem (h : (.insert key entry : Part κ ν w n) ∈ req.parts) :
    req = .call (.insert key entry) := by
  cases req with
  | look op' => simp [parts] at h
  | call op' => cases op' <;> simp_all [parts]

omit [BEq κ] [Hashable κ] [NeZero n] in
theorem Request.eq_of_remove_mem (h : (.remove key : Part κ ν w n) ∈ req.parts) :
    req = .call (.remove key) := by
  cases req with
  | look op' => simp [parts] at h
  | call op' => cases op' <;> simp_all [parts]

omit [BEq κ] [Hashable κ] [NeZero n] in
theorem Request.eq_of_look_mem (h : (.look op : Part κ ν w n) ∈ req.parts) :
    req = .look op := by
  cases req with
  | look op' => simp_all [parts]
  | call op' => cases op' <;> simp_all [parts]

end parts

namespace Contents

/-- The keys are present in `m`, and no two are equal. -/
structure Lists (m : Contents κ ν w) (keys : List κ) : Prop where
  present : ∀ k ∈ keys, m k ≠ none
  distinct : keys.Pairwise fun a b => (a == b) = false

/-- What a part can do to the map, with its answer and the hooks it owes. -/
inductive Effect (m : Contents κ ν w) :
    Part κ ν w n → Answer ν w → List (Hook κ) → Contents κ ν w → Prop
  | insert {key : κ} {entry : Entry ν w} {old : Option (Entry ν w)} {lost : List κ}
    (hold : old.map Entry.content = m key) (hlost : m.Lists lost)
    (hkey : ∀ k ∈ lost, (key == k) = false) :
    Effect m (.insert key entry) (.result old) (lost.map .onEvict) fun k =>
      if key == k then some entry.content else if lost.any (· == k) then none else m k
  | absent {key : κ} (hnone : m key = none) : Effect m (.remove key) (.result none) [] m
  | remove {key k₀ : κ} {e : Entry ν w} (hkey : (key == k₀) = true)
    (hsome : m key = some e.content) :
    Effect m (.remove key) (.result (some e)) [.onRemove k₀] fun k => if key == k then none else m k
  | drain {i : Fin n} {left : List κ} (hleft : m.Lists left)
    (hall : ∀ k, left.any (· == k) = true ↔ getShard w n (hash k) = i ∧ m k ≠ none) :
    Effect m (.drain i) (.result none) (left.map .onClear) fun k =>
      if getShard w n (hash k) = i then none else m k
  | hit {op : Lookup κ} {key : κ} {x : ν × BitVec w × CachePolicy} (hkind : op.kind ≠ .contains)
    (hhash : hash key = op.hash) (hequals : op.equals key = true) (hx : m key = some x) :
    Effect m (.look op) (.found (.value (some x.1))) [] m
  | miss {op : Lookup κ} (hkind : op.kind ≠ .contains)
    (hnone : ∀ k, hash k = op.hash → (∀ k', (k == k') = true → op.equals k' = true) → m k = none) :
    Effect m (.look op) (.found (.value none)) [] m
  | present {op : Lookup κ} {key : κ} (hkind : op.kind = .contains) (hhash : hash key = op.hash)
    (hequals : op.equals key = true) (hkey : m key ≠ none) :
    Effect m (.look op) (.found (.present true)) [] m
  | missing {op : Lookup κ} (hkind : op.kind = .contains)
    (hnone : ∀ k, hash k = op.hash → (∀ k', (k == k') = true → op.equals k' = true) → m k = none) :
    Effect m (.look op) (.found (.present false)) [] m

end Contents

/-- The specification of the cache: a map that starts empty. -/
def plainMap (κ ν : Type) (w n : Nat) [BEq κ] [Hashable κ] [NeZero n] :
    Atomic.Spec (Contents κ ν w) (Request κ ν w) (Part κ ν w n) (Answer ν w) (Hook κ) where
  start := fun _ => none
  parts := Request.parts
  effect := Contents.Effect

@[simp] theorem parts_plainMap (op : Request κ ν w) :
    (plainMap κ ν w n).parts op = op.parts := rfl

/-! ## The abstraction -/

/-- A call or a lookup as it is in progress on the plain map. -/
abbrev Pending (κ ν : Type) (w n : Nat) : Type :=
  Atomic.Pending (Request κ ν w) (Part κ ν w n) (Answer ν w) (Hook κ)

def Action.part : Action κ ν w n → Option (Part κ ν w n)
  | .insert key entry => some (.insert key entry)
  | .remove key => some (.remove key)
  | .drain i => some (.drain i)
  | _ => none

def Action.hook? : Action κ ν w n → Option (Hook κ)
  | .hook h => some h
  | _ => none

namespace Call

def parts (c : Call κ ν w n) : List (Part κ ν w n) := c.todo.filterMap Action.part

def hooks (c : Call κ ν w n) : List (Hook κ) := c.todo.filterMap Action.hook?

/-- A call has its result once a part of it took effect. -/
def abs (c : Call κ ν w n) : Pending κ ν w n where
  op := .call c.op
  todo := c.parts
  answer :=
    if c.parts.length = (Request.call c.op).parts (n := n).length then none
    else some (.result c.result)
  owed := c.hooks

end Call

/-- A lookup takes effect when it probes its shard. A guard is no longer in progress. -/
def Reader.abs (c : Cache κ ν w n) (r : Reader κ ν) : Option (Pending κ ν w n) :=
  match r.phase with
  | .waiting | .locked => some ⟨.look r.op, [.look r.op], none, []⟩
  | .found key _ | .hit key | .counted key =>
    some ⟨.look r.op, [], ((c.shards (r.shard w n)).contentOf key).map fun x =>
      .found (.value (some x.1)), []⟩
  | .missed => some ⟨.look r.op, [], some (.found (.value none)), []⟩
  | .guarded _ _ => none
  | .done answer => some ⟨.look r.op, [], some (.found answer), []⟩

/-- What is left of the shared cache for its users. -/
def Shared.abs (s : Shared κ ν w n) :
    Atomic.Object (Contents κ ν w) (Request κ ν w) (Part κ ν w n) (Answer ν w) (Hook κ) where
  state := s.system.cache.contentAt
  pending := s.system.calls.map Call.abs ++ s.readers.filterMap (Reader.abs s.system.cache)

variable [EquivBEq κ] [LawfulHashable κ] {checks : Bool} {c : Cache κ ν w n}
  {locked : Fin n → Bool}

/-! ## What takes effect -/

namespace System

variable {a : Action κ ν w n} {e : Effect κ ν w n}

/-- The actions an action adds are no parts. -/
theorem parts_added (h : perform checks c locked a = some e) :
    e.front.filterMap Action.part = [] ∧ e.back.filterMap Action.part = [] := by
  have hadds := perform_adds h
  have hnone : ∀ b : Action κ ν w n, b.onShard = false → b.part = none := fun b hb => by
    cases b <;> simp [Action.onShard, Action.part] at hb ⊢
  constructor <;> refine List.filterMap_eq_nil_iff.mpr fun b hb => hnone b (hadds b ?_)
  · exact List.mem_append_left _ hb
  · exact List.mem_append_right _ hb

theorem lists_victims {key : κ} {entry : Entry ν w} {vs : List (Eviction κ ν w)}
    {d : Cache κ ν w n} (h : Cache.Inserts checks key entry c vs d) (hc : c.Routed) :
    (Contents.Lists c.contentAt (vs.map fun v => v.victim.key)) ∧
      ∀ k ∈ vs.map fun v => v.victim.key, (key == k) = false := by
  refine ⟨⟨fun k hk => ?_, ?_⟩, fun k hk => ?_⟩
  · obtain ⟨v, hv, rfl⟩ := List.mem_map.mp hk
    rw [(h.victim hc hv).1]
    simp
  · exact List.pairwise_map.mpr (h.distinct hc)
  · obtain ⟨v, hv, rfl⟩ := List.mem_map.mp hk
    exact (h.victim hc hv).2

theorem lists_drained (hc : c.Routed) (i : Fin n) :
    Contents.Lists c.contentAt ((c.drainShard i).1.1.map EvictedEntry.key) ∧
      ∀ k, ((c.drainShard i).1.1.map EvictedEntry.key).any (· == k) = true ↔
        getShard w n (hash k) = i ∧ c.contentAt k ≠ none := by
  have hkeys : (c.drainShard i).1.1.map EvictedEntry.key =
      (c.shards i).entries.toList.map (·.1) := by
    simp [Cache.drainShard, Shard.drain, Function.comp_def]
  have hstored : ∀ k, (c.shards i).contentOf k ≠ none → getShard w n (hash k) = i ∧
      c.contentAt k ≠ none := fun k hk => by
    have hroute := hc.routed i k hk
    exact ⟨hroute, by rwa [Cache.contentAt, hroute]⟩
  have hany : ∀ k, ((c.shards i).entries.toList.map (·.1)).any (· == k) = true ↔
      (c.shards i).contentOf k ≠ none := fun k => by
    rw [Ne, Shard.contentOf_eq_none, HashMap.get?_eq_none_iff]
    simp [BEq.comm]
  rw [hkeys]
  refine ⟨⟨fun k hk => ?_, ?_⟩, fun k => (hany k).trans ⟨hstored k, ?_⟩⟩
  · exact (hstored k ((hany k).mp (List.any_eq_true.mpr ⟨k, hk, BEq.refl k⟩))).2
  · exact List.pairwise_map.mpr (c.shards i).entries.distinct
  · rintro ⟨hroute, hk⟩
    rwa [Cache.contentAt, hroute] at hk

/-- An action on a shard shows nothing. -/
theorem shown_of_part {p : Part κ ν w n} (ha : a.part = some p)
    (h : perform checks c locked a = some e) : e.shown = [] := by
  cases a with
  | insert key entry =>
    obtain ⟨old, stats, evicted, d, us, -, -, -, rfl⟩ := perform_insert_eq h
    rfl
  | remove key =>
    obtain ⟨r, d, -, -, ⟨-, rfl⟩ | ⟨k₀, en, -, rfl⟩⟩ := perform_remove_eq h <;> rfl
  | drain i =>
    rw [perform_drain h]
  | enter key u | update u | unlock i | hook h' => cases ha

/-- An action on a shard takes effect on the plain map. -/
theorem perform_part {p : Part κ ν w n} (hc : c.Routed) (ha : a.part = some p)
    (h : perform checks c locked a = some e) :
    Contents.Effect c.contentAt p (.result (e.result.getD none))
      ((e.front ++ e.back).filterMap Action.hook?) e.cache.contentAt := by
  cases a with
  | insert key entry =>
    cases ha
    obtain ⟨vs, s', us, hi, -, rfl⟩ := perform_insert hc h
    obtain ⟨hlost, hkey⟩ := lists_victims hi hc
    have hafter := funext (hi.contentAt_eq hc)
    have heffect : Contents.Effect (n := n) c.contentAt (.insert key entry) _ _ _ :=
      .insert (Cache.contentAt_eq_oldEntry c key).symm hlost hkey
    simp only [List.any_map, Function.comp_def, List.map_map] at heffect
    rw [hafter]
    simpa [List.filterMap_map, List.filterMap_cons, Function.comp_def, Action.hook?] using heffect
  | remove key =>
    cases ha
    rcases perform_remove hc h with ⟨rfl, hnone⟩ | ⟨k₀, en, s', hr, rfl⟩
    · exact .absent hnone
    · have hafter := funext hr.contentAt_eq
      have heffect := Contents.Effect.remove (n := n) hr.key_eq hr.contentAt_key
      rw [hafter]
      simpa [List.filterMap_map, List.filterMap_cons, Function.comp_def, Action.hook?] using heffect
  | drain i =>
    cases ha
    obtain ⟨hleft, hall⟩ := lists_drained hc i
    have heffect := Contents.Effect.drain hleft hall
    have hafter := funext (Cache.contentAt_drainShard c i)
    rw [perform_drain h, hafter]
    simpa [List.filterMap_map, List.filterMap_cons, Function.comp_def, Action.hook?] using heffect
  | enter key u | update u | unlock i | hook h' => cases ha

/-- Any other action shows its hook if it has one, and changes no content. -/
theorem perform_other (ha : a.part = none) (h : perform checks c locked a = some e) :
    e.shown = a.hook?.toList.map .hook ∧ e.result = none ∧ e.front = [] ∧ e.back = [] ∧
      e.cache.contentAt = c.contentAt := by
  have happly : ∀ u, (c.apply u).contentAt = c.contentAt := fun u =>
    funext (Cache.contentAt_congr (Cache.shards_apply c u))
  cases a with
  | insert key entry | remove key | drain i => cases ha
  | enter key u | update u =>
    cases h
    exact ⟨rfl, rfl, rfl, rfl, happly u⟩
  | unlock i | hook h' =>
    cases h
    exact ⟨rfl, rfl, rfl, rfl, rfl⟩

/-- What an insertion or a removal adds: counter updates before hooks. -/
theorem perform_shape (ha : ∀ i, a ≠ .drain i) (h : perform checks c locked a = some e) :
    e.back = [] ∧ ∃ front rear,
      e.front = front ++ rear ∧ (∀ b ∈ front, b.hook? = none) ∧ ∀ b ∈ rear, b.hook? ≠ none := by
  cases a with
  | insert key entry =>
    obtain ⟨old, stats, evicted, d, us, -, -, -, rfl⟩ := perform_insert_eq h
    refine ⟨rfl, _, _, rfl, fun b hb => ?_, fun b hb => ?_⟩
    · simp only [List.mem_append, List.mem_map] at hb
      obtain ⟨u, -, rfl⟩ | ⟨u, -, rfl⟩ := hb <;> rfl
    · obtain ⟨hook, -, rfl⟩ := List.mem_map.mp hb
      exact Option.some_ne_none _
  | remove key =>
    obtain ⟨r, d, -, -, ⟨-, rfl⟩ | ⟨k₀, en, -, rfl⟩⟩ := perform_remove_eq h
    · exact ⟨rfl, [], [], rfl, by simp, by simp⟩
    · refine ⟨rfl, (removeUpdates en).map .update ++ [.unlock (getShard w n (hash key))],
        [.hook (.onRemove k₀)], by simp, fun b hb => ?_, fun b hb => ?_⟩
      · simp only [List.mem_append, List.mem_map, List.mem_singleton] at hb
        obtain ⟨u, -, rfl⟩ | rfl := hb <;> rfl
      · rw [List.mem_singleton.mp hb]
        exact Option.some_ne_none _
  | drain i => exact absurd rfl (ha i)
  | enter key u | update u | unlock i | hook h' =>
    cases h
    exact ⟨rfl, [], [], rfl, by simp, by simp⟩

end System

/-! ## Calls in progress -/

namespace Call

/-- The actions of a call: hooks come last, an insertion and a removal take effect first, and
`clear` drains the shards in their order. -/
structure Ordered (c : Call κ ν w n) : Prop where
  hooksLast : c.todo.Pairwise fun a b => a.hook? ≠ none → b.hook? ≠ none
  single : c.op ≠ .clear → c.parts = [] ∨ c.todo = c.op.actions ∧ c.result = none
  drains : c.op = .clear → c.result = none ∧ c.parts <:+ (Request.call c.op).parts

omit [BEq κ] [EquivBEq κ] [Hashable κ] [LawfulHashable κ] in
theorem parts_ne_nil (op : CallOp κ ν w) : (Request.call op).parts (n := n) ≠ [] := by
  cases op with
  | insert key entry | remove key => exact List.cons_ne_nil _ _
  | clear =>
    have hpos : 0 < n := NeZero.pos n
    simp [Request.parts, List.finRange_eq_nil_iff]
    omega

omit [BEq κ] [EquivBEq κ] [Hashable κ] [LawfulHashable κ] [NeZero n] in
theorem hooksLast_append {front todo back : List (Action κ ν w n)}
    (hfront : ∀ a ∈ front, a.hook? = none)
    (htodo : todo.Pairwise fun a b => a.hook? ≠ none → b.hook? ≠ none)
    (hback : ∀ a ∈ back, a.hook? ≠ none) :
    (front ++ todo ++ back).Pairwise fun a b => a.hook? ≠ none → b.hook? ≠ none := by
  have hpre : front.Pairwise fun a b => a.hook? ≠ none → b.hook? ≠ none :=
    List.pairwise_iff_getElem.mpr fun i _ hi _ _ hne => absurd (hfront _ (List.getElem_mem hi)) hne
  have hpost : back.Pairwise fun a b => a.hook? ≠ none → b.hook? ≠ none :=
    List.pairwise_iff_getElem.mpr fun _ j _ hj _ _ => hback _ (List.getElem_mem hj)
  refine List.pairwise_append.mpr ⟨List.pairwise_append.mpr ⟨hpre, htodo, ?_⟩, hpost, ?_⟩
  · exact fun a ha _ _ hne => absurd (hfront a ha) hne
  · exact fun _ _ b hb _ => hback b hb

omit [BEq κ] [EquivBEq κ] [Hashable κ] [LawfulHashable κ] [NeZero n] in
theorem ordered_start (op : CallOp κ ν w) :
    (⟨op, none, op.actions⟩ : Call κ ν w n).Ordered ∧
      (⟨op, none, op.actions⟩ : Call κ ν w n).abs =
        ⟨.call op, (Request.call op).parts, none, []⟩ := by
  have hparts : (⟨op, none, op.actions⟩ : Call κ ν w n).parts = (Request.call op).parts := by
    cases op with
    | insert key entry | remove key => rfl
    | clear =>
      simp [parts, CallOp.actions, Request.parts, List.filterMap_map, Function.comp_def,
        Action.part]
  have hnone : ∀ a ∈ (op.actions : List (Action κ ν w n)), a.hook? = none := by
    cases op with
    | insert key entry | remove key => simp [CallOp.actions, Action.hook?]
    | clear =>
      simp only [CallOp.actions, List.mem_append, List.mem_map]
      rintro a (⟨i, -, rfl⟩ | ⟨u, -, rfl⟩) <;> rfl
  have hhooks : (⟨op, none, op.actions⟩ : Call κ ν w n).hooks = [] :=
    List.filterMap_eq_nil_iff.mpr hnone
  refine ⟨⟨?_, fun _ => .inr ⟨rfl, rfl⟩, fun _ => ⟨rfl, by rw [hparts]⟩⟩, ?_⟩
  · have hnil : ∀ a ∈ ([] : List (Action κ ν w n)), a.hook? ≠ none := by simp
    simpa using hooksLast_append hnone .nil hnil
  · simp [abs, hparts, hhooks]

variable {call : Call κ ν w n} {a : Action κ ν w n} {todo : List (Action κ ν w n)}
  {e : PriorityLfu.Effect κ ν w n}

omit [Hashable κ] [NeZero n] [EquivBEq κ] [LawfulHashable κ] in
@[simp] theorem op_after : (call.after todo e).op = call.op := rfl

/-- An action that changes no shard leaves the rest of the call as it is. -/
theorem Ordered.other (hcall : call.Ordered) (htodo : call.todo = a :: todo) (ha : a.part = none)
    (h : System.perform checks c locked a = some e) :
    (call.after todo e).Ordered ∧ (call.after todo e).parts = call.parts ∧
      (call.after todo e).result = call.result ∧
      call.hooks = a.hook?.toList ++ (call.after todo e).hooks ∧
      (a.hook? ≠ none → call.parts = []) := by
  obtain ⟨-, hresult, hfront, hback, -⟩ := System.perform_other ha h
  have hafter : call.after todo e = ⟨call.op, call.result, todo⟩ := by
    simp [after, hresult, hfront, hback]
  have hlast := hcall.hooksLast
  rw [htodo, List.pairwise_cons] at hlast
  have hparts : (⟨call.op, call.result, todo⟩ : Call κ ν w n).parts = call.parts := by
    rw [parts, parts, htodo, List.filterMap_cons, ha]
  rw [hafter]
  refine ⟨⟨hlast.2, fun hop => ?_, fun hop => ?_⟩, hparts, rfl, ?_, fun hhook => ?_⟩
  · rcases hcall.single hop with hnone | ⟨hactions, hres⟩
    · exact .inl (hparts.trans hnone)
    · left
      rw [htodo] at hactions
      cases hcallop : call.op with
      | clear => exact absurd hcallop hop
      | insert key entry | remove key =>
        rw [hcallop] at hactions
        cases hactions
        cases ha
  · obtain ⟨hres, hsuffix⟩ := hcall.drains hop
    exact ⟨hres, by rwa [hparts]⟩
  · rw [hooks, htodo, List.filterMap_cons]
    cases a.hook? <;> rfl
  · rw [← hparts]
    refine List.filterMap_eq_nil_iff.mpr fun b hb => ?_
    have := hlast.1 b hb hhook
    cases b <;> simp [Action.hook?, Action.part] at this ⊢

omit [EquivBEq κ] [LawfulHashable κ] [Hashable κ] [BEq κ] [NeZero n] in
/-- An insertion or a removal that has still to take effect has done nothing else. -/
theorem Ordered.fresh (hcall : call.Ordered) (hop : call.op ≠ .clear) (htodo : call.todo = a :: todo)
    (ha : a.part ≠ none) : call = ⟨call.op, none, call.op.actions⟩ ∧ call.op.actions = [a] := by
  have hparts : call.parts ≠ [] := by
    rw [parts, htodo, List.filterMap_cons]
    cases hpart : a.part with
    | none => exact absurd hpart ha
    | some p => exact List.cons_ne_nil p _
  obtain ⟨hactions, hres⟩ := (hcall.single hop).resolve_left hparts
  refine ⟨by rw [← hactions, ← hres], ?_⟩
  rw [htodo] at hactions
  cases hcallop : call.op with
  | clear => exact absurd hcallop hop
  | insert key entry | remove key =>
    rw [hcallop] at hactions
    cases hactions
    rfl

/-- An action on a shard takes the next part out. -/
theorem Ordered.part (hcall : call.Ordered) (htodo : call.todo = a :: todo) {p : Part κ ν w n}
    (ha : a.part = some p) (h : System.perform checks c locked a = some e) :
    (call.after todo e).Ordered ∧ call.parts = p :: (call.after todo e).parts ∧
      call.parts.length ≤ ((Request.call call.op).parts (n := n)).length ∧
      (call.after todo e).result = e.result.getD none ∧
      (call.after todo e).hooks = call.hooks ++ (e.front ++ e.back).filterMap Action.hook? := by
  obtain ⟨hfront, hback⟩ := System.parts_added h
  have hparts : call.parts = p :: todo.filterMap Action.part := by
    rw [parts, htodo, List.filterMap_cons, ha]
  have hafter : (call.after todo e).parts = todo.filterMap Action.part := by
    simp [after, parts, List.filterMap_append, hfront, hback]
  by_cases hop : call.op = .clear
  · obtain ⟨hres, hsuffix⟩ := hcall.drains hop
    obtain ⟨i, rfl⟩ : ∃ i, a = .drain i := by
      have hin : p ∈ (Request.call call.op).parts (n := n) :=
        hsuffix.subset (by rw [hparts]; exact List.mem_cons_self)
      rw [hop] at hin
      obtain ⟨i, -, rfl⟩ := List.mem_map.mp hin
      cases a <;> simp [Action.part] at ha
      exact ⟨i, by rw [ha]⟩
    obtain rfl := System.perform_drain h
    have hlast := hcall.hooksLast
    rw [htodo, List.pairwise_cons] at hlast
    refine ⟨⟨hooksLast_append ?_ hlast.2 ?_, fun hne => absurd hop hne, fun _ => ⟨hres, ?_⟩⟩,
      by rw [hparts, hafter], hsuffix.length_le, hres, ?_⟩
    · simp only [List.mem_append, List.mem_map, List.mem_singleton]
      rintro b (⟨u, -, rfl⟩ | rfl) <;> rfl
    · simp only [List.mem_map]
      rintro b ⟨v, -, rfl⟩
      exact Option.some_ne_none _
    · rw [hafter]
      exact (List.suffix_cons p _).trans (hparts ▸ hsuffix)
    · simp [after, hooks, htodo, List.filterMap_map, List.filterMap_cons, Function.comp_def,
        Action.hook?]
  · rcases hcall.single hop with hnone | ⟨hactions, hres⟩
    · rw [hparts] at hnone
      cases hnone
    · have honly : todo = [] ∧ a.hook? = none ∧ (∀ i, a ≠ .drain i) ∧
          ((Request.call call.op).parts (n := n)).length = 1 := by
        rw [htodo] at hactions
        cases hcallop : call.op with
        | clear => exact absurd hcallop hop
        | insert key entry | remove key =>
          rw [hcallop] at hactions
          cases hactions
          exact ⟨rfl, rfl, (fun i hi => by cases hi), rfl⟩
      obtain ⟨rfl, hhook, hdrain, hone⟩ := honly
      obtain ⟨hnil, front, rear, hsplit, hnone, hsome⟩ := System.perform_shape hdrain h
      refine ⟨⟨?_, fun _ => .inl hafter, fun hclear => absurd hclear hop⟩, by rw [hparts, hafter],
        by simp [hparts, hone], by rw [after, hres], ?_⟩
      · simpa [after, hnil, hsplit] using hooksLast_append hnone .nil hsome
      · simp [after, hooks, htodo, hhook, hnil]

/-- A call on the plain map when its next part takes effect. -/
theorem Ordered.abs_part (hcall : call.Ordered) (htodo : call.todo = a :: todo) {p : Part κ ν w n}
    (ha : a.part = some p) (h : System.perform checks c locked a = some e) :
    call.abs = ⟨.call call.op, p :: (call.after todo e).parts, call.abs.answer, call.hooks⟩ ∧
      (call.after todo e).abs = ⟨.call call.op, (call.after todo e).parts,
        some (.result (e.result.getD none)),
        call.hooks ++ (e.front ++ e.back).filterMap Action.hook?⟩ := by
  obtain ⟨-, hparts, hlen, hres, hhooks⟩ := hcall.part htodo ha h
  rw [hparts, List.length_cons] at hlen
  constructor
  · calc call.abs = ⟨.call call.op, call.parts, call.abs.answer, call.hooks⟩ := rfl
      _ = _ := by rw [hparts]
  · rw [abs, hres, hhooks, op_after, if_neg (Nat.ne_of_lt hlen)]

/-- Any other action leaves it as it is, up to the hook it calls. -/
theorem Ordered.abs_other (hcall : call.Ordered) (htodo : call.todo = a :: todo)
    (ha : a.part = none) (h : System.perform checks c locked a = some e) :
    (a.hook? = none → (call.after todo e).abs = call.abs) ∧
      ∀ hook, a.hook? = some hook → ∃ answer hooks,
        call.abs = ⟨.call call.op, [], answer, hook :: hooks⟩ ∧
        (call.after todo e).abs = ⟨.call call.op, [], answer, hooks⟩ := by
  obtain ⟨-, hparts, hres, hhooks, hnil⟩ := hcall.other htodo ha h
  have hanswer : call.abs.answer = (call.after todo e).abs.answer := by
    simp only [abs, hparts, hres, op_after]
  refine ⟨fun hhook => ?_, fun hook hhook => ?_⟩
  · rw [hhook] at hhooks
    simp only [abs, hparts, hres, hhooks]
    rfl
  · have hdone : call.parts = [] := hnil (by simp [hhook])
    rw [hhook] at hhooks
    refine ⟨call.abs.answer, (call.after todo e).hooks, ?_, ?_⟩
    · calc call.abs = ⟨.call call.op, call.parts, call.abs.answer, call.hooks⟩ := rfl
        _ = _ := by rw [hdone, hhooks]; rfl
    · calc (call.after todo e).abs = ⟨.call call.op, (call.after todo e).parts,
            (call.after todo e).abs.answer, (call.after todo e).hooks⟩ := rfl
        _ = _ := by rw [hparts, hdone, hanswer]

omit [BEq κ] [Hashable κ] [EquivBEq κ] [LawfulHashable κ] in
/-- A call with nothing left to do has only to return. -/
theorem abs_of_nil (htodo : call.todo = []) :
    call.abs = ⟨.call call.op, [], some (.result call.result), []⟩ := by
  have hne := List.length_pos_iff.mpr (parts_ne_nil (n := n) call.op)
  simp [abs, parts, hooks, htodo, Nat.ne_of_lt hne]

end Call

/-- The calls in progress keep their order of actions. -/
theorem System.step_ordered {s t : System κ ν w n} {choice : Choice κ ν w n}
    {shown : List (Event κ ν w)} (hs : ∀ call ∈ s.calls, call.Ordered)
    (h : System.step checks s choice = some (shown, t)) : ∀ call ∈ t.calls, call.Ordered := by
  rcases System.step_cases h with ⟨op, -, -, rfl⟩ | ⟨j, call, -, -, -, -, rfl⟩ |
    ⟨j, call, a, todo, e, -, hj, htodo, he, -, rfl⟩ | ⟨i, key, _, _, -, -, rfl⟩
  · intro call hcall
    rcases List.mem_append.mp hcall with hold | hnew
    · exact hs call hold
    · exact List.mem_singleton.mp hnew ▸ (Call.ordered_start op).1
  · exact fun call' hcall' => hs call' (List.mem_of_mem_eraseIdx hcall')
  · intro call' hcall'
    rcases List.mem_or_eq_of_mem_set hcall' with hold | rfl
    · exact hs call' hold
    · have hcall := hs call (List.mem_of_getElem? hj)
      cases hpart : a.part with
      | some p => exact (hcall.part htodo hpart he).1
      | none => exact (hcall.other htodo hpart he).1
  · exact hs

/-! ## Lookups in progress -/

namespace Reader

variable {r : Reader κ ν} {e : Reading κ ν w n}

omit [EquivBEq κ] [LawfulHashable κ] in
/-- A lookup that does not hold the lock, or whose shard keeps its contents, stays as it is. -/
theorem abs_congr {d : Cache κ ν w n}
    (h : r.phase.holds = true →
      ∀ k, (d.shards (r.shard w n)).contentOf k = (c.shards (r.shard w n)).contentOf k) :
    r.abs d = r.abs c := by
  cases hphase : r.phase with
  | found key stage | hit key | counted key =>
    simp only [abs, hphase, h (by rw [hphase]; rfl) key]
  | _ => simp only [abs, hphase]

omit [EquivBEq κ] in
/-- A key that the lookup accepts together with all keys equal to it is not stored when the probe
finds nothing. -/
theorem contentAt_of_fromHash_none (r : Reader κ ν)
    (h : (c.shards (r.shard w n)).entries.fromHash r.op.hash r.op.equals = none) (k : κ)
    (hhash : hash k = r.op.hash) (hequals : ∀ k', (k == k') = true → r.op.equals k' = true) :
    c.contentAt k = none := by
  rw [Cache.contentAt, hhash, Shard.contentOf_eq_none, HashMap.get?_eq_none_iff]
  intro kv hkv
  by_contra heq
  have hk : (k == kv.1) = true := Bool.eq_true_of_not_eq_false heq
  have := List.find?_eq_none.mp h kv hkv
  simp [← hash_eq hk, hhash, hequals kv.1 hk] at this

/-- What a lookup does on the plain map: nothing, or it takes effect, or it returns. -/
theorem Performs.abs (h : r.Performs c locked e) :
    (e.shown = [] ∧ (e.phase.map (Reader.mk r.op)).bind (Reader.abs c) = r.abs c) ∨
    (∃ answer, e.shown = [] ∧
      Contents.Effect (n := n) c.contentAt (.look r.op) answer [] c.contentAt ∧
      r.abs c = some ⟨.look r.op, [.look r.op], none, []⟩ ∧
      (e.phase.map (Reader.mk r.op)).bind (Reader.abs c) =
        some ⟨.look r.op, [], some answer, []⟩) ∨
    ∃ answer, e.shown = [.returned (.look r.op) answer] ∧
      r.abs c = some ⟨.look r.op, [], some answer, []⟩ ∧
      (e.phase.map (Reader.mk r.op)).bind (Reader.abs c) = none := by
  have hkey : ∀ k, hash k = r.op.hash → c.contentAt k = (c.shards (r.shard w n)).contentOf k :=
    fun k hk => by rw [Cache.contentAt, hk, shard]
  cases h with
  | lock hp hfree => exact .inl ⟨rfl, by simp [abs, hp]⟩
  | test hp hk =>
    refine .inr (.inl ⟨.found (.present _), rfl, ?_, by simp [abs, hp], rfl⟩)
    cases hprobe : (c.shards (r.shard w n)).entries.fromHash r.op.hash r.op.equals with
    | none =>
      simp only [Shard.containsHash, hprobe]
      exact .missing hk (contentAt_of_fromHash_none r hprobe)
    | some kv =>
      obtain ⟨hhash, hequals, hget⟩ := HashMap.fromHash_eq_some hprobe
      simp only [Shard.containsHash, hprobe]
      refine .present hk hhash hequals ?_
      rw [hkey _ hhash, Shard.contentOf_of_get? hget]
      exact Option.some_ne_none _
  | miss hp hk hnone =>
    exact .inr (.inl
      ⟨_, rfl, .miss hk (contentAt_of_fromHash_none r hnone), by simp [abs, hp], rfl⟩)
  | @find key en hp hk hsome =>
    obtain ⟨hhash, hequals, hget⟩ := HashMap.fromHash_eq_some hsome
    have hcontent := Shard.contentOf_of_get? hget
    refine .inr (.inl ⟨.found (.value (some en.value)), rfl, ?_, by simp [abs, hp], ?_⟩)
    · exact .hit hk hhash hequals ((hkey _ hhash).trans hcontent)
    · have hnext : (Reader.mk r.op (.found key .found) : Reader κ ν).abs c =
          some ⟨.look r.op, [], ((c.shards (r.shard w n)).contentOf key).map fun x =>
            .found (.value (some x.1)), []⟩ := rfl
      simp [hnext, hcontent, Entry.content]
  | mark hp | load hp | store hp | countHit hp =>
    exact .inl ⟨rfl, by simp [abs, hp, shard]⟩
  | @guard key en hp hk he =>
    exact .inr (.inr ⟨_, rfl, by simp [abs, hp, Shard.contentOf_of_get? he, Entry.content], rfl⟩)
  | @clone key en hp hk he =>
    exact .inl ⟨rfl, by simp [abs, hp, Shard.contentOf_of_get? he, Entry.content]⟩
  | countMiss hp => exact .inl ⟨rfl, by simp [abs, hp]⟩
  | drop hp => exact .inl ⟨rfl, by simp [abs, hp]⟩
  | finish hp => exact .inr (.inr ⟨_, rfl, by simp [abs, hp], rfl⟩)

end Reader

/-! ## The simulation -/

namespace Shared

variable {s t : Shared κ ν w n} {move : Move κ ν w} {shown : List (CacheNote κ ν w)}

/-- The order of actions does not depend on the lookups, nor does a call that panics change it. -/
theorem step_ordered (hs : ∀ call ∈ s.system.calls, call.Ordered)
    (h : Shared.stepOrPanic checks s move = some (shown, t)) :
    ∀ call ∈ t.system.calls, call.Ordered := by
  rcases stepOrPanic_cases h with hstep | ⟨j, _, _, _, _, _, -, -, -, -, -, -, rfl⟩
  · rcases step_cases hstep with ⟨op, -, -, rfl⟩ | ⟨j, events, system, -, -, hsystem, -, rfl⟩ |
      ⟨op, -, -, rfl⟩ | ⟨before, r, after, e, -, -, -, -, rfl⟩
    · have hstart : s.system.step checks (.start op) = some ([], s.system.begin op) := rfl
      exact System.step_ordered hs hstart
    · exact System.step_ordered hs hsystem
    · exact hs
    · exact hs
  · exact fun call hcall => hs call (List.mem_of_mem_eraseIdx hcall)

/-- The calls and lookups in progress. -/
structure Running (s : Shared κ ν w n) : Prop where
  held : s.Held
  ordered : ∀ call ∈ s.system.calls, call.Ordered

/-- A call on its way, on the plain map. -/
theorem runs_advance (hs : s.Running) {j : Nat} {events : List (Event κ ν w)}
    {system : System κ ν w n} (hfree : s.blocked j = false)
    (h : s.system.step checks (.advance j) = some (events, system)) :
    Atomic.Object.Runs (plainMap κ ν w n) s.abs (events.map Event.note)
      (Shared.mk system s.readers).abs := by
  have hreaders : s.readers.filterMap (Reader.abs system.cache) =
      s.readers.filterMap (Reader.abs s.system.cache) :=
    List.filterMap_congr fun r hr => Reader.abs_congr fun hholds k => by
      rw [(advance_local hfree h hr hholds).1]
  rcases System.step_cases h with ⟨op, hmove, -⟩ | ⟨j', call, hmove, hj, htodo, rfl, rfl⟩ |
    ⟨j', call, a, todo, e, hmove, hj, htodo, he, rfl, rfl⟩ | ⟨i, key, _, _, hmove, -⟩
  · cases hmove
  · cases hmove
    obtain ⟨before, after, hcalls, rfl, -, herase⟩ := List.getElem?_split hj
    have habs := Call.abs_of_nil htodo
    have hruns := Atomic.Object.runs_finish (plainMap κ ν w n) s.system.cache.contentAt
      (.call call.op) (.result call.result) (before.map Call.abs)
      (after.map Call.abs ++ s.readers.filterMap (Reader.abs s.system.cache))
    have hfinish : (s.system.finish before.length).calls = before ++ after := herase
    have hcache : (s.system.finish before.length).cache = s.system.cache := rfl
    simpa [Shared.abs, hcalls, habs, hfinish, hcache, Event.note] using hruns
  · cases hmove
    have hcall := hs.ordered call (List.mem_of_getElem? hj)
    obtain ⟨before, after, hcalls, rfl, hset, -⟩ := List.getElem?_split hj
    have habs : s.abs = ⟨s.system.cache.contentAt, before.map Call.abs ++ call.abs ::
        (after.map Call.abs ++ s.readers.filterMap (Reader.abs s.system.cache))⟩ := by
      simp [Shared.abs, hcalls]
    have habs' : (Shared.mk (s.system.resume before.length call todo e) s.readers).abs =
        ⟨e.cache.contentAt, before.map Call.abs ++ (call.after todo e).abs ::
          (after.map Call.abs ++ s.readers.filterMap (Reader.abs s.system.cache))⟩ := by
      rw [← hreaders]
      simp [Shared.abs, System.resume, hset, Call.after]
    rw [habs, habs']
    cases hpart : a.part with
    | some p =>
      obtain ⟨hbefore, hnext⟩ := hcall.abs_part htodo hpart he
      have heffect := System.perform_part hs.held.routed hpart he
      rw [System.shown_of_part hpart he, hbefore, hnext]
      exact Atomic.Object.runs_commit heffect
    | none =>
      obtain ⟨hsame, hhooks⟩ := hcall.abs_other htodo hpart he
      obtain ⟨hshown, -, -, -, hcontent⟩ := System.perform_other hpart he
      rw [hshown, hcontent]
      cases hhook : a.hook? with
      | none =>
        rw [hsame hhook]
        exact .start
      | some hook =>
        obtain ⟨answer, hooks, hbefore, hnext⟩ := hhooks hook hhook
        rw [hbefore, hnext]
        exact Atomic.Object.runs_emit (plainMap κ ν w n)
  · cases hmove

theorem Running.step (hs : s.Running) (h : Shared.step checks s move = some (shown, t)) :
    Atomic.Object.Runs (plainMap κ ν w n) s.abs shown t.abs ∧ t.Running := by
  have hcalm : Shared.stepOrPanic checks s move = some (shown, t) :=
    (Execution.withFailures_of_none (calm_of_step h)).trans h
  refine ⟨?_, hs.held.step h, step_ordered hs.ordered hcalm⟩
  rcases step_cases h with ⟨op, -, rfl, rfl⟩ | ⟨j, events, system, -, hfree, hstep, rfl, rfl⟩ |
    ⟨op, -, rfl, rfl⟩ | ⟨before, r, after, e, -, hreaders, he, rfl, rfl⟩
  · obtain ⟨-, habs⟩ := Call.ordered_start (n := n) op
    have hruns := Atomic.Object.runs_invoke (plainMap κ ν w n) s.system.cache.contentAt
      (.call op) (s.system.calls.map Call.abs) (s.readers.filterMap (Reader.abs s.system.cache))
    simpa [Shared.abs, System.begin, habs] using hruns
  · exact runs_advance hs hfree hstep
  · have hruns := Atomic.Object.runs_invoke (plainMap κ ν w n) s.system.cache.contentAt
      (.look op) s.abs.pending []
    simpa [Shared.abs, Reader.abs, Request.parts] using hruns
  · have hcontent := he.contentOf_eq
    have hstate : e.cache.contentAt = s.system.cache.contentAt := funext fun k => hcontent _ k
    have hsame : ∀ r', Reader.abs e.cache r' = Reader.abs s.system.cache r' :=
      fun r' => Reader.abs_congr fun _ k => hcontent _ k
    have habs : s.abs = ⟨s.system.cache.contentAt, (s.system.calls.map Call.abs ++
        before.filterMap (Reader.abs s.system.cache)) ++ ((r.abs s.system.cache).toList ++
          after.filterMap (Reader.abs s.system.cache))⟩ := by
      cases hr : r.abs s.system.cache <;> simp [Shared.abs, hreaders, hr]
    have habs' : (Shared.mk { s.system with cache := e.cache }
        (before ++ (e.phase.map (Reader.mk r.op)).toList ++ after)).abs =
          ⟨s.system.cache.contentAt, (s.system.calls.map Call.abs ++
            before.filterMap (Reader.abs s.system.cache)) ++
            (((e.phase.map (Reader.mk r.op)).bind (Reader.abs s.system.cache)).toList ++
              after.filterMap (Reader.abs s.system.cache))⟩ := by
      have hfun : Reader.abs e.cache = Reader.abs s.system.cache := funext hsame
      cases hphase : e.phase with
      | none => simp [Shared.abs, hstate, hfun]
      | some phase =>
        cases hr : Reader.abs s.system.cache ⟨r.op, phase⟩ <;>
          simp [Shared.abs, hstate, hfun, hr]
    rw [habs, habs']
    rcases he.abs with ⟨hshown, heq⟩ | ⟨answer, hshown, heffect, hbefore, hafter⟩ |
      ⟨answer, hshown, hbefore, hafter⟩
    · rw [hshown, heq]
      exact .start
    · rw [hshown, hbefore, hafter]
      exact Atomic.Object.runs_commit heffect
    · rw [hshown, hbefore, hafter]
      exact Atomic.Object.runs_finish (plainMap κ ν w n) _ _ _ _ _

/-- An execution, on the plain map. -/
theorem runs_abs {maxSizeBytes : BitVec w} {trace : List (CacheNote κ ν w)}
    (h : Execution (Shared.step checks) (fun _ _ => True) (start maxSizeBytes) trace s) :
    s.Running ∧ Atomic.Object.Runs (plainMap κ ν w n) (.start (plainMap κ ν w n)) trace s.abs := by
  have hstart : (start maxSizeBytes : Shared κ ν w n).Running :=
    ⟨held_start maxSizeBytes, fun _ hcall => nomatch hcall⟩
  have habs : (start maxSizeBytes : Shared κ ν w n).abs = .start (plainMap κ ν w n) := by
    have hempty : (start maxSizeBytes : Shared κ ν w n).system.cache.contentAt = fun _ => none :=
      funext fun k => by
        simp [Cache.contentAt, start, System.start, Cache.withShardsAndLifecycleInternal, Shard.new,
          Shard.contentOf]
    simp only [abs, hempty]
    rfl
  obtain ⟨a, hruns, hs, rfl⟩ := Execution.simulation (R := fun s a => s.Running ∧ a = s.abs) some
    ⟨hstart, habs.symm⟩ (fun s a _ shown t hR _ hstep => by
      obtain ⟨hs, rfl⟩ := hR
      obtain ⟨hruns, ht⟩ := hs.step hstep
      exact ⟨t.abs, by rwa [List.filterMap_some], ht, rfl⟩) h
  exact ⟨hs, by rwa [List.filterMap_some] at hruns⟩

/-- Linearizability: the history of every execution of the shared cache in which no call panics is
a history of the plain map. -/
theorem linearizable (checks : Bool) (maxSizeBytes : BitVec w)
    {trace : List (CacheNote κ ν w)}
    (h : Execution (stepOrPanic checks) (Calm checks) (start maxSizeBytes) trace s) :
    Atomic.Object.Runs (plainMap κ ν w n) (.start (plainMap κ ν w n)) trace s.abs :=
  (runs_abs (execution_of_calm (fun _ _ hcalm => ⟨hcalm, trivial⟩) h)).2

/-- An insertion, a lookup and a `clear` that overlap. -/
def overlapping : List (Move Nat Nat 8) :=
  [.look ⟨.getClone, hash 0, (0 == ·)⟩, .start (.insert 0 (.new 7 3 .standard)), .start .clear,
    .advance 0, .read 0, .read 0] ++ List.replicate 4 (.advance 0) ++ List.replicate 6 (.read 0) ++
    List.replicate 16 (.advance 0)

theorem linearizable_overlapping :
    ∃ trace, ∃ s : Shared Nat Nat 8 2,
      Execution (stepOrPanic true) (Calm true) (start 20) trace s ∧ s.system.calls = [] ∧
      s.readers = [] ∧
      Atomic.Object.Runs (plainMap Nat Nat 8 2) (.start (plainMap Nat Nat 8 2)) trace s.abs := by
  have hrest : ((Execution.play (stepOrPanic true) (Calm true)
      (start 20 : Shared Nat Nat 8 2) overlapping).map fun r =>
        (r.2.system.calls.isEmpty, r.2.readers.isEmpty)) = some (true, true) := by decide +kernel
  obtain ⟨⟨trace, s⟩, hplay, hs⟩ := Option.map_eq_some_iff.mp hrest
  obtain ⟨hcalls, hreaders⟩ := Prod.mk.inj hs
  have hrun := Execution.of_play hplay
  exact ⟨trace, s, hrun, List.isEmpty_iff.mp hcalls, List.isEmpty_iff.mp hreaders,
    linearizable true 20 hrun⟩

end Shared

end PriorityLfu
