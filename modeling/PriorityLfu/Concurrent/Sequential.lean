import PriorityLfu.Concurrent.Run

/-!
# Calls one after the other

A call that no other overlaps does in its atomic steps what the operation of the cache does
at once, with the same result and the same hooks.
-/
namespace PriorityLfu
open Keyed

variable {κ ν : Type} {w n : Nat} [BEq κ] [Hashable κ] [EquivBEq κ] [LawfulHashable κ] [NeZero n]
  {checks : Bool}

/-- A call made at once: what it returns and the hooks it delivers. -/
def Cache.call (checks : Bool) (c : Cache κ ν w n) :
    CallOp κ ν w → Outcome (Cache κ ν w n) (Option (Entry ν w) × List (Hook κ))
  | .insert key entry => c.insertEntry checks key entry
  | .remove key => c.removeEntry checks key
  | .clear => .ok (none, c.clear.1) c.clear.2

/-- What can be observed of it. -/
def CallOp.shown (op : CallOp κ ν w) (r : Option (Entry ν w) × List (Hook κ)) :
    List (Event κ ν w) :=
  r.2.map .hook ++ [.returned op r.1]

/-- A call in progress goes on. -/
def Choice.Advances : Choice κ ν w n → Prop
  | .advance _ => True
  | _ => False

namespace System

def idle (c : Cache κ ν w n) : System κ ν w n where
  cache := c
  locked := fun _ => false
  calls := []

/-- One call is in progress. -/
def alone (c : Cache κ ν w n) (locked : Fin n → Bool) (op : CallOp κ ν w)
    (result : Option (Entry ν w)) (todo : List (Action κ ν w n)) : System κ ν w n where
  cache := c
  locked := locked
  calls := [⟨op, result, todo⟩]

variable {c d : Cache κ ν w n} {locked : Fin n → Bool} {op : CallOp κ ν w}
  {result : Option (Entry ν w)} {todo : List (Action κ ν w n)}

theorem alone_finish (c : Cache κ ν w n) (op : CallOp κ ν w) (result : Option (Entry ν w)) :
    Execution (step checks) (fun _ choice => choice.Advances)
      (alone c (fun _ => false) op result []) [.returned op result] (idle c) :=
  .single (.advance 0) trivial rfl

theorem alone_perform {a : Action κ ν w n} {e : Effect κ ν w n}
    (h : perform checks c locked a = some e) :
    Execution (step checks) (fun _ choice => choice.Advances)
      (alone c locked op result (a :: todo)) e.shown
      (alone e.cache e.locked op (e.result.getD result) (e.front ++ todo ++ e.back)) := by
  refine .single (.advance 0) trivial ?_
  simp [step, alone, h, resume]

/-- Actions that keep the locks and add nothing, one after the other. -/
theorem alone_map {α : Type} {f : α → Action κ ν w n} {g : Cache κ ν w n → α → Cache κ ν w n}
    {v : α → List (Event κ ν w)}
    (h : ∀ c x, perform checks c locked (f x) = some { cache := g c x, locked, shown := v x })
    (xs : List α) {c d : Cache κ ν w n} {trace : List (Event κ ν w)} (hd : xs.foldl g c = d)
    (htrace : xs.flatMap v = trace) :
    Execution (step checks) (fun _ choice => choice.Advances)
      (alone c locked op result (xs.map f ++ todo)) trace (alone d locked op result todo) := by
  subst hd htrace
  induction xs generalizing c with
  | nil => exact .start
  | cons x xs ih =>
    have hstep : Execution (step checks) (fun _ choice => choice.Advances)
        (alone c locked op result (f x :: (xs.map f ++ todo))) (v x) _ := alone_perform (h c x)
    rw [List.append_nil] at hstep
    exact hstep.trans ih

theorem alone_enter (c : Cache κ ν w n) (key : κ) (us : List (Update w)) :
    Execution (step checks) (fun _ choice => choice.Advances)
      (alone c locked op result (us.map (.enter key) ++ todo)) []
      (alone (c.applyAll us) locked op result todo) :=
  alone_map (g := Cache.apply) (v := fun _ => []) (fun _ _ => rfl) us rfl
    (List.flatMap_eq_nil_iff.mpr fun _ _ => rfl)

theorem alone_update (c : Cache κ ν w n) (us : List (Update w)) :
    Execution (step checks) (fun _ choice => choice.Advances)
      (alone c locked op result (us.map .update ++ todo)) []
      (alone (c.applyAll us) locked op result todo) :=
  alone_map (g := Cache.apply) (v := fun _ => []) (fun _ _ => rfl) us rfl
    (List.flatMap_eq_nil_iff.mpr fun _ _ => rfl)

theorem alone_unlock (c : Cache κ ν w n) (i : Fin n) :
    Execution (step checks) (fun _ choice => choice.Advances)
      (alone c (Function.update (fun _ => false) i true) op result (.unlock i :: todo)) []
      (alone c (fun _ => false) op result todo) := by
  have hperform : perform checks c (Function.update (fun _ => false) i true) (.unlock i) =
      some { cache := c, locked := fun _ => false } := by
    rw [perform, Function.update_idem, Function.update_eq_self_iff.mpr rfl]
  have hstep : Execution (step checks) (fun _ choice => choice.Advances)
      (alone c (Function.update (fun _ => false) i true) op result (.unlock i :: todo)) [] _ :=
    alone_perform hperform
  rwa [List.append_nil] at hstep

/-- A call that has only hooks to deliver. -/
theorem alone_end (c : Cache κ ν w n) (op : CallOp κ ν w) (result : Option (Entry ν w))
    (hooks : List (Hook κ)) :
    Execution (step checks) (fun _ choice => choice.Advances)
      (alone c (fun _ => false) op result (hooks.map .hook)) (op.shown (result, hooks))
      (idle c) := by
  have hhooks : Execution (step checks) (fun _ choice => choice.Advances)
      (alone c (fun _ => false) op result (hooks.map .hook ++ [])) (hooks.map .hook)
      (alone c (fun _ => false) op result []) :=
    alone_map (g := fun c _ => c) (v := fun h => [.hook h]) (fun _ _ => rfl) hooks
      (List.foldl_fixed hooks) List.map_eq_flatMap.symm
  rw [List.append_nil] at hhooks
  exact hhooks.trans (alone_finish c op result)

/-! ## The operations -/

theorem alone_insert {key : κ} {entry : Entry ν w} {r : Option (Entry ν w) × List (Hook κ)}
    (h : c.insertEntry checks key entry = .ok r d) :
    Execution (step checks) (fun _ choice => choice.Advances)
      (alone c (fun _ => false) (.insert key entry) none [.insert key entry])
      ((CallOp.insert key entry).shown r) (idle d) := by
  obtain ⟨⟨old, stats, evicted⟩, c', hins, h⟩ := Outcome.bind_eq_ok.mp h
  obtain ⟨us, c'', hcheck, h⟩ := Outcome.bind_eq_ok.mp h
  obtain ⟨hus, rfl⟩ := Outcome.check_eq_ok.mp hcheck
  cases h
  have hshard : perform checks c (fun _ => false) (.insert key entry) =
      some { cache := c', locked := fun _ => false, result := some old
             front := us.map (.enter key) ++ (evictUpdates stats).map .update ++
               (evictHooks stats evicted).map .hook } := by
    simp [perform, hins, hus]
  have hstart : Execution (step checks) (fun _ choice => choice.Advances)
      (alone c (fun _ => false) (.insert key entry) none [.insert key entry]) [] _ :=
    alone_perform hshard
  simp only [List.append_nil, List.append_assoc, Option.getD_some] at hstart
  have hupdates := (hstart.trans (alone_enter c' key us)).trans (alone_update _ _)
  rw [← Cache.applyAll_append] at hupdates
  exact hupdates.trans (alone_end _ _ _ _)

theorem alone_remove {key : κ} {r : Option (Entry ν w) × List (Hook κ)}
    (h : c.removeEntry checks key = .ok r d) :
    Execution (step checks) (fun _ choice => choice.Advances)
      (alone c (fun _ => false) (.remove key) none [.remove key]) ((CallOp.remove key).shown r)
      (idle d) := by
  obtain ⟨removed, c', hrem, h⟩ := Outcome.bind_eq_ok.mp h
  cases removed with
  | none =>
    cases h
    have hshard : perform checks c (fun _ => false) (.remove key) =
        some { cache := d, locked := fun _ => false } := by
      simp [perform, hrem]
    exact (alone_perform hshard).trans (alone_finish _ _ _)
  | some kv =>
    obtain ⟨k₀, en⟩ := kv
    cases h
    have hshard : perform checks c (fun _ => false) (.remove key) =
        some { cache := c'
               locked := Function.update (fun _ => false) (getShard w n (hash key)) true
               result := some (some en)
               front := (removeUpdates en).map .update ++
                 [.unlock (getShard w n (hash key)), .hook (.onRemove k₀)] } := by
      simp [perform, hrem]
    have hstart : Execution (step checks) (fun _ choice => choice.Advances)
        (alone c (fun _ => false) (.remove key) none [.remove key]) [] _ := alone_perform hshard
    simp only [List.append_nil, Option.getD_some] at hstart
    exact ((hstart.trans (alone_update _ _)).trans (alone_unlock _ _)).trans
      (alone_end _ _ _ [.onRemove k₀])

/-- The shards that are left to `clear`, each drained, accounted for and unlocked in turn. -/
theorem alone_drains (is : List (Fin n)) (c : Cache κ ν w n) (all : List (EvictedEntry κ ν w))
    (us : List (Update w)) :
    Execution (step checks) (fun _ choice => choice.Advances)
      (alone c (fun _ => false) .clear none
        (is.map .drain ++ (us.map .update ++ all.map fun e => .hook (.onClear e.key)))) []
      (alone (Cache.drainShards is c all).2 (fun _ => false) .clear none
        (us.map .update ++
          (Cache.drainShards is c all).1.map fun e => .hook (.onClear e.key))) := by
  induction is generalizing c all with
  | nil => exact .start
  | cons i is ih =>
    have hdrain : perform checks c (fun _ => false) (.drain i) =
        some { cache := (c.drainShard i).2, locked := Function.update (fun _ => false) i true
               front := (drainUpdates (c.drainShard i).1.2.1 (c.drainShard i).1.2.2).map .update ++
                 [.unlock i]
               back := (c.drainShard i).1.1.map fun e => .hook (.onClear e.key) } := rfl
    have hstart : Execution (step checks) (fun _ choice => choice.Advances)
        (alone c (fun _ => false) .clear none (.drain i :: (is.map .drain ++
          (us.map .update ++ all.map fun e => .hook (.onClear e.key))))) [] _ :=
      alone_perform hdrain
    simp only [Option.getD_none, List.append_assoc, ← List.map_append] at hstart
    exact ((hstart.trans (alone_update _ _)).trans (alone_unlock _ _)).trans (ih _ _)

/-- A call that overlaps no other does what the operation does at once. -/
theorem alone_call {r : Option (Entry ν w) × List (Hook κ)} (h : c.call checks op = .ok r d) :
    Execution (step checks) (fun _ choice => choice.Advances)
      (alone c (fun _ => false) op none op.actions) (op.shown r) (idle d) := by
  cases op with
  | insert key entry => exact alone_insert h
  | remove key => exact alone_remove h
  | clear =>
    cases h
    have hdrains : Execution (step checks) (fun _ choice => choice.Advances) _ _ _ :=
      alone_drains (List.finRange n) c [] resetUpdates
    rw [List.map_nil, List.append_nil] at hdrains
    have hreset := hdrains.trans (alone_update _ _)
    have hhooks : (Cache.drainShards (List.finRange n) c []).1.map
        (fun e => (.hook (.onClear e.key) : Action κ ν w n)) = c.clear.1.map .hook :=
      List.map_map.symm
    rw [hhooks] at hreset
    exact hreset.trans (alone_end _ _ _ _)

end System

end PriorityLfu
