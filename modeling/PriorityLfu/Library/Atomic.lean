import PriorityLfu.Library.Execution

/-!
# Atomic objects

What concurrent implementations of a sequential specification are compared with. A call is
invoked; it takes effect in one instant, or in several parts with an instant for each; it shows
what its parts made it owe; and it returns its answer. Calls overlap in any way. An
implementation is linearizable when all its histories are histories of the atomic object: every
call then takes effect between its invocation and its return, with the answer it returns.
-/

/-- What can be seen of a call. -/
inductive Note (ι ρ ε : Type*) where
  | invoked (op : ι)
  | shown (e : ε)
  | returned (op : ι) (answer : ρ)
  deriving DecidableEq, Repr

namespace Atomic

/-- A sequential specification: the parts that a call takes effect in, and what a part can do to
the state, with the answer it gives and what it makes the call owe. -/
structure Spec (σ ι π ρ ε : Type*) where
  start : σ
  parts : ι → List π
  effect : σ → π → ρ → List ε → σ → Prop

/-- A call in progress: the parts still to take effect, the answer so far, and what it owes. -/
structure Pending (ι π ρ ε : Type*) where
  op : ι
  todo : List π
  answer : Option ρ
  owed : List ε

structure Object (σ ι π ρ ε : Type*) where
  state : σ
  pending : List (Pending ι π ρ ε)

/-- A choice of what happens next. -/
inductive Choice (σ ι ρ ε : Type*) where
  /-- A call is invoked and takes position `j`. -/
  | invoke (op : ι) (j : Nat)
  /-- The next part of the call at position `j` takes effect. -/
  | commit (j : Nat) (answer : ρ) (owed : List ε) (state : σ)
  /-- The call at position `j` shows what it owes. -/
  | emit (j : Nat)
  | finish (j : Nat)

variable {σ ι π ρ ε : Type*}

namespace Object

def start (spec : Spec σ ι π ρ ε) : Object σ ι π ρ ε := ⟨spec.start, []⟩

/-- Only what the specification says takes effect. -/
def Allowed (spec : Spec σ ι π ρ ε) (x : Object σ ι π ρ ε) : Choice σ ι ρ ε → Prop
  | .commit j answer owed state => ∃ p part rest, x.pending[j]? = some p ∧ p.todo = part :: rest ∧
    spec.effect x.state part answer owed state
  | _ => True

def step (spec : Spec σ ι π ρ ε) (x : Object σ ι π ρ ε) :
    Choice σ ι ρ ε → Option (List (Note ι ρ ε) × Object σ ι π ρ ε)
  | .invoke op j => some ([.invoked op],
    { x with pending := x.pending.take j ++ ⟨op, spec.parts op, none, []⟩ :: x.pending.drop j })
  | .commit j answer owed state =>
    match x.pending[j]? with
    | some ⟨op, _ :: todo, _, owed'⟩ =>
      some ([], ⟨state, x.pending.set j ⟨op, todo, some answer, owed' ++ owed⟩⟩)
    | _ => none
  | .emit j =>
    match x.pending[j]? with
    | some ⟨op, [], answer, e :: owed⟩ =>
      some ([.shown e], { x with pending := x.pending.set j ⟨op, [], answer, owed⟩ })
    | _ => none
  | .finish j =>
    match x.pending[j]? with
    | some ⟨op, [], some answer, []⟩ =>
      some ([.returned op answer], { x with pending := x.pending.eraseIdx j })
    | _ => none

/-- What the object can do from `x` to `y`. -/
abbrev Runs (spec : Spec σ ι π ρ ε) (x : Object σ ι π ρ ε) (notes : List (Note ι ρ ε))
    (y : Object σ ι π ρ ε) : Prop := Execution (step spec) (Allowed spec) x notes y

variable {spec : Spec σ ι π ρ ε} {m m' : σ} {op : ι} {todo : List π} {part : π} {answer : ρ}
  {answer? : Option ρ} {e : ε} {owed owed' : List ε} {before after : List (Pending ι π ρ ε)}

theorem runs_invoke (spec : Spec σ ι π ρ ε) (m : σ) (op : ι)
    (before after : List (Pending ι π ρ ε)) :
    Runs spec ⟨m, before ++ after⟩ [.invoked op]
      ⟨m, before ++ ⟨op, spec.parts op, none, []⟩ :: after⟩ := by
  refine .single (.invoke op before.length) trivial ?_
  simp [step]

theorem runs_commit (h : spec.effect m part answer owed m') :
    Runs spec ⟨m, before ++ ⟨op, part :: todo, answer?, owed'⟩ :: after⟩ []
      ⟨m', before ++ ⟨op, todo, some answer, owed' ++ owed⟩ :: after⟩ := by
  refine .single (.commit before.length answer owed m') ?_ ?_
  · exact ⟨⟨op, part :: todo, answer?, owed'⟩, part, todo, by simp, rfl, h⟩
  · simp [step]

theorem runs_emit (spec : Spec σ ι π ρ ε) :
    Runs spec ⟨m, before ++ ⟨op, [], answer?, e :: owed⟩ :: after⟩ [.shown e]
      ⟨m, before ++ ⟨op, [], answer?, owed⟩ :: after⟩ := by
  refine .single (.emit before.length) trivial ?_
  simp [step]

theorem runs_finish (spec : Spec σ ι π ρ ε) (m : σ) (op : ι) (answer : ρ)
    (before after : List (Pending ι π ρ ε)) :
    Runs spec ⟨m, before ++ ⟨op, [], some answer, []⟩ :: after⟩ [.returned op answer]
      ⟨m, before ++ after⟩ := by
  refine .single (.finish before.length) trivial ?_
  simp [step, List.eraseIdx_append_of_length_le]

/-! ## Rules -/

/-- The induction rule: what holds at the start and is kept whenever a call is invoked, takes
effect, shows something or returns, holds of every history and the state it leads to. -/
theorem runs_induct {P : List (Note ι ρ ε) → Object σ ι π ρ ε → Prop}
    (hstart : P [] (start spec))
    (hinvoke : ∀ notes m op before after, P notes ⟨m, before ++ after⟩ →
      P (notes ++ [.invoked op]) ⟨m, before ++ ⟨op, spec.parts op, none, []⟩ :: after⟩)
    (hcommit : ∀ notes m op part todo answer? owed' answer owed m' before after,
      spec.effect m part answer owed m' →
      Runs spec (start spec) notes ⟨m, before ++ ⟨op, part :: todo, answer?, owed'⟩ :: after⟩ →
      P notes ⟨m, before ++ ⟨op, part :: todo, answer?, owed'⟩ :: after⟩ →
      P notes ⟨m', before ++ ⟨op, todo, some answer, owed' ++ owed⟩ :: after⟩)
    (hemit : ∀ notes m op answer? e owed before after,
      P notes ⟨m, before ++ ⟨op, [], answer?, e :: owed⟩ :: after⟩ →
      P (notes ++ [.shown e]) ⟨m, before ++ ⟨op, [], answer?, owed⟩ :: after⟩)
    (hfinish : ∀ notes m op answer before after,
      P notes ⟨m, before ++ ⟨op, [], some answer, []⟩ :: after⟩ →
      P (notes ++ [.returned op answer]) ⟨m, before ++ after⟩)
    {notes : List (Note ι ρ ε)} {x : Object σ ι π ρ ε} (h : Runs spec (start spec) notes x) :
    P notes x := by
  refine (Execution.invariant (P := fun notes x => Runs spec (start spec) notes x ∧ P notes x)
    ⟨.start, hstart⟩ ?_ h).2
  rintro notes ⟨m, pending⟩ choice shown y ⟨hruns, hx⟩ hallowed hstep
  refine ⟨hruns.step hallowed hstep, ?_⟩
  -- the calls in progress, taken apart at the one at position `j`
  have hsplit : ∀ {j : Nat} {p : Pending ι π ρ ε}, pending[j]? = some p → ∃ before after,
      pending = before ++ p :: after ∧ (∀ q, pending.set j q = before ++ q :: after) ∧
      pending.eraseIdx j = before ++ after := by
    intro j p hj
    obtain ⟨hlt, rfl⟩ := List.getElem?_eq_some_iff.mp hj
    refine ⟨pending.take j, pending.drop (j + 1), ?_,
      fun q => by simp [List.set_eq_take_append_cons_drop, hlt],
      List.eraseIdx_eq_take_drop_succ _ _⟩
    rw [← List.drop_eq_getElem_cons hlt, List.take_append_drop]
  cases choice with
  | invoke op j =>
    cases hstep
    exact hinvoke notes m op _ _ (by rwa [List.take_append_drop])
  | commit j answer owed m' =>
    obtain ⟨⟨op, todo', answer?, owed'⟩, part, todo, hj, rfl, heffect⟩ := hallowed
    obtain ⟨before, after, rfl, hset, -⟩ := hsplit hj
    simp only [step, hj, hset, Option.some.injEq, Prod.mk.injEq] at hstep
    obtain ⟨rfl, rfl⟩ := hstep
    rw [List.append_nil]
    exact hcommit notes m op part todo answer? owed' answer owed m' before after heffect hruns hx
  | emit j =>
    rw [step] at hstep
    split at hstep
    · next op answer? e owed hj =>
      obtain ⟨before, after, rfl, hset, -⟩ := hsplit hj
      simp only [hset, Option.some.injEq, Prod.mk.injEq] at hstep
      obtain ⟨rfl, rfl⟩ := hstep
      exact hemit notes m op answer? e owed before after hx
    · cases hstep
  | finish j =>
    rw [step] at hstep
    split at hstep
    · next op answer hj =>
      obtain ⟨before, after, rfl, -, herase⟩ := hsplit hj
      simp only [herase, Option.some.injEq, Prod.mk.injEq] at hstep
      obtain ⟨rfl, rfl⟩ := hstep
      exact hfinish notes m op answer before after hx
    · cases hstep

end Object

/-- A call in progress has parts of its own still to take effect, and no answer before the
first one did. -/
structure Pending.Begun (spec : Spec σ ι π ρ ε) (p : Pending ι π ρ ε) : Prop where
  suffix : p.todo <:+ spec.parts p.op
  answer : p.todo = spec.parts p.op → p.answer = none

/-- Returns with an answer that counts. -/
def answers (f : ι → ρ → Bool) : Note ι ρ ε → Bool
  | .returned op answer => f op answer
  | _ => false

/-- What is shown and counts. -/
def shows (g : ε → Bool) : Note ι ρ ε → Bool
  | .shown e => g e
  | _ => false

theorem countP_cons {α : Type*} (p : α → Bool) (a : α) (l : List α) :
    (a :: l).countP p = l.countP p + (p a).toNat := by
  cases h : p a <;> simp [h]

namespace Object

variable {notes : List (Note ι ρ ε)} {x : Object σ ι π ρ ε}

theorem begun (h : Runs spec (start spec) notes x) : ∀ p ∈ x.pending, p.Begun spec := by
  refine runs_induct (P := fun _ x => ∀ p ∈ x.pending, p.Begun spec) ?_ ?_ ?_ ?_ ?_ h
  · exact fun p hp => nomatch hp
  · intro _ m op before after hx p hp
    rcases List.mem_append.mp hp with hp | hp
    · exact hx p (List.mem_append_left _ hp)
    · rcases List.mem_cons.mp hp with rfl | hp
      · exact ⟨List.suffix_rfl, fun _ => rfl⟩
      · exact hx p (List.mem_append_right _ hp)
  · intro _ m op part todo answer? owed' answer owed m' before after _ _ hx p hp
    have hold := hx _ (List.mem_append_right _ List.mem_cons_self)
    rcases List.mem_append.mp hp with hp | hp
    · exact hx p (List.mem_append_left _ hp)
    · rcases List.mem_cons.mp hp with rfl | hp
      · refine ⟨(List.suffix_cons part todo).trans hold.suffix, fun heq => ?_⟩
        have hlen := hold.suffix.length_le
        have heq : todo = spec.parts op := heq
        rw [← heq, List.length_cons] at hlen
        omega
      · exact hx p (List.mem_append_right _ (List.mem_cons_of_mem _ hp))
  · intro _ m op answer? e owed before after hx p hp
    have hold := hx _ (List.mem_append_right _ List.mem_cons_self)
    rcases List.mem_append.mp hp with hp | hp
    · exact hx p (List.mem_append_left _ hp)
    · rcases List.mem_cons.mp hp with rfl | hp
      · exact ⟨hold.suffix, hold.answer⟩
      · exact hx p (List.mem_append_right _ (List.mem_cons_of_mem _ hp))
  · intro _ m op answer before after hx p hp
    refine hx p ?_
    rcases List.mem_append.mp hp with hp | hp
    · exact List.mem_append_left _ hp
    · exact List.mem_append_right _ (List.mem_cons_of_mem _ hp)

/-- The answer rule. Where the effects of operations that satisfy `P` keep `I` and give answers
that satisfy `A`, every call of a history whose operations satisfy `P` returns such an answer. -/
theorem runs_answers (I : σ → Prop) (P : ι → Prop) (A : ι → ρ → Prop) (hstart : I spec.start)
    (heffect : ∀ op part m answer owed m', P op → part ∈ spec.parts op → I m →
      spec.effect m part answer owed m' → I m' ∧ A op answer)
    (h : Runs spec (start spec) notes x) (hinvoked : ∀ op, .invoked op ∈ notes → P op) :
    I x.state ∧ ∀ op answer, .returned op answer ∈ notes → A op answer := by
  suffices hkept : (∀ op, .invoked op ∈ notes → P op) → I x.state ∧
      (∀ p ∈ x.pending, P p.op ∧ ∀ answer, p.answer = some answer → A p.op answer) ∧
      ∀ op answer, .returned op answer ∈ notes → A op answer from
    ⟨(hkept hinvoked).1, (hkept hinvoked).2.2⟩
  clear hinvoked
  refine runs_induct (P := fun notes x => (∀ op, .invoked op ∈ notes → P op) → I x.state ∧
    (∀ p ∈ x.pending, P p.op ∧ ∀ answer, p.answer = some answer → A p.op answer) ∧
    ∀ op answer, .returned op answer ∈ notes → A op answer) ?_ ?_ ?_ ?_ ?_ h
  · exact fun _ => ⟨hstart, by simp [start], by simp⟩
  · intro notes m op before after hx hops
    simp only [List.mem_append, List.mem_cons] at hops ⊢
    obtain ⟨hI, hpending, hreturned⟩ := hx fun op hop => hops op (.inl hop)
    simp only [List.mem_append] at hpending
    refine ⟨hI, ?_, ?_⟩
    · rintro p (hp | rfl | hp)
      · exact hpending p (.inl hp)
      · exact ⟨hops op (.inr (.inl rfl)), fun _ h => by cases h⟩
      · exact hpending p (.inr hp)
    · rintro op answer (hold | hnew | hnew)
      · exact hreturned op answer hold
      · cases hnew
      · cases hnew
  · intro notes m op part todo answer? owed' answer owed m' before after hpart hruns hx hops
    obtain ⟨hI, hpending, hreturned⟩ := hx hops
    have hcall := hpending _ (List.mem_append_right _ List.mem_cons_self)
    have hmem : part ∈ spec.parts op :=
      (begun hruns _ (List.mem_append_right _ List.mem_cons_self)).suffix.subset
        List.mem_cons_self
    obtain ⟨hI', hanswer⟩ := heffect op part m answer owed m' hcall.1 hmem hI hpart
    refine ⟨hI', fun p hp => ?_, hreturned⟩
    simp only [List.mem_append, List.mem_cons] at hp hpending
    rcases hp with hp | rfl | hp
    · exact hpending p (.inl hp)
    · refine ⟨hcall.1, fun a ha => ?_⟩
      cases ha
      exact hanswer
    · exact hpending p (.inr (.inr hp))
  · intro notes m op answer? e owed before after hx hops
    simp only [List.mem_append, List.mem_cons] at hops ⊢
    obtain ⟨hI, hpending, hreturned⟩ := hx fun op hop => hops op (.inl hop)
    simp only [List.mem_append, List.mem_cons] at hpending
    refine ⟨hI, ?_, ?_⟩
    · rintro p (hp | rfl | hp)
      · exact hpending p (.inl hp)
      · have hcall := hpending ⟨op, [], answer?, e :: owed⟩ (.inr (.inl rfl))
        exact ⟨hcall.1, hcall.2⟩
      · exact hpending p (.inr (.inr hp))
    · rintro op answer (hold | hnew | hnew)
      · exact hreturned op answer hold
      · cases hnew
      · cases hnew
  · intro notes m op answer before after hx hops
    simp only [List.mem_append, List.mem_cons] at hops ⊢
    obtain ⟨hI, hpending, hreturned⟩ := hx fun op hop => hops op (.inl hop)
    simp only [List.mem_append, List.mem_cons] at hpending
    refine ⟨hI, ?_, ?_⟩
    · rintro p (hp | hp)
      · exact hpending p (.inl hp)
      · exact hpending p (.inr (.inr hp))
    · rintro op' answer' (hold | hnew | hnew)
      · exact hreturned op' answer' hold
      · cases hnew
        exact (hpending _ (.inr (.inl rfl))).2 _ rfl
      · cases hnew

/-- The balance rule. Where every effect balances the answer it gives and what the state was
worth with what it makes the call owe and what the state is worth then, a history balances: the
answers, those returned and those still to be returned, with what is shown, and still owed. Only
the answer of a call with a single part may count. -/
theorem runs_balance (I : σ → Prop) (f : ι → ρ → Bool) (g : ε → Bool) (worth : σ → Nat)
    (h : Runs spec (start spec) notes x) (hstart : I spec.start)
    (hsingle : ∀ op, (spec.parts op).length ≠ 1 → ∀ a, f op a = false)
    (heffect : ∀ m part answer owed m', I m → spec.effect m part answer owed m' → I m' ∧
      ∀ op, part ∈ spec.parts op →
        (f op answer).toNat + worth m = owed.countP g + worth m') :
    notes.countP (answers f) + x.pending.countP (fun p => p.answer.any (f p.op)) +
        worth spec.start =
      notes.countP (shows g) + (x.pending.flatMap Pending.owed).countP g + worth x.state := by
  refine (runs_induct (P := fun notes x => I x.state ∧
    notes.countP (answers f) + x.pending.countP (fun p => p.answer.any (f p.op)) +
        worth spec.start =
      notes.countP (shows g) + (x.pending.flatMap Pending.owed).countP g + worth x.state)
    ⟨hstart, by simp [start]⟩ ?_ ?_ ?_ ?_ h).2
  · intro _ m op before after ⟨hm, hx⟩
    refine ⟨hm, ?_⟩
    simpa [answers, shows] using hx
  · intro _ m op part todo answer? owed' answer owed m' before after hm' hruns ⟨hm, hx⟩
    obtain ⟨hI, hpart⟩ := heffect m part answer owed m' hm hm'
    have hbegun := begun hruns ⟨op, part :: todo, answer?, owed'⟩ (by simp)
    have hbalance := hpart op (hbegun.suffix.subset List.mem_cons_self)
    -- no answer that counts was there before
    have hnone : answer?.any (f op) = false := by
      by_cases hlen : (spec.parts op).length = 1
      · have heq : part :: todo = spec.parts op := by
          refine hbegun.suffix.eq_of_length ?_
          have hle := hbegun.suffix.length_le
          simp only [List.length_cons] at hle ⊢
          omega
        have hanswer : answer? = none := hbegun.answer heq
        rw [hanswer]
        rfl
      · cases answer? with
        | none => rfl
        | some a => exact hsingle op hlen a
    refine ⟨hI, ?_⟩
    simp only [List.countP_append, countP_cons, List.flatMap_append, List.flatMap_cons,
      hnone, Option.any_some, Bool.toNat_false] at hx ⊢
    omega
  · intro _ m op answer? e owed before after ⟨hm, hx⟩
    refine ⟨hm, ?_⟩
    simp only [List.countP_append, countP_cons, List.countP_nil, List.flatMap_append,
      List.flatMap_cons, answers, shows, Bool.toNat_false] at hx ⊢
    omega
  · intro _ m op answer before after ⟨hm, hx⟩
    refine ⟨hm, ?_⟩
    simp only [List.countP_append, countP_cons, List.countP_nil, List.flatMap_append,
      List.flatMap_cons, Option.any_some, answers, shows, Bool.toNat_false] at hx ⊢
    omega

end Object

end Atomic
