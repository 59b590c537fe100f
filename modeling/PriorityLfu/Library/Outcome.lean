import Mathlib.Data.List.Basic
import Mathlib.Data.List.Induction

/-!
# Calls that return or panic

A call on a state either returns a value or panics; in both cases it leaves a state
behind, since a panic unwinds without undoing what was done. `bind` runs a second call
on what the first one left. `run` makes a list of calls, and its rules turn what one call
preserves into what every run preserves.
-/

/-- How a call on a state of type `σ` ends. -/
inductive Outcome (σ α : Type*) where
  | ok (value : α) (state : σ)
  | panic (state : σ)
  deriving DecidableEq, Repr

namespace Outcome

variable {σ α β ι ρ : Type*}

/-- The state a call leaves, returned or not. -/
def state : Outcome σ α → σ
  | .ok _ s => s
  | .panic s => s

/-- What a call returned. -/
def value? : Outcome σ α → Option α
  | .ok a _ => some a
  | .panic _ => none

def bind (x : Outcome σ α) (f : α → σ → Outcome σ β) : Outcome σ β :=
  match x with
  | .ok a s => f a s
  | .panic s => .panic s

/-- A checked computation on words, made in the state `s`. -/
def check (x : Option α) (s : σ) : Outcome σ α :=
  match x with
  | some a => .ok a s
  | none => .panic s

@[simp] theorem bind_ok (a : α) (s : σ) (f : α → σ → Outcome σ β) : (ok a s).bind f = f a s := rfl
@[simp] theorem bind_panic (s : σ) (f : α → σ → Outcome σ β) :
    (panic s : Outcome σ α).bind f = .panic s := rfl
@[simp] theorem check_some (a : α) (s : σ) : check (some a) s = .ok a s := rfl
@[simp] theorem check_none (s : σ) : check (none : Option α) s = .panic s := rfl

theorem bind_assoc {γ : Type*} (x : Outcome σ α) (f : α → σ → Outcome σ β)
    (g : β → σ → Outcome σ γ) : (x.bind f).bind g = x.bind fun a s => (f a s).bind g := by
  cases x <;> rfl

/-- Change the state a call leaves. -/
def mapState {τ : Type*} (f : σ → τ) : Outcome σ α → Outcome τ α
  | .ok a s => .ok a (f s)
  | .panic s => .panic (f s)

theorem mapState_eq_ok {τ : Type*} {f : σ → τ} {x : Outcome σ α} {a : α} {t : τ} :
    x.mapState f = .ok a t ↔ ∃ s, x = .ok a s ∧ f s = t := by
  cases x <;> simp [mapState]

theorem mapState_eq_panic {τ : Type*} {f : σ → τ} {x : Outcome σ α} {t : τ} :
    x.mapState f = .panic t ↔ ∃ s, x = .panic s ∧ f s = t := by
  cases x <;> simp [mapState]

theorem value?_eq_some {x : Outcome σ α} {a : α} : x.value? = some a ↔ ∃ s, x = .ok a s := by
  cases x <;> simp [value?]

theorem eq_panic {x : Outcome σ α} (h : x.value? = none) : x = .panic x.state := by
  cases x with
  | ok a s => cases h
  | panic s => rfl

/-- A sequence of two calls returns exactly when both do. -/
theorem bind_eq_ok {x : Outcome σ α} {f : α → σ → Outcome σ β} {b : β} {t : σ} :
    x.bind f = .ok b t ↔ ∃ a s, x = .ok a s ∧ f a s = .ok b t := by
  cases x <;> simp

@[simp] theorem state_check (x : Option α) (s : σ) : (check x s).state = s := by
  cases x <;> rfl

/-- What two calls leave one after the other, whether they return or panic. -/
theorem state_bind {P : σ → Prop} {x : Outcome σ α} {f : α → σ → Outcome σ β} (hx : P x.state)
    (hf : ∀ a s, P s → P (f a s).state) : P (x.bind f).state := by
  cases x with
  | ok a s => exact hf a s hx
  | panic s => exact hx

theorem check_eq_ok {x : Option α} {s t : σ} {a : α} :
    check x s = .ok a t ↔ x = some a ∧ s = t := by
  cases x <;> simp

/-- Make the calls of a list in order, collecting what they return. -/
def run (step : σ → ι → Outcome σ ρ) : σ → List ι → Outcome σ (List ρ)
  | s, [] => .ok [] s
  | s, i :: is => (step s i).bind fun r s => (run step s is).bind fun rs s => .ok (r :: rs) s

variable {step : σ → ι → Outcome σ ρ} {s t : σ} {i : ι} {is : List ι} {r : ρ} {rs : List ρ}

/-- A run that returns makes its first call and then the rest. -/
theorem run_cons_eq_ok : run step s (i :: is) = .ok rs t ↔
    ∃ r s' rs', step s i = .ok r s' ∧ run step s' is = .ok rs' t ∧ rs = r :: rs' := by
  simp only [run, bind_eq_ok, ok.injEq]
  constructor
  · rintro ⟨r, s', hr, rs', t', hrs, rfl, rfl⟩
    exact ⟨r, s', rs', hr, hrs, rfl⟩
  · rintro ⟨r, s', rs', hr, hrs, rfl⟩
    exact ⟨r, s', hr, rs', t, hrs, rfl, rfl⟩

theorem run_append_eq_ok {js : List ι} : run step s (is ++ js) = .ok rs t ↔
    ∃ rs₁ u rs₂, run step s is = .ok rs₁ u ∧ run step u js = .ok rs₂ t ∧ rs = rs₁ ++ rs₂ := by
  induction is generalizing s rs with
  | nil =>
    constructor
    · exact fun h => ⟨[], s, rs, rfl, h, rfl⟩
    · rintro ⟨rs₁, u, rs₂, h₁, h₂, rfl⟩
      cases h₁
      exact h₂
  | cons i is ih =>
    rw [List.cons_append, run_cons_eq_ok]
    constructor
    · rintro ⟨r, s', rs', hr, hrs, rfl⟩
      obtain ⟨rs₁, u, rs₂, h₁, h₂, rfl⟩ := ih.mp hrs
      exact ⟨r :: rs₁, u, rs₂, run_cons_eq_ok.mpr ⟨r, s', rs₁, hr, h₁, rfl⟩, h₂, rfl⟩
    · rintro ⟨rs₁, u, rs₂, h₁, h₂, rfl⟩
      obtain ⟨r, s', rs', hr, hrs, rfl⟩ := run_cons_eq_ok.mp h₁
      exact ⟨r, s', rs' ++ rs₂, hr, ih.mpr ⟨rs', u, rs₂, hrs, h₂, rfl⟩, rfl⟩

/-- What every returning call preserves holds after every run that returns. -/
theorem run_invariant {P : σ → Prop} (hstep : ∀ s i r t, P s → step s i = .ok r t → P t)
    (hs : P s) (h : run step s is = .ok rs t) : P t := by
  induction is generalizing s rs with
  | nil => cases h; exact hs
  | cons i is ih =>
    obtain ⟨r, s', rs', hr, hrs, rfl⟩ := run_cons_eq_ok.mp h
    exact ih (hstep s i r s' hs hr) hrs

/-- The prefix rule: where a call from a state satisfying `P` keeps `P` exactly under the
condition `Q`, all states of a run satisfy `P` exactly if all its calls meet `Q`. -/
theorem run_invariant_iff {P : σ → Prop} {Q : σ → ι → Prop}
    (hstep : ∀ s i r t, P s → step s i = .ok r t → (P t ↔ Q s i)) (hs : P s) :
    (∀ pre post, is = pre ++ post → ∀ rs t, run step s pre = .ok rs t → P t) ↔
      ∀ pre i post, is = pre ++ i :: post → ∀ rs u r t, run step s pre = .ok rs u →
        step u i = .ok r t → Q u i := by
  constructor
  · intro h pre i post hsplit rs u r t hrun hcall
    have hafter : run step s (pre ++ [i]) = .ok (rs ++ [r]) t :=
      run_append_eq_ok.mpr ⟨rs, u, [r], hrun, run_cons_eq_ok.mpr ⟨r, t, [], hcall, rfl, rfl⟩, rfl⟩
    have hu := h pre (i :: post) hsplit rs u hrun
    exact (hstep u i r t hu hcall).mp (h (pre ++ [i]) post (by simpa using hsplit) _ t hafter)
  · intro h pre
    induction pre using List.reverseRecOn with
    | nil => intro post _ rs t hrun; cases hrun; exact hs
    | append_singleton pre i ih =>
      intro post hsplit rs t hrun
      obtain ⟨rs₁, u, rs₂, hpre, hlast, -⟩ := run_append_eq_ok.mp hrun
      obtain ⟨r, t', rs', hcall, hnil, -⟩ := run_cons_eq_ok.mp hlast
      cases hnil
      have hsplit' : is = pre ++ i :: post := by simpa using hsplit
      exact (hstep u i r t (ih (i :: post) hsplit' rs₁ u hpre) hcall).mpr
        (h pre i post hsplit' rs₁ u r t hpre hcall)

/-- A run whose calls all return from states satisfying `P` returns. -/
theorem run_returns {P : σ → List ι → Prop}
    (hstep : ∀ s i is, P s (i :: is) → ∃ r t, step s i = .ok r t ∧ P t is) (hs : P s is) :
    ∃ rs t, run step s is = .ok rs t ∧ P t [] := by
  induction is generalizing s with
  | nil => exact ⟨[], s, rfl, hs⟩
  | cons i is ih =>
    obtain ⟨r, s', hr, hp⟩ := hstep s i is hs
    obtain ⟨rs, t, hrs, ht⟩ := ih hp
    exact ⟨r :: rs, t, run_cons_eq_ok.mpr ⟨r, s', rs, hr, hrs, rfl⟩, ht⟩

/-- A run of calls that meet `Q` returns, with replies that meet `R`, where every such call from
a state satisfying `P` does. -/
theorem run_returns_all {P : σ → Prop} {Q : ι → Prop} {R : ρ → Prop}
    (hstep : ∀ s i, P s → Q i → ∃ r t, step s i = .ok r t ∧ P t ∧ R r) (hs : P s)
    (his : ∀ i ∈ is, Q i) : ∃ rs t, run step s is = .ok rs t ∧ P t ∧ ∀ r ∈ rs, R r := by
  induction is generalizing s with
  | nil => exact ⟨[], s, rfl, hs, by simp⟩
  | cons i is ih =>
    obtain ⟨hi, his⟩ := List.forall_mem_cons.mp his
    obtain ⟨r, s', hr, hs', hR⟩ := hstep s i hs hi
    obtain ⟨rs, t, hrs, ht, hall⟩ := ih hs' his
    exact ⟨r :: rs, t, run_cons_eq_ok.mpr ⟨r, s', rs, hr, hrs, rfl⟩, ht,
      List.forall_mem_cons.mpr ⟨hR, hall⟩⟩

/-- The history rule: what every returning call extends from the calls made so far, latest
first, holds of all calls of a run that returns. -/
theorem run_history {P : List (ι × ρ) → σ → Prop} {past : List (ι × ρ)}
    (hstep : ∀ past s i r t, P past s → step s i = .ok r t → P ((i, r) :: past) t)
    (hs : P past s) (h : run step s is = .ok rs t) : P ((is.zip rs).reverse ++ past) t := by
  induction is generalizing s rs past with
  | nil => cases h; exact hs
  | cons i is ih =>
    obtain ⟨r, s', rs', hr, hrs, rfl⟩ := run_cons_eq_ok.mp h
    have := ih (hstep past s i r s' hs hr) hrs
    simpa using this

/-- The simulation rule: where every returning call from related states is matched by a call with
the same result, every run that returns is matched by a run. -/
theorem run_simulates {τ : Type*} {step' : τ → ι → Outcome τ ρ} {R : σ → τ → Prop} {a : τ}
    (hstep : ∀ s a i r t, R s a → step s i = .ok r t → ∃ b, step' a i = .ok r b ∧ R t b)
    (hs : R s a) (h : run step s is = .ok rs t) : ∃ b, run step' a is = .ok rs b ∧ R t b := by
  induction is generalizing s a rs with
  | nil =>
    cases h
    exact ⟨a, rfl, hs⟩
  | cons i is ih =>
    obtain ⟨r, s', rs', hr, hrs, rfl⟩ := run_cons_eq_ok.mp h
    obtain ⟨b, hb, hs'⟩ := hstep s a i r s' hs hr
    obtain ⟨b', hb', ht⟩ := ih hs' hrs
    exact ⟨b', run_cons_eq_ok.mpr ⟨r, b, rs', hb, hb', rfl⟩, ht⟩

/-- The product rule: where every returning call makes on each component of the state a run of
calls of that component, so does every run that returns. `R` relates what a call returns to
what the components' calls return. -/
theorem run_product {τ ι' ρ' γ : Type*} {view : σ → γ → τ} {step' : τ → ι' → Outcome τ ρ'}
    {f : γ → ι → List ι'} {P : σ → Prop} {R : ρ → (γ → List ρ') → Prop}
    (hstep : ∀ s i r t, P s → step s i = .ok r t → P t ∧ ∃ rs' : γ → List ρ', R r rs' ∧
      ∀ g, run step' (view s g) (f g i) = .ok (rs' g) (view t g))
    (hs : P s) (h : run step s is = .ok rs t) :
    ∃ rss : List (γ → List ρ'), List.Forall₂ R rs rss ∧
      ∀ g, run step' (view s g) (is.flatMap (f g)) = .ok (rss.flatMap (· g)) (view t g) := by
  induction is generalizing s rs with
  | nil =>
    cases h
    exact ⟨[], .nil, fun _ => rfl⟩
  | cons i is ih =>
    obtain ⟨r, s', rs₁, hr, hrs, rfl⟩ := run_cons_eq_ok.mp h
    obtain ⟨hs', rs', hR, hfirst⟩ := hstep s i r s' hs hr
    obtain ⟨rss, hall, hrest⟩ := ih hs' hrs
    refine ⟨rs' :: rss, .cons hR hall, fun g => ?_⟩
    rw [List.flatMap_cons, List.flatMap_cons]
    exact run_append_eq_ok.mpr ⟨rs' g, view s' g, _, hfirst g, hrest g, rfl⟩

/-! ## Runs that go on after a panic -/

/-- `P` holds at every call of a run that goes on from whatever state a call leaves. -/
def Throughout (step : σ → ι → Outcome σ ρ) (P : σ → ι → Prop) : σ → List ι → Prop
  | _, [] => True
  | s, i :: is => P s i ∧ Throughout step P (step s i).state is

/-- Where `Q` and `R` agree on states satisfying `I`, and `Q` makes a call keep `I`, they agree
throughout a run. -/
theorem throughout_congr {I : σ → Prop} {Q R : σ → ι → Prop}
    (hagree : ∀ s i, I s → (Q s i ↔ R s i))
    (hkeep : ∀ s i, I s → Q s i → I (step s i).state) (hs : I s) :
    Throughout step Q s is ↔ Throughout step R s is := by
  induction is generalizing s with
  | nil => rfl
  | cons i is ih =>
    rw [Throughout, Throughout, ← hagree s i hs]
    exact and_congr_right fun hq => ih (hkeep s i hs hq)

end Outcome
