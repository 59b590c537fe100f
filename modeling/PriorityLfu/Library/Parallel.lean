import Mathlib.Data.List.Basic
import Mathlib.Data.List.Perm.Basic

/-!
# Positions in lists and in parallel lists

A list taken apart at a position, for a change at that position. A second list of the same length
says something of each element; then the pairs are taken apart.
-/
namespace List

variable {α β : Type*} {l : List α} {m : List β} {i : Nat} {a : α} {b : β}

theorem getElem?_split (h : l[i]? = some a) :
    ∃ before after, l = before ++ a :: after ∧ before.length = i ∧
      (∀ a', l.set i a' = before ++ a' :: after) ∧ l.eraseIdx i = before ++ after := by
  obtain ⟨hlt, rfl⟩ := getElem?_eq_some_iff.mp h
  refine ⟨l.take i, l.drop (i + 1), ?_, length_take_of_le (Nat.le_of_lt hlt),
    fun a' => by simp [set_eq_take_append_cons_drop, hlt], eraseIdx_eq_take_drop_succ _ _⟩
  rw [← drop_eq_getElem_cons hlt, take_append_drop]

/-- Where something has a property, there is a last one. -/
theorem exists_getElem?_last {P : α → Prop} (h : ∃ a ∈ l, P a) :
    ∃ i a, l[i]? = some a ∧ P a ∧ ∀ b ∈ l.drop (i + 1), ¬ P b := by
  induction l with
  | nil =>
    obtain ⟨a, ha, -⟩ := h
    cases ha
  | cons a l ih =>
    by_cases hlater : ∃ b ∈ l, P b
    · obtain ⟨i, b, hi, hb, hlast⟩ := ih hlater
      exact ⟨i + 1, b, hi, hb, hlast⟩
    · obtain ⟨b, hb, hP⟩ := h
      rcases mem_cons.mp hb with rfl | hin
      · exact ⟨0, b, rfl, hP, fun c hc hPc => hlater ⟨c, hc, hPc⟩⟩
      · exact absurd ⟨b, hin, hP⟩ hlater

theorem zip_eraseIdx (l : List α) (m : List β) (i : Nat) :
    (l.eraseIdx i).zip (m.eraseIdx i) = (l.zip m).eraseIdx i := by
  induction l generalizing m i with
  | nil => simp
  | cons a l ih => cases m <;> cases i <;> simp [ih]

theorem zip_set (l : List α) (m : List β) (i : Nat) (a : α) (b : β) :
    (l.set i a).zip (m.set i b) = (l.zip m).set i (a, b) := by
  induction l generalizing m i with
  | nil => simp
  | cons a l ih => cases m <;> cases i <;> simp [ih]

/-- The pairs taken apart. -/
theorem zip_split (h : (l.zip m)[i]? = some (a, b)) :
    ∃ before after, l.zip m = before ++ (a, b) :: after ∧ before.length = i ∧
      (∀ a' b', (l.set i a').zip (m.set i b') = before ++ (a', b') :: after) ∧
      (∀ a', (l.set i a').zip m = before ++ (a', b) :: after) ∧
      (l.eraseIdx i).zip (m.eraseIdx i) = before ++ after := by
  obtain ⟨before, after, hzip, hlen, hset, herase⟩ := getElem?_split h
  have hboth : ∀ a' b', (l.set i a').zip (m.set i b') = before ++ (a', b') :: after :=
    fun a' b' => by rw [zip_set, hset]
  refine ⟨before, after, hzip, hlen, hboth, fun a' => ?_, by rw [zip_eraseIdx, herase]⟩
  have hb : m.set i b = m := by
    obtain ⟨hlt, rfl⟩ := getElem?_eq_some_iff.mp (getElem?_zip_eq_some.mp h).2
    exact set_getElem_self hlt
  rw [← hboth a' b, hb]

/-- The pair at position `i` apart from the others. -/
theorem zip_perm_cons (h : (l.zip m)[i]? = some (a, b)) :
    (l.zip m).Perm ((a, b) :: (l.eraseIdx i).zip (m.eraseIdx i)) ∧
      (∀ a' b', ((l.set i a').zip (m.set i b')).Perm
        ((a', b') :: (l.eraseIdx i).zip (m.eraseIdx i))) ∧
      ∀ a', ((l.set i a').zip m).Perm ((a', b) :: (l.eraseIdx i).zip (m.eraseIdx i)) := by
  obtain ⟨before, after, hzip, -, hboth, hfirst, herase⟩ := zip_split h
  rw [hzip, herase]
  refine ⟨perm_middle, fun a' b' => ?_, fun a' => ?_⟩
  · rw [hboth]
    exact perm_middle
  · rw [hfirst]
    exact perm_middle

/-! ## A list that keeps pace -/

/-- The second list, where the element at position `i` of the first one has changed, or is gone. -/
def alongside (m : List β) (l l' : List α) (i : Nat) : List β :=
  if l'.length < l.length then m.eraseIdx i else m

theorem alongside_eraseIdx (m : List β) (h : i < l.length) :
    m.alongside l (l.eraseIdx i) i = m.eraseIdx i := by
  have hless : (l.eraseIdx i).length < l.length := by
    rw [length_eraseIdx_of_lt h]
    omega
  rw [alongside, if_pos hless]

theorem alongside_set (m : List β) (a' : α) : m.alongside l (l.set i a') i = m := by
  simp [alongside]

end List
