import Mathlib.Data.List.Basic

/-!
# The last write wins

In a sequence of operations some write a value and the others leave it alone. What counts at the
end is the last write, or the value from before if there is none.
-/

namespace LastWrite

variable {α β σ : Type*}

/-- The value of the last operation that writes one. -/
def lastSome? (write : α → Option β) (l : List α) : Option β := l.reverse.findSome? write

variable {write : α → Option β}

theorem lastSome?_append (l l' : List α) :
    lastSome? write (l ++ l') = (lastSome? write l').or (lastSome? write l) := by
  unfold lastSome?
  rw [List.reverse_append, List.findSome?_append]

theorem lastSome?_singleton (a : α) : lastSome? write [a] = write a := by
  cases h : write a <;> simp [lastSome?, h]

theorem lastSome?_cons (a : α) (l : List α) :
    lastSome? write (a :: l) = (lastSome? write l).or (write a) := by
  rw [← List.singleton_append, lastSome?_append, lastSome?_singleton]

theorem lastSome?_eq_none_iff {l : List α} : lastSome? write l = none ↔ ∀ a ∈ l, write a = none := by
  simp [lastSome?]

theorem exists_of_lastSome? {l : List α} {b : β} (h : lastSome? write l = some b) :
    ∃ a ∈ l, write a = some b := by
  obtain ⟨a, ha, hb⟩ := List.exists_of_findSome?_eq_some h
  exact ⟨a, List.mem_reverse.mp ha, hb⟩

/-- A list has an element with the property, and a last one, or none. -/
theorem exists_last_split (P : α → Prop) [DecidablePred P] (l : List α) :
    (∀ a ∈ l, ¬ P a) ∨ ∃ l₁ a l₂, l = l₁ ++ a :: l₂ ∧ P a ∧ ∀ b ∈ l₂, ¬ P b := by
  induction l with
  | nil => exact .inl fun a ha => absurd ha List.not_mem_nil
  | cons x l ih =>
    rcases ih with hnone | ⟨l₁, a, l₂, rfl, ha, hafter⟩
    · by_cases hx : P x
      · exact .inr ⟨[], x, l, rfl, hx, hnone⟩
      · exact .inl (List.forall_mem_cons.mpr ⟨hx, hnone⟩)
    · exact .inr ⟨x :: l₁, a, l₂, rfl, ha, hafter⟩

/-- If each operation writes what `write` says, a sequence leaves the last write. -/
theorem getD_foldl {step : σ → α → σ} (value : σ → β)
    (hstep : ∀ s a, value (step s a) = (write a).getD (value s)) (l : List α) (s : σ) :
    value (l.foldl step s) = (lastSome? write l).getD (value s) := by
  induction l generalizing s with
  | nil => rfl
  | cons a l ih =>
    rw [List.foldl_cons, ih, hstep, lastSome?_cons]
    cases lastSome? write l <;> rfl

end LastWrite
