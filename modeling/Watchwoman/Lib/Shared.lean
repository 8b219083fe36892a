import Mathlib.Algebra.GroupWithZero.Nat
import Mathlib.Algebra.BigOperators.Group.List.Basic

/-!
# Shared values

A value is kept by its holds, which are counted, and is dropped when the last one is given up. A
task without a hold may ask for one and gets it as long as there is another. If every change of the
count is a task taking or giving up a hold, the count is the number of holds: the value is dropped
when nobody holds it and not before, and nobody holds it after that.
-/

namespace Shared

/-- The value is there, its destructor is about to run, or it has run. -/
inductive Life where
  | live
  | dropping
  | dropped

structure Cell where
  strong : ℕ
  life : Life

/-- What a step of a task does to the count. -/
inductive Effect where
  | keep
  | acquire
  | release

/-- The cell after a step; giving up the last hold drops the value. -/
def Cell.apply (c : Cell) : Effect → Cell
  | .keep => c
  | .acquire => { c with strong := c.strong + 1 }
  | .release => ⟨c.strong - 1, if c.strong = 1 then .dropping else c.life⟩

/-- A hold is taken only while there is another. -/
def Effect.Allowed (c : Cell) : Effect → Prop
  | .acquire => 0 < c.strong
  | _ => True

/-- Who had `n` holds has `n'` after the step. -/
def Effect.Moves (n n' : ℕ) : Effect → Prop
  | .keep => n' = n
  | .acquire => n' = n + 1
  | .release => n = n' + 1

/-- The count is the number of holds, and the value is there while there is one. -/
structure Cell.Balanced (c : Cell) (holds : ℕ) : Prop where
  strong_eq : c.strong = holds
  live_iff : c.life = .live ↔ 0 < holds

variable {c : Cell} {e : Effect} {n n' : ℕ}

theorem Cell.Balanced.apply (h : c.Balanced n) (hmoves : e.Moves n n') (hallowed : e.Allowed c) :
    (c.apply e).Balanced n' := by
  obtain ⟨hstrong, hlive⟩ := h
  cases e with
  | keep =>
    obtain rfl : n' = n := hmoves
    exact ⟨hstrong, hlive⟩
  | acquire =>
    obtain rfl : n' = n + 1 := hmoves
    have hpos : 0 < n := hstrong ▸ hallowed
    exact ⟨congrArg (· + 1) hstrong, iff_of_true (hlive.mpr hpos) (Nat.succ_pos n)⟩
  | release =>
    obtain rfl : n = n' + 1 := hmoves
    have hbefore : c.life = .live := hlive.mpr (Nat.succ_pos n')
    refine ⟨by show c.strong - 1 = n'; omega, ?_⟩
    show (if c.strong = 1 then Life.dropping else c.life) = .live ↔ _
    split_ifs with hlast
    · exact iff_of_false (by rintro ⟨⟩) (by omega)
    · exact iff_of_true hbefore (by omega)

/-- A step of a holder does not finish the destructor. -/
theorem Cell.Balanced.dropped_iff (h : c.Balanced n) (hmoves : e.Moves n n') :
    (c.apply e).life = .dropped ↔ c.life = .dropped := by
  cases e with
  | keep => exact Iff.rfl
  | acquire => exact Iff.rfl
  | release =>
    obtain rfl : n = n' + 1 := hmoves
    have hbefore : c.life = .live := h.live_iff.mpr (Nat.succ_pos n')
    show (if c.strong = 1 then Life.dropping else c.life) = .dropped ↔ _
    rw [hbefore]
    split_ifs
    · exact iff_of_false (by rintro ⟨⟩) (by rintro ⟨⟩)
    · exact Iff.rfl

/-- A value on its way out does not come back. -/
theorem Cell.life_apply (e : Effect) (h : c.life ≠ .live) : (c.apply e).life ≠ .live := by
  cases e with
  | keep => exact h
  | acquire => exact h
  | release =>
    show (if c.strong = 1 then Life.dropping else c.life) ≠ .live
    split_ifs
    · rintro ⟨⟩
    · exact h

theorem sum_map_split {α : Type*} (f : α → ℕ) (l₁ l₂ : List α) (a : α) :
    ((l₁ ++ a :: l₂).map f).sum = (l₁.map f).sum + f a + (l₂.map f).sum := by
  rw [List.map_append, List.map_cons, List.sum_append, List.sum_cons, Nat.add_assoc]

/-- What one of several holders does, they do together. -/
theorem Effect.Moves.sum {α : Type*} {holds : α → ℕ} {a a' : α}
    (h : e.Moves (holds a) (holds a')) (l₁ l₂ : List α) :
    e.Moves ((l₁ ++ a :: l₂).map holds).sum ((l₁ ++ a' :: l₂).map holds).sum := by
  rw [sum_map_split, sum_map_split]
  cases e with
  | keep => exact congrArg (fun k => (l₁.map holds).sum + k + (l₂.map holds).sum) h
  | acquire =>
    change holds a' = holds a + 1 at h
    show _ = _ + 1
    omega
  | release =>
    change holds a = holds a' + 1 at h
    show _ = _ + 1
    omega

theorem Effect.Moves.add_left (h : e.Moves n n') (k : ℕ) : e.Moves (k + n) (k + n') := by
  cases e with
  | keep => exact congrArg (k + ·) h
  | acquire => exact congrArg (k + ·) h
  | release => exact congrArg (k + ·) h

theorem Effect.Moves.add_right (h : e.Moves n n') (k : ℕ) : e.Moves (n + k) (n' + k) := by
  rw [Nat.add_comm n, Nat.add_comm n']
  exact h.add_left k

theorem Cell.Balanced.holds_eq_zero (h : c.Balanced n) (hlife : c.life ≠ .live) : n = 0 := by
  by_contra hne
  exact hlife (h.live_iff.mpr (Nat.pos_of_ne_zero hne))

end Shared
