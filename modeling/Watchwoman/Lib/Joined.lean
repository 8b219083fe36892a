import Mathlib.Algebra.GroupWithZero.Nat
import Mathlib.Data.List.Basic

/-!
# Parts joined by a separator

Parts that are not empty and do not contain the separator are read back from the list they are
joined to, and joined parts with a separator behind them start only what their parts start.
-/

namespace Joined

variable {α : Type} {x : α}

/-- Parts that can be told apart once they are joined. -/
def Separable (x : α) (l : List (List α)) : Prop := ∀ p ∈ l, p ≠ [] ∧ x ∉ p

theorem Separable.filter_eq {l : List (List α)} (h : Separable x l) :
    l.filter (!·.isEmpty) = l := by
  refine List.filter_eq_self.mpr fun p hp => ?_
  simpa using (h p hp).1

/-- What is no separator is counted in the parts. -/
theorem countP_intercalate {q : α → Bool} (hq : ¬ q x) (l : List (List α)) :
    ([x].intercalate l).countP q = (l.map (List.countP q)).sum := by
  induction l with
  | nil => rfl
  | cons p l ih =>
    cases l with
    | nil => simp
    | cons p' l =>
      rw [List.intercalate_cons_cons, List.countP_append, List.countP_append, ih,
        List.countP_singleton, if_neg hq, Nat.add_zero]
      rfl

theorem subset_intercalate {l : List (List α)} {p : List α} (hp : p ∈ l) :
    p ⊆ [x].intercalate l := by
  induction l with
  | nil => cases hp
  | cons p' l ih =>
    cases l with
    | nil =>
      rw [List.mem_singleton.mp hp, List.intercalate_singleton]
      exact List.Subset.refl p'
    | cons p'' l =>
      rw [List.intercalate_cons_cons]
      intro y hy
      rcases List.mem_cons.mp hp with rfl | hp
      · exact List.mem_append_left _ (List.mem_append_left _ hy)
      · exact List.mem_append_right _ (ih hp hy)

variable [BEq α]

/-- The parts between the separators that are not empty. -/
def parts (x : α) (l : List α) : List (List α) := (l.splitOn x).filter (!·.isEmpty)

theorem parts_nil : parts x [] = [] := by
  unfold parts
  rw [List.splitOn_nil]
  rfl

variable [LawfulBEq α]

theorem countP_splitOn {q : α → Bool} (hq : ¬ q x) (l : List α) :
    ((l.splitOn x).map (List.countP q)).sum = l.countP q := by
  rw [← countP_intercalate hq, List.intercalate_splitOn]

theorem mem_of_mem_splitOn {l p : List α} (hp : p ∈ l.splitOn x) {y : α} (hy : y ∈ p) : y ∈ l := by
  have hjoined : y ∈ [x].intercalate (l.splitOn x) := subset_intercalate hp hy
  rwa [List.intercalate_splitOn] at hjoined

theorem parts_intercalate {l : List (List α)} (h : Separable x l) :
    parts x ([x].intercalate l) = l := by
  unfold parts
  by_cases hl : l = []
  · rw [hl, List.intercalate_nil, List.splitOn_nil]
    rfl
  · rw [List.splitOn_intercalate x (fun p hp => (h p hp).2) hl, h.filter_eq]

theorem parts_intercalate_append {l : List (List α)} (h : Separable x l) (hl : l ≠ [])
    (s : List α) : parts x ([x].intercalate l ++ x :: s) = l ++ parts x s := by
  unfold parts
  rw [List.splitOn_append_cons_self, List.filter_append,
    List.splitOn_intercalate x (fun p hp => (h p hp).2) hl, h.filter_eq]

theorem parts_cons_self (l : List α) : parts x (x :: l) = parts x l := by
  unfold parts
  rw [← List.nil_append (x :: l), List.splitOn_append_cons_self, List.splitOn_nil]
  rfl

/-- Each part has a separator behind it. -/
theorem parts_flatMap_append {l : List (List α)} (h : Separable x l) (s : List α) :
    parts x ((l.flatMap fun p => p ++ [x]) ++ s) = l ++ parts x s := by
  induction l with
  | nil => rfl
  | cons p l ih =>
    obtain ⟨hp, hl⟩ := List.forall_mem_cons.mp h
    have hone : Separable x [p] := List.forall_mem_singleton.mpr hp
    have hparts := parts_intercalate_append hone (List.cons_ne_nil p [])
      ((l.flatMap fun p => p ++ [x]) ++ s)
    rw [List.intercalate_singleton, ih hl] at hparts
    rw [List.flatMap_cons, List.append_assoc, List.append_assoc, List.singleton_append, hparts]
    rfl

theorem intercalate_inj {l l' : List (List α)} (h : Separable x l) (h' : Separable x l')
    (heq : [x].intercalate l = [x].intercalate l') : l = l' := by
  rw [← parts_intercalate h, ← parts_intercalate h', heq]

theorem prefix_of_intercalate {l l' : List (List α)} (h : Separable x l) (h' : Separable x l')
    (hl : l ≠ []) {s : List α} (heq : [x].intercalate l' = [x].intercalate l ++ x :: s) :
    l <+: l' := by
  rw [← parts_intercalate h', heq, parts_intercalate_append h hl]
  exact List.prefix_append _ _

end Joined
