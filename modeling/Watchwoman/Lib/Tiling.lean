import Mathlib.Algebra.GroupWithZero.Nat
import Mathlib.Data.List.Basic
import Mathlib.Order.Basic

/-!
# Parts laid end to end

`Tiles R p l q`: the parts `l` fill the stretch from `p` to `q` without a gap, the relation `R`
saying from where to where one part goes.
-/

namespace Tiling

variable {π α β : Type*} {R S : π → α → π → Prop}

/-- The parts go from `p` to `q`, each starting where the one before it ends. -/
def Tiles (R : π → α → π → Prop) : π → List α → π → Prop
  | p, [], q => p = q
  | p, a :: l, q => ∃ m, R p a m ∧ Tiles R m l q

theorem Tiles.forall_mem {P : α → Prop} (h : ∀ p a q, R p a q → P a) {p q : π} {l : List α}
    (ht : Tiles R p l q) : ∀ a ∈ l, P a := by
  induction l generalizing p with
  | nil => simp
  | cons a l ih =>
    obtain ⟨m, hr, hl⟩ := ht
    exact List.forall_mem_cons.mpr ⟨h _ _ _ hr, ih hl⟩

theorem Tiles.preserves {P : π → Prop} (h : ∀ p a q, P p → R p a q → P q) {p q : π} {l : List α}
    (ht : Tiles R p l q) (hp : P p) : P q := by
  induction l generalizing p with
  | nil => exact ht ▸ hp
  | cons a l ih =>
    obtain ⟨m, hr, hl⟩ := ht
    exact ih hl (h _ _ _ hp hr)

section Order

variable [Preorder π]

theorem Tiles.le (h : ∀ p a q, R p a q → p ≤ q) {p q : π} {l : List α} (ht : Tiles R p l q) :
    p ≤ q := by
  induction l generalizing p with
  | nil => exact le_of_eq ht
  | cons a l ih =>
    obtain ⟨m, hr, hl⟩ := ht
    exact (h _ _ _ hr).trans (ih hl)

theorem Tiles.mono_of_le (hle : ∀ p a q, R p a q → p ≤ q) {lo hi : π}
    (h : ∀ p a q, lo ≤ p → q ≤ hi → R p a q → S p a q) {p q : π} {l : List α}
    (ht : Tiles R p l q) (hlo : lo ≤ p) (hhi : q ≤ hi) : Tiles S p l q := by
  induction l generalizing p with
  | nil => exact ht
  | cons a l ih =>
    obtain ⟨m, hr, hl⟩ := ht
    exact ⟨m, h _ _ _ hlo ((hl.le hle).trans hhi) hr, ih hl (hlo.trans (hle _ _ _ hr))⟩

end Order

/-- Parts of positive extent are no more than the stretch is long. -/
theorem Tiles.length_le {R : ℕ → α → ℕ → Prop} (h : ∀ p a q, R p a q → p < q) {p q : ℕ}
    {l : List α} (ht : Tiles R p l q) : p + l.length ≤ q := by
  induction l generalizing p with
  | nil => exact Nat.le_of_eq ht
  | cons a l ih =>
    obtain ⟨m, hr, hl⟩ := ht
    have := h _ _ _ hr
    have := ih hl
    rw [List.length_cons]
    omega

/-- If each part weighs at most `k` times its extent, so do all parts together. -/
theorem Tiles.sum_le {R : ℕ → α → ℕ → Prop} {f : α → ℕ} {k : ℕ}
    (h : ∀ p a q, R p a q → k * p + f a ≤ k * q) {p q : ℕ} {l : List α} (ht : Tiles R p l q) :
    k * p + (l.map f).sum ≤ k * q := by
  induction l generalizing p with
  | nil =>
    obtain rfl := ht
    exact Nat.le_refl _
  | cons a l ih =>
    obtain ⟨m, hr, hl⟩ := ht
    have := h _ _ _ hr
    have := ih hl
    rw [List.map_cons, List.sum_cons]
    omega

end Tiling
