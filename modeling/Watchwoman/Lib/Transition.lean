import Mathlib.Data.Nat.Notation
import Mathlib.Logic.Relation

/-!
# Runs of a transition relation

A run is a finite chain of steps. What every step preserves holds along every run, and what holds
of the start states holds of every state a run reaches from one of them. A measure that every step
makes smaller bounds the runs.
-/

namespace Transition

variable {σ : Type*} {step : σ → σ → Prop}

/-- A run of `step` leads from the first state to the second. -/
abbrev Run (step : σ → σ → Prop) : σ → σ → Prop := Relation.ReflTransGen step

theorem Run.preserves {inv : σ → Prop} (hstep : ∀ s s', inv s → step s s' → inv s') {s s' : σ}
    (hrun : Run step s s') (h : inv s) : inv s' := by
  induction hrun with
  | refl => exact h
  | tail _ hs ih => exact hstep _ _ ih hs

theorem Run.weaken {step' : σ → σ → Prop} (h : ∀ s s', step s s' → step' s s') {s s' : σ}
    (hrun : Run step s s') : Run step' s s' :=
  Relation.ReflTransGen.mono h s s' hrun

/-- The states a run reaches from a start state. -/
def Reachable (start : σ → Prop) (step : σ → σ → Prop) (s : σ) : Prop :=
  ∃ s₀, start s₀ ∧ Run step s₀ s

theorem Reachable.invariant {start inv : σ → Prop} (hstart : ∀ s, start s → inv s)
    (hstep : ∀ s s', inv s → step s s' → inv s') {s : σ} (h : Reachable start step s) : inv s := by
  obtain ⟨s₀, h₀, hrun⟩ := h
  exact hrun.preserves hstep (hstart s₀ h₀)

theorem Reachable.next {start : σ → Prop} {s s' : σ} (h : Reachable start step s)
    (hs : step s s') : Reachable start step s' := by
  obtain ⟨s₀, h₀, hrun⟩ := h
  exact ⟨s₀, h₀, hrun.tail hs⟩

theorem acc_of_measure {inv : σ → Prop} (measure : σ → ℕ)
    (hinv : ∀ s s', inv s → step s s' → inv s')
    (hlt : ∀ s s', inv s → step s s' → measure s' < measure s) {s : σ} (h : inv s) :
    Acc (fun s' s => step s s') s := by
  induction hn : measure s using Nat.strongRecOn generalizing s with
  | ind n ih =>
    refine ⟨s, fun s' hs => ?_⟩
    exact ih (measure s') (hn ▸ hlt s s' h hs) (hinv s s' h hs) rfl

end Transition
