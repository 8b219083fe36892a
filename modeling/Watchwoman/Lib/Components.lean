import Watchwoman.Lib.Transaction
import Mathlib.Data.List.Basic

/-!
# Programs over a state of many components

A state has a component at each key. A program is local at a key if its outcome and what it does to
the component there depend on that component alone, and it leaves the others as they are. A run in
which programs at all keys are mixed looks, from one key, like the run of those that are about that
key: the others can be left out (`run_purge`).
-/

namespace Components

open Transaction Program

variable {σ κ γ ε α β : Type} {view : σ → κ → γ} {k k' : κ}

/-- What the program does at `k` depends on the component there. -/
def Autonomous (view : σ → κ → γ) (k : κ) (x : Program σ ε α) : Prop :=
  ∀ s t, view s k = view t k → view (x.exec s).2 k = view (x.exec t).2 k

/-- The program leaves the component at `k` as it is. -/
def Spares (view : σ → κ → γ) (k : κ) (x : Program σ ε α) : Prop :=
  ∀ s, view (x.exec s).2 k = view s k

/-- The outcome depends on the component at `k`. -/
def AnswersFrom (view : σ → κ → γ) (k : κ) (x : Program σ ε α) : Prop :=
  ∀ s t, view s k = view t k → (x.exec s).1 = (x.exec t).1

/-- The program is about the component at `k`, and about nothing else. -/
structure Local (view : σ → κ → γ) (k : κ) (x : Program σ ε α) : Prop where
  answers : AnswersFrom view k x
  autonomous : Autonomous view k x
  spares : ∀ k', k' ≠ k → Spares view k' x

/-! ## Building local programs -/

/-- A program that leaves the state as it is, and does not look at it. -/
theorem local_of_const {x : Program σ ε α} (o : Except ε α) (h : ∀ s, x.exec s = (o, s)) :
    Local view k x := by
  refine ⟨?_, ?_, ?_⟩
  · intro s t _
    rw [h s, h t]
  · intro s t hst
    rw [h s, h t, hst]
  · intro k' _ s
    rw [h s]

theorem local_pure (a : α) : Local view k (pure a : Program σ ε α) :=
  local_of_const (.ok a) fun _ => rfl

theorem local_throw (e : ε) : Local view k (throw e : Program σ ε α) :=
  local_of_const (.error e) fun _ => rfl

theorem local_lift (x : Except ε α) : Local view k (liftM x : Program σ ε α) :=
  local_of_const x (exec_lift x)

/-- A change of the component at `k`. -/
theorem local_modify {f : σ → σ} (hk : ∀ s t, view s k = view t k → view (f s) k = view (f t) k)
    (hother : ∀ s k', k' ≠ k → view (f s) k' = view s k') :
    Local view k (modify f : Program σ ε PUnit) :=
  ⟨fun _ _ _ => rfl, hk, fun k' hne s => hother s k' hne⟩

/-- What follows need only be local for the values that are returned. -/
theorem Local.bind {x : Program σ ε α} {f : α → Program σ ε β} (hx : Local view k x)
    (hf : ∀ s a, (x.exec s).1 = .ok a → Local view k (f a)) : Local view k (x >>= f) := by
  have hexec : ∀ s t, view s k = view t k →
      ((x >>= f).exec s).1 = ((x >>= f).exec t).1 ∧
        view ((x >>= f).exec s).2 k = view ((x >>= f).exec t).2 k := by
    intro s t hst
    have hout := hx.answers s t hst
    have hcomp := hx.autonomous s t hst
    have hf := hf s
    rw [exec_bind, exec_bind]
    revert hout hcomp hf
    obtain ⟨o, s'⟩ := x.exec s
    obtain ⟨o', t'⟩ := x.exec t
    rintro (rfl : o = o') hcomp hf
    cases o with
    | error e => exact ⟨rfl, hcomp⟩
    | ok a =>
      obtain ⟨hanswers, hauto, -⟩ := hf a rfl
      exact ⟨hanswers s' t' hcomp, hauto s' t' hcomp⟩
  refine ⟨fun s t hst => (hexec s t hst).1, fun s t hst => (hexec s t hst).2, ?_⟩
  intro k' hne s
  have hspares := hx.spares k' hne s
  have hf := hf s
  rw [exec_bind]
  revert hspares hf
  obtain ⟨o, s'⟩ := x.exec s
  intro hspares hf
  cases o with
  | error e => exact hspares
  | ok a => exact ((hf a rfl).spares k' hne s').trans hspares

theorem Spares.bind {x : Program σ ε α} {f : α → Program σ ε β} (hx : Spares view k x)
    (hf : ∀ a, Spares view k (f a)) : Spares view k (x >>= f) := by
  intro s
  have hspares := hx s
  rw [exec_bind]
  revert hspares
  obtain ⟨o, s'⟩ := x.exec s
  intro hspares
  cases o with
  | error e => exact hspares
  | ok a => exact (hf a s').trans hspares

/-- Visiting some keys, none twice, settles the component at each of them by itself. -/
theorem view_foldl [DecidableEq κ] {f : σ → κ → σ} {h : κ → γ → γ}
    (hf : ∀ s k k', view (f s k) k' = if k' = k then h k (view s k) else view s k') {l : List κ}
    (hnodup : l.Nodup) (s : σ) (k : κ) :
    view (l.foldl f s) k = if k ∈ l then h k (view s k) else view s k := by
  induction l generalizing s with
  | nil => rfl
  | cons a l ih =>
    obtain ⟨hnew, hnodup⟩ := List.nodup_cons.mp hnodup
    rw [List.foldl_cons, ih hnodup, hf]
    by_cases hka : k = a
    · subst hka
      rw [if_neg hnew, if_pos rfl, if_pos List.mem_cons_self]
    · rw [if_neg hka]
      simp only [List.mem_cons, hka, false_or]

/-! ## Runs -/

section Runs

variable {ι : Type} (prog : ι → Program σ ε α)

/-- The programs of a run with their outcomes. -/
def outcomes : List ι → σ → List (ι × Except ε α)
  | [], _ => []
  | i :: l, s => (i, ((prog i).exec s).1) :: outcomes l ((prog i).exec s).2

/-- The state after a run. -/
def finalState (l : List ι) (s : σ) : σ := l.foldl (fun s i => ((prog i).exec s).2) s

variable {prog}

/-- **Noninterference.** If the programs that are left out spare the component at `k`, and all others
are autonomous there, the run without them has the same component at `k` at the end and the same
outcomes of the programs that answer from it. -/
theorem run_purge {kept asked : ι → Bool} (hasked : ∀ i, asked i = true → kept i = true) {l : List ι}
    (hleft : ∀ i ∈ l, kept i = false → Spares view k (prog i))
    (hkept : ∀ i ∈ l, kept i = true → Autonomous view k (prog i))
    (hanswers : ∀ i ∈ l, asked i = true → AnswersFrom view k (prog i)) {s t : σ}
    (hst : view s k = view t k) :
    (outcomes prog l s).filter (fun o => asked o.1) =
        (outcomes prog (l.filter kept) t).filter (fun o => asked o.1) ∧
      view (finalState prog l s) k = view (finalState prog (l.filter kept) t) k := by
  induction l generalizing s t with
  | nil => exact ⟨rfl, hst⟩
  | cons i l ih =>
    obtain ⟨hleftHead, hleft⟩ := List.forall_mem_cons.mp hleft
    obtain ⟨hkeptHead, hkept⟩ := List.forall_mem_cons.mp hkept
    obtain ⟨hanswersHead, hanswers⟩ := List.forall_mem_cons.mp hanswers
    cases hk : kept i with
    | false =>
      have hnotAsked : asked i = false := by
        by_contra hask
        rw [hasked i (by simpa using hask)] at hk
        cases hk
      rw [List.filter_cons_of_neg (by simp [hk])]
      have hnext : view ((prog i).exec s).2 k = view t k := (hleftHead hk s).trans hst
      obtain ⟨hout, hfinal⟩ := ih hleft hkept hanswers hnext
      refine ⟨?_, hfinal⟩
      rw [outcomes, List.filter_cons_of_neg (by simp [hnotAsked])]
      exact hout
    | true =>
      rw [List.filter_cons_of_pos hk]
      have hnext := hkeptHead hk s t hst
      obtain ⟨hout, hfinal⟩ := ih hleft hkept hanswers hnext
      refine ⟨?_, hfinal⟩
      rw [outcomes, outcomes, List.filter_cons, List.filter_cons, hout]
      split_ifs with hask
      · rw [hanswersHead hask s t hst]
      · rfl

end Runs

end Components
