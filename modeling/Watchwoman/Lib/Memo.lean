import Watchwoman.Lib.HashMap

/-!
# Bounded memoisation

A cache of a fixed function that forgets everything when a new key would be one too many. A
computation that reads the function through the cache returns what it would return without: each
entry is the function's value at its key (`Coherent`), whatever was forgotten on the way.
-/

namespace Memo

variable {σ α β κ : Type}

/-! ## Computations that do not depend on a state -/

/-- From every state of the invariant, `c` returns `a` and leaves a state of the invariant. -/
def Yields (inv : σ → Prop) (c : StateM σ α) (a : α) : Prop :=
  ∀ s, inv s → (c.run s).1 = a ∧ inv (c.run s).2

section Yields

variable {inv : σ → Prop}

theorem Yields.pure (a : α) : Yields inv (Pure.pure a) a := fun _ hs => ⟨rfl, hs⟩

theorem Yields.bind {c : StateM σ α} {f : α → StateM σ β} {a : α} {b : β} (hc : Yields inv c a)
    (hf : Yields inv (f a) b) : Yields inv (c >>= f) b := by
  intro s hs
  obtain ⟨rfl, hinv⟩ := hc s hs
  exact hf _ hinv

theorem Yields.foldlM {step : β → α → StateM σ β} {f : β → α → β}
    (h : ∀ b a, Yields inv (step b a) (f b a)) (l : List α) (b : β) :
    Yields inv (l.foldlM step b) (l.foldl f b) := by
  induction l generalizing b with
  | nil => exact .pure b
  | cons a l ih =>
    rw [List.foldlM_cons]
    exact (h b a).bind (ih _)

theorem Yields.mapM {step : α → StateM σ β} {f : α → β} (h : ∀ a, Yields inv (step a) (f a))
    (l : List α) : Yields inv (l.mapM step) (l.map f) := by
  induction l with
  | nil => exact .pure []
  | cons a l ih =>
    rw [List.mapM_cons]
    exact (h a).bind (ih.bind (.pure _))

end Yields

/-! ## The cache -/

variable [DecidableEq κ]

/-- The value at `k`, from the cache or computed by `f` and kept; a cache that is full is emptied
before a new key. -/
def lookupOrInsert (f : κ → α) (capacity : ℕ) (k : κ) : StateM (HashMap κ α) α := fun m =>
  let m := if capacity ≤ m.entries.length ∧ k ∉ m then ∅ else m
  match m.lookup k with
  | some a => (a, m)
  | none => (f k, m.insert k (f k))

/-- Every entry is the value of `f` at its key. -/
def Coherent (f : κ → α) (m : HashMap κ α) : Prop := ∀ k a, m.lookup k = some a → a = f k

theorem coherent_empty (f : κ → α) : Coherent f ∅ := by
  intro k a h
  rw [AList.lookup_empty] at h
  cases h

/-- **A bounded cache is transparent.** -/
theorem yields_lookupOrInsert (f : κ → α) (capacity : ℕ) (k : κ) :
    Yields (Coherent f) (lookupOrInsert f capacity k) (f k) := by
  intro m hm
  have hkept : Coherent f (if capacity ≤ m.entries.length ∧ k ∉ m then ∅ else m) := by
    split_ifs
    · exact coherent_empty f
    · exact hm
  show (lookupOrInsert f capacity k m).1 = f k ∧ Coherent f (lookupOrInsert f capacity k m).2
  unfold lookupOrInsert
  generalize (if capacity ≤ m.entries.length ∧ k ∉ m then ∅ else m) = m' at hkept ⊢
  cases h : m'.lookup k with
  | some a =>
    simp only [h]
    exact ⟨hkept k a h, hkept⟩
  | none =>
    simp only [h]
    refine ⟨trivial, fun k' a ha => ?_⟩
    rw [HashMap.lookup_insert_eq] at ha
    split_ifs at ha with hk
    · rw [hk]
      exact (Option.some.inj ha).symm
    · exact hkept k' a ha

end Memo
