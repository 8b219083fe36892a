import Mathlib.Order.Defs.Unbundled

/-!
# Programs that fail and keep a state

A program reads and writes a state and returns a value or an error; the state it had reached stays
when it fails. It is atomic up to a relation if the states before and after a failed run are related.

The rules below are for the usual shape of such a program: first steps that can fail and leave the
state related to what it was, then steps that cannot fail and change it at will.
-/

namespace Transaction

variable {σ ε α β : Type} {R : σ → σ → Prop}

abbrev Program (σ ε α : Type) := ExceptT ε (StateM σ) α

namespace Program

/-- The outcome of a run, and the state after it. -/
def exec (x : Program σ ε α) (s : σ) : Except ε α × σ := x.run.run s

theorem exec_bind (x : Program σ ε α) (f : α → Program σ ε β) (s : σ) :
    (x >>= f).exec s =
      match x.exec s with
      | (.ok a, s') => (f a).exec s'
      | (.error e, s') => (.error e, s') := by
  show (ExceptT.bindCont f (x.exec s).1).run (x.exec s).2 = _
  obtain ⟨a | e, s'⟩ := x.exec s <;> rfl

theorem exec_get_bind (f : σ → Program σ ε β) (s : σ) : (get >>= f).exec s = (f s).exec s := rfl

theorem exec_modify_bind (f : σ → σ) (g : PUnit → Program σ ε β) (s : σ) :
    (modify f >>= g).exec s = (g ⟨⟩).exec (f s) := rfl

theorem exec_lift (x : Except ε α) (s : σ) : (liftM x : Program σ ε α).exec s = (x, s) := by
  cases x <;> rfl

/-- However it ends, the program leaves the state related to what it was. -/
def Keeps (R : σ → σ → Prop) (x : Program σ ε α) : Prop := ∀ s, R s (x.exec s).2

/-- A failed run leaves the state related to what it was. -/
def Atomic (R : σ → σ → Prop) (x : Program σ ε α) : Prop :=
  ∀ s e, (x.exec s).1 = .error e → R s (x.exec s).2

/-- From a state with `P`, however it ends, the program leaves one related to it. -/
def KeepsFrom (P : σ → Prop) (R : σ → σ → Prop) (x : Program σ ε α) : Prop :=
  ∀ s, P s → R s (x.exec s).2

/-- What the program returns, if it does, has the property. -/
def Returns (V : α → Prop) (x : Program σ ε α) : Prop := ∀ s a, (x.exec s).1 = .ok a → V a

/-- The program never fails. -/
def Infallible (x : Program σ ε α) : Prop := ∀ s e, (x.exec s).1 ≠ .error e

theorem Keeps.atomic {x : Program σ ε α} (h : x.Keeps R) : x.Atomic R := fun s _ _ => h s

theorem Infallible.atomic {x : Program σ ε α} (h : x.Infallible) : x.Atomic R :=
  fun s e he => absurd he (h s e)

theorem Infallible.bind {x : Program σ ε α} {f : α → Program σ ε β} (hx : x.Infallible)
    (hf : ∀ a, (f a).Infallible) : (x >>= f).Infallible := by
  intro s e
  have hx := hx s
  rw [exec_bind]
  revert hx
  obtain ⟨e' | a, s'⟩ := x.exec s
  · exact fun hx => absurd rfl (hx e')
  · exact fun _ => hf a s' e

theorem returns_pure {V : α → Prop} {a : α} (h : V a) : (pure a : Program σ ε α).Returns V := by
  intro s b hb
  obtain rfl : a = b := Except.ok.inj hb
  exact h

theorem returns_modify_pure {V : α → Prop} {a : α} (f : σ → σ) (h : V a) :
    (modify f >>= fun _ => pure a : Program σ ε α).Returns V := by
  intro s b hb
  obtain rfl : a = b := Except.ok.inj hb
  exact h

theorem Returns.lift_bind {V : β → Prop} {x : Except ε α} {f : α → Program σ ε β}
    (hf : ∀ a, x = .ok a → (f a).Returns V) :
    ((liftM x : Program σ ε α) >>= f).Returns V := by
  intro s b hb
  rw [exec_bind, exec_lift] at hb
  cases x with
  | error e => cases hb
  | ok a => exact hf a rfl s b hb

theorem infallible_pure (a : α) : (pure a : Program σ ε α).Infallible := fun _ _ he => nomatch he

theorem infallible_modify (f : σ → σ) : (modify f : Program σ ε PUnit).Infallible :=
  fun _ _ he => nomatch he

theorem infallible_set (s' : σ) : (set s' : Program σ ε PUnit).Infallible := fun _ _ he => nomatch he

/-- What cannot fail may follow. -/
theorem Atomic.bind_infallible {x : Program σ ε α} {f : α → Program σ ε β} (hx : x.Atomic R)
    (hf : ∀ a, (f a).Infallible) : (x >>= f).Atomic R := by
  intro s e
  have hx := hx s
  rw [exec_bind]
  revert hx
  obtain ⟨e' | a, s'⟩ := x.exec s
  · exact fun hx _ => hx e' rfl
  · exact fun _ he => absurd he (hf a s' e)

section Reflexive

variable [Std.Refl R]

theorem keeps_pure (a : α) : (pure a : Program σ ε α).Keeps R := fun s => refl_of R s

theorem keeps_throw (e : ε) : (throw e : Program σ ε α).Keeps R := fun s => refl_of R s

theorem keeps_lift (x : Except ε α) : (liftM x : Program σ ε α).Keeps R := by
  intro s
  rw [exec_lift]
  exact refl_of R s

theorem keeps_get : (get : Program σ ε σ).Keeps R := fun s => refl_of R s

theorem KeepsFrom.lift_bind {P : σ → Prop} {x : Except ε α} {f : α → Program σ ε β}
    (hf : ∀ a, x = .ok a → (f a).KeepsFrom P R) :
    ((liftM x : Program σ ε α) >>= f).KeepsFrom P R := by
  intro s hs
  rw [exec_bind, exec_lift]
  cases x with
  | error e => exact refl_of R s
  | ok a => exact hf a rfl s hs

end Reflexive

section Transitive

variable [IsTrans σ R]

theorem Keeps.bind {x : Program σ ε α} {f : α → Program σ ε β} (hx : x.Keeps R)
    (hf : ∀ a, (f a).Keeps R) : (x >>= f).Keeps R := by
  intro s
  have hx := hx s
  rw [exec_bind]
  revert hx
  obtain ⟨e | a, s'⟩ := x.exec s
  · exact id
  · exact fun hx => trans_of R hx (hf a s')

/-- The steps up to the last that can fail keep the state, and the rest is atomic. -/
theorem Atomic.bind {x : Program σ ε α} {f : α → Program σ ε β} (hx : x.Keeps R)
    (hf : ∀ a, (f a).Atomic R) : (x >>= f).Atomic R := by
  intro s e
  have hx := hx s
  rw [exec_bind]
  revert hx
  obtain ⟨e' | a, s'⟩ := x.exec s
  · exact fun hx _ => hx
  · exact fun hx he => trans_of R hx (hf a s' e he)

end Transitive

end Program

end Transaction
