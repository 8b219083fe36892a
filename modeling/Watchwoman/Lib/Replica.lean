import Watchwoman.Lib.Transition
import Mathlib.Data.List.Basic

/-!
# Replicas of a store with tombstones

A store keeps a versioned record for each key; a record without a value is a tombstone. A replica is
brought up to date with the records newer than its last refresh, or is replaced by the values of the
store. If every write carries a version newer than that refresh and no tombstone newer than it is
dropped, the replica agrees with the store after each refresh, whatever happens in between.
-/

namespace Replica

variable {κ β : Type*}

structure Record (β : Type*) where
  version : ℕ
  value : Option β

abbrev Store (κ β : Type*) := κ → Option (Record β)

/-- What a replica holds: the value of each key that it takes to have one. -/
abbrev View (κ β : Type*) := κ → Option β

/-- The values of the keys; a tombstone has none. -/
def Store.values (s : Store κ β) : View κ β := fun k => (s k).bind Record.value

/-- The record is newer than the refresh; before the first one every record is. -/
def Newer (seen : Option ℕ) (r : Record β) : Prop := ∀ t ∈ seen, t < r.version

instance (seen : Option ℕ) (r : Record β) : Decidable (Newer seen r) :=
  inferInstanceAs (Decidable (∀ t ∈ seen, t < r.version))

theorem newer_some {t : ℕ} {r : Record β} : Newer (some t) r ↔ t < r.version := by
  simp [Newer]

/-- The keys whose records are newer than the refresh, with their values. -/
def Store.since (seen : Option ℕ) (s : Store κ β) (k : κ) : Option (Option β) :=
  (s k).bind fun r => if Newer seen r then some r.value else none

/-- The replica after a delta. -/
def View.apply (m : View κ β) (delta : κ → Option (Option β)) : View κ β :=
  fun k => (delta k).getD (m k)

/-- The replica is right about every record that is not newer than its last refresh. -/
structure UpTo (seen : Option ℕ) (s : Store κ β) (m : View κ β) : Prop where
  known : ∀ k r, s k = some r → ¬ Newer seen r → m k = r.value
  unknown : ∀ k, s k = none → m k = none
  empty : seen = none → ∀ k, m k = none

/-- The store has changed, and the records not newer than the refresh are as they were; those of
them that are tombstones may be gone. Before the first refresh anything may be gone. -/
def Evolves (seen : Option ℕ) (s s' : Store κ β) : Prop :=
  ∀ k, s' k = s k ∨ (∃ r, s' k = some r ∧ Newer seen r) ∨
    (s' k = none ∧ ∀ t ∈ seen, ∃ r, s k = some r ∧ r.value = none ∧ r.version ≤ t)

variable {seen : Option ℕ} {s s' : Store κ β} {m : View κ β}

theorem Evolves.refl (seen : Option ℕ) (s : Store κ β) : Evolves seen s s := fun _ => .inl rfl

theorem UpTo.mono {t t' : ℕ} (h : UpTo (some t) s m) (hle : t' ≤ t) : UpTo (some t') s m := by
  refine ⟨fun k r hr hold => h.known k r hr fun hnewer => hold ?_, h.unknown, by rintro ⟨⟩⟩
  rw [newer_some] at hnewer ⊢
  exact Nat.lt_of_le_of_lt hle hnewer

theorem UpTo.evolves (h : UpTo seen s m) (he : Evolves seen s s') : UpTo seen s' m := by
  refine ⟨?_, ?_, h.empty⟩
  · intro k r hr hold
    rcases he k with hsame | ⟨r', hr', hnewer⟩ | ⟨hgone, -⟩
    · exact h.known k r (hsame ▸ hr) hold
    · obtain rfl := Option.some.inj (hr.symm.trans hr')
      exact absurd hnewer hold
    · rw [hgone] at hr
      cases hr
  · intro k hnone
    rcases he k with hsame | ⟨r', hr', -⟩ | ⟨-, hdropped⟩
    · exact h.unknown k (hsame ▸ hnone)
    · rw [hnone] at hr'
      cases hr'
    · cases hseen : seen with
      | none => exact h.empty hseen k
      | some t =>
        obtain ⟨r, hr, hdead, hle⟩ := hdropped t hseen
        rw [h.known k r hr, hdead]
        intro hnewer
        exact absurd (hnewer t hseen) (Nat.not_lt.mpr hle)

/-- A delta since the last refresh makes the replica the values of the store. -/
theorem UpTo.apply_since (h : UpTo seen s m) : m.apply (s.since seen) = s.values := by
  funext k
  unfold View.apply Store.since Store.values
  cases hk : s k with
  | none => exact h.unknown k hk
  | some r =>
    rw [Option.bind_some, Option.bind_some]
    split_ifs with hnewer
    · rfl
    · exact h.known k r hk hnewer

/-- Up to date with records none of which is newer, the replica is the values of the store. -/
theorem UpTo.eq_values {t : ℕ} (h : UpTo (some t) s m)
    (hold : ∀ k r, s k = some r → r.version ≤ t) : m = s.values := by
  funext k
  unfold Store.values
  cases hk : s k with
  | none => exact h.unknown k hk
  | some r =>
    refine h.known k r hk fun hnewer => ?_
    exact absurd (newer_some.mp hnewer) (Nat.not_lt.mpr (hold k r hk))

/-- The values of the store are right about every record. -/
theorem upTo_values (t : ℕ) (s : Store κ β) : UpTo (some t) s s.values := by
  refine ⟨?_, ?_, ?_⟩
  · intro k r hr _
    unfold Store.values
    rw [hr, Option.bind_some]
  · intro k hnone
    unfold Store.values
    rw [hnone, Option.bind_none]
  · rintro ⟨⟩

theorem upTo_none (s : Store κ β) : UpTo none s fun _ => none := by
  refine ⟨?_, fun _ _ => rfl, fun _ _ => rfl⟩
  intro k r _ hold
  exact absurd (by simp [Newer]) hold

/-! ## Runs -/

/-- A store, the version of the replica's last refresh, and the replica. -/
structure System (κ β : Type*) where
  store : Store κ β
  seen : Option ℕ
  view : View κ β

inductive System.Step : System κ β → System κ β → Prop
  | evolve {s s' : Store κ β} {seen : Option ℕ} {m : View κ β} (h : Evolves seen s s') :
    Step ⟨s, seen, m⟩ ⟨s', seen, m⟩
  | refresh (t : ℕ) (s : Store κ β) (seen : Option ℕ) (m : View κ β) :
    Step ⟨s, seen, m⟩ ⟨s, some t, m.apply (s.since seen)⟩
  | replace (t : ℕ) (s : Store κ β) (seen : Option ℕ) (m : View κ β) :
    Step ⟨s, seen, m⟩ ⟨s, some t, s.values⟩

/-- The replica of the system is right up to its last refresh. -/
def System.Sound (y : System κ β) : Prop := UpTo y.seen y.store y.view

/-- The replica agrees with the store. -/
def System.Current (y : System κ β) : Prop := y.view = y.store.values

theorem System.Step.sound {y y' : System κ β} (h : y.Step y') (hy : y.Sound) : y'.Sound := by
  cases h with
  | evolve h => exact UpTo.evolves hy h
  | refresh t s seen m =>
    have hcurrent : m.apply (s.since seen) = s.values := UpTo.apply_since hy
    show UpTo (some t) s _
    rw [hcurrent]
    exact upTo_values t s
  | replace t s seen m => exact upTo_values t s

/-- **Replicas.** In a run from a replica that was never refreshed, a refresh makes the replica
agree with the store. -/
theorem System.current_of_run {s₀ : Store κ β} {y : System κ β}
    (h : Transition.Run System.Step ⟨s₀, none, fun _ => none⟩ y) (t : ℕ) :
    System.Current ⟨y.store, some t, y.view.apply (y.store.since y.seen)⟩ := by
  have hsound : y.Sound := h.preserves (fun _ _ hy hs => hs.sound hy) (upTo_none s₀)
  exact UpTo.apply_since hsound

end Replica
