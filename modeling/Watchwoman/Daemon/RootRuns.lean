import Watchwoman.Lib.Transition
import Watchwoman.Query.Run

/-!
# Runs of one root

The operations on a root, one after the other in any order, and what holds in every state they
reach: no entry is older than the index reaches back or newer than the clock.
-/

namespace Watchwoman

open Transition

namespace Root

/-- One operation on a root. The crawls and the arena's size are whatever the disk and the
allocator report. -/
inductive Step (env : Env) : Root → Root → Prop
  | seed (entries : List ScanEntry) (r : Root) : Step env r (r.seed entries)
  | batch (arenaBytes : ℕ) (changes : List PathChange) (r : Root) :
    Step env r (r.applyChanges arenaBytes changes).1
  | invalidate (r : Root) : Step env r r.invalidateJjEvents.1
  | promote (entries : List ScanEntry) (r : Root) : Step env r (r.promoteToFull entries)
  | sweep (r : Root) : Step env r r.pruneTombstones.1
  | bump (r : Root) : Step env r r.bump
  | query (spec : QuerySpec) (r : Root) : Step env r (Query.run env spec r).2

/-- A root as `Root::new` makes it. -/
def IsNew (r : Root) : Prop :=
  ∃ path ignores jj number start pid, r = Root.new path ignores jj number start pid

/-- The states of roots. -/
def Reached (env : Env) : Root → Prop := Reachable IsNew (Step env)

/-- The ticks of the entries of a tree lie in `[oldest, now]`, and none is zero. -/
def TicksWithin (oldest now : ℕ) (t : Tree) : Prop :=
  ∀ p e, t.get p = some e → 1 ≤ e.oclock ∧ oldest ≤ e.oclock ∧ e.oclock ≤ now

/-- The bookkeeping of ticks is consistent. -/
structure WellTicked (r : Root) : Prop where
  oldest_le : r.oldestAvailableTick ≤ r.clock.ticks
  entries : TicksWithin r.oldestAvailableTick r.clock.ticks r.tree

theorem TicksWithin.new (oldest now : ℕ) : TicksWithin oldest now Tree.new := by
  intro p e h
  simp at h

theorem TicksWithin.mono {oldest now now' : ℕ} {t : Tree} (h : TicksWithin oldest now t)
    (hle : now ≤ now') : TicksWithin oldest now' t := by
  intro p e he
  have := h p e he
  omega

theorem TicksWithin.crawled {oldest tick : ℕ} (entries : List ScanEntry) (h1 : 1 ≤ tick)
    (ho : oldest ≤ tick) : TicksWithin oldest tick (crawled entries tick) := by
  have hfold : ∀ (l : List ScanEntry) (t : Tree), TicksWithin oldest tick t →
      TicksWithin oldest tick (l.foldl (fun t e => t.upsert e.1 e.2.1 e.2.2 tick false tick) t) := by
    intro l
    induction l with
    | nil => exact fun t ht => ht
    | cons x l ih =>
      intro t ht
      apply ih
      intro p e he
      rw [Tree.get_upsert] at he
      split_ifs at he
      · obtain rfl := Option.some.inj he
        exact ⟨h1, ho, le_rfl⟩
      · exact ht p e he
  exact hfold entries Tree.new (.new _ _)

theorem TicksWithin.applyChange {oldest tick now : ℕ} {jj : Bool} {t : Tree}
    (h : TicksWithin oldest now t) (h1 : 1 ≤ tick) (ho : oldest ≤ tick) (hn : tick ≤ now)
    (c : PathChange) : TicksWithin oldest now (applyChange jj tick t c) := by
  intro p e he
  by_cases hp : p = c.rel
  · subst hp
    have := (get_applyChange_rel he).1
    omega
  · rw [get_applyChange_of_ne hp] at he
    exact h p e he

theorem WellTicked.openBatch {r : Root} (h : r.WellTicked) (arenaBytes : ℕ) :
    (r.openBatch arenaBytes).WellTicked := by
  unfold Root.openBatch
  split_ifs
  · exact ⟨le_rfl, .new _ _⟩
  · exact ⟨Nat.le_succ_of_le h.oldest_le, h.entries.mono (Nat.le_succ _)⟩

theorem WellTicked.writeChange {r : Root} (h : r.WellTicked) {tick : ℕ} (h1 : 1 ≤ tick)
    (ho : r.oldestAvailableTick ≤ tick) (hn : tick ≤ r.clock.ticks) (c : PathChange) :
    (writeChange tick r c).WellTicked :=
  ⟨h.oldest_le, h.entries.applyChange h1 ho hn c⟩

theorem WellTicked.applyChanges {r : Root} (h : r.WellTicked) (arenaBytes : ℕ)
    (changes : List PathChange) : (r.applyChanges arenaBytes changes).1.WellTicked := by
  have hfold : ∀ (l : List PathChange) (s : Root), s.clock = r.clock.bump → s.WellTicked →
      (l.foldl (Root.writeChange r.clock.bump.ticks) s).WellTicked := by
    intro l
    induction l with
    | nil => exact fun s _ hs => hs
    | cons c l ih =>
      intro s hclock hs
      have hticks : s.clock.ticks = r.clock.bump.ticks := by rw [hclock]
      exact ih _ hclock
        (hs.writeChange (Clock.one_le_bump _) (hticks ▸ hs.oldest_le) hticks.ge c)
  exact hfold changes _ (clock_openBatch arenaBytes r) (h.openBatch arenaBytes)

/-- Each operation keeps the bookkeeping consistent. -/
theorem WellTicked.step {env : Env} {r r' : Root} (h : r.WellTicked) (hs : Step env r r') :
    r'.WellTicked := by
  cases hs with
  | seed entries =>
    have hle : r.oldestAvailableTick ≤ r.clock.bump.ticks := Nat.le_succ_of_le h.oldest_le
    exact ⟨hle, .crawled entries (Clock.one_le_bump _) hle⟩
  | batch arenaBytes changes => exact h.applyChanges arenaBytes changes
  | invalidate =>
    unfold Root.invalidateJjEvents
    split_ifs
    · exact ⟨le_rfl, .new _ _⟩
    · exact h
  | promote entries =>
    unfold Root.promoteToFull
    split_ifs
    · exact ⟨le_rfl, .crawled entries (Clock.one_le_bump _) le_rfl⟩
    · exact h
  | sweep =>
    unfold Root.pruneTombstones
    split_ifs
    · exact h
    · exact ⟨h.oldest_le, fun p e he => h.entries p e ((Tree.get_prune _ _).1 he)⟩
  | bump => exact ⟨Nat.le_succ_of_le h.oldest_le, h.entries.mono (Nat.le_succ _)⟩
  | query spec =>
    unfold Query.run
    simp only
    split
    · exact ⟨h.oldest_le, h.entries⟩
    · exact h

/-- No operation sets the clock back. -/
theorem Step.ticks_le {env : Env} {r r' : Root} (hs : Step env r r') :
    r.clock.ticks ≤ r'.clock.ticks := by
  cases hs with
  | seed entries => exact Nat.le_succ _
  | batch arenaBytes changes =>
    rw [clock_applyChanges]
    exact Nat.le_succ _
  | invalidate =>
    unfold Root.invalidateJjEvents
    split_ifs
    · exact Nat.le_succ _
    · exact le_rfl
  | promote entries =>
    unfold Root.promoteToFull
    split_ifs
    · exact Nat.le_succ _
    · exact le_rfl
  | sweep =>
    unfold Root.pruneTombstones
    split_ifs <;> exact le_rfl
  | bump => exact Nat.le_succ _
  | query spec =>
    unfold Query.run
    simp only
    split <;> exact le_rfl

/-- **Ticks.** In every state of a root the bookkeeping of ticks is consistent. -/
theorem Reached.wellTicked {env : Env} {r : Root} (h : Reached env r) : r.WellTicked := by
  refine Reachable.invariant ?_ (fun s s' hs => hs.step) h
  rintro s ⟨path, ignores, jj, number, start, pid, rfl⟩
  exact ⟨by simp [Root.new], .new _ _⟩

end Root

end Watchwoman
