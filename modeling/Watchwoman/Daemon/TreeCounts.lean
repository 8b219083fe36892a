import Watchwoman.Daemon.Tree
import Watchwoman.Lib.Transition

/-!
# The counters of the tree

`live` and `tombstones` are kept by hand, with saturating subtraction, and the sweep trusts them:
it returns at once when `tombstones` is zero. Every operation keeps both equal to what they count,
so no subtraction saturates and the early return skips nothing.
-/

namespace Watchwoman

open Transition

namespace Tree

/-- `Tree::with_capacity`; the capacity only sizes the arena. -/
def withCapacity (_capacity : ℕ) : Tree := ⟨∅, 0, 0⟩

/-- The operations that change a tree. -/
inductive Op where
  | upsert (rel : RelPath) (md : Metadata) (symlinkTarget : Option String) (tick : ℕ)
      (isNew : Bool) (cclock : ℕ)
  | markGone (rel : RelPath) (tick : ℕ)
  | recordGone (rel : RelPath) (tick : ℕ)
  | recordSignal (rel : RelPath) (tick : ℕ)
  | pruneTombstonesBefore (watermark : ℕ)

def exec (t : Tree) : Op → Tree
  | .upsert rel md symlinkTarget tick isNew cclock =>
    t.upsert rel md symlinkTarget tick isNew cclock
  | .markGone rel tick => t.markGone rel tick
  | .recordGone rel tick => t.recordGone rel tick
  | .recordSignal rel tick => t.recordSignal rel tick
  | .pruneTombstonesBefore watermark => (t.pruneTombstonesBefore watermark).1

/-- The trees that operations make of an empty one. -/
def Built : Tree → Prop :=
  Reachable (fun t => t = new ∨ ∃ capacity, t = withCapacity capacity)
    (fun t t' => ∃ op, t' = t.exec op)

/-- What the subtractions of the operation need: `upsert` and `record_signal` take one off
`tombstones` for a tombstone they overwrite, `mark_gone` (and so `record_gone`) takes one off
`live` for an entry it kills, the sweep takes what it removed off `tombstones`. -/
def SubtractsExactly (t : Tree) : Op → Prop
  | .upsert rel _ _ _ _ _ | .recordSignal rel _ =>
    ∀ e, t.get rel = some e → e.live = false → 1 ≤ t.tombstones
  | .markGone rel _ | .recordGone rel _ =>
    ∀ e, t.get rel = some e → e.live = true → 1 ≤ t.liveCount
  | .pruneTombstonesBefore watermark => (t.pruneTombstonesBefore watermark).2 ≤ t.tombstones

/-- A tombstone a sweep up to `watermark` drops. -/
def Prunable (watermark : ℕ) (e : FileEntry) : Prop := e.live = false ∧ e.oclock ≤ watermark

instance (watermark : ℕ) (e : FileEntry) : Decidable (Prunable watermark e) :=
  inferInstanceAs (Decidable (_ ∧ _))

theorem kept_iff_not_prunable (watermark : ℕ) (e : FileEntry) :
    Kept watermark e ↔ ¬ Prunable watermark e := by
  unfold Kept Prunable
  rw [not_and_or, Bool.not_eq_false, not_le]

theorem prune_fst_of_ne_zero {t : Tree} {watermark : ℕ} (h : t.tombstones ≠ 0) :
    (t.pruneTombstonesBefore watermark).1 =
      ⟨HashMap.retain (fun _ e => decide (Kept watermark e)) t.entries, t.liveCount,
        t.tombstones - (t.pruneTombstonesBefore watermark).2⟩ := by
  unfold pruneTombstonesBefore
  rw [if_neg h]

/-- Both counters are what they count. -/
structure Counted (t : Tree) : Prop where
  live : t.liveCount = HashMap.count (fun e => e.live) t.entries
  dead : t.tombstones = HashMap.count (fun e => !e.live) t.entries

namespace Counted

variable {t : Tree} {rel : RelPath} {e old : FileEntry}

theorem empty : Counted ⟨∅, 0, 0⟩ := ⟨rfl, rfl⟩

theorem one_le_tombstones (h : Counted t) (hget : t.get rel = some old) (hold : old.live = false) :
    1 ≤ t.tombstones := by
  rw [h.dead]
  exact HashMap.count_pos_of_lookup hget (by rw [hold]; rfl)

theorem one_le_liveCount (h : Counted t) (hget : t.get rel = some old) (hold : old.live = true) :
    1 ≤ t.liveCount := by
  rw [h.live]
  exact HashMap.count_pos_of_lookup hget hold

theorem insert_none (h : Counted t) (hget : t.get rel = none) :
    Counted ⟨t.entries.insert rel e, t.liveCount + e.live.toNat,
      t.tombstones + (!e.live).toNat⟩ where
  live := by
    show _ = HashMap.count _ (AList.insert rel e t.entries)
    rw [HashMap.count_insert_of_none _ _ hget, h.live]
  dead := by
    show _ = HashMap.count _ (AList.insert rel e t.entries)
    rw [HashMap.count_insert_of_none _ _ hget, h.dead]

theorem insert_some (h : Counted t) (hget : t.get rel = some old) {live tombstones : ℕ}
    (hlive : live + old.live.toNat = t.liveCount + e.live.toNat)
    (hdead : tombstones + (!old.live).toNat = t.tombstones + (!e.live).toNat) :
    Counted ⟨t.entries.insert rel e, live, tombstones⟩ where
  live := by
    have hcount := HashMap.count_insert_of_some (fun e : FileEntry => e.live) e hget
    rw [h.live] at hlive
    exact Nat.add_right_cancel (hlive.trans hcount.symm)
  dead := by
    have hcount := HashMap.count_insert_of_some (fun e : FileEntry => !e.live) e hget
    rw [h.dead] at hdead
    exact Nat.add_right_cancel (hdead.trans hcount.symm)

/-- A live entry over a known one, as `upsert` and `record_signal` count it. -/
theorem insert_live (h : Counted t) (hget : t.get rel = some old) (he : e.live = true) :
    Counted (if old.live then { t with entries := t.entries.insert rel e }
      else ⟨t.entries.insert rel e, t.liveCount + 1, t.tombstones - 1⟩) := by
  cases hold : old.live with
  | true =>
    rw [if_pos rfl]
    exact h.insert_some hget (by rw [hold, he]) (by rw [hold, he])
  | false =>
    rw [if_neg Bool.false_ne_true]
    refine h.insert_some hget (by rw [hold, he]; rfl) ?_
    rw [hold, he]
    exact Nat.sub_add_cancel (h.one_le_tombstones hget hold)

/-- A tombstone over a known entry, as `mark_gone` counts it. -/
theorem insert_dead (h : Counted t) (hget : t.get rel = some old) (he : e.live = false) :
    Counted (if old.live then ⟨t.entries.insert rel e, t.liveCount - 1, t.tombstones + 1⟩
      else { t with entries := t.entries.insert rel e }) := by
  cases hold : old.live with
  | true =>
    rw [if_pos rfl]
    refine h.insert_some hget ?_ (by rw [hold, he]; rfl)
    rw [hold, he]
    exact Nat.sub_add_cancel (h.one_le_liveCount hget hold)
  | false =>
    rw [if_neg Bool.false_ne_true]
    exact h.insert_some hget (by rw [hold, he]) (by rw [hold, he])

/-! ## Each operation keeps the counts -/

theorem upsert (h : Counted t) (rel : RelPath) (md : Metadata) (target : Option String)
    (tick : ℕ) (isNew : Bool) (cclock : ℕ) :
    Counted (t.upsert rel md target tick isNew cclock) := by
  unfold Tree.upsert
  cases hget : t.get rel with
  | none => exact h.insert_none hget
  | some old => exact h.insert_live hget rfl

theorem markGone (h : Counted t) (rel : RelPath) (tick : ℕ) : Counted (t.markGone rel tick) := by
  unfold Tree.markGone
  cases hget : t.get rel with
  | none => exact h
  | some old => exact h.insert_dead hget rfl

theorem recordGone (h : Counted t) (rel : RelPath) (tick : ℕ) :
    Counted (t.recordGone rel tick) := by
  unfold Tree.recordGone
  cases hget : t.get rel with
  | none => exact h.insert_none hget
  | some old => exact h.markGone rel tick

theorem recordSignal (h : Counted t) (rel : RelPath) (tick : ℕ) :
    Counted (t.recordSignal rel tick) := by
  unfold Tree.recordSignal
  cases hget : t.get rel with
  | none => exact h.insert_none hget
  | some old => exact h.insert_live hget rfl

theorem not_prunable_of_tombstones_eq_zero (h : Counted t) (hzero : t.tombstones = 0)
    {watermark : ℕ} (hget : t.get rel = some e) : ¬ Prunable watermark e := by
  rintro ⟨hdead, -⟩
  have := h.one_le_tombstones hget hdead
  omega

/-- What the sweep returns is the number of tombstones it may drop. -/
theorem prune_snd (h : Counted t) (watermark : ℕ) :
    (t.pruneTombstonesBefore watermark).2 =
      HashMap.count (fun e => decide (Prunable watermark e)) t.entries := by
  unfold pruneTombstonesBefore
  by_cases hzero : t.tombstones = 0
  · rw [if_pos hzero]
    refine (HashMap.count_eq_zero_iff.mpr fun p e hget => ?_).symm
    exact decide_eq_false (h.not_prunable_of_tombstones_eq_zero hzero hget)
  · rw [if_neg hzero]
    have hall := HashMap.count_and_add_count_and_not (fun e => decide (Kept watermark e))
      (fun _ => true) t.entries
    rw [← HashMap.count_retain, HashMap.count_true, HashMap.count_true] at hall
    have hdrop : (fun e : FileEntry => true && !decide (Kept watermark e)) =
        fun e => decide (Prunable watermark e) := by
      funext e
      rw [Bool.true_and, ← decide_not]
      exact decide_eq_decide.mpr (by rw [kept_iff_not_prunable, not_not])
    rw [hdrop] at hall
    exact Nat.sub_eq_of_eq_add' hall.symm

theorem prune_le_tombstones (h : Counted t) (watermark : ℕ) :
    (t.pruneTombstonesBefore watermark).2 ≤ t.tombstones := by
  rw [h.prune_snd, h.dead]
  refine List.countP_mono_left fun x _ hx => ?_
  show (!x.2.live) = true
  rw [(of_decide_eq_true hx).1]
  rfl

theorem prune (h : Counted t) (watermark : ℕ) :
    Counted (t.pruneTombstonesBefore watermark).1 := by
  by_cases hzero : t.tombstones = 0
  · rw [pruneTombstonesBefore, if_pos hzero]
    exact h
  · rw [prune_fst_of_ne_zero hzero]
    constructor
    · dsimp only
      rw [h.live, HashMap.count_retain]
      refine List.countP_congr fun x _ => ?_
      simp +contextual [Kept]
    · dsimp only
      rw [h.prune_snd, HashMap.count_retain, h.dead]
      have hall := HashMap.count_and_add_count_and_not (fun e => decide (Kept watermark e))
        (fun e => !e.live) t.entries
      have hdrop : (fun e : FileEntry => (!e.live) && !decide (Kept watermark e)) =
          fun e => decide (Prunable watermark e) := by
        funext e
        rw [Bool.eq_iff_iff]
        simp only [Bool.and_eq_true, Bool.not_eq_true', decide_eq_false_iff_not,
          decide_eq_true_iff, kept_iff_not_prunable, not_not]
        exact ⟨And.right, fun hp => ⟨hp.1, hp⟩⟩
      rw [hdrop] at hall
      exact Nat.sub_eq_of_eq_add hall.symm

theorem exec (h : Counted t) (op : Op) : Counted (t.exec op) := by
  cases op with
  | upsert rel md target tick isNew cclock => exact h.upsert rel md target tick isNew cclock
  | markGone rel tick => exact h.markGone rel tick
  | recordGone rel tick => exact h.recordGone rel tick
  | recordSignal rel tick => exact h.recordSignal rel tick
  | pruneTombstonesBefore watermark => exact h.prune watermark

theorem subtractsExactly (h : Counted t) (op : Op) : t.SubtractsExactly op := by
  cases op with
  | upsert rel md target tick isNew cclock =>
    intro e hget hdead
    exact h.one_le_tombstones hget hdead
  | markGone rel tick =>
    intro e hget hlive
    exact h.one_le_liveCount hget hlive
  | recordGone rel tick =>
    intro e hget hlive
    exact h.one_le_liveCount hget hlive
  | recordSignal rel tick =>
    intro e hget hdead
    exact h.one_le_tombstones hget hdead
  | pruneTombstonesBefore watermark => exact h.prune_le_tombstones watermark

end Counted

theorem Built.counted {t : Tree} (h : t.Built) : Counted t := by
  refine Reachable.invariant ?_ ?_ h
  · rintro _ (rfl | ⟨capacity, rfl⟩) <;> exact Counted.empty
  · rintro t _ hcounted ⟨op, rfl⟩
    exact hcounted.exec op

theorem Counted.get_prune_iff {t : Tree} (h : Counted t) (watermark : ℕ) (p : RelPath)
    (e : FileEntry) :
    (t.pruneTombstonesBefore watermark).1.get p = some e ↔
      t.get p = some e ∧ ¬ Prunable watermark e := by
  by_cases hzero : t.tombstones = 0
  · rw [pruneTombstonesBefore, if_pos hzero]
    refine ⟨fun hget => ⟨hget, ?_⟩, And.left⟩
    exact h.not_prunable_of_tombstones_eq_zero hzero hget
  · rw [prune_fst_of_ne_zero hzero, ← kept_iff_not_prunable]
    have hretain := @HashMap.lookup_retain _ _ _ (fun _ e => decide (Kept watermark e)) t.entries p e
    rw [decide_eq_true_iff] at hretain
    exact hretain

/-- In every tree built by the operations the counters are exact: no subtraction of any operation
saturates, a sweep drops exactly the tombstones up to its watermark and returns their number, and
where it returns early there is no tombstone at all. -/
theorem counters_exact (t : Tree) (h : t.Built) :
    t.liveCount = t.entries.entries.countP (fun x => x.2.live) ∧
    t.tombstones = t.entries.entries.countP (fun x => !x.2.live) ∧
    (∀ op, t.SubtractsExactly op) ∧
    (∀ watermark,
      (∀ p e, (t.pruneTombstonesBefore watermark).1.get p = some e ↔
        t.get p = some e ∧ ¬ (e.live = false ∧ e.oclock ≤ watermark)) ∧
      (t.pruneTombstonesBefore watermark).2 = t.entries.entries.countP
        (fun x => decide (x.2.live = false ∧ x.2.oclock ≤ watermark)) ∧
      (t.tombstones = 0 → ∀ p e, t.get p = some e →
        ¬ (e.live = false ∧ e.oclock ≤ watermark))) := by
  have hcounted := h.counted
  refine ⟨hcounted.live, hcounted.dead, hcounted.subtractsExactly, fun watermark =>
    ⟨hcounted.get_prune_iff watermark, hcounted.prune_snd watermark, ?_⟩⟩
  intro hzero p e hget
  exact hcounted.not_prunable_of_tombstones_eq_zero hzero hget

/-- One tombstone in a tree of one entry: it is counted, and a sweep up to its tick drops it. -/
theorem counters_exact_gone :
    ((withCapacity 8).exec (.recordGone [[0x61]] 3)).tombstones = 1 ∧
    (((withCapacity 8).exec (.recordGone [[0x61]] 3)).pruneTombstonesBefore 3).2 = 1 := by
  have hbuilt : ((withCapacity 8).exec (.recordGone [[0x61]] 3)).Built :=
    ⟨_, .inr ⟨8, rfl⟩, .single ⟨_, rfl⟩⟩
  obtain ⟨-, hdead, -, hprune⟩ := counters_exact _ hbuilt
  exact ⟨hdead, (hprune 3).2.1⟩

end Tree

end Watchwoman
