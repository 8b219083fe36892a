import Watchwoman.Daemon.Registration

/-!
# What a batch says of a path

A batch may hold any number of changes for a path, in any order. Two things are read off it as a
whole: whether a path that was not known before is new, and whether anything is left below a
directory that was removed.
-/

namespace Watchwoman

open LastWrite

/-- `c` is the last change of the batch that is about its path. -/
def LastChange (changes before : List PathChange) (c : PathChange) (after : List PathChange) :
    Prop :=
  changes = before ++ c :: after ∧ ∀ c' ∈ after, c'.rel ≠ c.rel

theorem exists_lastChange (changes : List PathChange) (p : RelPath) :
    (∀ c ∈ changes, c.rel ≠ p) ∨ ∃ before c after, LastChange changes before c after ∧ c.rel = p := by
  rcases exists_last_split (fun c : PathChange => c.rel = p) changes with
    hnone | ⟨before, c, after, hsplit, rfl, hafter⟩
  · exact .inl hnone
  · exact .inr ⟨before, c, after, ⟨hsplit, hafter⟩, rfl⟩

namespace Root

/-- The tree after the changes of a batch of `tick`. -/
abbrev applyAll (jj : Bool) (tick : ℕ) (t : Tree) (changes : List PathChange) : Tree :=
  changes.foldl (applyChange jj tick) t

theorem tree_applyChanges (arenaBytes : ℕ) (changes : List PathChange) (r : Root) :
    (r.applyChanges arenaBytes changes).1.tree =
      applyAll r.jjEvents r.clock.bump.ticks (r.openBatch arenaBytes).tree changes := by
  rw [← jjEvents_openBatch arenaBytes r]
  exact Watcher.tree_foldl_writeChange _ _ _

theorem get_applyAll_of_ne {jj : Bool} {tick : ℕ} {p : RelPath} {changes : List PathChange}
    (h : ∀ c ∈ changes, c.rel ≠ p) (t : Tree) : (applyAll jj tick t changes).get p = t.get p := by
  induction changes generalizing t with
  | nil => rfl
  | cons c changes ih =>
    obtain ⟨hc, hrest⟩ := List.forall_mem_cons.mp h
    rw [applyAll, List.foldl_cons, ih hrest, get_applyChange_of_ne (Ne.symm hc)]

theorem get_applyAll_lastChange {jj : Bool} {tick : ℕ} {changes before after : List PathChange}
    {c : PathChange} (h : LastChange changes before c after) (t : Tree) :
    (applyAll jj tick t changes).get c.rel =
      (applyChange jj tick (applyAll jj tick t before) c).get c.rel := by
  obtain ⟨rfl, hafter⟩ := h
  rw [applyAll, List.foldl_append, List.foldl_cons]
  exact get_applyAll_of_ne hafter _

/-! ## New paths -/

/-- The change leaves an entry of a path that had none. A full index takes no notice of the removal
of a path it does not know. -/
def LeavesEntry (jj : Bool) (c : PathChange) : Prop := jj = true ∨ c ≠ .remove c.rel

theorem get_applyChange_ne_none {jj : Bool} {tick : ℕ} {t : Tree} {c : PathChange} {p : RelPath}
    (h : t.get p ≠ none ∨ c.rel = p ∧ LeavesEntry jj c) :
    (applyChange jj tick t c).get p ≠ none := by
  by_cases hp : c.rel = p
  · subst hp
    have hentry : c = .remove c.rel → jj = true ∨ t.get c.rel ≠ none := by
      intro hremove
      rcases h with h | ⟨-, h | h⟩
      · exact .inr h
      · exact .inl h
      · exact absurd hremove h
    obtain ⟨e, he, -⟩ := @exists_get_applyChange jj tick t c hentry
    rw [he]
    exact Option.some_ne_none e
  · rw [get_applyChange_of_ne (Ne.symm hp)]
    rcases h with h | h
    · exact h
    · exact absurd h.1 hp

theorem get_applyChange_eq_none {jj : Bool} {tick : ℕ} {t : Tree} {c : PathChange} {p : RelPath}
    (h : t.get p = none) (hc : c.rel = p → ¬ LeavesEntry jj c) :
    (applyChange jj tick t c).get p = none := by
  by_cases hp : c.rel = p
  · subst hp
    obtain ⟨hjj, hremove⟩ := not_or.mp (hc rfl)
    obtain ⟨rel, rfl⟩ : ∃ rel, c = .remove rel := ⟨_, not_not.mp hremove⟩
    change t.get rel = none at h
    simp only [applyChange, PathChange.rel]
    rw [if_neg hjj, Tree.get_markGone, if_pos rfl, h]
    rfl
  · rw [get_applyChange_of_ne (Ne.symm hp)]
    exact h

theorem get_applyAll_ne_none {jj : Bool} {tick : ℕ} {t : Tree} {p : RelPath} (h : t.get p ≠ none)
    (changes : List PathChange) : (applyAll jj tick t changes).get p ≠ none := by
  induction changes generalizing t with
  | nil => exact h
  | cons c changes ih => exact ih (get_applyChange_ne_none (.inl h))

theorem get_applyAll_eq_none_iff {jj : Bool} {tick : ℕ} {t : Tree} {p : RelPath}
    (h : t.get p = none) (changes : List PathChange) :
    (applyAll jj tick t changes).get p = none ↔ ∀ c ∈ changes, c.rel = p → ¬ LeavesEntry jj c := by
  induction changes generalizing t with
  | nil => simpa using h
  | cons c changes ih =>
    rw [List.forall_mem_cons]
    by_cases hc : c.rel = p ∧ LeavesEntry jj c
    · constructor
      · intro hnone
        exact absurd hnone (get_applyAll_ne_none (get_applyChange_ne_none (.inr hc)) changes)
      · intro hall
        exact absurd hc.2 (hall.1 hc.1)
    · have hc' : c.rel = p → ¬ LeavesEntry jj c := fun hp hleaves => hc ⟨hp, hleaves⟩
      rw [applyAll, List.foldl_cons, ih (get_applyChange_eq_none h hc')]
      exact ⟨fun hall => ⟨hc', hall⟩, fun hall => hall.2⟩

theorem cclock_applyAll {jj : Bool} {tick : ℕ} {t : Tree} {p : RelPath} (h : t.get p = none)
    (changes : List PathChange) {e : FileEntry} (he : (applyAll jj tick t changes).get p = some e) :
    e.cclock = tick := by
  have hfold : ∀ (l : List PathChange) (t : Tree), (∀ e, t.get p = some e → e.cclock = tick) →
      ∀ e, (applyAll jj tick t l).get p = some e → e.cclock = tick := by
    intro l
    induction l with
    | nil => exact fun t ht => ht
    | cons c l ih =>
      intro t ht
      apply ih
      intro e he
      rw [cclock_applyChange he]
      cases hget : t.get p with
      | none => rfl
      | some e' => exact ht e' hget
  exact hfold changes t (fun e he => by rw [h] at he; cases he) e he

/-- If the last change of the path is an upsert, none before it left an entry. -/
def CreatedByLast (jj : Bool) (p : RelPath) (changes : List PathChange) : Prop :=
  ∀ before md target after, LastChange changes before (.upsert p md target) after →
    ∀ c ∈ before, c.rel = p → ¬ LeavesEntry jj c

theorem isNew_upsert {jj : Bool} {tick : ℕ} {t : Tree} {p : RelPath} {md : Metadata}
    {target : Option String} :
    ∃ e, (applyChange jj tick t (.upsert p md target)).get p = some e ∧ e.live = true ∧
      (e.isNew = true ↔ t.get p = none) := by
  simp only [applyChange]
  rw [Tree.get_upsert, if_pos rfl]
  refine ⟨_, rfl, rfl, ?_⟩
  cases t.get p <;> simp

/-- **New files.** A path that a batch brings is marked as new, with the tick of the batch, exactly
if its last change is a signal, or an upsert before which no change of the batch left an entry. -/
theorem first_seen_new_iff (r : Root) (arenaBytes : ℕ) (changes : List PathChange) (p : RelPath)
    (hnone : r.tree.get p = none) :
    (∀ e, (r.applyChanges arenaBytes changes).1.tree.get p = some e → e.live = true →
      e.isNew = true ∧ e.cclock = (r.applyChanges arenaBytes changes).2.tick) ↔
    CreatedByLast r.jjEvents p changes := by
  have hopen : (r.openBatch arenaBytes).tree.get p = none := by
    unfold openBatch
    split_ifs
    · exact Tree.get_new p
    · exact hnone
  rw [tree_applyChanges]
  constructor
  · intro h before md target after hlast
    rw [← get_applyAll_eq_none_iff hopen before]
    obtain ⟨e, he, hlive, hnew⟩ := isNew_upsert
    have hget := (get_applyAll_lastChange hlast (r.openBatch arenaBytes).tree).trans he
    exact hnew.mp (h e hget hlive).1
  · intro h e he hlive
    refine ⟨?_, cclock_applyAll hopen changes he⟩
    rcases exists_lastChange changes p with huntouched | ⟨before, c, after, hlast, rfl⟩
    · rw [get_applyAll_of_ne huntouched, hopen] at he
      cases he
    · have hcclock := cclock_applyAll hopen changes he
      rw [get_applyAll_lastChange hlast] at he
      cases c with
      | upsert p md target =>
        obtain ⟨e', he', -, hnew⟩ := isNew_upsert
        obtain rfl := Option.some.inj (he'.symm.trans he)
        exact hnew.mpr ((get_applyAll_eq_none_iff hopen before).mpr (h _ _ _ _ hlast))
      | remove p =>
        have hgone := (get_applyChange_rel he).2.mpr rfl
        rw [hlive] at hgone
        cases hgone
      | signal p =>
        simp only [applyChange, PathChange.rel] at he
        rw [Tree.get_recordSignal, if_pos rfl] at he
        obtain rfl := Option.some.inj he
        exact beq_iff_eq.mpr hcclock

def nothing : Root := Root.new [] .default false 1 1700000000 42

/-- The event of a create or a write to the file `a`. -/
def touchA : PathChange := .upsert [[0x61]] (Watcher.someKind .file) none

theorem first_seen_new_iff_touchA :
    nothing.tree.get [[0x61]] = none ∧
    ((∀ e, (nothing.applyChanges 0 [touchA]).1.tree.get [[0x61]] = some e → e.live = true →
      e.isNew = true ∧ e.cclock = (nothing.applyChanges 0 [touchA]).2.tick) ↔
    CreatedByLast false [[0x61]] [touchA]) :=
  ⟨rfl, first_seen_new_iff nothing 0 [touchA] [[0x61]] rfl⟩

/-- A create and a write of one new file in one batch: it is not marked as new. -/
theorem created_and_written_not_new :
    nothing.tree.get [[0x61]] = none ∧
    ¬ ∀ e, (nothing.applyChanges 0 [touchA, touchA]).1.tree.get [[0x61]] = some e →
      e.live = true → e.isNew = true ∧
        e.cclock = (nothing.applyChanges 0 [touchA, touchA]).2.tick := by
  refine ⟨rfl, fun h => ?_⟩
  have hget : ∃ e, (nothing.applyChanges 0 [touchA, touchA]).1.tree.get [[0x61]] = some e ∧
      e.live = true ∧ e.isNew = false := ⟨_, rfl, rfl, rfl⟩
  obtain ⟨e, he, hlive, hold⟩ := hget
  have hnew := (h e he hlive).1
  rw [hold] at hnew
  cases hnew

/-! ## Below a removed directory -/

/-- `q` lies strictly below `d`. -/
def Below (d q : RelPath) : Prop := d <+: q ∧ d ≠ q

instance (d q : RelPath) : Decidable (Below d q) := inferInstanceAs (Decidable (_ ∧ _))

def Upserts (q : RelPath) (changes : List PathChange) : Prop :=
  ∃ md target, .upsert q md target ∈ changes

/-- The batch speaks of everything live below `d`, and a path below `d` whose last change is not its
removal is upserted in `after`, what follows the removal of `d`. -/
structure Covers (t : Tree) (d : RelPath) (changes after : List PathChange) : Prop where
  named : ∀ q, Below d q → t.Live q → ∃ c ∈ changes, c.rel = q
  upserted : ∀ q, Below d q → ∀ before' c after', LastChange changes before' c after' → c.rel = q →
    c ≠ .remove q → Upserts q after

/-- A path with no change in the batch is live if it was, any other one unless its last change is
its removal. -/
theorem live_applyChanges_iff {r : Root} (hfull : r.jjEvents = false) (arenaBytes : ℕ)
    (changes : List PathChange) (q : RelPath) :
    (r.applyChanges arenaBytes changes).1.tree.Live q ↔
      ((∀ c ∈ changes, c.rel ≠ q) ∧ r.tree.Live q) ∨
      ∃ before c after, LastChange changes before c after ∧ c.rel = q ∧ c ≠ .remove q := by
  rw [tree_applyChanges, hfull, openBatch_of_full hfull]
  constructor
  · rintro ⟨e, he, hlive⟩
    rcases exists_lastChange changes q with huntouched | ⟨before, c, after, hlast, rfl⟩
    · rw [get_applyAll_of_ne huntouched] at he
      exact .inl ⟨huntouched, e, he, hlive⟩
    · rw [get_applyAll_lastChange hlast] at he
      refine .inr ⟨before, c, after, hlast, rfl, fun hremove => ?_⟩
      rw [(get_applyChange_rel he).2.mpr hremove] at hlive
      cases hlive
  · rintro (⟨huntouched, e, he, hlive⟩ | ⟨before, c, after, hlast, rfl, hremove⟩)
    · exact ⟨e, (get_applyAll_of_ne huntouched _).trans he, hlive⟩
    · obtain ⟨e, he, -, hdead⟩ := @exists_get_applyChange false r.clock.bump.ticks
        (applyAll false r.clock.bump.ticks r.bump.tree before) c (fun h => absurd h hremove)
      refine ⟨e, (get_applyAll_lastChange hlast _).trans he, ?_⟩
      rw [← Bool.not_eq_false]
      exact fun hlive => hremove (hdead.mp hlive)

/-- **Removed directories.** Let the last change a batch has for `d` be its removal. Then what is
live below `d` afterwards was upserted after that removal, exactly if the batch covers what was
below `d`. -/
theorem removed_directory_iff (r : Root) (hfull : r.jjEvents = false) (arenaBytes : ℕ)
    (changes before after : List PathChange) (d : RelPath)
    (hlast : LastChange changes before (.remove d) after) :
    (∀ q, Below d q → (r.applyChanges arenaBytes changes).1.tree.Live q → Upserts q after) ↔
      Covers r.tree d changes after := by
  constructor
  · intro h
    refine ⟨fun q hq hlive => ?_, fun q hq before' c after' hc hrel hremove => ?_⟩
    · by_contra hnone
      have huntouched : ∀ c ∈ changes, c.rel ≠ q := fun c hc hrel => hnone ⟨c, hc, hrel⟩
      obtain ⟨md, target, hmem⟩ := h q hq
        ((live_applyChanges_iff hfull arenaBytes changes q).mpr (.inl ⟨huntouched, hlive⟩))
      have hmem' : .upsert q md target ∈ changes := by
        rw [hlast.1]
        exact List.mem_append_right _ (List.mem_cons_of_mem _ hmem)
      exact huntouched _ hmem' rfl
    · exact h q hq ((live_applyChanges_iff hfull arenaBytes changes q).mpr
        (.inr ⟨before', c, after', hc, hrel, hremove⟩))
  · intro h q hq hlive
    rcases (live_applyChanges_iff hfull arenaBytes changes q).mp hlive with
      ⟨huntouched, hbefore⟩ | ⟨before', c, after', hc, hrel, hremove⟩
    · obtain ⟨c, hc, hrel⟩ := h.named q hq hbefore
      exact absurd hrel (huntouched c hc)
    · exact h.upserted q hq before' c after' hc hrel hremove

/-- A full-index root with the directory `a` and the file `a/f` in it. -/
def oneDir : Root :=
  nothing.seed [([[0x61]], Watcher.someKind .dir, none),
    ([[0x61], [0x66]], Watcher.someKind .file, none)]

theorem removed_directory_iff_oneDir :
    oneDir.jjEvents = false ∧
    LastChange [.remove [[0x61], [0x66]], .remove [[0x61]]] [.remove [[0x61], [0x66]]]
      (.remove [[0x61]]) [] ∧
    ((∀ q, Below [[0x61]] q → (oneDir.applyChanges 0
        [.remove [[0x61], [0x66]], .remove [[0x61]]]).1.tree.Live q → Upserts q []) ↔
      Covers oneDir.tree [[0x61]] [.remove [[0x61], [0x66]], .remove [[0x61]]] []) :=
  have hlast : LastChange [.remove [[0x61], [0x66]], .remove [[0x61]]] [.remove [[0x61], [0x66]]]
      (.remove [[0x61]]) [] := ⟨rfl, by simp⟩
  ⟨rfl, hlast, removed_directory_iff oneDir rfl 0 _ _ _ _ hlast⟩

/-- The directory is moved away with its file: one event, and the file stays live. -/
theorem moved_directory_leaves_file :
    (∃ e, oneDir.tree.get [[0x61]] = some e ∧ e.kind = .dir) ∧
    LastChange [.remove [[0x61]]] [] (.remove [[0x61]]) [] ∧
    ¬ ∀ q, Below [[0x61]] q →
      (oneDir.applyChanges 0 [.remove [[0x61]]]).1.tree.Live q → Upserts q [] := by
  refine ⟨⟨_, rfl, rfl⟩, ⟨rfl, by simp⟩, fun h => ?_⟩
  have hlive : (oneDir.applyChanges 0 [.remove [[0x61]]]).1.tree.Live [[0x61], [0x66]] :=
    ⟨_, rfl, rfl⟩
  obtain ⟨md, target, hmem⟩ := h [[0x61], [0x66]] (by decide) hlive
  cases hmem

end Root

end Watchwoman
