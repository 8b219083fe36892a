import Watchwoman.Daemon.Clock
import Watchwoman.Daemon.Tree
import Watchwoman.Protocol.Value

/-!
# The state of a root

`root.rs`: the tree, the clock, the named cursors and the index mode of one watched directory. A
root in jj-events mode starts without a crawl and holds only what events named; its index is wiped
when it grows past its caps, and `oldestAvailableTick` is the tick from which it answers.

Every operation that writes the tree runs under the tree's write lock and is one function here;
`Daemon.JjIndex` and `Commands.Subscribe` take batches and queries apart again. Ticks are the values
of the `u64` counter, which does not wrap in the life of a daemon.
-/

namespace Watchwoman

/-- The directory names the crawl and the event filter skip. -/
structure WatchIgnores where
  dirs : List String
  vcs : List String
  deriving DecidableEq, Repr

def WatchIgnores.default : WatchIgnores := ⟨[], [".git", ".hg", ".svn"]⟩

/-- What is published on every tick. -/
structure TickEvent where
  tick : ℕ
  changed : List RelPath
  deriving DecidableEq, Repr

/-- How a trigger's command is given the names. -/
inductive TriggerStdin where
  | namePerLine
  | jsonName
  deriving DecidableEq, Repr

/-- An installed trigger. -/
structure Trigger where
  name : String
  command : List String
  expression : Value
  appendFiles : Bool
  stdin : Option TriggerStdin
  maxFilesStdin : Option ℕ

inductive PathChange where
  | upsert (rel : RelPath) (metadata : Metadata) (symlinkTarget : Option String)
  | remove (rel : RelPath)
  | signal (rel : RelPath)
  deriving DecidableEq, Repr

/-- The path a change is about. -/
def PathChange.rel : PathChange → RelPath
  | .upsert rel _ _ => rel
  | .remove rel => rel
  | .signal rel => rel

/-- One path of a crawl. -/
abbrev ScanEntry := RelPath × Metadata × Option String

structure Root where
  path : List Name
  ignores : WatchIgnores
  clock : Clock
  tree : Tree
  jjEvents : Bool
  oldestAvailableTick : ℕ
  cursors : HashMap String ℕ

namespace Root

def jjEventIndexMaxEntries : ℕ := 65536

def jjEventIndexMaxArenaBytes : ℕ := 64 * 1024 * 1024

/-- `Root::new` -/
def new (path : List Name) (ignores : WatchIgnores) (jjEvents : Bool)
    (rootNumber startTime : UInt64) (pid : UInt32) : Root where
  path := path
  ignores := ignores
  clock := Clock.new rootNumber startTime pid
  tree := Tree.new
  jjEvents := jjEvents
  oldestAvailableTick := 0
  cursors := ∅

/-- `clock.bump` outside of any lock. -/
def bump (r : Root) : Root := { r with clock := r.clock.bump }

/-- The tree a crawl is put in, every entry at `tick`. -/
def crawled (entries : List ScanEntry) (tick : ℕ) : Tree :=
  entries.foldl (fun t e => t.upsert e.1 e.2.1 e.2.2 tick false tick) Tree.new

/-- `seed` -/
def seed (entries : List ScanEntry) (r : Root) : Root :=
  { r with clock := r.clock.bump, tree := crawled entries r.clock.bump.ticks }

/-- `promote_to_full`, with what the crawl found. -/
def promoteToFull (entries : List ScanEntry) (r : Root) : Root :=
  if r.jjEvents then
    { r with
      clock := r.clock.bump
      tree := crawled entries r.clock.bump.ticks
      oldestAvailableTick := r.clock.bump.ticks
      jjEvents := false }
  else r

/-- The current tick or the least cursor, if that is less. -/
def watermark (r : Root) : ℕ := r.cursors.entries.foldl (fun w c => min w c.2) r.clock.ticks

/-- `prune_tombstones`: the root after it, the watermark and the number of entries dropped. -/
def pruneTombstones (r : Root) : Root × ℕ × ℕ :=
  if r.jjEvents then (r, r.clock.ticks, 0)
  else
    let (tree, removed) := r.tree.pruneTombstonesBefore r.watermark
    ({ r with tree }, r.watermark, removed)

/-- `invalidate_jj_events`: the root after it and the event, if the index was dropped. -/
def invalidateJjEvents (r : Root) : Root × Option TickEvent :=
  if r.jjEvents then
    ({ r with
        clock := r.clock.bump
        tree := Tree.new
        oldestAvailableTick := r.clock.bump.ticks },
      some ⟨r.clock.bump.ticks, []⟩)
  else (r, none)

def cursorTick (r : Root) (name : String) : ℕ := (r.cursors.lookup name).getD 0

def setCursor (r : Root) (name : String) (tick : ℕ) : Root :=
  { r with cursors := r.cursors.insert name tick }

/-- The index is at one of its caps. -/
def IndexFull (arenaBytes : ℕ) (r : Root) : Prop :=
  r.jjEvents = true ∧
    (jjEventIndexMaxEntries ≤ r.tree.len ∨ jjEventIndexMaxArenaBytes ≤ arenaBytes)

instance (arenaBytes : ℕ) (r : Root) : Decidable (IndexFull arenaBytes r) :=
  inferInstanceAs (Decidable (_ ∧ _))

/-- One change of a batch. -/
def applyChange (jj : Bool) (tick : ℕ) (t : Tree) : PathChange → Tree
  | .upsert rel metadata symlinkTarget =>
    let (fresh, cclock) := match t.get rel with
      | none => (true, tick)
      | some e => (false, e.cclock)
    t.upsert rel metadata symlinkTarget tick fresh cclock
  | .remove rel => if jj then t.recordGone rel tick else t.markGone rel tick
  | .signal rel => t.recordSignal rel tick

/-- The part of `apply_changes` before its loop: the new tick, and a wiped index at a cap. -/
def openBatch (arenaBytes : ℕ) (r : Root) : Root :=
  if IndexFull arenaBytes r then
    { r with
      clock := r.clock.bump
      tree := Tree.new
      oldestAvailableTick := r.clock.bump.ticks }
  else r.bump

/-- One round of the loop of `apply_changes`. -/
def writeChange (tick : ℕ) (r : Root) (c : PathChange) : Root :=
  { r with tree := applyChange r.jjEvents tick r.tree c }

/-- `apply_changes`: the root after the batch and the event it publishes. `arenaBytes` is what the
arena has allocated when the batch starts. -/
def applyChanges (arenaBytes : ℕ) (changes : List PathChange) (r : Root) : Root × TickEvent :=
  let tick := r.clock.bump.ticks
  (changes.foldl (writeChange tick) (r.openBatch arenaBytes), ⟨tick, changes.map PathChange.rel⟩)

/-! ## What a change does to a path -/

theorem get_applyChange_of_ne {jj : Bool} {tick : ℕ} {t : Tree} {c : PathChange} {p : RelPath}
    (h : p ≠ c.rel) : (applyChange jj tick t c).get p = t.get p := by
  cases c with
  | upsert rel md target =>
    change p ≠ rel at h
    simp only [applyChange]
    rw [Tree.get_upsert, if_neg h]
  | remove rel =>
    change p ≠ rel at h
    simp only [applyChange]
    split_ifs
    · rw [Tree.get_recordGone, if_neg h]
    · rw [Tree.get_markGone, if_neg h]
  | signal rel =>
    change p ≠ rel at h
    simp only [applyChange]
    rw [Tree.get_recordSignal, if_neg h]

/-- An entry of a changed path carries the tick of the change, and is live unless it was removed. -/
theorem get_applyChange_rel {jj : Bool} {tick : ℕ} {t : Tree} {c : PathChange} {e : FileEntry}
    (h : (applyChange jj tick t c).get c.rel = some e) :
    e.oclock = tick ∧ (e.live = false ↔ c = .remove c.rel) := by
  cases c with
  | upsert rel md target =>
    simp only [applyChange, PathChange.rel] at h
    rw [Tree.get_upsert, if_pos rfl] at h
    obtain rfl := Option.some.inj h
    simp [FileEntry.fromMetadata]
  | remove rel =>
    simp only [applyChange, PathChange.rel] at h
    split_ifs at h
    · rw [Tree.get_recordGone, if_pos rfl] at h
      obtain rfl := Option.some.inj h
      cases t.get rel <;> simp [FileEntry.missing, Tree.tombstoneOf, PathChange.rel]
    · rw [Tree.get_markGone, if_pos rfl] at h
      obtain ⟨e', -, rfl⟩ := Option.map_eq_some_iff.mp h
      simp [Tree.tombstoneOf, PathChange.rel]
  | signal rel =>
    simp only [applyChange, PathChange.rel] at h
    rw [Tree.get_recordSignal, if_pos rfl] at h
    obtain rfl := Option.some.inj h
    simp [Tree.signalEntry, FileEntry.missing]

/-- A change keeps the tick a path was created at, and creates at its own tick. -/
theorem cclock_applyChange {jj : Bool} {tick : ℕ} {t : Tree} {c : PathChange} {p : RelPath}
    {e : FileEntry} (h : (applyChange jj tick t c).get p = some e) :
    e.cclock = ((t.get p).map (·.cclock)).getD tick := by
  by_cases hp : p = c.rel
  · subst hp
    cases c with
    | upsert rel md target =>
      simp only [applyChange, PathChange.rel] at h ⊢
      rw [Tree.get_upsert, if_pos rfl] at h
      obtain rfl := Option.some.inj h
      cases t.get rel <;> rfl
    | remove rel =>
      simp only [applyChange, PathChange.rel] at h ⊢
      split_ifs at h
      · rw [Tree.get_recordGone, if_pos rfl] at h
        obtain rfl := Option.some.inj h
        cases t.get rel <;> rfl
      · rw [Tree.get_markGone, if_pos rfl] at h
        obtain ⟨e', he', rfl⟩ := Option.map_eq_some_iff.mp h
        rw [he']
        rfl
    | signal rel =>
      simp only [applyChange, PathChange.rel] at h ⊢
      rw [Tree.get_recordSignal, if_pos rfl] at h
      obtain rfl := Option.some.inj h
      rfl
  · rw [get_applyChange_of_ne hp] at h
    rw [h]
    rfl

/-- A changed path has an entry of the tick afterwards, unless a full index is told of the removal of
a path it does not know. -/
theorem exists_get_applyChange {jj : Bool} {tick : ℕ} {t : Tree} {c : PathChange}
    (h : c = .remove c.rel → jj = true ∨ t.get c.rel ≠ none) :
    ∃ e, (applyChange jj tick t c).get c.rel = some e ∧ e.oclock = tick ∧
      (e.live = false ↔ c = .remove c.rel) := by
  suffices hentry : ∃ e, (applyChange jj tick t c).get c.rel = some e by
    obtain ⟨e, he⟩ := hentry
    exact ⟨e, he, get_applyChange_rel he⟩
  cases c with
  | upsert rel md target =>
    simp only [applyChange, PathChange.rel]
    rw [Tree.get_upsert, if_pos rfl]
    exact ⟨_, rfl⟩
  | remove rel =>
    simp only [PathChange.rel, true_implies] at h
    simp only [applyChange, PathChange.rel]
    split_ifs with hjj
    · rw [Tree.get_recordGone, if_pos rfl]
      exact ⟨_, rfl⟩
    · obtain ⟨e, he⟩ := Option.ne_none_iff_exists'.mp (h.resolve_left (by simpa using hjj))
      rw [Tree.get_markGone, if_pos rfl, he]
      exact ⟨_, rfl⟩
  | signal rel =>
    simp only [applyChange, PathChange.rel]
    rw [Tree.get_recordSignal, if_pos rfl]
    exact ⟨_, rfl⟩

theorem exists_tombstone {tick : ℕ} {t : Tree} {p : RelPath} {e : FileEntry}
    (he : t.get p = some e) :
    ∃ e', (applyChange false tick t (.remove p)).get p = some e' ∧ e'.oclock = tick ∧
      e'.live = false := by
  have hknown : t.get p ≠ none := by
    rw [he]
    exact Option.some_ne_none e
  obtain ⟨e', he', htick, hdead⟩ := @exists_get_applyChange false tick t (.remove p)
    fun _ => .inr hknown
  exact ⟨e', he', htick, hdead.mpr rfl⟩

/-! ## What a batch leaves as it is -/

@[simp] theorem jjEvents_openBatch (arenaBytes : ℕ) (r : Root) :
    (r.openBatch arenaBytes).jjEvents = r.jjEvents := by
  unfold openBatch
  split_ifs <;> rfl

@[simp] theorem clock_openBatch (arenaBytes : ℕ) (r : Root) :
    (r.openBatch arenaBytes).clock = r.clock.bump := by
  unfold openBatch
  split_ifs <;> rfl

theorem writeChanges_eq (tick : ℕ) (changes : List PathChange) (r : Root) :
    ∃ tree, changes.foldl (writeChange tick) r = { r with tree := tree } := by
  induction changes generalizing r with
  | nil => exact ⟨r.tree, rfl⟩
  | cons c changes ih =>
    obtain ⟨tree, h⟩ := ih (r.writeChange tick c)
    exact ⟨tree, h⟩

theorem clock_applyChanges (arenaBytes : ℕ) (changes : List PathChange) (r : Root) :
    (r.applyChanges arenaBytes changes).1.clock = r.clock.bump := by
  obtain ⟨tree, h⟩ := writeChanges_eq r.clock.bump.ticks changes (r.openBatch arenaBytes)
  show (changes.foldl _ (r.openBatch arenaBytes)).clock = _
  rw [h]
  exact clock_openBatch arenaBytes r

theorem openBatch_of_full {r : Root} (h : r.jjEvents = false) (arenaBytes : ℕ) :
    r.openBatch arenaBytes = r.bump :=
  if_neg fun hfull => absurd hfull.1 (by simp [h])

theorem pruneTombstones_of_full {r : Root} (h : r.jjEvents = false) :
    r.pruneTombstones.1 = { r with tree := (r.tree.pruneTombstonesBefore r.watermark).1 } := by
  unfold pruneTombstones
  rw [if_neg (by simp [h])]

end Root

end Watchwoman
