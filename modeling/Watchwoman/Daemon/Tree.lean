import Watchwoman.Daemon.Path
import Watchwoman.Lib.HashMap

/-!
# The file tree of a root

`tree.rs`: a map from relative paths to entries. A file that is gone leaves a tombstone, so that a
`since` query can still report the deletion; a sweep drops the tombstones no cursor needs. The
arena behind the map is not modelled: its size enters `Root.applyChanges` as what the allocator
reports.

Each operation has one lemma that says what a lookup finds after it; later proofs use only these.
-/

namespace Watchwoman

inductive FileKind where
  | file | dir | symlink | block | char | fifo | socket | unknown
  deriving DecidableEq, Repr

def FileKind.asWireStr : FileKind → String
  | .file => "f"
  | .dir => "d"
  | .symlink => "l"
  | .block => "b"
  | .char => "c"
  | .fifo => "p"
  | .socket => "s"
  | .unknown => "?"

/-- What `symlink_metadata` reports; times are nanoseconds since 1970, if the platform has them. -/
structure Metadata where
  kind : FileKind
  len : UInt64
  mode : UInt32
  uid : UInt32
  gid : UInt32
  ino : UInt64
  dev : UInt64
  nlink : UInt64
  modified : Option ℤ
  created : Option ℤ
  deriving DecidableEq, Repr

/-- One entry of the tree; `live` is the field `exists` of the source. -/
structure FileEntry where
  live : Bool
  kind : FileKind
  size : UInt64
  mode : UInt32
  uid : UInt32
  gid : UInt32
  mtimeNs : ℤ
  ctimeNs : ℤ
  mtimeMs : Int64
  ctimeMs : Int64
  ino : UInt64
  dev : UInt64
  nlink : UInt64
  symlinkTarget : Option String
  cclock : ℕ
  oclock : ℕ
  isNew : Bool
  deriving DecidableEq, Repr

namespace FileEntry

/-- An entry for a path that is only known to be gone. -/
def missing (tick : ℕ) : FileEntry where
  live := false
  kind := .unknown
  size := 0
  mode := 0
  uid := 0
  gid := 0
  mtimeNs := 0
  ctimeNs := 0
  mtimeMs := 0
  ctimeMs := 0
  ino := 0
  dev := 0
  nlink := 0
  symlinkTarget := none
  cclock := tick
  oclock := tick
  isNew := false

/-- `metadata_time_ns`: a time before 1970 counts as none. -/
def metadataTimeNs (t : Option ℤ) : ℤ :=
  match t with
  | some ns => if 0 ≤ ns then ns else 0
  | none => 0

/-- `from_metadata` -/
def fromMetadata (md : Metadata) (symlinkTarget : Option String) (tick : ℕ) : FileEntry where
  live := true
  kind := md.kind
  size := md.len
  mode := md.mode
  uid := md.uid
  gid := md.gid
  mtimeNs := metadataTimeNs md.modified
  ctimeNs := metadataTimeNs (md.created.or md.modified)
  mtimeMs := Int64.ofInt ((metadataTimeNs md.modified).tdiv 1000000)
  ctimeMs := Int64.ofInt ((metadataTimeNs (md.created.or md.modified)).tdiv 1000000)
  ino := md.ino
  dev := md.dev
  nlink := md.nlink
  symlinkTarget := symlinkTarget
  cclock := tick
  oclock := tick
  isNew := true

end FileEntry

/-- The entries and the counts of the live ones and the tombstones. -/
structure Tree where
  entries : HashMap RelPath FileEntry
  liveCount : ℕ
  tombstones : ℕ

namespace Tree

/-- `Tree::new` -/
def new : Tree := ⟨∅, 0, 0⟩

def len (t : Tree) : ℕ := t.entries.entries.length

def get (t : Tree) (rel : RelPath) : Option FileEntry := t.entries.lookup rel

/-- The path has an entry with `exists = true`. -/
def Live (t : Tree) (rel : RelPath) : Prop := ∃ e, t.get rel = some e ∧ e.live = true

/-- `upsert` -/
def upsert (t : Tree) (rel : RelPath) (md : Metadata) (symlinkTarget : Option String)
    (tick : ℕ) (isNew : Bool) (cclock : ℕ) : Tree :=
  let entry := { FileEntry.fromMetadata md symlinkTarget tick with isNew, cclock }
  let entries := t.entries.insert rel entry
  match t.get rel with
  | some old =>
    if old.live then { t with entries }
    else ⟨entries, t.liveCount + 1, t.tombstones - 1⟩
  | none => { t with entries, liveCount := t.liveCount + 1 }

/-- The entry as a tombstone of `tick`. -/
def tombstoneOf (e : FileEntry) (tick : ℕ) : FileEntry :=
  { e with live := false, oclock := tick, isNew := false }

/-- `mark_gone`: nothing happens to a path that is not known. -/
def markGone (t : Tree) (rel : RelPath) (tick : ℕ) : Tree :=
  match t.get rel with
  | none => t
  | some e =>
    let entries := t.entries.insert rel (tombstoneOf e tick)
    if e.live then ⟨entries, t.liveCount - 1, t.tombstones + 1⟩ else { t with entries }

/-- `record_gone`: a path that is not known gets a tombstone too. -/
def recordGone (t : Tree) (rel : RelPath) (tick : ℕ) : Tree :=
  match t.get rel with
  | some _ => t.markGone rel tick
  | none =>
    { t with
      entries := t.entries.insert rel (FileEntry.missing tick)
      tombstones := t.tombstones + 1 }

/-- The entry `record_signal` leaves behind. -/
def signalEntry (cclock tick : ℕ) : FileEntry :=
  { FileEntry.missing tick with live := true, kind := .file, cclock, isNew := cclock == tick }

/-- `record_signal` -/
def recordSignal (t : Tree) (rel : RelPath) (tick : ℕ) : Tree :=
  match t.get rel with
  | some e =>
    let entries := t.entries.insert rel (signalEntry e.cclock tick)
    if e.live then { t with entries }
    else ⟨entries, t.liveCount + 1, t.tombstones - 1⟩
  | none =>
    { t with
      entries := t.entries.insert rel (signalEntry tick tick)
      liveCount := t.liveCount + 1 }

/-- The entries a sweep keeps. -/
def Kept (watermark : ℕ) (e : FileEntry) : Prop := e.live = true ∨ watermark < e.oclock

instance (watermark : ℕ) (e : FileEntry) : Decidable (Kept watermark e) :=
  inferInstanceAs (Decidable (_ ∨ _))

/-- `prune_tombstones_before`: the tree after the sweep and the number of entries it dropped. -/
def pruneTombstonesBefore (t : Tree) (watermark : ℕ) : Tree × ℕ :=
  if t.tombstones = 0 then (t, 0)
  else
    let entries := t.entries.retain fun _ e => decide (Kept watermark e)
    let removed := t.len - entries.entries.length
    (⟨entries, t.liveCount, t.tombstones - removed⟩, removed)

/-! ## What a lookup finds -/

@[simp] theorem get_new (rel : RelPath) : new.get rel = none := rfl

theorem mem_entries_iff {t : Tree} {rel : RelPath} {e : FileEntry} :
    (⟨rel, e⟩ : Sigma fun _ : RelPath => FileEntry) ∈ t.entries.entries ↔ t.get rel = some e :=
  HashMap.mem_entries_iff

theorem get_upsert (t : Tree) (rel : RelPath) (md : Metadata) (target : Option String)
    (tick : ℕ) (isNew : Bool) (cclock : ℕ) (p : RelPath) :
    (t.upsert rel md target tick isNew cclock).get p =
      if p = rel then some { FileEntry.fromMetadata md target tick with isNew, cclock }
      else t.get p := by
  have hentries : (t.upsert rel md target tick isNew cclock).entries =
      t.entries.insert rel { FileEntry.fromMetadata md target tick with isNew, cclock } := by
    unfold upsert
    simp only
    split
    · split_ifs <;> rfl
    · rfl
  unfold get
  rw [hentries]
  exact HashMap.lookup_insert_eq _ _ _ _

theorem get_markGone (t : Tree) (rel : RelPath) (tick : ℕ) (p : RelPath) :
    (t.markGone rel tick).get p =
      if p = rel then (t.get rel).map (tombstoneOf · tick) else t.get p := by
  unfold markGone
  cases h : t.get rel with
  | none =>
    split_ifs with hp
    · rw [hp, h, Option.map_none]
    · rfl
  | some e =>
    have hins := HashMap.lookup_insert_eq t.entries p rel (tombstoneOf e tick)
    simp only [Option.map_some]
    split_ifs <;> exact hins.trans (by simp_all [get])

theorem get_recordGone (t : Tree) (rel : RelPath) (tick : ℕ) (p : RelPath) :
    (t.recordGone rel tick).get p =
      if p = rel then some (((t.get rel).map (tombstoneOf · tick)).getD (FileEntry.missing tick))
      else t.get p := by
  unfold recordGone
  cases h : t.get rel with
  | none =>
    have hins := HashMap.lookup_insert_eq t.entries p rel (FileEntry.missing tick)
    exact hins.trans (by simp [get])
  | some e =>
    simp only
    rw [get_markGone, h]
    rfl

theorem get_recordSignal (t : Tree) (rel : RelPath) (tick : ℕ) (p : RelPath) :
    (t.recordSignal rel tick).get p =
      if p = rel then some (signalEntry (((t.get rel).map (·.cclock)).getD tick) tick)
      else t.get p := by
  unfold recordSignal
  cases h : t.get rel with
  | none => exact HashMap.lookup_insert_eq _ _ _ _
  | some e =>
    simp only [Option.map_some, Option.getD_some]
    split_ifs <;> exact (HashMap.lookup_insert_eq t.entries p rel _).trans (by simp_all [get])

theorem get_prune (t : Tree) (watermark : ℕ) {p : RelPath} {e : FileEntry} :
    ((t.pruneTombstonesBefore watermark).1.get p = some e → t.get p = some e) ∧
    (t.get p = some e → Kept watermark e →
      (t.pruneTombstonesBefore watermark).1.get p = some e) := by
  unfold pruneTombstonesBefore
  split_ifs
  · exact ⟨id, fun h _ => h⟩
  · have h := @HashMap.lookup_retain _ _ _ (fun _ e => decide (Kept watermark e)) t.entries p e
    exact ⟨fun hg => (h.mp hg).1, fun hg hk => h.mpr ⟨hg, decide_eq_true hk⟩⟩

end Tree

end Watchwoman
