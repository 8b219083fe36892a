import Watchwoman.Daemon.Root
import Watchwoman.Protocol.Bser
import Watchwoman.Query.Filter

/-!
# Running a query

`field.rs` and `run.rs`: the rows of the entries that pass the since tick and the filters of a spec,
the clock of the moment, and whether the answer is to be taken afresh.

File contents and the working copy are outside of the daemon: `Env` is what hashing a file and
asking the version control system return.
-/

namespace Watchwoman

/-- What a query reads from outside of the daemon. -/
structure Env where
  /-- `sha1_of` an absolute path. -/
  sha1Of : List Name → Value
  /-- `scm::changed_paths`; a path outside of the tree never matches an entry. -/
  changedPaths : ScmVcs → String → Option (List RelPath)

/-! ## Rows -/

inductive Field where
  | name | exists | size | mode | uid | gid | ino | dev | nlink
  | mtime | mtimeMs | mtimeUs | mtimeNs | mtimeF
  | ctime | ctimeMs | ctimeUs | ctimeNs | ctimeF
  | type | new | cclock | oclock | symlinkTarget | contentSha1Hex
  deriving DecidableEq, Repr

namespace Field

def wireName : Field → String
  | .name => "name"
  | .exists => "exists"
  | .size => "size"
  | .mode => "mode"
  | .uid => "uid"
  | .gid => "gid"
  | .ino => "ino"
  | .dev => "dev"
  | .nlink => "nlink"
  | .mtime => "mtime"
  | .mtimeMs => "mtime_ms"
  | .mtimeUs => "mtime_us"
  | .mtimeNs => "mtime_ns"
  | .mtimeF => "mtime_f"
  | .ctime => "ctime"
  | .ctimeMs => "ctime_ms"
  | .ctimeUs => "ctime_us"
  | .ctimeNs => "ctime_ns"
  | .ctimeF => "ctime_f"
  | .type => "type"
  | .new => "new"
  | .cclock => "cclock"
  | .oclock => "oclock"
  | .symlinkTarget => "symlink_target"
  | .contentSha1Hex => "content.sha1hex"

def defaultFields : List Field := [.name, .exists, .new, .size, .mode, .type]

/-- Nanoseconds as a fractional number of seconds, by its bits. -/
def seconds (ns : ℤ) : UInt64 := (Float.ofInt ns / 1000000000.0).toBits

/-- The value of one field of a row. -/
def value (env : Env) (rootPath : List Name) (rel : RelPath) (entry : FileEntry) (clock : Clock) :
    Field → Value
  | .name => .string rel.toStringLossy
  | .exists => .bool entry.live
  | .size => .int entry.size.toInt64
  | .mode => .int (Int64.ofNat entry.mode.toNat)
  | .uid => .int (Int64.ofNat entry.uid.toNat)
  | .gid => .int (Int64.ofNat entry.gid.toNat)
  | .ino => .int entry.ino.toInt64
  | .dev => .int entry.dev.toInt64
  | .nlink => .int entry.nlink.toInt64
  | .mtime => .int (entry.mtimeMs / 1000)
  | .mtimeMs => .int entry.mtimeMs
  | .mtimeUs => .int (Int64.ofInt (entry.mtimeNs.tdiv 1000))
  | .mtimeNs => .int (Int64.ofInt entry.mtimeNs)
  | .mtimeF => .real (seconds entry.mtimeNs)
  | .ctime => .int (entry.ctimeMs / 1000)
  | .ctimeMs => .int entry.ctimeMs
  | .ctimeUs => .int (Int64.ofInt (entry.ctimeNs.tdiv 1000))
  | .ctimeNs => .int (Int64.ofInt entry.ctimeNs)
  | .ctimeF => .real (seconds entry.ctimeNs)
  | .type => .string entry.kind.asWireStr
  | .new => .bool entry.isNew
  | .cclock => .string (clock.encode entry.cclock)
  | .oclock => .string (clock.encode entry.oclock)
  | .symlinkTarget => (entry.symlinkTarget.map Value.string).getD .null
  | .contentSha1Hex => env.sha1Of (rootPath ++ rel)

/-- `render_row`: the bare name if nothing else is asked for. -/
def renderRow (env : Env) (rootPath : List Name) (rel : RelPath) (entry : FileEntry)
    (fields : List Field) (clock : Clock) : Value :=
  if fields = [.name] then .string rel.toStringLossy
  else
    .object (fields.foldl
      (fun o f => Bser.indexInsert f.wireName (f.value env rootPath rel entry clock) o) [])

end Field

/-! ## Specs and results -/

structure QuerySpec where
  expression : Expr
  fields : List Field
  generators : Generators
  since : Option ClockSpec
  relativeRoot : Option (List Component)
  emptyOnFreshInstance : Bool
  alwaysIncludeDirectories : Bool
  caseSensitive : Bool

structure QueryResult where
  files : List Value
  clock : String
  isFreshInstance : Bool

namespace Query

/-- `resolve_named_cursor`: the tick and the name of the cursor, if the clock is one. -/
def resolveNamedCursor (r : Root) (spec : QuerySpec) : Option (ℕ × String) :=
  match spec.since with
  | some (.named name) => some (r.cursorTick name, name)
  | _ => none

/-- `resolve_scm_set` -/
def resolveScmSet (env : Env) (spec : QuerySpec) : Option (List RelPath) :=
  match spec.since with
  | some (.scm vcs mergebase) => env.changedPaths vcs mergebase
  | _ => none

/-- The tick past which entries are listed. -/
def sinceTick (r : Root) (spec : QuerySpec) : Option ℕ :=
  ((resolveNamedCursor r spec).map Prod.fst).or (spec.since.map (·.tickAgainst r.clock))

/-- The tick on the axis of the clock that may predate what the index holds. -/
def clockTick (r : Root) (spec : QuerySpec) : Option ℕ :=
  match resolveNamedCursor r spec, spec.since with
  | some (tick, _), _ => if 0 < tick then some tick else none
  | none, some (.tick t) => some ((ClockSpec.tick t).tickAgainst r.clock)
  | none, some (.full s p n t) => some ((ClockSpec.full s p n t).tickAgainst r.clock)
  | none, _ => none

/-- `is_fresh_instance` -/
def IsFresh (r : Root) (spec : QuerySpec) : Prop :=
  sinceTick r spec = none ∨ (sinceTick r spec = some 0 ∧ r.jjEvents = true) ∨
    ∃ t ∈ clockTick r spec, t < r.oldestAvailableTick

instance (r : Root) (spec : QuerySpec) : Decidable (IsFresh r spec) :=
  inferInstanceAs (Decidable (_ ∨ _ ∨ _))

/-- The name of a synchronisation cookie, hidden from every answer. -/
def IsCookie (rel : RelPath) : Prop :=
  ∃ name ∈ rel.fileName, startsWith (Utf8.lossy name) ".watchman-cookie-" = true

instance (rel : RelPath) : Decidable (IsCookie rel) :=
  inferInstanceAs (Decidable (∃ name ∈ rel.fileName, _))

/-- The path as the answer shows it, if it lies below `relative_root`. -/
def displayRel (spec : QuerySpec) (rel : RelPath) : Option RelPath :=
  match spec.relativeRoot with
  | none => some rel
  | some base => rel.stripPrefix base

/-- The tests of the row loop after the one for the tick, and the path to show. -/
def select (env : Env) (r : Root) (spec : QuerySpec) (rel : RelPath) (entry : FileEntry) :
    Option RelPath :=
  if IsCookie rel then none
  else if spec.alwaysIncludeDirectories = false ∧ entry.kind = .dir then none
  else do
    let shown ← displayRel spec rel
    let allowed := match resolveScmSet env spec with
      | none => true
      | some set => set.contains rel || set.contains shown
    if spec.generators.accept shown && allowed &&
        spec.expression.eval entry ⟨r.clock, shown, spec.caseSensitive⟩ then
      some shown
    else none

/-- The entry is past the since tick. -/
def Past (since : Option ℕ) (entry : FileEntry) : Prop := ∀ t ∈ since, t < entry.oclock

theorem past_some {t : ℕ} {entry : FileEntry} : Past (some t) entry ↔ t < entry.oclock := by
  simp [Past]

instance (since : Option ℕ) (entry : FileEntry) : Decidable (Past since entry) :=
  match since with
  | none => isTrue (by simp [Past])
  | some t => decidable_of_iff (t < entry.oclock) (by simp [Past])

/-- The row of an entry, if the answer has one. -/
def row (env : Env) (r : Root) (spec : QuerySpec) (rel : RelPath) (entry : FileEntry) :
    Option Value :=
  (select env r spec rel entry).map fun shown =>
    Field.renderRow env r.path shown entry spec.fields r.clock

/-- The rows of the loop over the tree. -/
def rows (env : Env) (r : Root) (spec : QuerySpec) : List Value :=
  r.tree.entries.entries.filterMap fun e =>
    if Past (sinceTick r spec) e.2 then row env r spec e.1 e.2 else none

/-- `run`: the answer, and the root with the cursor it used advanced. -/
def run (env : Env) (spec : QuerySpec) (r : Root) : QueryResult × Root :=
  let files :=
    if IsFresh r spec ∧ spec.emptyOnFreshInstance = true then [] else rows env r spec
  let result := ⟨files, r.clock.encode r.clock.ticks, decide (IsFresh r spec)⟩
  match resolveNamedCursor r spec with
  | some (_, name) => (result, r.setCursor name r.clock.ticks)
  | none => (result, r)

end Query

end Watchwoman
