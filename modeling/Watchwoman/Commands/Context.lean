import Watchwoman.Daemon.Registry
import Watchwoman.Daemon.Server
import Watchwoman.Daemon.State
import Watchwoman.Lib.Transaction
import Watchwoman.Query.Parse

/-!
# What a handler works with

A handler reads its arguments and the disk, looks a root up in the daemon and changes it, and ends
with a response or an error. It is a program over the state of the daemon; what it finds outside of
the daemon is `CommandEnv`, for the time of one command.

`register_root` and the changes of the triggers are here; they write more than the root they are
about.
-/

namespace Watchwoman

open Transaction Persistence

/-- The target the daemon was compiled for. -/
inductive Platform where
  | macos
  | linux
  | windows
  | other
  deriving DecidableEq, Repr

/-- `SelfUsage` -/
structure SelfUsage where
  rssBytes : ℕ
  footprintBytes : ℕ
  userCpuMs : ℕ
  systemCpuMs : ℕ

/-- `alloc::stats` -/
structure AllocStats where
  allocator : String
  allocated : Option ℕ
  active : Option ℕ
  mapped : Option ℕ

/-- What one command finds outside of the daemon's state. -/
structure CommandEnv where
  parse : ParseEnv
  /-- What a query on the root at a path reads. -/
  query : List Name → Env
  /-- `std::fs::canonicalize`, with the text of its error. -/
  canonicalize : String → Except String (List Name)
  /-- Whether a path is a directory, or the text of the error of `std::fs::metadata`. -/
  metadata : List Name → Except String Bool
  /-- `Path::exists` -/
  pathExists : List Name → Bool
  /-- The ignored directories and the mode of `load_watchman_config`. -/
  watchmanConfig : List Name → WatchIgnores × Bool
  initialScan : List Name → WatchIgnores → List ScanEntry
  /-- The error of `watcher::spawn`. -/
  watchError : List Name → Option String
  /-- The document in the `.watchmanconfig` below a path, if there is one. -/
  readConfig : String → Option Server.Json
  /-- The socket has a parent directory, which is the state directory. -/
  hasStateDir : Bool
  /-- The `triggers.json` of a root can be written. -/
  canPersist : List Name → Bool
  unixNow : ℕ
  staleIdleSecs : ℕ
  startTime : UInt64
  pid : UInt32
  platform : Platform
  sockPath : String
  uptimeSeconds : ℕ
  startedAtUnix : ℕ
  usage : SelfUsage
  allocStats : AllocStats
  /-- `arena_bytes` of the tree of a root. -/
  arenaBytes : List Name → ℕ
  /-- `ENTRY_SIZE` -/
  entrySize : ℕ

/-- A command over a daemon whose files `serde_json` writes. -/
abbrev Cmd (serde : Serde) := Program (DaemonState serde.File) CommandError

/-- `obj` -/
def obj (entries : List (String × Value)) : Value := .object entries

namespace CommandEnv

/-- What `register_root` finds at a path whose persisted triggers have these names. -/
def surroundings (env : CommandEnv) (path : List Name) (triggers : List String) :
    Registry.Surroundings where
  isDir := (env.metadata path).toOption
  ignores := (env.watchmanConfig path).1
  jjEvents := (env.watchmanConfig path).2
  entries := env.initialScan path (env.watchmanConfig path).1
  recrawl := env.initialScan path (env.watchmanConfig path).1
  triggers := triggers
  startTime := env.startTime
  pid := env.pid
  watchError := env.watchError path

/-- What the garbage collector finds. -/
def sweepEnv (env : CommandEnv) : DaemonState.SweepEnv where
  staleIdleSecs := env.staleIdleSecs
  unixNow := env.unixNow
  isDir path := (env.metadata path).toOption.getD false

def scan (env : CommandEnv) (root : Root) : List ScanEntry := env.initialScan root.path root.ignores

end CommandEnv

/-! ## Paths -/

/-- A path as a handler has it. -/
inductive PathBuf where
  | canonical (path : List Name)
  /-- As the client wrote it, if it has no canonical form. -/
  | raw (text : String)

namespace PathBuf

/-- The names of an absolute path without a parent in it. -/
def absolute : List Component → Option (List Name)
  | .rootDir :: rest => rest.mapM fun
    | .normal name => some name
    | _ => none
  | _ => none

/-- The key of the map of roots that equals the path. -/
def key : PathBuf → Option (List Name)
  | .canonical path => some path
  | .raw text => absolute (components text)

/-- `to_string_lossy` -/
def text : PathBuf → String
  | .canonical path => pathText path
  | .raw text => text

end PathBuf

/-- `canonical` -/
def canonical (env : CommandEnv) (p : String) : PathBuf :=
  match env.canonicalize p with
  | .ok path => .canonical path
  | .error _ => .raw p

/-! ## The registered roots -/

section

variable {serde : Serde} (env : CommandEnv)

/-- `promote_to_full`, with what a crawl finds. -/
def Watch.promoteToFull (w : Watch) : Watch :=
  { w with root := w.root.promoteToFull (env.scan w.root) }

/-- `DaemonState::root`, which resets the timer of the root it finds. -/
def findRoot (path : List Name) : Cmd serde (Option Watch) := do
  let σ ← get
  match σ.roots.lookup path with
  | none => return none
  | some w =>
    modify fun σ => σ.setRoot path (w.touch env.unixNow)
    return some (w.touch env.unixNow)

/-- The root of a command: the text of its path, its key and its state. -/
structure Resolved where
  text : String
  path : List Name
  watch : Watch

/-- The root that the first argument names; `missing` is the message if there is no such argument. -/
def resolveRoot (missing : String) (args : List Value) : Cmd serde Resolved := do
  let arg ← CommandError.orBadArgs missing (args.head?.bind Value.asStr)
  let path := canonical env arg
  match path.key with
  | none => throw (.unknownRoot path.text)
  | some key =>
    match ← findRoot env key with
    | none => throw (.unknownRoot path.text)
    | some w => return ⟨path.text, key, w⟩

/-- The triggers in memory and the state directory, as `Persistence` has them. -/
def DaemonState.persistence (σ : DaemonState serde.File) : Persistence.State serde where
  triggers path := ((σ.roots.lookup path).map Watch.triggers).getD ∅
  files := σ.files

/-- `persist_triggers` -/
def persistTriggers (w : Watch) (σ : DaemonState serde.File) : DaemonState serde.File :=
  if env.hasStateDir && env.canPersist w.root.path then
    { σ with
      files := (σ.persistence.persistTriggers w.root.path (HashMap.values w.triggers)).files }
  else σ

/-- `load_persisted_triggers` of a new root. -/
def loadPersistedTriggers (path : List Name) (σ : DaemonState serde.File) :
    HashMap String Trigger :=
  if env.hasStateDir then σ.persistence.loadPersistedTriggers path ∅ else ∅

/-- `install_trigger` -/
def installTrigger (path : List Name) (w : Watch) (t : Trigger) (σ : DaemonState serde.File) :
    DaemonState serde.File :=
  let w := { w with triggers := w.triggers.insert t.name t }
  persistTriggers env w (σ.setRoot path w)

/-- `remove_trigger`: whether there was one is the response. -/
def removeTrigger (path : List Name) (w : Watch) (name : String) (σ : DaemonState serde.File) :
    DaemonState serde.File :=
  if (w.triggers.lookup name).isSome then
    let w := { w with triggers := w.triggers.erase name }
    persistTriggers env w (σ.setRoot path w)
  else σ

/-- `register_root` -/
def registerRoot (path : List Name) : Cmd serde PUnit := do
  let σ ← get
  match σ.roots.lookup path with
  | some w => modify fun σ => σ.setRoot path (w.touch env.unixNow)
  | none =>
    match env.metadata path with
    | .error e => throw (.internal ("resolving metadata for " ++ pathText path ++ ": " ++ e))
    | .ok false => throw (.internal ("watch root " ++ pathText path ++ " is not a directory"))
    | .ok true =>
      modify fun σ => { σ with rootCounter := σ.rootCounter + 1 }
      let triggers := loadPersistedTriggers env path σ
      let names := triggers.entries.map fun e => e.2.name
      let root := Registry.buildRoot path (σ.rootCounter + 1) (env.surroundings path names)
      match env.watchError path with
      | some e => throw (.internal e)
      | none => modify fun σ => σ.setRoot path { Watch.new root env.unixNow with triggers }

end

end Watchwoman
