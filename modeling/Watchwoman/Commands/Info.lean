import Watchwoman.Commands.Context
import Watchwoman.Commands.Subscribe

/-!
# Commands about the daemon

`info.rs`: the commands that only report. None of them fails but `log`, and none changes the daemon.
-/

namespace Watchwoman.Info

open Subscribe (watchmanCompatVersion)

/-- `WATCHWOMAN_VERSION` -/
def watchwomanVersion : String := "0.8.3"

/-! ## Capabilities -/

/-- `CAPABILITIES` -/
def capabilities : List String :=
  ["bser-v2", "clock-sync-timeout", "cmd-clock", "cmd-debug-ageout", "cmd-debug-contenthash",
    "cmd-debug-fsevents-inject-drop", "cmd-debug-get-asserted-states",
    "cmd-debug-get-subscriptions", "cmd-debug-kqueue-and-fsevents-recrawl",
    "cmd-debug-poll-for-settle", "cmd-debug-recrawl", "cmd-debug-root-status",
    "cmd-debug-set-parallel-crawl", "cmd-debug-set-subscriptions-paused",
    "cmd-debug-show-cursors", "cmd-debug-status", "cmd-debug-symlink-target-cache",
    "cmd-debug-watcher-info", "cmd-debug-watcher-info-clear", "cmd-find",
    "cmd-flush-subscriptions", "cmd-get-config", "cmd-get-log", "cmd-get-pid", "cmd-get-sockname",
    "cmd-global-log-level", "cmd-list-capabilities", "cmd-log", "cmd-log-level", "cmd-query",
    "cmd-shutdown-server", "cmd-since", "cmd-status", "cmd-state-enter", "cmd-state-leave",
    "cmd-subscribe", "cmd-trigger", "cmd-trigger-del", "cmd-trigger-list", "cmd-unsubscribe",
    "cmd-version", "cmd-watch", "cmd-watch-del", "cmd-watch-del-all", "cmd-watch-list",
    "cmd-watch-project", "dedup_results", "field-cclock", "field-content.sha1hex", "field-ctime",
    "field-ctime_f", "field-ctime_ms", "field-ctime_ns", "field-ctime_us", "field-dev",
    "field-exists", "field-gid", "field-ino", "field-mode", "field-mtime", "field-mtime_f",
    "field-mtime_ms", "field-mtime_ns", "field-mtime_us", "field-name", "field-new",
    "field-nlink", "field-oclock", "field-size", "field-symlink_target", "field-type",
    "field-uid", "glob_generator", "path_generator", "relative_root", "scm-git", "scm-hg",
    "scm-since", "suffix-set", "term-allof", "term-anyof", "term-dirname", "term-empty",
    "term-exists", "term-false", "term-idirname", "term-imatch", "term-iname", "term-ipcre",
    "term-match", "term-name", "term-not", "term-pcre", "term-since", "term-size", "term-suffix",
    "term-true", "term-type", "wildmatch", "wildmatch-multislash"]

/-- `WATCHER_CAPABILITY` -/
def watcherCapability : Platform → String
  | .macos => "watcher-fsevents"
  | .linux => "watcher-inotify"
  | .windows | .other => "watcher-kqueue"

def hasCapability (env : CommandEnv) (name : String) : Bool :=
  capabilities.contains name || name == watcherCapability env.platform

/-- The texts of the list that a client asks about under a key. -/
def asked (args : List Value) (key : String) : List String :=
  let spec := args.head?.bind Value.asObject
  ((spec.bind (List.lookup key)).bind Value.asArray).getD [] |>.filterMap Value.asStr

def version (env : CommandEnv) (args : List Value) : Value :=
  let required := asked args "required"
  let caps := (required ++ asked args "optional").foldl
    (fun m name => IndexMap.insert name (.bool (hasCapability env name)) m) []
  let error := required.find? fun name => !hasCapability env name
  obj ([("version", .string watchmanCompatVersion),
      ("buildinfo", .string ("watchwoman " ++ watchwomanVersion))] ++
    (if caps.isEmpty then [] else [("capabilities", .object caps)]) ++
    match error with
    | none => []
    | some name =>
      [("error", .string ("required capability `" ++ name ++ "` is not supported"))])

def listCapabilities (env : CommandEnv) : Value :=
  obj [("capabilities",
    .array ((capabilities ++ [watcherCapability env.platform]).map Value.string))]

/-! ## The process -/

def getSockname (env : CommandEnv) : Value :=
  obj [
    ("version", .string watchmanCompatVersion),
    ("sockname", .string env.sockPath),
    ("unix_domain", .string env.sockPath)]

def getPid (env : CommandEnv) : Value := obj [("pid", .int (Int64.ofNat env.pid.toNat))]

def getConfig (env : CommandEnv) (args : List Value) : Value :=
  match (args.head?.bind Value.asStr).bind env.readConfig with
  | some v => obj [("config", Server.jsonToValue v)]
  | none => obj [("config", .object [])]

def getLog : Value := obj [("log", .array [])]

def logLevel : Value := obj [("log_level", .string "warn")]

/-- `log`; the message goes to the tracing output. -/
def log (args : List Value) : Except CommandError Value := do
  let _ ← CommandError.orBadArgs "log message missing" (args[1]?.bind Value.asStr)
  return obj [("logged", .bool true)]

/-! ## The status report -/

/-- `n as i64` -/
def int (n : ℕ) : Value := .int (Int64.ofNat n)

def classifyHealth (env : CommandEnv) (found : Bool) (w : Watch) : String :=
  if !found then
    if 2 ≤ w.missingTicks.toNat then "dead" else "missing"
  else if 0 < w.subscriptionCount ∨ 0 < w.triggerCount then "active"
  else
    let threshold := Int64.ofNat env.staleIdleSecs
    if 0 < threshold ∧ threshold ≤ Int64.ofNat (w.idleSeconds env.unixNow) then "stale" else "idle"

/-- The entry of one root. -/
def rootStatus (env : CommandEnv) (path : List Name) (w : Watch) : Value :=
  let found := (env.metadata path).toOption.getD false
  obj [
    ("path", .string (pathText path)),
    ("num_files", int w.root.tree.len),
    ("live_files", int w.root.tree.liveCount),
    ("tombstones", int w.root.tree.tombstones),
    ("tree_bytes_est", int (env.arenaBytes path)),
    ("index_mode", .string (if w.root.jjEvents then "jj-events" else "full")),
    ("clock", .string (w.root.clock.encode w.root.clock.ticks)),
    ("subscriptions", int w.subscriptionCount),
    ("triggers", int w.triggerCount),
    ("idle_seconds", int (w.idleSeconds env.unixNow)),
    ("registered_at_unix", int w.registeredAt),
    ("exists", .bool found),
    ("missing_ticks", int w.missingTicks.toNat),
    ("health", .string (classifyHealth env found w))]

def reasonText : Subscriptions.ReapReason → String
  | .dead => "dead"
  | .stale => "stale"

def reapValue (e : ReapEvent) : Value :=
  obj [
    ("path", .string (pathText e.path)),
    ("reason", .string (reasonText e.reason)),
    ("at_unix", int e.atUnix)]

def stat (key : String) (v : Option ℕ) : List (String × Value) :=
  (v.map fun n => (key, int n)).toList

variable {File : Type}

def total (σ : DaemonState File) (f : Watch → ℕ) : ℕ := ((HashMap.values σ.roots).map f).sum

def totalTreeBytes (env : CommandEnv) (σ : DaemonState File) : ℕ :=
  σ.roots.keys.foldl (fun sum path => min (sum + env.arenaBytes path) (2 ^ 64 - 1)) 0

def memoryStatus (env : CommandEnv) (σ : DaemonState File) : Value :=
  obj ([
    ("rss_bytes", int env.usage.rssBytes),
    ("footprint_bytes", int env.usage.footprintBytes),
    ("tree_bytes_est", int (totalTreeBytes env σ)),
    ("unaccounted_bytes", int (env.usage.footprintBytes - totalTreeBytes env σ)),
    ("live_entries", int (total σ fun w => w.root.tree.liveCount)),
    ("tombstone_entries", int (total σ fun w => w.root.tree.tombstones)),
    ("entry_size_bytes", int env.entrySize),
    ("allocator", .string env.allocStats.allocator)] ++
    stat "allocator_allocated_bytes" env.allocStats.allocated ++
    stat "allocator_active_bytes" env.allocStats.active ++
    stat "allocator_mapped_bytes" env.allocStats.mapped)

def status (env : CommandEnv) (σ : DaemonState File) : Value :=
  obj [
    ("version", .string watchwomanVersion),
    ("compat_version", .string watchmanCompatVersion),
    ("pid", int env.pid.toNat),
    ("sockname", .string env.sockPath),
    ("uptime_seconds", int env.uptimeSeconds),
    ("started_at_unix", int env.startedAtUnix),
    ("rss_bytes", int env.usage.rssBytes),
    ("footprint_bytes", int env.usage.footprintBytes),
    ("user_cpu_ms", int env.usage.userCpuMs),
    ("system_cpu_ms", int env.usage.systemCpuMs),
    ("total_tracked_files", int (total σ fun w => w.root.tree.len)),
    ("total_live_files", int (total σ fun w => w.root.tree.liveCount)),
    ("total_tombstones", int (total σ fun w => w.root.tree.tombstones)),
    ("total_subscriptions", int (total σ Watch.subscriptionCount)),
    ("total_triggers", int (total σ Watch.triggerCount)),
    ("memory", memoryStatus env σ),
    ("roots", .array (σ.roots.entries.map fun e => rootStatus env e.1 e.2)),
    ("reaped", .array (σ.reapLog.map reapValue))]

end Watchwoman.Info
