import Watchwoman.Commands.Handlers
import Watchwoman.Commands.Info
import Watchwoman.Commands.SubscribeResponse

/-!
# Dispatch

`commands.rs` and the handlers it calls: every command of the daemon with the stages of its
arguments, its error exits and what it does to the daemon. A handler holds its root while it runs, so
what it does to it is computed on the root it has looked up and put back at the end.

The loops that `subscribe`, `trigger` and `register_root` spawn, and the session that a push loop
writes to, are those of `Commands.Subscriptions` and `Commands.Triggers`.
-/

namespace Watchwoman.Dispatch

open Transaction Persistence Query CommandError
open Handlers (jjBackgroundMonitor)
open Subscribe (watchmanCompatVersion)

/-- A connection, as a handler is given it. -/
structure Session where
  id : ℕ
  encoding : Encoding

section

variable {serde : Serde} (env : CommandEnv)

def respond (path : List Name) (w : Watch) (response : Value) : Cmd serde Value := do
  modify fun σ => σ.setRoot path w
  return response

/-! ## Watching -/

/-- `arg_path` -/
def argPath (args : List Value) : Except CommandError String :=
  orBadArgs "expected a path argument" (args.head?.bind Value.asStr)

/-- The canonical form of the path argument, which has to have one. -/
def canonicalArg (args : List Value) : Except CommandError (List Name) := do
  let path ← argPath args
  match env.canonicalize path with
  | .ok path => return path
  | .error e => throw (.internal ("canonicalize: " ++ e))

def defaultWatcherName : Platform → String
  | .macos => "fsevents"
  | .linux => "inotify"
  | .windows => "win32"
  | .other => "kqueue"

def watch (args : List Value) : Cmd serde Value := do
  let path ← canonicalArg env args
  registerRoot env path
  return obj [
    ("watch", .string (pathText path)),
    ("watcher", .string (defaultWatcherName env.platform))]

/-- `ROOT_MARKERS` -/
def rootMarkers : List String :=
  [".watchmanconfig", ".git", ".hg", ".svn", ".jj", "package.json", "Cargo.toml", "mix.exs",
    "pyproject.toml", "go.mod"]

def hasRootMarker (dir : List Name) : Bool :=
  rootMarkers.any fun m => env.pathExists (dir ++ [Utf8.bytesOf m])

/-- The loop of `resolve_project_root`, with the names of the directory from the last to the first
and those below it. -/
def markedAncestor : List Name → RelPath → Option (List Name × RelPath)
  | [], _ => none
  | name :: above, below =>
    let cur := (name :: above).reverse
    if hasRootMarker env cur then some (cur, below) else markedAncestor above (name :: below)

def resolveProjectRoot (start : List Name) : List Name × Option RelPath :=
  match markedAncestor env start.reverse [] with
  | some (root, rel) => (root, if rel = [] then none else some rel)
  | none => (start, none)

def watchProject (args : List Value) : Cmd serde Value := do
  let start ← canonicalArg env args
  let (root, relativePath) := resolveProjectRoot env start
  registerRoot env root
  return obj ([
      ("watch", .string (pathText root)),
      ("watcher", .string (defaultWatcherName env.platform))] ++
    (relativePath.map fun rel => ("relative_path", .string rel.toStringLossy)).toList)

def pathList (paths : List (List Name)) : Value := .array (paths.map fun p => .string (pathText p))

def watchList : Cmd serde Value := do
  let σ ← get
  return obj [("roots", pathList σ.listRoots)]

def watchDel (args : List Value) : Cmd serde Value := do
  let arg ← argPath args
  let path := canonical env arg
  let σ ← get
  let (σ', removed) := match path.key with
    | some key => σ.unregisterRoot key
    | none => (σ, false)
  set σ'
  return obj [("watch-del", .bool removed), ("root", .string path.text)]

def watchDelAll : Cmd serde Value := do
  let σ ← get
  let (σ', drained) := σ.drainRoots
  set σ'
  return obj [("roots", pathList drained)]

/-! ## Queries -/

/-- `result_to_pdu` -/
def resultToPdu (rootPath : String) (result : QueryResult) : Value :=
  obj [
    ("version", .string watchmanCompatVersion),
    ("clock", .string result.clock),
    ("is_fresh_instance", .bool result.isFreshInstance),
    ("files", .array result.files),
    ("root", .string rootPath)]

/-- Runs a query on the root and responds with its result. -/
def answer (r : Resolved) (w : Watch) (spec : QuerySpec) : Cmd serde Value :=
  let (result, root) := Query.run (env.query r.path) spec w.root
  respond r.path { w with root } (resultToPdu r.text result)

/-- `query`, which leaves a jj-events root as it is for the query of jj alone. -/
def query (args : List Value) : Cmd serde Value := do
  let r ← resolveRoot env "query requires a root" args
  let raw ← orBadArgs "query requires a spec object" args[1]?
  let spec ← parseSpec env.parse raw
  let w := if r.watch.root.jjEvents && !isJjFsmonitorQuery spec
    then r.watch.promoteToFull env else r.watch
  answer env r w spec

def find (args : List Value) : Cmd serde Value := do
  let r ← resolveRoot env "find requires a root" args
  let patterns := args.tail.filterMap Value.asStr
  let specObj := if patterns.isEmpty then []
    else [("glob", Value.array (patterns.map Value.string))]
  let spec ← parseSpec env.parse (.object specObj)
  answer env r (r.watch.promoteToFull env) spec

def since (args : List Value) : Cmd serde Value := do
  let r ← resolveRoot env "since requires a root" args
  let clock ← orBadArgs "since requires a clock" (args[1]?.bind Value.asStr)
  let spec ← parseSpec env.parse (.object [("since", .string clock)])
  answer env r (r.watch.promoteToFull env) spec

/-- What `find` asks for: everything, or what its patterns match. -/
theorem parseSpec_find {parse : ParseEnv} {patterns : List String}
    {globs : List (List UInt8 → Bool)} (h : patterns.mapM (Generators.buildGlob parse) = .ok globs) :
    parseSpec parse (.object (if patterns.isEmpty then []
      else [("glob", .array (patterns.map Value.string))])) = .ok (Handlers.findSpec globs) := by
  cases patterns with
  | nil =>
    cases h
    rfl
  | cons pat patterns =>
    have hgen := Generators.fromSpec_glob (Generators.asStringList_strings (pat :: patterns)) h
    have hne : globs.isEmpty = false := by
      rw [List.mapM_cons] at h
      cases hpat : Generators.buildGlob parse pat with
      | error e =>
        rw [hpat] at h
        cases h
      | ok g =>
        cases hrest : patterns.mapM (Generators.buildGlob parse) with
        | error e =>
          rw [hpat, hrest] at h
          cases h
        | ok rest =>
          rw [hpat, hrest] at h
          cases h
          rfl
    show (do
      let generators ← Generators.fromSpec parse
        [("glob", .array ((pat :: patterns).map Value.string))]
      return { everything with generators } : Except CommandError QuerySpec) = _
    rw [hgen, Handlers.findSpec, hne]
    rfl

/-- What `since` asks for. -/
theorem parseSpec_since (parse : ParseEnv) (clock : String) :
    parseSpec parse (.object [("since", .string clock)]) = .ok (Handlers.sinceSpec clock) := rfl

/-! ## Subscriptions -/

/-- `subscribe`; the session is given to the push loop. -/
def subscribe (_session : Session) (args : List Value) : Cmd serde Value := do
  let r ← resolveRoot env "subscribe requires a root" args
  let name ← orBadArgs "subscribe requires a name" (args[1]?.bind Value.asStr)
  let rawSpec ← orBadArgs "subscribe requires a query spec" args[2]?
  let spec ← parseSpec env.parse rawSpec
  let w := r.watch.promoteToFull env
  let (initial, root) := Query.run (env.query r.path) spec w.root
  respond r.path
    { w with root, subscriptions := w.subscriptions.insert name ⟨name, rawSpec⟩ }
    (obj [
      ("version", .string watchmanCompatVersion),
      ("subscribe", .string name),
      ("clock", .string initial.clock),
      ("is_fresh_instance", .bool initial.isFreshInstance),
      ("root", .string r.text),
      ("files", .array initial.files)])

def unsubscribe (args : List Value) : Cmd serde Value := do
  let r ← resolveRoot env "unsubscribe requires a root" args
  let name ← orBadArgs "unsubscribe requires a name" (args[1]?.bind Value.asStr)
  let removed := (r.watch.subscriptions.lookup name).isSome
  respond r.path { r.watch with subscriptions := r.watch.subscriptions.erase name }
    (obj [("unsubscribed", .bool removed), ("subscription", .string name)])

def flushSubscriptions (args : List Value) : Cmd serde Value := do
  let r ← resolveRoot env "flush requires a root" args
  let names := (HashMap.values r.watch.subscriptions).map fun s => Value.string s.name
  return obj [("synced", .array names)]

/-! ## The clock and asserted states -/

def clock (args : List Value) : Cmd serde Value := do
  let r ← resolveRoot env "expected a root path" args
  let root := r.watch.root.bump
  respond r.path { r.watch with root } (obj [("clock", .string (root.clock.encode root.clock.ticks))])

/-- The name of a state, bare or in an object. -/
def stateName : Value → Option String
  | .string s => some s
  | .object o => (o.lookup "name").bind Value.asStr
  | _ => none

/-- `state::parse` -/
def parseState (args : List Value) : Cmd serde (Resolved × String) := do
  let r ← resolveRoot env "expected a root path" args
  let name ← orBadArgs "expected a state name" (args[1]?.bind stateName)
  return (r, name)

def stateEnter (args : List Value) : Cmd serde Value := do
  let (r, name) ← parseState env args
  respond r.path { r.watch with assertedStates := r.watch.assertedStates.insert name () }
    (obj [("state-enter", .string name)])

def stateLeave (args : List Value) : Cmd serde Value := do
  let (r, name) ← parseState env args
  respond r.path { r.watch with assertedStates := r.watch.assertedStates.erase name }
    (obj [("state-leave", .string name)])

/-! ## Triggers -/

def parseStdin : Option Value → Option TriggerStdin
  | some (.string s) =>
    if s = "NAME_PER_LINE" then some .namePerLine
    else if s = "json" ∨ s = "JSON" then some .jsonName
    else none
  | _ => none

def parseTrigger (spec : Value) : Except CommandError Trigger := do
  let o ← orBadArgs "trigger spec must be an object" spec.asObject
  let name ← orBadArgs "trigger.name is required" ((o.lookup "name").bind Value.asStr)
  let command ← orBadArgs "trigger.command array is required"
    ((o.lookup "command").bind Value.asArray)
  return {
    name
    command := command.filterMap Value.asStr
    expression := (o.lookup "expression").getD (.string "true")
    appendFiles := ((o.lookup "append_files").bind Value.asBool).getD false
    stdin := parseStdin (o.lookup "stdin")
    maxFilesStdin := ((o.lookup "max_files_stdin").bind Value.asI64).map fun n => n.toInt.toNat }

def trigger (args : List Value) : Cmd serde Value := do
  let r ← resolveRoot env "trigger requires a root" args
  let spec ← orBadArgs "trigger requires a spec" args[1]?
  let parsed ← parseTrigger spec
  let w := if parsed.name ≠ jjBackgroundMonitor then r.watch.promoteToFull env else r.watch
  modify (installTrigger env r.path w parsed)
  return obj [("trigger", .string parsed.name)]

def stdinText : TriggerStdin → String
  | .namePerLine => "NAME_PER_LINE"
  | .jsonName => "json"

/-- `trigger_to_value` -/
def triggerToValue (t : Trigger) : Value :=
  obj ([
    ("name", .string t.name),
    ("command", .array (t.command.map Value.string)),
    ("expression", t.expression),
    ("append_files", .bool t.appendFiles)] ++
    (t.stdin.map fun s => ("stdin", .string (stdinText s))).toList ++
    (t.maxFilesStdin.map fun n => ("max_files_stdin", Info.int n)).toList)

def triggerList (args : List Value) : Cmd serde Value := do
  let r ← resolveRoot env "trigger command requires a root" args
  return obj [("triggers", .array ((HashMap.values r.watch.triggers).map triggerToValue))]

def triggerDel (args : List Value) : Cmd serde Value := do
  let r ← resolveRoot env "trigger command requires a root" args
  let name ← orBadArgs "trigger-del requires a name" (args[1]?.bind Value.asStr)
  modify (removeTrigger env r.path r.watch name)
  return obj [
    ("deleted", .bool (r.watch.triggers.lookup name).isSome),
    ("trigger", .string name)]

/-! ## Debug commands -/

/-- `debug::resolve_root` -/
def debugRoot (args : List Value) : Cmd serde Resolved :=
  resolveRoot env "debug command requires a root" args

def recrawled (w : Watch) (files : ℕ) : Value :=
  obj [
    ("recrawled", .bool true),
    ("root", .string (pathText w.root.path)),
    ("files", Info.int files)]

def recrawl (args : List Value) : Cmd serde Value := do
  let r ← debugRoot env args
  match r.watch.root.invalidateJjEvents with
  | (root, some _) => respond r.path { r.watch with root } (recrawled r.watch 0)
  | (_, none) =>
    let entries := env.scan r.watch.root
    respond r.path { r.watch with root := r.watch.root.seed entries }
      (recrawled r.watch entries.length)

def injectDrop (args : List Value) : Cmd serde Value := do
  let r ← debugRoot env args
  let (root, event) := r.watch.root.invalidateJjEvents
  respond r.path { r.watch with root } (obj [("injected", .bool event.isSome)])

/-- One root of `ageout`. -/
def prunePath (σ : DaemonState serde.File) (path : List Name) : DaemonState serde.File :=
  match σ.roots.lookup path with
  | none => σ
  | some w => σ.setRoot path { w with root := w.root.pruneTombstones.1 }

def ageout : Cmd serde Value := do
  let σ ← get
  let freed := ((HashMap.values σ.roots).map fun w => w.root.pruneTombstones.2.2).sum
  set (σ.roots.keys.foldl prunePath σ)
  return obj [("ageout", .bool true), ("files", Info.int freed)]

def showCursors (args : List Value) : Cmd serde Value := do
  let r ← debugRoot env args
  let cursors := r.watch.root.cursors.entries.map fun e =>
    ("n:" ++ e.1, Value.string (r.watch.root.clock.encode e.2))
  return obj [("cursors", .object cursors)]

def getAssertedStates (args : List Value) : Cmd serde Value := do
  let r ← debugRoot env args
  return obj [
    ("root", .string (pathText r.watch.root.path)),
    ("states", .array (r.watch.assertedStates.keys.map Value.string))]

def getSubscriptions (args : List Value) : Cmd serde Value := do
  let r ← debugRoot env args
  let subs := (HashMap.values r.watch.subscriptions).map fun s =>
    obj [("name", .string s.name), ("query", s.query)]
  return obj [("subscriptions", .array subs)]

def rootStatus (args : List Value) : Cmd serde Value := do
  let r ← debugRoot env args
  return obj [
    ("root", .string (pathText r.watch.root.path)),
    ("num_files", Info.int r.watch.root.tree.len),
    ("clock", .string (r.watch.root.clock.encode r.watch.root.clock.ticks))]

/-- `debug::status` -/
def debugStatus : Cmd serde Value := do
  let σ ← get
  return obj [("roots", pathList σ.listRoots), ("pid", Info.int env.pid.toNat)]

def watcherInfo (args : List Value) : Cmd serde Value := do
  let r ← debugRoot env args
  let name := match env.platform with
    | .macos => "fsevents"
    | .linux => "inotify"
    | .windows | .other => "kqueue"
  return obj [("root", .string (pathText r.watch.root.path)), ("watcher", .string name)]

def contenthash (args : List Value) : Cmd serde Value := do
  let r ← debugRoot env args
  return obj [("root", .string (pathText r.watch.root.path)), ("enabled", .bool true)]

end

/-! ## The table of commands -/

inductive Command where
  | getSockname | getPid | version | listCapabilities | getConfig | logLevel | log | status
  | watch | watchProject | watchList | watchDel | watchDelAll | clock
  | query | find | since
  | subscribe | unsubscribe | flushSubscriptions
  | stateEnter | stateLeave
  | trigger | triggerList | triggerDel
  | debugRecrawl | debugAgeout | debugShowCursors | debugPollForSettle | debugGetAssertedStates
  | debugGetSubscriptions | debugRootStatus | debugStatus | debugWatcherInfo
  | debugWatcherInfoClear | debugSetParallelCrawl | debugSetSubscriptionsPaused | debugContenthash
  | debugSymlinkTargetCache | debugFseventsInjectDrop | debugKqueueAndFseventsRecrawl
  | debugGcTick | debugDropPrivs | debugPoison
  | getLog | globalLogLevel | shutdownServer
  deriving DecidableEq, Repr

namespace Command

/-- The names of the commands, in the order of the source. -/
def names : List (String × Command) :=
  [("get-sockname", .getSockname), ("get-pid", .getPid), ("version", .version),
    ("list-capabilities", .listCapabilities), ("get-config", .getConfig),
    ("log-level", .logLevel), ("log", .log), ("status", .status), ("watch", .watch),
    ("watch-project", .watchProject), ("watch-list", .watchList), ("watch-del", .watchDel),
    ("watch-del-all", .watchDelAll), ("clock", .clock), ("query", .query), ("find", .find),
    ("since", .since), ("subscribe", .subscribe), ("unsubscribe", .unsubscribe),
    ("flush-subscriptions", .flushSubscriptions), ("state-enter", .stateEnter),
    ("state-leave", .stateLeave), ("trigger", .trigger), ("trigger-list", .triggerList),
    ("trigger-del", .triggerDel), ("debug-recrawl", .debugRecrawl),
    ("debug-ageout", .debugAgeout), ("debug-show-cursors", .debugShowCursors),
    ("debug-poll-for-settle", .debugPollForSettle),
    ("debug-get-asserted-states", .debugGetAssertedStates),
    ("debug-get-subscriptions", .debugGetSubscriptions),
    ("debug-root-status", .debugRootStatus), ("debug-status", .debugStatus),
    ("debug-watcher-info", .debugWatcherInfo),
    ("debug-watcher-info-clear", .debugWatcherInfoClear),
    ("debug-set-parallel-crawl", .debugSetParallelCrawl),
    ("debug-set-subscriptions-paused", .debugSetSubscriptionsPaused),
    ("debug-contenthash", .debugContenthash),
    ("debug-symlink-target-cache", .debugSymlinkTargetCache),
    ("debug-fsevents-inject-drop", .debugFseventsInjectDrop),
    ("debug-kqueue-and-fsevents-recrawl", .debugKqueueAndFseventsRecrawl),
    ("debug-gc-tick", .debugGcTick), ("debug-drop-privs", .debugDropPrivs),
    ("debug-poison", .debugPoison), ("get-log", .getLog),
    ("global-log-level", .globalLogLevel), ("shutdown-server", .shutdownServer)]

/-- What a command does. -/
def run {serde : Serde} (env : CommandEnv) (session : Session) (args : List Value) :
    Command → Cmd serde Value
  | .getSockname => return Info.getSockname env
  | .getPid => return Info.getPid env
  | .version => return Info.version env args
  | .listCapabilities => return Info.listCapabilities env
  | .getConfig => return Info.getConfig env args
  | .logLevel => return Info.logLevel
  | .log => Info.log args
  | .status => do
    let σ ← get
    return Info.status env σ
  | .watch => Dispatch.watch env args
  | .watchProject => Dispatch.watchProject env args
  | .watchList => Dispatch.watchList
  | .watchDel => Dispatch.watchDel env args
  | .watchDelAll => Dispatch.watchDelAll
  | .clock => Dispatch.clock env args
  | .query => Dispatch.query env args
  | .find => Dispatch.find env args
  | .since => Dispatch.since env args
  | .subscribe => Dispatch.subscribe env session args
  | .unsubscribe => Dispatch.unsubscribe env args
  | .flushSubscriptions => Dispatch.flushSubscriptions env args
  | .stateEnter => Dispatch.stateEnter env args
  | .stateLeave => Dispatch.stateLeave env args
  | .trigger => Dispatch.trigger env args
  | .triggerList => Dispatch.triggerList env args
  | .triggerDel => Dispatch.triggerDel env args
  | .debugRecrawl => recrawl env args
  | .debugAgeout => ageout
  | .debugShowCursors => showCursors env args
  | .debugPollForSettle => return obj [("collected", .bool true)]
  | .debugGetAssertedStates => getAssertedStates env args
  | .debugGetSubscriptions => getSubscriptions env args
  | .debugRootStatus => rootStatus env args
  | .debugStatus => Dispatch.debugStatus env
  | .debugWatcherInfo => watcherInfo env args
  | .debugWatcherInfoClear => return obj [("cleared", .bool true)]
  | .debugSetParallelCrawl => return obj [("parallel_crawl_enabled", .bool true)]
  | .debugSetSubscriptionsPaused => return obj [("paused", .bool false)]
  | .debugContenthash => contenthash env args
  | .debugSymlinkTargetCache => return obj [("entries", .array [])]
  | .debugFseventsInjectDrop => injectDrop env args
  | .debugKqueueAndFseventsRecrawl => recrawl env args
  | .debugGcTick => do
    modify (DaemonState.sweep env.sweepEnv)
    return obj [("swept", .bool true)]
  | .debugDropPrivs => throw (.badArgs
      "debug-drop-privs is refused by design — watchwoman doesn't run as root")
  | .debugPoison => throw (.badArgs "debug-poison is refused — use `shutdown-server` instead")
  | .getLog => return Info.getLog
  | .globalLogLevel => return Info.logLevel
  | .shutdownServer => do
    modify fun σ => { σ with shuttingDown := true }
    return obj [("shutdown", .bool true)]

end Command

section

variable {serde : Serde} (env : CommandEnv) (session : Session) (pdu : Value)

/-- `dispatch_inner` -/
def dispatchInner : Cmd serde Value := do
  let arr ← orBadArgs "PDU must be an array" pdu.asArray
  let name ← orBadArgs "missing command name" (arr.head?.bind Value.asStr)
  match Command.names.lookup name with
  | some command => command.run env session arr.tail
  | none => throw (.unknown name)

/-- A response with the version in front, unless it has one. -/
def withVersion : Value → Value
  | .object map =>
    if (map.lookup "version").isSome then .object map
    else .object (("version", .string watchmanCompatVersion) :: map)
  | v => v

/-- `dispatch`: the response, and the daemon after it. -/
def dispatch (σ : DaemonState serde.File) : Value × DaemonState serde.File :=
  match (dispatchInner env session pdu).exec σ with
  | (.ok v, σ') => (withVersion v, σ')
  | (.error e, σ') => (withVersion (obj [("error", .string e.display)]), σ')

end

end Watchwoman.Dispatch
