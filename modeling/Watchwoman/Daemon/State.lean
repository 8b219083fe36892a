import Watchwoman.Commands.Subscriptions
import Watchwoman.Daemon.Persistence

/-!
# The state of the daemon

`state.rs` and the parts of a `Root` that other modules do not need: the registered roots with their
subscriptions, triggers, asserted states and the times the garbage collector looks at, the log of
what it reaped, and the `triggers.json` files of the state directory.
-/

namespace Watchwoman

open Subscriptions (ReapReason deadTickThreshold)

/-- `SubscriptionSpec`, with the query as the client sent it. -/
structure SubscriptionEntry where
  name : String
  query : Value

/-- A registered root. Times are seconds since 1970. -/
structure Watch where
  root : Root
  subscriptions : HashMap String SubscriptionEntry
  triggers : HashMap String Trigger
  assertedStates : HashMap String Unit
  registeredAt : ℕ
  lastUsed : ℕ
  missingTicks : UInt32

namespace Watch

/-- `Root::new` around the index. -/
def new (root : Root) (unixNow : ℕ) : Watch where
  root := root
  subscriptions := ∅
  triggers := ∅
  assertedStates := ∅
  registeredAt := unixNow
  lastUsed := unixNow
  missingTicks := 0

def touch (unixNow : ℕ) (w : Watch) : Watch := { w with lastUsed := unixNow }

def idleSeconds (unixNow : ℕ) (w : Watch) : ℕ := unixNow - w.lastUsed

def subscriptionCount (w : Watch) : ℕ := w.subscriptions.entries.length

def triggerCount (w : Watch) : ℕ := w.triggers.entries.length

/-- `mark_missing`; the source returns the new count. -/
def markMissing (w : Watch) : Watch := { w with missingTicks := w.missingTicks + 1 }

def markPresent (w : Watch) : Watch := { w with missingTicks := 0 }

end Watch

structure ReapEvent where
  path : List Name
  reason : ReapReason
  atUnix : ℕ
  deriving DecidableEq

def reapLogCapacity : ℕ := 64

structure DaemonState (File : Type) where
  roots : HashMap (List Name) Watch
  rootCounter : ℕ
  reapLog : List ReapEvent
  shuttingDown : Bool
  /-- Each `triggers.json` by the name of its directory. -/
  files : String → Option File

namespace DaemonState

variable {File : Type}

def setRoot (σ : DaemonState File) (path : List Name) (w : Watch) : DaemonState File :=
  { σ with roots := σ.roots.insert path w }

/-- `log_reap` -/
def logReap (σ : DaemonState File) (event : ReapEvent) : DaemonState File :=
  let log := if σ.reapLog.length = reapLogCapacity then σ.reapLog.tail else σ.reapLog
  { σ with reapLog := log ++ [event] }

/-- `unregister_root`: the daemon after it and whether the root was registered. -/
def unregisterRoot (σ : DaemonState File) (path : List Name) : DaemonState File × Bool :=
  ({ σ with roots := σ.roots.erase path }, (σ.roots.lookup path).isSome)

/-- `list_roots` -/
def listRoots (σ : DaemonState File) : List (List Name) := σ.roots.keys

/-- `drain_roots`: the daemon after it and the roots that were removed. -/
def drainRoots (σ : DaemonState File) : DaemonState File × List (List Name) :=
  ({ σ with roots := ∅ }, σ.listRoots)

/-! ## The garbage collector -/

/-- What a sweep finds outside of the daemon. -/
structure SweepEnv where
  /-- `stale_idle_secs` -/
  staleIdleSecs : ℕ
  unixNow : ℕ
  isDir : List Name → Bool

/-- The root counts as stale in the sweep. -/
def Stale (s : SweepEnv) (w : Watch) : Prop :=
  0 < s.staleIdleSecs ∧ w.subscriptionCount = 0 ∧ w.triggerCount = 0 ∧
    s.staleIdleSecs ≤ w.idleSeconds s.unixNow

instance (s : SweepEnv) (w : Watch) : Decidable (Stale s w) :=
  inferInstanceAs (Decidable (_ ∧ _ ∧ _ ∧ _))

/-- What a sweep does to a root: the root after it, and the reason to reap it. -/
def examine (s : SweepEnv) (path : List Name) (w : Watch) : Watch × Option ReapReason :=
  if s.isDir path then
    if Stale s w.markPresent then (w.markPresent, some .stale)
    else ({ w.markPresent with root := w.root.pruneTombstones.1 }, none)
  else
    (w.markMissing,
      if deadTickThreshold ≤ w.markMissing.missingTicks.toNat then some .dead else none)

/-- `reap` -/
def reap (s : SweepEnv) (σ : DaemonState File) (path : List Name) (reason : ReapReason) :
    DaemonState File :=
  match σ.unregisterRoot path with
  | (_, false) => σ
  | (σ, true) => σ.logReap ⟨path, reason, s.unixNow⟩

/-- The loop of `sweep` for one path. -/
def sweepPath (s : SweepEnv) (σ : DaemonState File) (path : List Name) : DaemonState File :=
  match σ.roots.lookup path with
  | none => σ
  | some w =>
    match examine s path w with
    | (w, none) => σ.setRoot path w
    | (w, some reason) => reap s (σ.setRoot path w) path reason

/-- `sweep` -/
def sweep (s : SweepEnv) (σ : DaemonState File) : DaemonState File :=
  σ.roots.keys.foldl (sweepPath s) σ

end DaemonState

end Watchwoman
