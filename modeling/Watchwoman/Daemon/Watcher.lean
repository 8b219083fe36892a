import Watchwoman.Daemon.Crawl
import Watchwoman.Lib.LastWrite

/-!
# The watcher of a root

`watcher.rs`, `register_root` and `promote_to_full` on a disk that other processes change.
`register_root` crawls a full-index root and seeds the tree, and attaches the watch afterwards; the
event loop drains the channel, takes the mode lock, interprets each event by a look at the disk and
applies the batch. A promotion crawls under the mode lock, while events pile up behind it.

The channel and the batches are a sequence of writes to each path, of which the last one decides.
Once the watch is attached, every path that has changed has an event on the way, and the last event
of a path that is gone does not claim it is there; so the tree is right about every path that nothing
on the way is about. Two things break this. What changes between the crawl of a registration and its
watch has no event (`early_change_lost`), and a directory that becomes a link under the crawl leaves
paths in the tree that no event will ever name (`linked_directory_stays`). Without these the tree
converges to the disk (`registration_converges`, `promotion_converges`).
-/

namespace Watchwoman.Watcher

open Transition LastWrite

/-! ## Events -/

/-- `notify::EventKind`; of the accesses, only the close of a file opened for writing matters. -/
inductive EventKind where
  | any
  | access (closeWrite : Bool)
  | create
  | modify
  | remove
  | other
  deriving DecidableEq, Repr

/-- `notify::Event`, with absolute paths. -/
structure Event where
  kind : EventKind
  paths : List (List Name)
  needRescan : Bool
  deriving DecidableEq, Repr

/-- `notify::Result<Event>` -/
inductive Notice where
  | error
  | event (ev : Event)
  deriving DecidableEq, Repr

def gitignore : Name := Utf8.bytesOf ".gitignore"

/-- `is_jj_internal` -/
def isJjInternal (rel : RelPath) : Bool :=
  rel.head?.any fun n => n == Utf8.bytesOf ".git" || n == Utf8.bytesOf ".jj"

/-- The rules that hold for a directory: those of the innermost directory that has one decide.
`matched` is what the ignore file of a directory says of a directory below it. -/
def ignoredBy (matched : RelPath → RelPath → Option Bool) (ancestors : List RelPath)
    (dir : RelPath) : Bool :=
  ancestors.foldl (fun ignored a => (matched a dir).getD ignored) false

/-- The loop of `ignored_directory` over the names that are left. -/
def ignoredBelow (matched : RelPath → RelPath → Option Bool) (targetIsDir : Bool) :
    List RelPath → RelPath → List Name → Option RelPath
  | _, _, [] => none
  | ancestors, above, n :: rest =>
    if rest = [] ∧ targetIsDir = false then none
    else if ignoredBy matched ancestors (above ++ [n]) then some (above ++ [n])
    else ignoredBelow matched targetIsDir (ancestors ++ [above ++ [n]]) (above ++ [n]) rest

/-- `JjScope::ignored_directory`: the outermost ignored directory on the path. -/
def ignoredDirectory (matched : RelPath → RelPath → Option Bool) (rel : RelPath)
    (targetIsDir : Bool) : Option RelPath :=
  ignoredBelow matched targetIsDir [[]] [] rel

/-- The change for a path that is not filtered out: what a look at the disk says, unless the event
is a removal. -/
def changeOf (d : Disk) (kind : EventKind) (rel : RelPath) (target : Option String) : PathChange :=
  if kind = .remove then .remove rel
  else
    match d.lstat rel with
    | none => .remove rel
    | some md => .upsert rel md (Crawl.linkTarget md target)

/-- What the loop of `collect_event` does for one path: the root, which it may invalidate, and the
batch. -/
def collectPath (d : Disk) (matched : RelPath → RelPath → Option Bool) (target : Option String)
    (jj : Bool) (kind : EventKind) (abs : List Name) (root : Root) (out : List PathChange) :
    Root × List PathChange :=
  match abs.dropPrefix? root.path with
  | none => (root, out)
  | some rel =>
    if rel = [] then (root, out)
    else if (jj = true ∧ isJjInternal rel = true) ∨
        (jj = false ∧ shouldIgnore rel root.ignores = true) then (root, out)
    else
      let isDir := (d.lstat rel).any (·.kind == .dir) || kind == .remove
      match if jj then ignoredDirectory matched rel isDir else none with
      | some ignored =>
        (root, out ++ (if ignored = rel ∧ kind = .remove then [.remove rel] else []) ++
          [.signal (ignored ++ [gitignore])])
      | none =>
        if jj = true ∧ RelPath.fileName rel = some gitignore then (root.invalidateJjEvents.1, [])
        else (root, out ++ [changeOf d kind rel target])

/-- The event is the opening or reading of a file. -/
def Event.IsRead (ev : Event) : Prop := ev.kind = .access false

instance (ev : Event) : Decidable ev.IsRead := inferInstanceAs (Decidable (_ = _))

/-- One step of the loop over the drained events: a whole event that is dropped, or one path of the
first. -/
def collect (d : Disk) (matched : RelPath → RelPath → Option Bool) (target : Option String)
    (jj : Bool) (root : Root) (out : List PathChange) :
    List Notice → Root × List PathChange × List Notice
  | [] => (root, out, [])
  | .error :: rest =>
    if root.jjEvents then (root.invalidateJjEvents.1, [], rest) else (root, out, rest)
  | .event ev :: rest =>
    if ev.needRescan = true ∧ root.jjEvents = true then (root.invalidateJjEvents.1, [], rest)
    else if ev.IsRead then (root, out, rest)
    else
      match ev.paths with
      | [] => (root, out, rest)
      | abs :: paths =>
        let (root, out) := collectPath d matched target jj ev.kind abs root out
        (root, out, .event { ev with paths } :: rest)

/-- The path below the root that an event of a full-index root is about, if it is not filtered
out. -/
def relevant (root : Root) (abs : List Name) : Option RelPath :=
  (abs.dropPrefix? root.path).filter fun rel => decide (rel ≠ []) && !shouldIgnore rel root.ignores

/-- The path that a step of the loop stats in full mode. -/
def statted (root : Root) : List Notice → Option RelPath
  | .event ⟨kind, abs :: _, _⟩ :: _ =>
    if kind = .remove ∨ kind = .access false then none else relevant root abs
  | _ => none

/-! ## The system -/

/-- How far `register_root` is. -/
inductive Stage where
  | new
  | scanning
  | seeded
  | attached
  deriving DecidableEq, Repr

def maxBatch : ℕ := 1024

/-- The event loop, without and with the mode lock. -/
inductive Loop where
  | waiting (events : List Notice)
  | collecting (jj : Bool) (events : List Notice) (batch : List PathChange)

/-- The drained events that are not interpreted yet. -/
def Loop.events : Loop → List Notice
  | .waiting events => events
  | .collecting _ events _ => events

/-- The changes that are not applied yet. -/
def Loop.batch : Loop → List PathChange
  | .waiting _ => []
  | .collecting _ _ batch => batch

structure State where
  disk : Disk
  stage : Stage
  root : Root
  crawl : Option Crawl
  queue : List Notice
  loop : Loop

/-- Everything the event loop has still to interpret, in order. -/
def State.coming (σ : State) : List Notice := σ.loop.events ++ σ.queue

theorem State.coming_of_loop {σ : State} {loop : Loop} (h : σ.loop = loop) :
    σ.coming = loop.events ++ σ.queue := by
  rw [State.coming, h]

/-- The kind and the path of each thing the events say, reads aside. -/
def notes (events : List Notice) : List (EventKind × List Name) :=
  events.flatMap fun
    | .error => []
    | .event ev => if ev.IsRead then [] else ev.paths.map fun p => (ev.kind, p)

/-- The kind of the last event about a path. -/
def lastNote (root : List Name) (p : RelPath) (events : List Notice) : Option EventKind :=
  lastSome? (fun note => if note.2 = root ++ p then some note.1 else none) (notes events)

/-- The events are about every path that was created, modified or removed, and the last one about a
path is a removal only if the path is gone. -/
structure Reports (root : List Name) (d d' : Disk) (events : List Notice) : Prop where
  named : ∀ p, lastNote root p events = none →
    (d'.OnDisk p ↔ d.OnDisk p) ∧ (d.OnDisk p → d'.lstat p = d.lstat p)
  removed : ∀ p, lastNote root p events = some .remove → ¬ d'.OnDisk p

/-- One step of another process, of `register_root`, of the event loop, of `promote_to_full`, of the
clock or of a sweep, with the path that is statted in it. A promotion holds the mode lock and the
tree lock through its crawl; `matched` and `target` are what ignore files and `read_link` say. -/
inductive Step : Option RelPath → State → State → Prop
  | mutate (d' : Disk) {σ : State} (hstage : σ.stage ≠ .attached) :
    Step none σ { σ with disk := d' }
  | mutateWatched (d' : Disk) (events : List Notice) {σ : State} (hstage : σ.stage = .attached)
    (hreports : Reports σ.root.path σ.disk d' events) :
    Step none σ { σ with disk := d', queue := σ.queue ++ events }
  | scan {σ : State} (hstage : σ.stage = .new) (hfull : σ.root.jjEvents = false) :
    Step none σ { σ with stage := .scanning, crawl := some Crawl.start }
  | seed {σ : State} {out : List ScanEntry} (hstage : σ.stage = .scanning)
    (hcrawl : σ.crawl = some ⟨[], out⟩) :
    Step none σ { σ with stage := .seeded, crawl := none, root := σ.root.seed out }
  | seedEmpty {σ : State} (hstage : σ.stage = .new) (hjj : σ.root.jjEvents = true) :
    Step none σ { σ with stage := .seeded, root := σ.root.seed [] }
  | attach {σ : State} (hstage : σ.stage = .seeded) : Step none σ { σ with stage := .attached }
  | crawl {look : Option RelPath} {σ : State} {cr cr' : Crawl} (hcrawl : σ.crawl = some cr)
    (hstep : Crawl.Step σ.root.ignores σ.disk look cr cr') :
    Step look σ { σ with crawl := some cr' }
  | receive {σ : State} {events queue : List Notice} {notice : Notice}
    (hloop : σ.loop = .waiting events) (hqueue : σ.queue = notice :: queue)
    (hmax : events.length < maxBatch) :
    Step none σ { σ with loop := .waiting (events ++ [notice]), queue := queue }
  | lock {σ : State} {events : List Notice} (hloop : σ.loop = .waiting events)
    (hne : events ≠ []) (hcrawl : σ.crawl = none) :
    Step none σ { σ with loop := .collecting σ.root.jjEvents events [] }
  | collect (matched : RelPath → RelPath → Option Bool) (target : Option String) {σ : State}
    {jj : Bool} {events : List Notice} {batch : List PathChange}
    (hloop : σ.loop = .collecting jj events batch) (hne : events ≠ []) :
    Step (if jj then none else statted σ.root events) σ { σ with
      root := (collect σ.disk matched target jj σ.root batch events).1
      loop := .collecting jj (collect σ.disk matched target jj σ.root batch events).2.2
        (collect σ.disk matched target jj σ.root batch events).2.1 }
  | apply (arenaBytes : ℕ) {σ : State} {jj : Bool} {batch : List PathChange}
    (hloop : σ.loop = .collecting jj [] batch) :
    Step none σ { σ with
      root := if batch = [] then σ.root else (σ.root.applyChanges arenaBytes batch).1
      loop := .waiting [] }
  | beginPromotion {σ : State} {events : List Notice} (hstage : σ.stage = .attached)
    (hjj : σ.root.jjEvents = true) (hcrawl : σ.crawl = none) (hloop : σ.loop = .waiting events) :
    Step none σ { σ with crawl := some Crawl.start }
  | promote {σ : State} {out : List ScanEntry} (hstage : σ.stage = .attached)
    (hcrawl : σ.crawl = some ⟨[], out⟩) :
    Step none σ { σ with crawl := none, root := σ.root.promoteToFull out }
  | bump {σ : State} : Step none σ { σ with root := σ.root.bump }
  | sweep {σ : State} (hcrawl : σ.crawl = none) :
    Step none σ { σ with root := σ.root.pruneTombstones.1 }

/-- A root as `register_root` starts with it. -/
structure Start (σ : State) : Prop where
  root : ∃ path ignores jj number start pid, σ.root = Root.new path ignores jj number start pid
  stage : σ.stage = .new
  crawl : σ.crawl = none
  queue : σ.queue = []
  loop : σ.loop = .waiting []

/-- Every event was interpreted and applied. -/
def Drained (σ : State) : Prop := σ.queue = [] ∧ σ.loop = .waiting []

/-- The live entries are the paths of the disk that are not ignored. -/
def Converged (σ : State) : Prop :=
  ∀ p, σ.root.tree.Live p ↔ σ.disk.OnDisk p ∧ shouldIgnore p σ.root.ignores = false

/-- No event on the way is about the path. -/
def Quiet (σ : State) (p : RelPath) : Prop := lastNote σ.root.path p σ.coming = none

/-- A step that finds no path through a link, unless an event about that path is on the way. -/
def DirectStep (σ σ' : State) : Prop :=
  ∃ look, Step look σ σ' ∧
    ∀ p ∈ look, Quiet σ' p → σ.disk.lstat p ≠ none → σ.disk.Direct p

/-- A full-index root whose registration is between the start of its crawl and its watch. -/
def Registering (σ : State) : Prop :=
  (σ.stage = .scanning ∨ σ.stage = .seeded) ∧ σ.root.jjEvents = false

/-- While a full-index root is being registered, no visible path is created or removed that the
crawl has passed. -/
def NoChangeBehindCrawl (σ σ' : State) : Prop :=
  Registering σ → ∀ p, shouldIgnore p σ.root.ignores = false →
    (∀ cr ∈ σ.crawl, ¬ cr.Unseen p) → (σ'.disk.OnDisk p ↔ σ.disk.OnDisk p)

end Watchwoman.Watcher
