import Watchwoman.Daemon.JjEvents
import Watchwoman.Daemon.Polling
import Watchwoman.Daemon.Promotion
import Watchwoman.Query.RelativeRoot

/-!
# The snapshots of jj

What the jj-events mode is for. jj keeps what it read of each path and the clock of the last answer.
It asks for what has changed since, and reads again what the answer names; after a fresh answer it
reads everything. Other processes change the disk at any time, also while it reads.

The way of a change is long: an event on the channel, a change of a batch, an entry of the index, a
row of an answer, a path to be read. Every path that jj is wrong about is on this way
(`snapshot_accounted`), whatever the watcher loses as long as it says so; and once nothing is, jj
knows the disk (`snapshot_catches_up`).
-/

namespace Watchwoman.JjSnapshot

open Transition Query Watcher
open JjEvents (Covers Kept Served Later Names Fails Visible Collected Batch)

/-! ## jj -/

open Classical in
/-- What is at a path of the directory tree. -/
noncomputable def contents (d : Disk) (p : RelPath) : Option Metadata :=
  if d.OnDisk p then d.lstat p else none

/-- An answer names the path. -/
def Told (answer : QueryResult) (q : RelPath) : Prop :=
  ∃ row ∈ answer.files, Field.read .name row = some (.string q.toStringLossy)

/-- What jj has to read after an answer: everything if it is fresh, else each path that it names,
and all of a directory whose ignore file it names. -/
def changed (answer : QueryResult) : Set RelPath :=
  {p | answer.isFreshInstance = true ∨ ∃ q, Covers q p ∧ Told answer q}

/-- What jj believes, the clock of the last answer, and what it has still to read. -/
structure Jj where
  snapshot : RelPath → Option Metadata
  clock : Option String
  due : Set RelPath

/-- jj's query; the first has no clock. -/
structure Asks (spec : QuerySpec) (clock : Option String) : Prop where
  name_mem : .name ∈ spec.fields
  first : clock = none → spec.since = none
  again : ∀ c, clock = some c → AsksForJj spec c

def Jj.hear (jj : Jj) (answer : QueryResult) : Jj :=
  { jj with clock := some answer.clock, due := changed answer }

open Classical in
noncomputable def Jj.read (jj : Jj) (d : Disk) (S : Set RelPath) : Jj :=
  { jj with snapshot := S.piecewise (contents d) jj.snapshot, due := jj.due \ S }

/-! ## The system with jj -/

structure State where
  system : Watcher.State
  jj : Jj

/-- One step of the system, of another client, or of jj. When the watcher loses events, it reports
an error or asks for a rescan. -/
inductive Step : State → State → Prop
  | system {look : Option RelPath} {σ σ' : Watcher.State} (jj : Jj) (hs : Watcher.Step look σ σ') :
    Step ⟨σ, jj⟩ ⟨σ', jj⟩
  | overflow (d' : Disk) (events : List Notice) {σ : Watcher.State} (jj : Jj)
    (hstage : σ.stage = .attached) (hfails : ∃ n ∈ events, Fails n) :
    Step ⟨σ, jj⟩ ⟨{ σ with disk := d', queue := σ.queue ++ events }, jj⟩
  | query (env : Env) (spec : QuerySpec) (σ : Watcher.State) (jj : Jj) :
    Step ⟨σ, jj⟩ ⟨{ σ with root := (run env spec σ.root).2 }, jj⟩
  | poll (env : Env) {spec : QuerySpec} {σ : Watcher.State} {jj : Jj}
    (hstage : σ.stage = .attached) (hdue : jj.due = ∅) (hasks : Asks spec jj.clock) :
    Step ⟨σ, jj⟩ ⟨{ σ with root := (run env spec σ.root).2 }, jj.hear (run env spec σ.root).1⟩
  | read (S : Set RelPath) (σ : Watcher.State) (jj : Jj) :
    Step ⟨σ, jj⟩ ⟨σ, jj.read σ.disk S⟩

/-- A jj-events root about to be registered, and a jj that knows nothing. -/
structure Start (x : State) : Prop where
  system : Watcher.Start x.system
  clock : x.jj.clock = none
  due : x.jj.due = ∅

/-- An event about the path, or one that says that some were lost, is on the way to the index, or a
change that covers the path is on the way to it or in it, and is younger than the clock. -/
def OnItsWay (t : ℕ) (p : RelPath) (σ : Watcher.State) : Prop :=
  Names σ.coming (σ.root.path ++ p) ∨ (∃ n ∈ σ.coming, Fails n) ∨
    (∃ c ∈ σ.loop.batch, Covers c.rel p) ∨ ∃ q, Covers q p ∧ Kept t q σ.root

/-- The root is still in jj-events mode, and its clock has not run over. -/
def Serving (r : Root) : Prop := r.jjEvents = true ∧ r.clock.ticks < 2 ^ 64

/-- jj has a clock of tick `t`, and what it is wrong about is on its way or about to be read. -/
structure Accounted (t : ℕ) (x : State) : Prop where
  le_ticks : t ≤ x.system.root.clock.ticks
  clock : x.jj.clock = some (x.system.root.clock.encode t)
  path : Serving x.system.root → ∀ p, p ≠ [] → Visible p →
    x.jj.snapshot p = contents x.system.disk p ∨ p ∈ x.jj.due ∨ OnItsWay t p x.system

structure Inv (x : State) : Prop where
  unwatched : x.system.stage ≠ .attached →
    x.system.queue = [] ∧ x.system.loop = .waiting [] ∧ x.jj.clock = none
  locked : ∀ jj events batch, x.system.loop = .collecting jj events batch →
    jj = x.system.root.jjEvents ∧ x.system.crawl = none
  ticked : x.system.root.WellTicked
  accounted : x.jj.clock = none ∨ ∃ t, Accounted t x

/-! ## What is on its way stays on its way -/

section Way

variable {t : ℕ} {p : RelPath} {σ σ' : Watcher.State}

theorem contents_congr {d d' : Disk} (hon : d'.OnDisk p ↔ d.OnDisk p)
    (hsame : d.OnDisk p → d'.lstat p = d.lstat p) : contents d' p = contents d p := by
  unfold contents
  by_cases h : d.OnDisk p
  · rw [if_pos h, if_pos (hon.mpr h), hsame h]
  · rw [if_neg h, if_neg (mt hon.mp h)]

theorem names_of_lastNote {root : List Name} {events : List Notice}
    (h : lastNote root p events ≠ none) : Names events (root ++ p) := by
  obtain ⟨kind, hkind⟩ := Option.ne_none_iff_exists'.mp h
  obtain ⟨note, hnote, hwrite⟩ := LastWrite.exists_of_lastSome? hkind
  obtain ⟨n, hn, hmem⟩ := List.mem_flatMap.mp hnote
  split_ifs at hwrite with hpath
  cases n with
  | error => cases hmem
  | event ev =>
    dsimp only at hmem
    split_ifs at hmem with hread
    · cases hmem
    · obtain ⟨abs, habs, rfl⟩ := List.mem_map.mp hmem
      exact ⟨ev, hn, hread, hpath ▸ habs⟩

theorem contents_or_names {root : List Name} {d d' : Disk} {events : List Notice}
    (h : Reports root d d' events) (p : RelPath) :
    contents d' p = contents d p ∨ Names events (root ++ p) := by
  by_cases hnote : lastNote root p events = none
  · obtain ⟨hon, hsame⟩ := h.named p hnote
    exact .inl (contents_congr hon hsame)
  · exact .inr (names_of_lastNote hnote)

theorem OnItsWay.keep (h : OnItsWay t p σ) (hpath : σ'.root.path = σ.root.path)
    (hcoming : ∀ n ∈ σ.coming, n ∈ σ'.coming) (hbatch : ∀ c ∈ σ.loop.batch, c ∈ σ'.loop.batch)
    (hkept : ∀ q, Kept t q σ.root → Kept t q σ'.root) : OnItsWay t p σ' := by
  rcases h with ⟨ev, hev, hnames⟩ | ⟨n, hn, hfails⟩ | ⟨c, hc, hcovers⟩ | ⟨q, hcovers, hq⟩
  · exact .inl ⟨ev, hcoming _ hev, by rw [hpath]; exact hnames⟩
  · exact .inr (.inl ⟨n, hcoming n hn, hfails⟩)
  · exact .inr (.inr (.inl ⟨c, hbatch c hc, hcovers⟩))
  · exact .inr (.inr (.inr ⟨q, hcovers, hkept q hq⟩))

theorem onItsWay_of_collected {r : Root} {out : List PathChange} {events : List Notice}
    {jj : Bool} (h : Collected t p ⟨r, out, events⟩) (hroot : σ.root = r)
    (hloop : σ.loop = .collecting jj events out) : OnItsWay t p σ := by
  rcases h with hold | ⟨c, hc, hcovers⟩
  · refine .inr (.inr (.inr ⟨p, .inl rfl, .inl ?_⟩))
    rw [hroot]
    exact hold
  · refine .inr (.inr (.inl ⟨c, ?_, hcovers⟩))
    rw [hloop]
    exact hc

/-- One step of the loop over the events: what they name and what is collected of it stay so. -/
theorem collected_collect {r : Root} {out : List PathChange} {events : List Notice}
    (hjj : r.jjEvents = true) (ht : t ≤ r.clock.ticks) (hp : JjEvents.Wanted p)
    (h : Names events (r.path ++ p) ∨ Collected t p ⟨r, out, events⟩) (d : Disk)
    (matched : RelPath → RelPath → Option Bool) (target : Option String) :
    Names (collect d matched target true r out events).2.2 (r.path ++ p) ∨
      Collected t p ⟨(collect d matched target true r out events).1,
        (collect d matched target true r out events).2.1,
        (collect d matched target true r out events).2.2⟩ := by
  have hinv : JjEvents.Inv t ⟨r, [], [.event ⟨.modify, [r.path ++ p], false⟩]⟩
      ⟨r, out, events⟩ := by
    refine ⟨hjj, rfl, .refl _, ht, ?_, ?_⟩
    · rintro p' - ⟨ev, hev, -, hmem⟩
      obtain rfl := Notice.event.inj (List.mem_singleton.mp hev)
      rw [List.append_cancel_left (List.mem_singleton.mp hmem)]
      exact h
    · rintro ⟨n, hn, hfails⟩
      rw [List.mem_singleton.mp hn] at hfails
      cases hfails
  exact (hinv.collect d matched target).named p hp
    ⟨_, List.mem_singleton_self _, by simp [Event.IsRead], List.mem_singleton_self _⟩

theorem fails_collect {r : Root} {out : List PathChange} {events : List Notice}
    (hjj : r.jjEvents = true) (ht : t ≤ r.clock.ticks) (h : ∃ n ∈ events, Fails n) (d : Disk)
    (matched : RelPath → RelPath → Option Bool) (target : Option String) :
    (∃ n ∈ (collect d matched target true r out events).2.2, Fails n) ∨
      t < (collect d matched target true r out events).1.oldestAvailableTick := by
  have hinv : JjEvents.Inv t ⟨r, [], [.error]⟩ ⟨r, out, events⟩ := by
    refine ⟨hjj, rfl, .refl _, ht, ?_, fun _ => .inl h⟩
    rintro p' - ⟨ev, hev, -⟩
    cases List.mem_singleton.mp hev
  exact (hinv.collect d matched target).fails ⟨.error, List.mem_singleton_self _, trivial⟩

/-- Under the watch each step does to the root what happens to registered roots. -/
theorem served_of_step {look : Option RelPath} (env : Env) (hs : Watcher.Step look σ σ')
    (hattached : σ.stage = .attached) : σ'.root = σ.root ∨ Served env σ.root σ'.root := by
  have hunattached : ∀ {s : Stage}, σ.stage = s → s ≠ .attached → False :=
    fun h hne => hne (h.symm.trans hattached)
  cases hs with
  | seed hstage hcrawl => exact (hunattached hstage (by simp)).elim
  | seedEmpty hstage hjj => exact (hunattached hstage (by simp)).elim
  | @collect matched target _ jj events batch hloop hne =>
    rcases root_collect σ.disk matched target jj σ.root batch events with hsame | hdropped
    · exact .inl hsame
    · right
      show Served env σ.root (Watcher.collect σ.disk matched target jj σ.root batch events).1
      rw [hdropped]
      exact .invalidate _
  | @apply arenaBytes _ jj batch hloop =>
    by_cases hempty : batch = []
    · exact .inl (if_pos hempty)
    · right
      show Served env σ.root (if batch = [] then σ.root else _)
      rw [if_neg hempty]
      exact .batch arenaBytes batch σ.root
  | promote hstage hcrawl => exact .inr (.promote _ _)
  | bump => exact .inr (.bump _)
  | sweep hcrawl => exact .inr (.sweep _)
  | _ => exact .inl rfl

/-- A step of the event loop that interprets an event. -/
theorem OnItsWay.collect {events : List Notice} {batch : List PathChange} (h : OnItsWay t p σ)
    (hloop : σ.loop = .collecting true events batch) (hjj : σ.root.jjEvents = true)
    (ht : t ≤ σ.root.clock.ticks) (hp : JjEvents.Wanted p) {d : Disk}
    {matched : RelPath → RelPath → Option Bool} {target : Option String}
    (hroot : σ'.root = (collect d matched target true σ.root batch events).1)
    (hloop' : σ'.loop = .collecting true (collect d matched target true σ.root batch events).2.2
      (collect d matched target true σ.root batch events).2.1)
    (hqueue : σ'.queue = σ.queue) : OnItsWay t p σ' := by
  have hpath : σ'.root.path = σ.root.path := by
    rw [hroot]
    exact (collect_site ..).path
  have hcoming : ∀ {n : Notice}, n ∈ σ'.loop.events ∨ n ∈ σ.queue → n ∈ σ'.coming := by
    intro n hn
    rw [State.coming, hqueue]
    exact List.mem_append.mpr hn
  have hnamed : Names events (σ.root.path ++ p) ∨ Collected t p ⟨σ.root, batch, events⟩ →
      OnItsWay t p σ' := by
    intro hpending
    rcases collected_collect hjj ht hp hpending d matched target with ⟨ev, hev, hnames⟩ | hcollected
    · refine .inl ⟨ev, hcoming (.inl ?_), by rw [hpath]; exact hnames⟩
      rw [hloop']
      exact hev
    · exact onItsWay_of_collected hcollected hroot hloop'
  have hsplit : ∀ {n : Notice}, n ∈ σ.coming → n ∈ events ∨ n ∈ σ.queue := by
    intro n hn
    rw [State.coming_of_loop hloop] at hn
    exact List.mem_append.mp hn
  rcases h with ⟨ev, hev, hnames⟩ | ⟨n, hn, hfails⟩ | ⟨c, hc, hcovers⟩ | ⟨q, hcovers, hq⟩
  · rcases hsplit hev with hhere | hqueued
    · exact hnamed (.inl ⟨ev, hhere, hnames⟩)
    · exact .inl ⟨ev, hcoming (.inr hqueued), by rw [hpath]; exact hnames⟩
  · rcases hsplit hn with hhere | hqueued
    · rcases fails_collect hjj ht ⟨n, hhere, hfails⟩ d matched target with ⟨n', hn', hfails'⟩ | hold
      · refine .inr (.inl ⟨n', hcoming (.inl ?_), hfails'⟩)
        rw [hloop']
        exact hn'
      · exact onItsWay_of_collected (.inl hold) hroot hloop'
    · exact .inr (.inl ⟨n, hcoming (.inr hqueued), hfails⟩)
  · rw [hloop] at hc
    exact hnamed (.inr (.inr ⟨c, hc, hcovers⟩))
  · refine .inr (.inr (.inr ⟨q, hcovers, ?_⟩))
    rw [hroot]
    rcases root_collect d matched target true σ.root batch events with hsame | hdropped
    · rw [hsame]
      exact hq
    · rw [hdropped]
      exact hq.served ht (@Served.invalidate emptyEnv _)

/-- A step of the event loop that applies what it has collected. -/
theorem OnItsWay.apply {jj : Bool} {batch : List PathChange} (h : OnItsWay t p σ)
    (hloop : σ.loop = .collecting jj [] batch) (hjj : σ.root.jjEvents = true)
    (ht : t ≤ σ.root.clock.ticks) (arenaBytes : ℕ)
    (hroot : σ'.root = Batch.applied arenaBytes ⟨σ.root, batch, []⟩)
    (hqueue : σ'.coming = σ.queue) (hkept : ∀ q, Kept t q σ.root → Kept t q σ'.root) :
    OnItsWay t p σ' := by
  have hpath : σ'.root.path = σ.root.path := by
    rw [hroot]
    exact (JjEvents.later_applied arenaBytes).path
  have hcoming : σ.coming = σ.queue := State.coming_of_loop hloop
  rcases h with ⟨ev, hev, hnames⟩ | ⟨n, hn, hfails⟩ | ⟨c, hc, hcovers⟩ | ⟨q, hcovers, hq⟩
  · refine .inl ⟨ev, ?_, by rw [hpath]; exact hnames⟩
    rw [hqueue, ← hcoming]
    exact hev
  · refine .inr (.inl ⟨n, ?_, hfails⟩)
    rw [hqueue, ← hcoming]
    exact hn
  · rw [hloop] at hc
    obtain ⟨q, hq, hkept'⟩ :=
      JjEvents.kept_applied (b := ⟨σ.root, batch, []⟩) arenaBytes hjj ht (.inr ⟨c, hc, hcovers⟩)
    refine .inr (.inr (.inr ⟨q, hq, ?_⟩))
    rw [hroot]
    exact hkept'
  · exact .inr (.inr (.inr ⟨q, hcovers, hkept q hq⟩))

/-- No step of the watched system loses what is on its way. -/
theorem OnItsWay.step {look : Option RelPath} (h : OnItsWay t p σ) (hs : Watcher.Step look σ σ')
    (hattached : σ.stage = .attached) (hjj : σ.root.jjEvents = true)
    (hlocked : ∀ jj events batch, σ.loop = .collecting jj events batch → jj = σ.root.jjEvents)
    (ht : t ≤ σ.root.clock.ticks) (hp : JjEvents.Wanted p) : OnItsWay t p σ' := by
  have hkept : ∀ q, Kept t q σ.root → Kept t q σ'.root := by
    intro q hq
    rcases served_of_step emptyEnv hs hattached with hsame | hserved
    · rw [hsame]
      exact hq
    · exact hq.served ht hserved
  have hpath : σ'.root.path = σ.root.path := by
    rcases served_of_step emptyEnv hs hattached with hsame | hserved
    · rw [hsame]
    · exact hserved.later.path
  cases hs with
  | mutateWatched d' events hstage hreports =>
    refine h.keep rfl (fun n hn => ?_) (fun _ => id) hkept
    show n ∈ σ.loop.events ++ (σ.queue ++ events)
    rw [← List.append_assoc]
    exact List.mem_append_left _ hn
  | @receive _ events queue notice hloop hqueue hmax =>
    refine h.keep rfl (fun n hn => ?_) ?_ hkept
    · rw [State.coming_of_loop hloop, hqueue] at hn
      show n ∈ (events ++ [notice]) ++ queue
      rw [List.append_assoc]
      exact hn
    · intro c hc
      rw [hloop] at hc
      cases hc
  | @lock _ events hloop hne hcrawl =>
    refine h.keep rfl (fun n hn => ?_) ?_ hkept
    · rw [State.coming_of_loop hloop] at hn
      exact hn
    · intro c hc
      rw [hloop] at hc
      cases hc
  | @collect matched target _ jj events batch hloop hne =>
    obtain rfl : jj = true := (hlocked _ _ _ hloop).trans hjj
    exact h.collect hloop hjj ht hp rfl rfl rfl
  | @apply arenaBytes _ jj batch hloop =>
    exact h.apply hloop hjj ht arenaBytes rfl rfl hkept
  | _ => exact h.keep hpath (fun _ => id) (fun _ => id) hkept

end Way

/-! ## Every step accounts for what it changes -/

theorem Serving.earlier {r r' : Root} (h : Serving r') (hlater : Later r r')
    (hmode : r'.jjEvents = r.jjEvents ∨ r'.jjEvents = false) : Serving r := by
  refine ⟨?_, hlater.ticks_le.trans_lt h.2⟩
  rcases hmode with hsame | hfull
  · exact hsame.symm.trans h.1
  · cases hfull.symm.trans h.1

section Steps

variable {t : ℕ} {σ σ' : Watcher.State} {jj : Jj}

theorem later_of_served {env : Env} {r r' : Root} (h : r' = r ∨ Served env r r') : Later r r' := by
  rcases h with rfl | h
  · exact .refl _
  · exact h.later

/-- A step of the system. -/
theorem Accounted.system {look : Option RelPath} (h : Accounted t ⟨σ, jj⟩)
    (hs : Watcher.Step look σ σ') (hattached : σ.stage = .attached)
    (hlocked : ∀ jj events batch, σ.loop = .collecting jj events batch → jj = σ.root.jjEvents) :
    Accounted t ⟨σ', jj⟩ := by
  have hlater : Later σ.root σ'.root := later_of_served (served_of_step emptyEnv hs hattached)
  refine ⟨h.le_ticks.trans hlater.ticks_le, ?_, ?_⟩
  · show jj.clock = some (σ'.root.clock.encode t)
    rw [hlater.clock.encode]
    exact h.clock
  · intro hserving p hne hvisible
    have hserving' : Serving σ.root := hserving.earlier hlater (hs.mode.2.imp_right And.right)
    have hkeep : OnItsWay t p σ → OnItsWay t p σ' := fun hway =>
      hway.step hs hattached hserving'.1 hlocked h.le_ticks ⟨hne, hvisible.internal⟩
    have hsame : contents σ'.disk p = contents σ.disk p ∨ OnItsWay t p σ' := by
      cases hs with
      | mutate d' hstage => exact absurd hattached hstage
      | mutateWatched d' events hstage hreports =>
        refine (contents_or_names hreports p).imp_right fun hnames => .inl ?_
        obtain ⟨ev, hev, hread, hpath⟩ := hnames
        refine ⟨ev, ?_, hread, hpath⟩
        show _ ∈ σ.loop.events ++ (σ.queue ++ events)
        exact List.mem_append_right _ (List.mem_append_right _ hev)
      | _ => exact .inl rfl
    rcases h.path hserving' p hne hvisible with hknown | hdue | hway
    · exact hsame.imp (fun heq => hknown.trans heq.symm) .inr
    · exact .inr (.inl hdue)
    · exact .inr (.inr (hkeep hway))

theorem Accounted.overflow (h : Accounted t ⟨σ, jj⟩) (d' : Disk) {events : List Notice}
    (hfails : ∃ n ∈ events, Fails n) :
    Accounted t ⟨{ σ with disk := d', queue := σ.queue ++ events }, jj⟩ := by
  refine ⟨h.le_ticks, h.clock, fun _ p _ _ => .inr (.inr (.inr (.inl ?_)))⟩
  obtain ⟨n, hn, hfails⟩ := hfails
  refine ⟨n, ?_, hfails⟩
  show n ∈ σ.loop.events ++ (σ.queue ++ events)
  exact List.mem_append_right _ (List.mem_append_right _ hn)

theorem serving_run (env : Env) (spec : QuerySpec) (r : Root) :
    Serving (run env spec r).2 ↔ Serving r := by
  obtain ⟨hindex, hclock⟩ := sameIndex_run env spec r
  unfold Serving
  rw [hindex.jjEvents, hclock]

theorem OnItsWay.query {p : RelPath} (h : OnItsWay t p σ) (ht : t ≤ σ.root.clock.ticks) (env : Env)
    (spec : QuerySpec) : OnItsWay t p { σ with root := (run env spec σ.root).2 } := by
  have hserved : Served env σ.root (run env spec σ.root).2 := .query spec σ.root
  exact h.keep hserved.later.path (fun _ => id) (fun _ => id) fun q hq => hq.served ht hserved

theorem Accounted.query (h : Accounted t ⟨σ, jj⟩) (env : Env) (spec : QuerySpec) :
    Accounted t ⟨{ σ with root := (run env spec σ.root).2 }, jj⟩ := by
  have hclock := (sameIndex_run env spec σ.root).2
  refine ⟨?_, ?_, fun hserving p hne hvisible => ?_⟩
  · show t ≤ (run env spec σ.root).2.clock.ticks
    rw [hclock]
    exact h.le_ticks
  · show jj.clock = some ((run env spec σ.root).2.clock.encode t)
    rw [hclock]
    exact h.clock
  · have hserving' : Serving σ.root := (serving_run env spec σ.root).mp hserving
    exact (h.path hserving' p hne hvisible).imp_right (Or.imp_right fun hway =>
      hway.query h.le_ticks env spec)

theorem Accounted.read (h : Accounted t ⟨σ, jj⟩) (S : Set RelPath) :
    Accounted t ⟨σ, jj.read σ.disk S⟩ := by
  refine ⟨h.le_ticks, h.clock, fun hserving p hne hvisible => ?_⟩
  classical
  by_cases hp : p ∈ S
  · exact .inl (Set.piecewise_eq_of_mem S _ _ hp)
  · rcases h.path hserving p hne hvisible with hknown | hdue | hway
    · exact .inl ((Set.piecewise_eq_of_notMem S _ _ hp).trans hknown)
    · exact .inr (.inl ⟨hdue, hp⟩)
    · exact .inr (.inr hway)

/-- An entry of the index that is younger than jj's clock is in the answer, or the answer is
fresh. -/
theorem mem_changed {env : Env} {spec : QuerySpec} {r : Root} {p q : RelPath}
    (hname : .name ∈ spec.fields) (hspec : AsksForJj spec (r.clock.encode t)) (ht : t < 2 ^ 64)
    (hvisible : Visible p) (hcovers : Covers q p) (hkept : Kept t q r) :
    p ∈ changed (run env spec r).1 := by
  rcases JjEvents.shows_of_kept env hspec ht (.refl _) (hvisible.covers hcovers) hkept with
    hfresh | ⟨e, -, hrow⟩
  · exact .inl hfresh
  · exact .inr ⟨q, hcovers, _, hrow, Field.read_renderRow hname⟩

/-- jj asks: what is in the index it is told, and the rest of the way is still to come. -/
theorem accounted_poll (h : jj.clock = none ∨ ∃ t, Accounted t ⟨σ, jj⟩) (hdue : jj.due = ∅)
    (env : Env) {spec : QuerySpec} (hasks : Asks spec jj.clock) :
    Accounted σ.root.clock.ticks
      ⟨{ σ with root := (run env spec σ.root).2 }, jj.hear (run env spec σ.root).1⟩ := by
  obtain ⟨hindex, hclock⟩ := sameIndex_run env spec σ.root
  refine ⟨?_, ?_, ?_⟩
  · show σ.root.clock.ticks ≤ (run env spec σ.root).2.clock.ticks
    rw [hclock]
  · show some (run env spec σ.root).1.clock = some ((run env spec σ.root).2.clock.encode _)
    rw [hclock, clock_run]
    rfl
  · intro hserving p hne hvisible
    have hserving' : Serving σ.root := (serving_run env spec σ.root).mp hserving
    rcases h with hnone | ⟨t, h⟩
    · -- the first answer is fresh
      refine .inr (.inl (.inl ?_))
      rw [isFreshInstance_run]
      refine decide_eq_true (.inl ?_)
      unfold sinceTick resolveNamedCursor
      rw [hasks.first hnone]
      rfl
    · have ht : t < 2 ^ 64 := h.le_ticks.trans_lt hserving'.2
      rcases h.path hserving' p hne hvisible with hknown | hp | hway
      · exact .inl hknown
      · change p ∈ jj.due at hp
        rw [hdue] at hp
        exact absurd hp (Set.notMem_empty p)
      · have hway' := hway.query h.le_ticks env spec
        rcases hway with hnames | hfails | hbatch | ⟨q, hcovers, hq⟩
        · exact .inr (.inr (.inl (hindex.path ▸ hnames)))
        · exact .inr (.inr (.inr (.inl hfails)))
        · exact .inr (.inr (.inr (.inr (.inl hbatch))))
        · refine .inr (.inl ?_)
          exact mem_changed hasks.name_mem (hasks.again _ h.clock) ht hvisible hcovers hq

end Steps

/-! ## The invariant -/

section Run

variable {x x' : State}

theorem Inv.attached (h : Inv x) (hclock : x.jj.clock ≠ none) : x.system.stage = .attached := by
  by_contra hstage
  exact hclock (h.unwatched hstage).2.2

theorem unwatched_step {look : Option RelPath} {σ σ' : Watcher.State}
    (hs : Watcher.Step look σ σ') (hstage : σ'.stage ≠ .attached)
    (h : σ.stage ≠ .attached → σ.queue = [] ∧ σ.loop = .waiting []) :
    σ'.queue = [] ∧ σ'.loop = .waiting [] := by
  have hbefore : σ.stage ≠ .attached := fun hattached => hstage (hs.mode.1 hattached)
  obtain ⟨hqueue, hloop⟩ := h hbefore
  cases hs with
  | mutateWatched d' events hattached hreports => exact absurd hattached hbefore
  | receive hloop' hqueue' hmax => cases hqueue.symm.trans hqueue'
  | lock hloop' hne hcrawl =>
    obtain rfl := Loop.waiting.inj (hloop.symm.trans hloop')
    exact absurd rfl hne
  | collect matched target hloop' hne => cases hloop.symm.trans hloop'
  | apply arenaBytes hloop' => cases hloop.symm.trans hloop'
  | _ => exact ⟨hqueue, hloop⟩

/-- While the event loop interprets a batch, no promotion is at work, so the mode stays. -/
theorem locked_step {look : Option RelPath} {σ σ' : Watcher.State} (hs : Watcher.Step look σ σ')
    (hunwatched : σ.stage ≠ .attached → σ.loop = .waiting [])
    (h : ∀ jj events batch, σ.loop = .collecting jj events batch →
      jj = σ.root.jjEvents ∧ σ.crawl = none) :
    ∀ jj events batch, σ'.loop = .collecting jj events batch →
      jj = σ'.root.jjEvents ∧ σ'.crawl = none := by
  intro jj events batch hloop'
  have hwaiting : σ.stage ≠ .attached → σ.loop ≠ .collecting jj events batch := by
    intro hstage heq
    cases (hunwatched hstage).symm.trans heq
  have hcrawling : ∀ {cr : Crawl}, σ.crawl = some cr → σ.loop ≠ .collecting jj events batch := by
    intro cr hcrawl heq
    cases hcrawl.symm.trans (h jj events batch heq).2
  cases hs with
  | scan hstage hfull => exact absurd hloop' (hwaiting (by simp [hstage]))
  | seed hstage hcrawl => exact absurd hloop' (hwaiting (by simp [hstage]))
  | seedEmpty hstage hjj => exact absurd hloop' (hwaiting (by simp [hstage]))
  | crawl hcrawl hstep => exact absurd hloop' (hcrawling hcrawl)
  | promote hstage hcrawl => exact absurd hloop' (hcrawling hcrawl)
  | receive hloop hqueue hmax => cases hloop'
  | lock hloop hne hcrawl =>
    obtain ⟨rfl, -, -⟩ := Loop.collecting.inj hloop'
    exact ⟨rfl, hcrawl⟩
  | @collect matched target _ jj' events' batch' hloop hne =>
    obtain ⟨rfl, -, -⟩ := Loop.collecting.inj hloop'
    obtain ⟨hjj, hcrawl⟩ := h _ _ _ hloop
    exact ⟨hjj.trans (collect_site ..).jjEvents.symm, hcrawl⟩
  | apply arenaBytes hloop => cases hloop'
  | beginPromotion hstage hjj hcrawl hloop => cases hloop.symm.trans hloop'
  | sweep hcrawl =>
    obtain ⟨hjj, hnone⟩ := h _ _ _ hloop'
    exact ⟨hjj.trans (SameSite.sweep _).jjEvents.symm, hnone⟩
  | _ => exact h _ _ _ hloop'

theorem Inv.locked_query (h : Inv x) (env : Env) (spec : QuerySpec) :
    ∀ jj events batch, x.system.loop = .collecting jj events batch →
      jj = (run env spec x.system.root).2.jjEvents ∧ x.system.crawl = none := by
  intro jj events batch hloop
  obtain ⟨hjj, hcrawl⟩ := h.locked _ _ _ hloop
  exact ⟨hjj.trans (sameIndex_run env spec x.system.root).1.jjEvents.symm, hcrawl⟩

theorem Inv.step (h : Inv x) (hs : Step x x') : Inv x' := by
  cases hs with
  | @system look σ σ' jj hs =>
    have hloop : ∀ jj events batch, σ.loop = .collecting jj events batch →
        jj = σ.root.jjEvents := fun _ _ _ heq => (h.locked _ _ _ heq).1
    refine ⟨fun hstage => ?_, ?_, ?_, ?_⟩
    · have hbefore : σ.stage ≠ .attached := fun hattached => hstage (hs.mode.1 hattached)
      obtain ⟨hqueue, hwaiting⟩ := unwatched_step hs hstage fun hstage' =>
        ⟨(h.unwatched hstage').1, (h.unwatched hstage').2.1⟩
      exact ⟨hqueue, hwaiting, (h.unwatched hbefore).2.2⟩
    · exact locked_step hs (fun hstage => (h.unwatched hstage).2.1) h.locked
    · rcases hs.root_step emptyEnv with hsame | hstep
      · show σ'.root.WellTicked
        rw [hsame]
        exact h.ticked
      · exact h.ticked.step hstep
    · by_cases hclock : jj.clock = none
      · exact .inl hclock
      · obtain ⟨t, hacc⟩ := h.accounted.resolve_left hclock
        exact .inr ⟨t, hacc.system hs (h.attached hclock) hloop⟩
  | overflow d' events jj hstage hfails =>
    refine ⟨fun hnot => absurd hstage hnot, h.locked, h.ticked, ?_⟩
    refine h.accounted.imp_right ?_
    rintro ⟨t, hacc⟩
    exact ⟨t, hacc.overflow d' hfails⟩
  | query env spec σ jj =>
    refine ⟨h.unwatched, h.locked_query env spec, h.ticked.step (.query spec σ.root), ?_⟩
    refine h.accounted.imp_right ?_
    rintro ⟨t, hacc⟩
    exact ⟨t, hacc.query env spec⟩
  | @poll env spec σ jj hstage hdue hasks =>
    refine ⟨fun hnot => absurd hstage hnot, h.locked_query env spec,
      h.ticked.step (.query spec σ.root), ?_⟩
    exact .inr ⟨_, accounted_poll h.accounted hdue env hasks⟩
  | read S σ jj =>
    refine ⟨h.unwatched, h.locked, h.ticked, ?_⟩
    refine h.accounted.imp_right ?_
    rintro ⟨t, hacc⟩
    exact ⟨t, hacc.read S⟩

theorem inv_start (h : Start x) : Inv x := by
  have hnew : Root.Reached emptyEnv x.system.root := ⟨_, h.system.root, .refl⟩
  refine ⟨fun _ => ⟨h.system.queue, h.system.loop, h.clock⟩, ?_, hnew.wellTicked, .inl h.clock⟩
  intro jj' events batch hloop
  cases h.system.loop.symm.trans hloop

theorem inv_of_run {x₀ : State} (hstart : Start x₀) (hrun : Run Step x₀ x) : Inv x :=
  hrun.preserves (fun _ _ h hs => h.step hs) (inv_start hstart)

end Run

def knowsNothing : State := ⟨unregistered true emptyDisk, ⟨fun _ => none, none, ∅⟩⟩

theorem start_knowsNothing : Start knowsNothing := ⟨start_unregistered true emptyDisk, rfl, rfl⟩

def firstQuery : QuerySpec := { JjEvents.jjQuery with since := none }

theorem asks_firstQuery : Asks firstQuery none := ⟨by decide, fun _ => rfl, by rintro c ⟨⟩⟩

theorem exists_created : ∃ x, Run Step knowsNothing x ∧ x.system.disk = linkDisk ∧
    x.system.queue = [about [0x78] .create] ∧ x.system.crawl = none ∧ Serving x.system.root ∧
    x.jj.clock ≠ none ∧ x.jj.due = ∅ := by
  have hcreated : Reports [[0x72]] emptyDisk linkDisk [about [0x78] .create] :=
    reports_about (by simp) (fun p hon => absurd hon (not_onDisk_emptyDisk p))
      (fun _ => eq_of_onDisk_linkDisk) (by simp)
  have h₀ : Run Step knowsNothing knowsNothing := .refl
  have h₁ := h₀.tail (.system _ (.seedEmpty rfl rfl))
  have h₂ := h₁.tail (.system _ (.attach rfl))
  have h₃ := h₂.tail (.poll emptyEnv rfl rfl asks_firstQuery)
  have h₄ := h₃.tail (.read Set.univ _ _)
  have h₅ := h₄.tail (.system _ (.mutateWatched linkDisk [about [0x78] .create] rfl hcreated))
  exact ⟨_, h₅, rfl, rfl, rfl, ⟨rfl, by decide⟩, Option.some_ne_none _, Set.sdiff_univ _⟩

/-- A step of the event loop. -/
def Moves (σ σ' : Watcher.State) : Prop :=
  (∃ look, Watcher.Step look σ σ') ∧ σ'.loop ≠ σ.loop

/-- How many steps the loop over the events takes for one of them at most. -/
def weight : Notice → ℕ
  | .error => 1
  | .event ev => ev.paths.length + 1

def weights (events : List Notice) : ℕ := (events.map weight).sum

/-- How many steps of the event loop are left at most. -/
def work (σ : Watcher.State) : ℕ :=
  weights σ.queue + 3 * σ.queue.length +
    match σ.loop with
    | .waiting events => weights events + 2 * events.length
    | .collecting _ events _ => weights events + 1

theorem weights_cons (n : Notice) (events : List Notice) :
    weights (n :: events) = weight n + weights events := by
  unfold weights
  rw [List.map_cons, List.sum_cons]

theorem weights_append (l l' : List Notice) : weights (l ++ l') = weights l + weights l' := by
  unfold weights
  rw [List.map_append, List.sum_append]

theorem weight_pos (n : Notice) : 0 < weight n := by
  cases n with
  | error => exact Nat.one_pos
  | event ev => exact Nat.succ_pos _

theorem weights_collect_lt (d : Disk) (matched : RelPath → RelPath → Option Bool)
    (target : Option String) (jj : Bool) (r : Root) (out : List PathChange) {events : List Notice}
    (hne : events ≠ []) :
    weights (collect d matched target jj r out events).2.2 < weights events := by
  obtain ⟨n, rest, rfl⟩ := List.exists_cons_of_ne_nil hne
  have hpos := weight_pos n
  have hrest : weights rest < weights (n :: rest) := by
    rw [weights_cons]
    omega
  cases n with
  | error =>
    unfold collect
    dsimp only
    split_ifs <;> exact hrest
  | event ev =>
    unfold collect
    dsimp only
    split_ifs
    · exact hrest
    · exact hrest
    · cases hpaths : ev.paths with
      | nil => exact hrest
      | cons abs paths =>
        show weights (.event { ev with paths } :: rest) < _
        rw [weights_cons, weights_cons]
        simp only [weight, hpaths, List.length_cons]
        omega

section Loop

variable {σ σ' : Watcher.State}

theorem Moves.work_lt (h : Moves σ σ') : work σ' < work σ := by
  obtain ⟨⟨look, hs⟩, hmoved⟩ := h
  cases hs with
  | @receive _ events queue notice hloop hqueue hmax =>
    simp only [work, hloop, hqueue, weights_append, weights_cons, List.length_append,
      List.length_cons]
    simp only [weights, List.map_nil, List.sum_nil, List.length_nil]
    omega
  | @lock _ events hloop hne hcrawl =>
    have hlen := List.length_pos_iff.mpr hne
    simp only [work, hloop]
    omega
  | @collect matched target _ jj events batch hloop hne =>
    have hlt := weights_collect_lt σ.disk matched target jj σ.root batch hne
    simp only [work, hloop]
    omega
  | @apply arenaBytes _ jj batch hloop =>
    simp only [work, hloop, weights, List.map_nil, List.sum_nil, List.length_nil]
    omega
  | _ => exact absurd rfl hmoved

theorem Moves.same (h : Moves σ σ') : σ'.disk = σ.disk ∧ σ'.crawl = σ.crawl := by
  obtain ⟨⟨look, hs⟩, hmoved⟩ := h
  cases hs with
  | receive hloop hqueue hmax => exact ⟨rfl, rfl⟩
  | lock hloop hne hcrawl => exact ⟨rfl, rfl⟩
  | collect matched target hloop hne => exact ⟨rfl, rfl⟩
  | apply arenaBytes hloop => exact ⟨rfl, rfl⟩
  | _ => exact absurd rfl hmoved

/-- Where the event loop has no step left it has caught up. -/
theorem drained_of_stuck (hstuck : ¬ ∃ σ', Moves σ σ') (hcrawl : σ.crawl = none) : Drained σ := by
  cases hloop : σ.loop with
  | waiting events =>
    by_cases hne : events = []
    · subst hne
      cases hqueue : σ.queue with
      | nil => exact ⟨hqueue, hloop⟩
      | cons notice queue =>
        refine absurd ⟨_, ⟨_, .receive hloop hqueue (by decide)⟩, ?_⟩ hstuck
        rw [hloop]
        simp
    · refine absurd ⟨_, ⟨_, .lock hloop hne hcrawl⟩, ?_⟩ hstuck
      rw [hloop]
      simp
  | collecting jj events batch =>
    by_cases hne : events = []
    · subst hne
      refine absurd ⟨_, ⟨_, .apply 0 hloop⟩, ?_⟩ hstuck
      rw [hloop]
      simp
    · refine absurd ⟨_, ⟨_, .collect (fun _ _ => none) none hloop hne⟩, ?_⟩ hstuck
      rw [hloop]
      intro heq
      obtain ⟨-, hevents, -⟩ := Loop.collecting.inj heq
      have hlt := weights_collect_lt σ.disk (fun _ _ => none) none jj σ.root batch hne
      rw [hevents] at hlt
      exact lt_irrefl _ hlt

end Loop

/-- jj reads some of what it has to. -/
inductive Reads (d : Disk) : Jj → Jj → Prop
  | read (S : Set RelPath) (jj : Jj) : Reads d jj (jj.read d S)

theorem not_onItsWay {σ : Watcher.State} (hdrained : Drained σ) (hticked : σ.root.WellTicked)
    (p : RelPath) : ¬ OnItsWay σ.root.clock.ticks p σ := by
  have hcoming : σ.coming = [] := by
    rw [State.coming_of_loop hdrained.2, hdrained.1]
    rfl
  rintro (⟨ev, hev, -⟩ | ⟨n, hn, -⟩ | ⟨c, hc, -⟩ | ⟨q, -, hold | ⟨-, e, he, hlt⟩⟩)
  · rw [hcoming] at hev
    cases hev
  · rw [hcoming] at hn
    cases hn
  · rw [hdrained.2] at hc
    cases hc
  · exact absurd hold hticked.oldest_le.not_gt
  · exact absurd hlt (hticked.entries q e he).2.2.not_gt

/-- **jj catches up.** From any state of a run in which no promotion is at work, the event loop
comes to an end if nothing more happens on the disk; and if jj then asks, and the disk stays as it
is while it reads, in as many parts as it likes, then in the end it believes of every path outside
of `.git` and `.jj` exactly what is on the disk. -/
theorem snapshot_catches_up {x₀ x : State} (hstart : Start x₀) (hrun : Run Step x₀ x)
    (hcrawl : x.system.crawl = none) (hdue : x.jj.due = ∅) :
    Acc (fun σ' σ => Moves σ σ') x.system ∧
      ∀ σ, Run Moves x.system σ → (¬ ∃ σ', Moves σ σ') → Serving σ.root →
        ∀ env spec, Asks spec x.jj.clock → ∀ jj,
          Run (Reads σ.disk) (x.jj.hear (run env spec σ.root).1) jj → jj.due = ∅ →
            σ.disk = x.system.disk ∧
              ∀ p, p ≠ [] → Visible p → jj.snapshot p = contents σ.disk p := by
  refine ⟨?_, fun σ hmoves hstuck hserving env spec hasks jj hreads hread => ?_⟩
  · exact @acc_of_measure _ _ (fun _ => True) work (fun _ _ _ _ => trivial)
      (fun _ _ _ hs => hs.work_lt) _ trivial
  · have hsame : ∀ s s' : Watcher.State,
        s.disk = x.system.disk ∧ s.crawl = none ∧ Inv ⟨s, x.jj⟩ → Moves s s' →
          s'.disk = x.system.disk ∧ s'.crawl = none ∧ Inv ⟨s', x.jj⟩ := by
      rintro s s' ⟨hd, hc, hinv⟩ hmove
      obtain ⟨hd', hc'⟩ := hmove.same
      obtain ⟨⟨look, hs⟩, -⟩ := hmove
      exact ⟨hd'.trans hd, hc'.trans hc, hinv.step (.system x.jj hs)⟩
    obtain ⟨hdisk, hcrawl', hinv⟩ :=
      hmoves.preserves hsame ⟨rfl, hcrawl, inv_of_run hstart hrun⟩
    have hdrained := drained_of_stuck hstuck hcrawl'
    have hclock := (sameIndex_run env spec σ.root).2
    have hkeeps : ∀ s s' : Jj,
        Accounted σ.root.clock.ticks ⟨{ σ with root := (run env spec σ.root).2 }, s⟩ →
          Reads σ.disk s s' →
            Accounted σ.root.clock.ticks ⟨{ σ with root := (run env spec σ.root).2 }, s'⟩ := by
      intro s s' h hs
      cases hs with
      | read S => exact h.read S
    have hacc := hreads.preserves hkeeps (accounted_poll hinv.accounted hdue env hasks)
    refine ⟨hdisk, fun p hne hvisible => ?_⟩
    have hserving' := (serving_run env spec σ.root).mpr hserving
    rcases hacc.path hserving' p hne hvisible with hknown | hp | hway
    · exact hknown
    · change p ∈ jj.due at hp
      rw [hread] at hp
      exact absurd hp (Set.notMem_empty p)
    · have hticked : (run env spec σ.root).2.WellTicked := hinv.ticked.step (.query spec σ.root)
      have hnot := not_onItsWay (σ := { σ with root := (run env spec σ.root).2 }) hdrained hticked p
      change ¬ OnItsWay (run env spec σ.root).2.clock.ticks p _ at hnot
      rw [hclock] at hnot
      exact absurd hway hnot

theorem snapshot_catches_up_created : ∃ x : State, x.system.disk = linkDisk ∧
    x.system.queue = [about [0x78] .create] ∧ Acc (fun σ' σ => Moves σ σ') x.system ∧
      ∀ σ, Run Moves x.system σ → (¬ ∃ σ', Moves σ σ') → Serving σ.root →
        ∀ env spec, Asks spec x.jj.clock → ∀ jj,
          Run (Reads σ.disk) (x.jj.hear (run env spec σ.root).1) jj → jj.due = ∅ →
            σ.disk = x.system.disk ∧
              ∀ p, p ≠ [] → Visible p → jj.snapshot p = contents σ.disk p := by
  obtain ⟨x, hrun, hdisk, hqueue, hcrawl, -, -, hdue⟩ := exists_created
  exact ⟨x, hdisk, hqueue, snapshot_catches_up start_knowsNothing hrun hcrawl hdue⟩

end Watchwoman.JjSnapshot
