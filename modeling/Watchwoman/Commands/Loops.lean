import Watchwoman.Commands.Subscribe
import Watchwoman.Lib.Lagging

/-!
# Push loops and trigger loops at work

`run_push_loop` and `run_trigger` both wait for tick events and ask, for each event past their
fence, for what changed since the fence. The push loop moves its fence to the event, the trigger
loop to the tick its query observed. The receiver holds the last 256 events; one that lags behind
loses the oldest and goes on.

Batches, clock bumps and sweeps run meanwhile. A batch takes the lock and bumps the clock, writes,
releases, and broadcasts its event; the event loop of the root makes one batch after the other, and
the proofs need only that no more than 256 are on their way to the broadcast at once.

A loop loses nothing that stays in the tree, and no change fires a trigger twice
(`loop_reports_changes`).
-/

namespace Watchwoman.Loops

open Transition Query Subscribe

/-- What the broadcast channel of a root holds for each receiver. -/
@[irreducible] def tickChannelCapacity : ℕ := 256

theorem tickChannelCapacity_pos : 0 < tickChannelCapacity := by
  unfold tickChannelCapacity
  decide

/-! ## The two loops -/

/-- The query of a trigger, its clock apart. -/
def triggerSpec (expression : Expr) : QuerySpec where
  expression := expression
  fields := [.name]
  generators := {}
  since := none
  relativeRoot := none
  emptyOnFreshInstance := false
  alwaysIncludeDirectories := true
  caseSensitive := true

/-- `collect_names` -/
def collectNames (files : List Value) : List String :=
  files.filterMap fun
    | .string s => some s
    | .object o =>
      match o.lookup "name" with
      | some (.string s) => some s
      | _ => none
    | _ => none

inductive Loop where
  | push (spec : QuerySpec) (name : String)
  | trigger (expression : Expr)

namespace Loop

/-- The query the loop asks in each round, its clock apart. -/
def spec : Loop → QuerySpec
  | .push spec _ => spec
  | .trigger expression => triggerSpec expression

def IsTrigger : Loop → Prop
  | .push _ _ => False
  | .trigger _ => True

def ask (loop : Loop) (env : Env) (r : Root) (lastTick : ℕ) : Answer :=
  ⟨env, pushSpec loop.spec r.clock lastTick, r⟩

def fence (ev : TickEvent) (a : Answer) : Loop → ℕ
  | .push _ _ => ev.tick
  | .trigger _ => responseTick a.root.clock a.result

/-- The round sends a message, or runs the command. -/
def Emits (a : Answer) : Loop → Prop
  | .push _ name => messages name a.root.path a.result ≠ []
  | .trigger _ => collectNames a.result.files ≠ [] ∨
    (a.root.jjEvents = true ∧ a.result.isFreshInstance = true)

instance (a : Answer) : (loop : Loop) → Decidable (loop.Emits a)
  | .push _ name =>
    match h : messages name a.root.path a.result with
    | [] => isFalse (by simp [Emits, h])
    | _ :: _ => isTrue (by simp [Emits, h])
  | .trigger _ => inferInstanceAs (Decidable (_ ∨ _))

def record (loop : Loop) (a : Answer) (answers : List Answer) : List Answer :=
  if loop.Emits a then a :: answers else answers

/-- The message has the row of the entry, or the command is given its name. -/
def Shows (a : Answer) (shown : RelPath) (e : FileEntry) : Loop → Prop
  | .push spec name =>
    unilateral name a.root.path a.result ∈ messages name a.root.path a.result ∧
      Field.renderRow a.env a.root.path shown e spec.fields a.root.clock ∈ a.result.files
  | .trigger _ => shown.toStringLossy ∈ collectNames a.result.files

end Loop

/-! ## The system -/

/-- Where the loop is. -/
inductive Phase where
  | absent
  /-- The receiver exists and the start tick has not been read. -/
  | subscribed
  | listening
  | handling (ev : TickEvent)
  /-- The trigger's command is running. -/
  | running

namespace Phase

def Started : Phase → Prop
  | .absent => False
  | .subscribed => False
  | _ => True

def events : Phase → List TickEvent
  | .handling ev => [ev]
  | _ => []

/-- Where the loop goes after a round: the command of a trigger runs until `finish`. -/
def after (a : Answer) (loop : Loop) : Phase :=
  match loop with
  | .push _ _ => .listening
  | .trigger _ => if loop.Emits a then .running else .listening

end Phase

def writerEvents : Writer → List TickEvent
  | .idle => []
  | .batch ev _ => [ev]

/-- The last five fields are not read by any step: what the receiver lost, the tick the last query
observed, and, from when the start tick was read, the tick, the tree and what batches wrote since,
the last change first. -/
structure State where
  root : Root
  writer : Writer
  /-- The events of released batches that are not broadcast yet. -/
  unsent : List TickEvent
  /-- The events the receiver holds. -/
  queue : List TickEvent
  lastTick : ℕ
  phase : Phase
  /-- The rounds that sent a message or ran the command, the last first. -/
  answers : List Answer
  lagged : List TickEvent
  observed : ℕ
  startTick : ℕ
  startTree : Tree
  log : List (ℕ × PathChange)

/-- The events of batches that are not broadcast yet. -/
def State.pending (σ : State) : List TickEvent := writerEvents σ.writer ++ σ.unsent

/-- The events the loop has still to deal with. -/
def State.incoming (σ : State) : List TickEvent := σ.phase.events ++ σ.queue

/-- One step of a batch, of the clock command, of a sweep, or of the loop. `sweeps` says in which
states a sweep may run. -/
inductive Step (loop : Loop) (sweeps : State → Prop) : State → State → Prop
  | openBatch (arenaBytes : ℕ) (changes : List PathChange) {σ : State} (hidle : σ.writer = .idle)
    (hticks : σ.root.clock.bump.ticks < 2 ^ 64) (hfew : σ.unsent.length < tickChannelCapacity) :
    Step loop sweeps σ { σ with
      root := σ.root.openBatch arenaBytes
      writer := .batch ⟨σ.root.clock.bump.ticks, changes.map PathChange.rel⟩ changes }
  | writeChange {σ : State} {ev : TickEvent} {c : PathChange} {rest : List PathChange}
    (hw : σ.writer = .batch ev (c :: rest)) :
    Step loop sweeps σ { σ with
      root := σ.root.writeChange ev.tick c
      writer := .batch ev rest
      log := (ev.tick, c) :: σ.log }
  | release {σ : State} {ev : TickEvent} (hw : σ.writer = .batch ev []) :
    Step loop sweeps σ { σ with writer := .idle, unsent := ev :: σ.unsent }
  | broadcastUnheard {σ : State} {ev : TickEvent} (hphase : σ.phase = .absent)
    (hev : ev ∈ σ.unsent) :
    Step loop sweeps σ { σ with unsent := σ.unsent.erase ev }
  | broadcast {σ : State} {ev : TickEvent} (hphase : σ.phase ≠ .absent) (hev : ev ∈ σ.unsent) :
    Step loop sweeps σ { σ with
      unsent := σ.unsent.erase ev
      queue := Lagging.send tickChannelCapacity σ.queue ev
      lagged := Lagging.lost tickChannelCapacity σ.queue ev ++ σ.lagged }
  | bump {σ : State} (hticks : σ.root.clock.bump.ticks < 2 ^ 64) :
    Step loop sweeps σ { σ with root := σ.root.bump }
  | sweep {σ : State} (hidle : σ.writer = .idle) (hsweep : sweeps σ) :
    Step loop sweeps σ { σ with root := σ.root.pruneTombstones.1 }
  | subscribe {σ : State} (hphase : σ.phase = .absent) :
    Step loop sweeps σ { σ with phase := .subscribed, queue := [], lagged := [] }
  | start {σ : State} (hphase : σ.phase = .subscribed) :
    Step loop sweeps σ { σ with
      phase := .listening
      lastTick := σ.root.clock.ticks
      observed := σ.root.clock.ticks
      startTick := σ.root.clock.ticks
      startTree := σ.root.tree
      log := [] }
  | receive {σ : State} {ev : TickEvent} {rest : List TickEvent} (hphase : σ.phase = .listening)
    (hq : σ.queue = ev :: rest) :
    Step loop sweeps σ { σ with phase := .handling ev, queue := rest }
  | skip {σ : State} {ev : TickEvent} (hphase : σ.phase = .handling ev)
    (hle : ev.tick ≤ σ.lastTick) :
    Step loop sweeps σ { σ with phase := .listening }
  | round (env : Env) {σ : State} {ev : TickEvent} (hphase : σ.phase = .handling ev)
    (hlt : σ.lastTick < ev.tick) (hidle : σ.writer = .idle) :
    Step loop sweeps σ { σ with
      root := (run env (pushSpec loop.spec σ.root.clock σ.lastTick) σ.root).2
      lastTick := loop.fence ev (loop.ask env σ.root σ.lastTick)
      phase := .after (loop.ask env σ.root σ.lastTick) loop
      answers := loop.record (loop.ask env σ.root σ.lastTick) σ.answers
      observed := σ.root.clock.ticks }
  | finish {σ : State} (hphase : σ.phase = .running) :
    Step loop sweeps σ { σ with phase := .listening }

/-- A full-index root before the loop is started. -/
structure Start (σ : State) : Prop where
  reached : ∃ env, Root.Reached env σ.root
  full : σ.root.jjEvents = false
  ticks : σ.root.clock.ticks < 2 ^ 64
  writer : σ.writer = .idle
  unsent : σ.unsent = []
  phase : σ.phase = .absent
  queue : σ.queue = []
  answers : σ.answers = []
  log : σ.log = []

/-! ## What is promised -/

/-- The event of the batch of this tick has not been broadcast. -/
def InFlight (σ : State) (tick : ℕ) : Prop := ∃ ev ∈ σ.pending, ev.tick = tick

/-- A query made at the tick of the entry or later showed it as `shown`. -/
def Reported (loop : Loop) (answers : List Answer) (shown : RelPath) (e : FileEntry) : Prop :=
  ∃ a ∈ answers, e.oclock ≤ a.root.clock.ticks ∧ loop.Shows a shown e

/-- If the loop has consumed every event broadcast so far, each live entry that passes its filters
and is younger than its start, and whose batch has been broadcast, was reported. -/
def UpToDate (loop : Loop) (σ : State) : Prop :=
  σ.phase.Started → σ.incoming = [] →
    ∀ p e env shown, σ.root.tree.get p = some e → e.live = true → σ.startTick < e.oclock →
      ¬ InFlight σ e.oclock → select env σ.root loop.spec p e = some shown →
      Reported loop σ.answers shown e

/-- No two rounds report the same path with the same tick. -/
def ReportsOnce (σ : State) : Prop :=
  σ.answers.Pairwise fun a b => ∀ p o, ¬ (a.Reports p o ∧ b.Reports p o)

/-! ## The invariant -/

/-- What holds of the ticks of the root, of the batch at work and of the events on their way. -/
structure Ticking (σ : State) : Prop where
  full : σ.root.jjEvents = false
  bound : σ.root.clock.ticks < 2 ^ 64
  ticked : σ.root.WellTicked
  pending_le : ∀ ev ∈ σ.pending, ev.tick ≤ σ.root.clock.ticks
  pending_few : σ.pending.length ≤ tickChannelCapacity
  incoming_le : ∀ ev ∈ σ.incoming, ev.tick ≤ σ.root.clock.ticks
  log_le : ∀ x ∈ σ.log, x.1 ≤ σ.root.clock.ticks
  writing : ∀ ev rest, σ.writer = .batch ev rest →
    1 ≤ ev.tick ∧ σ.root.oldestAvailableTick ≤ ev.tick ∧ ∀ x ∈ σ.log, x.1 ≤ ev.tick

/-- An event of this tick or a later one will reach the loop. -/
def Coming (σ : State) (tick : ℕ) : Prop :=
  InFlight σ tick ∨ ∃ ev ∈ σ.incoming, tick ≤ ev.tick

/-- The entry was reported if it passes the filters. -/
def Settled (loop : Loop) (σ : State) (p : RelPath) (e : FileEntry) : Prop :=
  ∀ env shown, select env σ.root loop.spec p e = some shown → Reported loop σ.answers shown e

/-- How far past the start of the loop the event is. -/
def rank (startTick : ℕ) (ev : TickEvent) : ℕ := ev.tick - startTick

/-- Whatever is younger than the start was reported, or no query has seen it and an event that
covers it is coming. -/
structure Ahead (loop : Loop) (σ : State) : Prop where
  oldest_le : σ.root.oldestAvailableTick ≤ σ.lastTick
  last_le : σ.lastTick ≤ σ.observed
  observed_le : σ.observed ≤ σ.root.clock.ticks
  writing : ∀ ev rest, σ.writer = .batch ev rest → ev.tick ≤ σ.startTick ∨ σ.observed < ev.tick
  outranked : Lagging.Outranked (rank σ.startTick) tickChannelCapacity σ.queue σ.pending
  entries : ∀ p e, σ.root.tree.get p = some e → σ.startTick < e.oclock →
    Settled loop σ p e ∨ (σ.observed < e.oclock ∧ Coming σ e.oclock)

structure Inv (loop : Loop) (σ : State) : Prop where
  ticking : Ticking σ
  ahead : σ.phase.Started → Ahead loop σ
  once : loop.IsTrigger → (∀ a ∈ σ.answers, ∀ p o, a.Reports p o → o ≤ σ.lastTick) ∧ ReportsOnce σ
  silent : ¬ σ.phase.Started → σ.answers = []

section Quiet

variable {loop : Loop} {σ σ' : State} {p : RelPath} {e : FileEntry}

theorem Settled.mono (h : Settled loop σ p e) (hclock : Clock.Same σ.root.clock σ'.root.clock)
    (hanswers : σ.answers ⊆ σ'.answers) : Settled loop σ' p e := by
  intro env shown hselect
  rw [select_same hclock] at hselect
  obtain ⟨a, ha, hreported⟩ := h env shown hselect
  exact ⟨a, hanswers ha, hreported⟩

theorem Ticking.quiet (h : Ticking σ) {r' : Root} (hq : Quiet σ.root r')
    (hbound : r'.clock.ticks < 2 ^ 64) : Ticking { σ with root := r' } where
  full := hq.jjEvents.trans h.full
  bound := hbound
  ticked := hq.wellTicked h.ticked
  pending_le ev hev := (h.pending_le ev hev).trans hq.ticks_le
  pending_few := h.pending_few
  incoming_le ev hev := (h.incoming_le ev hev).trans hq.ticks_le
  log_le x hx := (h.log_le x hx).trans hq.ticks_le
  writing ev rest hw := by
    obtain ⟨h1, hold, hlog⟩ := h.writing ev rest hw
    exact ⟨h1, hq.oldest.trans_le hold, hlog⟩

theorem Ahead.quiet (h : Ahead loop σ) {r' : Root} (hq : Quiet σ.root r') :
    Ahead loop { σ with root := r' } := by
  refine ⟨hq.oldest.trans_le h.oldest_le, h.last_le, h.observed_le.trans hq.ticks_le, h.writing,
    h.outranked, ?_⟩
  intro p e he hlt
  rcases h.entries p e (hq.tree p e he) hlt with hs | hcoming
  · exact .inl (hs.mono hq.clock (List.Subset.refl _))
  · exact .inr hcoming

theorem Inv.quiet (h : Inv loop σ) {r' : Root} (hq : Quiet σ.root r')
    (hbound : r'.clock.ticks < 2 ^ 64) : Inv loop { σ with root := r' } where
  ticking := h.ticking.quiet hq hbound
  ahead hstarted := (h.ahead hstarted).quiet hq
  once := h.once
  silent := h.silent

/-- A step that leaves the root, the answers and the fence alone keeps what the loop relies on if no
event past what was observed is lost on its way. -/
theorem Ahead.mono (h : Ahead loop σ) (hroot : σ'.root = σ.root) (hanswers : σ'.answers = σ.answers)
    (hlast : σ'.lastTick = σ.lastTick) (hobserved : σ'.observed = σ.observed)
    (hstart : σ'.startTick = σ.startTick)
    (hwriting : ∀ ev rest, σ'.writer = .batch ev rest →
      ev.tick ≤ σ.startTick ∨ σ.observed < ev.tick)
    (houtranked : Lagging.Outranked (rank σ.startTick) tickChannelCapacity σ'.queue σ'.pending)
    (hcoming : ∀ t, σ.startTick < t → σ.observed < t → Coming σ t → Coming σ' t) :
    Ahead loop σ' := by
  refine ⟨?_, ?_, ?_, ?_, ?_, ?_⟩
  · rw [hroot, hlast]
    exact h.oldest_le
  · rw [hlast, hobserved]
    exact h.last_le
  · rw [hroot, hobserved]
    exact h.observed_le
  · rw [hstart, hobserved]
    exact hwriting
  · rw [hstart]
    exact houtranked
  · intro p e he hlt
    rw [hroot] at he
    rw [hstart] at hlt
    rcases h.entries p e he hlt with hs | ⟨hyoung, hc⟩
    · exact .inl (hs.mono (by rw [hroot]; exact .refl _) (by rw [hanswers]; exact List.Subset.refl _))
    · rw [hobserved]
      exact .inr ⟨hyoung, hcoming _ hlt hyoung hc⟩

end Quiet

/-! ## The steps of a batch -/

section Batch

variable {loop : Loop} {σ : State} {ev : TickEvent} {c : PathChange} {rest : List PathChange}

theorem pending_of_idle (h : σ.writer = .idle) : σ.pending = σ.unsent := by
  unfold State.pending
  rw [h]
  rfl

theorem pending_of_batch (h : σ.writer = .batch ev rest) : σ.pending = ev :: σ.unsent := by
  unfold State.pending
  rw [h]
  rfl

theorem Inv.openBatch (h : Inv loop σ) (hidle : σ.writer = .idle)
    (hticks : σ.root.clock.bump.ticks < 2 ^ 64)
    (hfew : σ.unsent.length < tickChannelCapacity) (arenaBytes : ℕ) (changes : List PathChange) :
    Inv loop { σ with
      root := σ.root.openBatch arenaBytes
      writer := .batch ⟨σ.root.clock.bump.ticks, changes.map PathChange.rel⟩ changes } := by
  rw [Root.openBatch_of_full h.ticking.full]
  have hq := h.quiet (.bump σ.root) hticks
  have hpending := pending_of_idle hidle
  refine ⟨{ hq.ticking with pending_le := ?_, pending_few := ?_, writing := ?_ }, ?_, h.once,
    h.silent⟩
  · refine List.forall_mem_cons.mpr ⟨le_rfl, fun ev hev => hq.ticking.pending_le ev ?_⟩
    exact List.mem_append_right _ hev
  · exact hfew
  · rintro ev rest ⟨rfl, rfl⟩
    exact ⟨Clock.one_le_bump _, hq.ticking.ticked.oldest_le,
      fun x hx => hq.ticking.log_le x hx⟩
  · intro hstarted
    have ha := h.ahead hstarted
    refine (hq.ahead hstarted).mono rfl rfl rfl rfl rfl ?_ ?_ ?_
    · rintro ev rest ⟨rfl, rfl⟩
      exact .inr (Nat.lt_succ_of_le ha.observed_le)
    · have hout := ha.outranked
      rw [hpending] at hout
      refine hout.cons_pending fun x hx => ?_
      have hle := h.ticking.incoming_le x (List.mem_append_right _ hx)
      have hbump : σ.root.clock.bump.ticks = σ.root.clock.ticks + 1 := rfl
      unfold rank
      simp only
      omega
    · rintro t - - (⟨ev, hev, htick⟩ | hincoming)
      · exact .inl ⟨ev, List.mem_cons_of_mem _ (hpending ▸ hev), htick⟩
      · exact .inr hincoming

theorem Inv.writeChange (h : Inv loop σ) (hw : σ.writer = .batch ev (c :: rest)) :
    Inv loop { σ with
      root := σ.root.writeChange ev.tick c
      writer := .batch ev rest
      log := (ev.tick, c) :: σ.log } := by
  obtain ⟨h1, hold, hlog⟩ := h.ticking.writing _ _ hw
  have hpending := pending_of_batch hw
  have hnow : ev.tick ≤ σ.root.clock.ticks := by
    refine h.ticking.pending_le ev ?_
    rw [hpending]
    exact List.mem_cons_self
  refine ⟨⟨h.ticking.full, h.ticking.bound, h.ticking.ticked.writeChange h1 hold hnow c, ?_, ?_,
    h.ticking.incoming_le, ?_, ?_⟩, ?_, h.once, h.silent⟩
  · have hle := h.ticking.pending_le
    rw [hpending] at hle
    exact hle
  · have hfew := h.ticking.pending_few
    rw [hpending] at hfew
    exact hfew
  · exact List.forall_mem_cons.mpr ⟨hnow, h.ticking.log_le⟩
  · rintro ev' rest' ⟨rfl, rfl⟩
    exact ⟨h1, hold, List.forall_mem_cons.mpr ⟨le_rfl, hlog⟩⟩
  · intro hstarted
    have ha := h.ahead hstarted
    have hwriting := ha.writing _ _ hw
    refine ⟨ha.oldest_le, ha.last_le, ha.observed_le, ?_, ?_, ?_⟩
    · rintro ev' rest' ⟨rfl, rfl⟩
      exact hwriting
    · have hout := ha.outranked
      rw [hpending] at hout
      exact hout
    · intro p e he hlt
      -- the changed path carries the tick of the batch at work, whose event is still to come
      by_cases hp : p = c.rel
      · subst hp
        have htick := (Root.get_applyChange_rel he).1
        change σ.startTick < e.oclock at hlt
        rw [htick] at hlt ⊢
        refine .inr ⟨hwriting.resolve_left (by omega), .inl ⟨ev, ?_, rfl⟩⟩
        exact List.mem_cons_self
      · have he' : σ.root.tree.get p = some e := (Root.get_applyChange_of_ne hp).symm.trans he
        rcases ha.entries p e he' hlt with hs | ⟨hyoung, hcoming⟩
        · exact .inl (hs.mono (.refl _) (List.Subset.refl _))
        · refine .inr ⟨hyoung, ?_⟩
          rcases hcoming with ⟨ev', hev', htick⟩ | hincoming
          · rw [hpending] at hev'
            exact .inl ⟨ev', hev', htick⟩
          · exact .inr hincoming

theorem Inv.release (h : Inv loop σ) (hw : σ.writer = .batch ev []) :
    Inv loop { σ with writer := .idle, unsent := ev :: σ.unsent } := by
  have hpending := pending_of_batch hw
  have hle := h.ticking.pending_le
  have hfew := h.ticking.pending_few
  rw [hpending] at hle hfew
  refine ⟨{ h.ticking with pending_le := hle, pending_few := hfew, writing := ?_ }, ?_, h.once,
    h.silent⟩
  · rintro ev' rest' ⟨⟩
  · intro hstarted
    have ha := h.ahead hstarted
    have hout := ha.outranked
    rw [hpending] at hout
    refine ha.mono rfl rfl rfl rfl rfl (by rintro ev' rest' ⟨⟩) hout ?_
    rintro t - - (⟨ev', hev', htick⟩ | hincoming)
    · rw [hpending] at hev'
      exact .inl ⟨ev', hev', htick⟩
    · exact .inr hincoming

theorem pending_perm (hev : ev ∈ σ.unsent) :
    σ.pending.Perm (ev :: (writerEvents σ.writer ++ σ.unsent.erase ev)) := by
  unfold State.pending
  exact ((List.perm_cons_erase hev).append_left _).trans List.perm_middle

theorem Ticking.broadcast (h : Ticking σ) (hev : ev ∈ σ.unsent) {queue lagged : List TickEvent}
    (hqueue : ∀ ev' ∈ queue, ev' ∈ σ.queue ∨ ev' = ev) :
    Ticking { σ with unsent := σ.unsent.erase ev, queue := queue, lagged := lagged } := by
  have hperm := pending_perm hev
  refine { h with pending_le := ?_, pending_few := ?_, incoming_le := ?_ }
  · exact fun ev' hev' => h.pending_le ev' (hperm.mem_iff.mpr (List.mem_cons_of_mem _ hev'))
  · have hfew := h.pending_few
    rw [hperm.length_eq, List.length_cons] at hfew
    exact Nat.le_of_succ_le hfew
  · intro ev' hev'
    rcases List.mem_append.mp hev' with hcur | hq
    · exact h.incoming_le ev' (List.mem_append_left _ hcur)
    · rcases hqueue ev' hq with hq | rfl
      · exact h.incoming_le ev' (List.mem_append_right _ hq)
      · exact h.pending_le ev' (List.mem_append_right _ hev)

theorem Ahead.covered (ha : Ahead loop σ) (hev : ev ∈ σ.unsent) {t : ℕ} (hlt : σ.startTick < t)
    (hc : ∃ ev' ∈ σ.incoming, t ≤ ev'.tick) :
    ∃ ev' ∈ σ.phase.events ++ Lagging.send tickChannelCapacity σ.queue ev, t ≤ ev'.tick := by
  obtain ⟨ev', hev', hle⟩ := hc
  rcases List.mem_append.mp hev' with hcur | hq
  · exact ⟨ev', List.mem_append_left _ hcur, hle⟩
  · rcases @Lagging.mem_send_or_lost _ tickChannelCapacity σ.queue ev ev'
      (List.mem_append_left _ hq) with hsend | hlost
    · exact ⟨ev', List.mem_append_right _ hsend, hle⟩
    · obtain ⟨y, hy, hrank⟩ :=
        ha.outranked.covered (List.mem_append_right _ hev) tickChannelCapacity_pos hlost
      refine ⟨y, List.mem_append_right _ hy, ?_⟩
      unfold rank at hrank
      omega

theorem mem_pending (hev : ev ∈ σ.unsent) {ev' : TickEvent} (hev' : ev' ∈ σ.pending) :
    ev' = ev ∨ ev' ∈ writerEvents σ.writer ++ σ.unsent.erase ev :=
  List.mem_cons.mp ((pending_perm hev).mem_iff.mp hev')

theorem Inv.broadcast (h : Inv loop σ) (hev : ev ∈ σ.unsent) :
    Inv loop { σ with
      unsent := σ.unsent.erase ev
      queue := Lagging.send tickChannelCapacity σ.queue ev
      lagged := Lagging.lost tickChannelCapacity σ.queue ev ++ σ.lagged } := by
  refine ⟨h.ticking.broadcast hev fun ev' => Lagging.mem_of_mem_send, ?_, h.once, h.silent⟩
  intro hstarted
  have ha := h.ahead hstarted
  refine ha.mono rfl rfl rfl rfl rfl ha.writing ?_ ?_
  · exact ha.outranked.send (pending_perm hev) h.ticking.pending_few
  · rintro t hlt - (⟨ev', hev', htick⟩ | hincoming)
    · rcases mem_pending hev hev' with rfl | hrest
      · exact .inr ⟨ev', List.mem_append_right _
          (Lagging.mem_send_self tickChannelCapacity_pos), htick.ge⟩
      · exact .inl ⟨ev', hrest, htick⟩
    · exact .inr (ha.covered hev hlt hincoming)

theorem Inv.broadcastUnheard (h : Inv loop σ) (hphase : σ.phase = .absent) (hev : ev ∈ σ.unsent) :
    Inv loop { σ with unsent := σ.unsent.erase ev } := by
  refine ⟨h.ticking.broadcast hev fun _ => .inl, ?_, h.once, h.silent⟩
  intro hstarted
  change σ.phase.Started at hstarted
  rw [hphase] at hstarted
  exact hstarted.elim

end Batch

/-! ## The steps of the loop -/

section Rounds

variable {loop : Loop} {σ : State} {ev : TickEvent}

theorem incoming_of_phase {phase : Phase} (h : σ.phase = phase) :
    σ.incoming = phase.events ++ σ.queue := by
  unfold State.incoming
  rw [h]

theorem Ticking.move (h : Ticking σ) {phase : Phase} {queue lagged : List TickEvent}
    (hincoming : phase.events ++ queue ⊆ σ.incoming) :
    Ticking { σ with phase := phase, queue := queue, lagged := lagged } :=
  { h with incoming_le := fun ev hev => h.incoming_le ev (hincoming hev) }

theorem Inv.subscribe (h : Inv loop σ) (hphase : σ.phase = .absent) :
    Inv loop { σ with phase := .subscribed, queue := [], lagged := [] } := by
  have hsilent := h.silent (by rw [hphase]; exact id)
  exact ⟨h.ticking.move (List.nil_subset _), fun hstarted => hstarted.elim, h.once,
    fun _ => hsilent⟩

/-- When the start tick is read nothing is younger than it. -/
theorem Inv.start (h : Inv loop σ) (hphase : σ.phase = .subscribed) :
    Inv loop { σ with
      phase := .listening
      lastTick := σ.root.clock.ticks
      observed := σ.root.clock.ticks
      startTick := σ.root.clock.ticks
      startTree := σ.root.tree
      log := [] } := by
  have hsilent := h.silent (by rw [hphase]; exact id)
  have ht := h.ticking
  have hincoming : σ.incoming = σ.queue := incoming_of_phase hphase
  have hqueue := ht.incoming_le
  rw [hincoming] at hqueue
  refine ⟨{ ht with incoming_le := hqueue, log_le := by simp, writing := ?_ }, ?_, ?_, ?_⟩
  · intro ev rest hw
    obtain ⟨h1, hold, -⟩ := ht.writing ev rest hw
    exact ⟨h1, hold, by simp⟩
  · intro _
    refine ⟨ht.ticked.oldest_le, le_rfl, le_rfl, ?_, ?_, ?_⟩
    · intro ev rest hw
      have hpending : σ.pending = ev :: σ.unsent := pending_of_batch hw
      refine .inl (ht.pending_le ev ?_)
      rw [hpending]
      exact List.mem_cons_self
    · refine Lagging.Outranked.of_zero tickChannelCapacity_pos fun x hx => ?_
      exact Nat.sub_eq_zero_of_le (hqueue x hx)
    · intro p e he hlt
      exact absurd (ht.ticked.entries p e he).2.2 (not_le.mpr hlt)
  · intro _
    refine ⟨?_, ?_⟩
    · show ∀ a ∈ σ.answers, _
      rw [hsilent]
      simp
    · show σ.answers.Pairwise _
      rw [hsilent]
      exact .nil
  · exact fun hnot => absurd trivial hnot

theorem Inv.receive (h : Inv loop σ) (hphase : σ.phase = .listening) {rest : List TickEvent}
    (hq : σ.queue = ev :: rest) : Inv loop { σ with phase := .handling ev, queue := rest } := by
  have hincoming : σ.incoming = ev :: rest := (incoming_of_phase hphase).trans hq
  have ha := h.ahead (by rw [hphase]; trivial)
  refine ⟨h.ticking.move (hincoming ▸ List.Subset.refl _), fun _ => ?_, h.once,
    fun hnot => absurd trivial hnot⟩
  refine ha.mono rfl rfl rfl rfl rfl ha.writing ?_ ?_
  · have hout := ha.outranked
    rw [hq] at hout
    exact hout.tail
  · rintro t - - (hflight | ⟨ev', hev', hle⟩)
    · exact .inl hflight
    · rw [hincoming] at hev'
      exact .inr ⟨ev', hev', hle⟩

theorem Inv.skip (h : Inv loop σ) (hphase : σ.phase = .handling ev) (hle : ev.tick ≤ σ.lastTick) :
    Inv loop { σ with phase := .listening } := by
  have hincoming : σ.incoming = ev :: σ.queue := incoming_of_phase hphase
  have ha := h.ahead (by rw [hphase]; trivial)
  refine ⟨h.ticking.move ?_, fun _ => ?_, h.once, fun hnot => absurd trivial hnot⟩
  · rw [hincoming]
    exact List.subset_cons_self _ _
  · refine ha.mono rfl rfl rfl rfl rfl ha.writing ha.outranked ?_
    rintro t - hyoung (hflight | ⟨ev', hev', hle'⟩)
    · exact .inl hflight
    · rw [hincoming] at hev'
      rcases List.mem_cons.mp hev' with rfl | hmem
      · have := ha.last_le
        omega
      · exact .inr ⟨ev', hmem, hle'⟩

theorem Inv.finish (h : Inv loop σ) (hphase : σ.phase = .running) :
    Inv loop { σ with phase := .listening } := by
  have hincoming : σ.incoming = σ.queue := incoming_of_phase hphase
  have ha := h.ahead (by rw [hphase]; trivial)
  refine ⟨h.ticking.move (hincoming ▸ List.Subset.refl _), fun _ => ?_, h.once,
    fun hnot => absurd trivial hnot⟩
  refine ha.mono rfl rfl rfl rfl rfl ha.writing ha.outranked ?_
  rintro t - - (hflight | ⟨ev', hev', hle⟩)
  · exact .inl hflight
  · rw [hincoming] at hev'
    exact .inr ⟨ev', hev', hle⟩

/-! A round reports every entry past the fence that passes the filters. -/

section Ask

variable {r : Root} {last : ℕ} {env : Env}

theorem sinceTick_ask (hlast : last < 2 ^ 64) :
    sinceTick (loop.ask env r last).root (loop.ask env r last).spec = some last :=
  sinceTick_encode hlast rfl (.refl _)

theorem shows_of_row {a : Answer} {shown : RelPath} {e : FileEntry}
    (hrow : Field.renderRow a.env a.root.path shown e loop.spec.fields a.root.clock ∈
      a.result.files) : loop.Emits a ∧ loop.Shows a shown e := by
  cases loop with
  | push spec name =>
    refine ⟨?_, ?_, hrow⟩
    · show messages name a.root.path a.result ≠ []
      rw [messages_of_row hrow]
      exact List.cons_ne_nil _ _
    · show _ ∈ messages name a.root.path a.result
      rw [messages_of_row hrow]
      exact List.mem_singleton.mpr rfl
  | trigger expression =>
    have hname : shown.toStringLossy ∈ collectNames a.result.files :=
      List.mem_filterMap.mpr ⟨.string shown.toStringLossy, hrow, rfl⟩
    exact ⟨.inl (List.ne_nil_of_mem hname), hname⟩

theorem shows_ask (hfull : r.jjEvents = false) (hold : r.oldestAvailableTick ≤ last)
    (hlast : last < 2 ^ 64) {p shown : RelPath} {e : FileEntry} (he : r.tree.get p = some e)
    (hpast : last < e.oclock)
    (hselect : select env r (pushSpec loop.spec r.clock last) p e = some shown) :
    loop.Emits (loop.ask env r last) ∧ loop.Shows (loop.ask env r last) shown e := by
  have hfresh : ¬ IsFresh (loop.ask env r last).root (loop.ask env r last).spec :=
    not_isFresh_encode hlast rfl (.refl _) hfull hold
  have hpast' : Past (sinceTick (loop.ask env r last).root (loop.ask env r last).spec) e := by
    rw [sinceTick_ask hlast]
    exact past_some.mpr hpast
  apply shows_of_row
  exact Answer.mem_files hfresh he hpast' hselect

theorem reports_ask (hr : r.WellTicked) (hlast : last < 2 ^ 64) {p : RelPath} {o : ℕ}
    (h : (loop.ask env r last).Reports p o) : last < o ∧ o ≤ r.clock.ticks := by
  obtain ⟨e, shown, he, rfl, hpast, -⟩ := h
  rw [sinceTick_ask hlast] at hpast
  exact ⟨hpast _ rfl, (hr.entries p e he).2.2⟩

theorem fence_ask (hbound : r.clock.ticks < 2 ^ 64) (hev : ev.tick ≤ r.clock.ticks)
    (hlt : last < ev.tick) :
    last ≤ loop.fence ev (loop.ask env r last) ∧
      loop.fence ev (loop.ask env r last) ≤ r.clock.ticks ∧
      (loop.IsTrigger → loop.fence ev (loop.ask env r last) = r.clock.ticks) := by
  cases loop with
  | push spec name => exact ⟨hlt.le, hev, fun h => h.elim⟩
  | trigger expression =>
    have htick : (Loop.trigger expression).fence ev ((Loop.trigger expression).ask env r last) =
        r.clock.ticks := responseTick_run env _ hbound
    rw [htick]
    exact ⟨(hlt.trans_le hev).le, le_rfl, fun _ => rfl⟩

end Ask

theorem events_after (a : Answer) (loop : Loop) : (Phase.after a loop).events = [] := by
  unfold Phase.after
  split
  · rfl
  · split_ifs <;> rfl

theorem started_after (a : Answer) (loop : Loop) : (Phase.after a loop).Started := by
  unfold Phase.after
  split
  · trivial
  · split_ifs <;> trivial

theorem subset_record {a : Answer} {answers : List Answer} : answers ⊆ loop.record a answers := by
  unfold Loop.record
  split_ifs
  · exact List.subset_cons_self _ _
  · exact List.Subset.refl _

theorem mem_record {a : Answer} {answers : List Answer} (h : loop.Emits a) :
    a ∈ loop.record a answers := by
  unfold Loop.record
  rw [if_pos h]
  exact List.mem_cons_self

theorem reported_ask (ht : Ticking σ) (hold : σ.root.oldestAvailableTick ≤ σ.lastTick)
    (hlast : σ.lastTick < 2 ^ 64) (env : Env) {p : RelPath} {e : FileEntry}
    (he : σ.root.tree.get p = some e) (hpast : σ.lastTick < e.oclock) {env' : Env} {shown : RelPath}
    (hselect : select env' σ.root loop.spec p e = some shown) :
    Reported loop (loop.record (loop.ask env σ.root σ.lastTick) σ.answers) shown e := by
  obtain ⟨hemits, hshows⟩ := @shows_ask loop σ.root σ.lastTick env ht.full hold hlast
    p shown e he hpast (select_pushSpec hlast hselect)
  exact ⟨loop.ask env σ.root σ.lastTick, mem_record hemits, (ht.ticked.entries p e he).2.2, hshows⟩

theorem once_record {answers : List Answer} {a : Answer} {last fence : ℕ} (hle : last ≤ fence)
    (hseen : ∀ b ∈ answers, ∀ p o, b.Reports p o → o ≤ last)
    (honce : answers.Pairwise fun a b => ∀ p o, ¬ (a.Reports p o ∧ b.Reports p o))
    (hnew : ∀ p o, a.Reports p o → last < o ∧ o ≤ fence) :
    (∀ b ∈ loop.record a answers, ∀ p o, b.Reports p o → o ≤ fence) ∧
      (loop.record a answers).Pairwise fun a b => ∀ p o, ¬ (a.Reports p o ∧ b.Reports p o) := by
  have hseen' : ∀ b ∈ answers, ∀ p o, b.Reports p o → o ≤ fence :=
    fun b hb p o hreports => (hseen b hb p o hreports).trans hle
  unfold Loop.record
  split_ifs
  · refine ⟨List.forall_mem_cons.mpr ⟨fun p o h => (hnew p o h).2, hseen'⟩,
      List.pairwise_cons.mpr ⟨?_, honce⟩⟩
    rintro b hb p o ⟨ha, hb'⟩
    have hlo := (hnew p o ha).1
    have hhi := hseen b hb p o hb'
    omega
  · exact ⟨hseen', honce⟩

/-- A round: its query stores at most a cursor in the root. -/
theorem Inv.round (h : Inv loop σ) (hphase : σ.phase = .handling ev) (hlt : σ.lastTick < ev.tick)
    (hidle : σ.writer = .idle) (env : Env) {r' : Root} (hquiet : Quiet σ.root r')
    (hclock : r'.clock = σ.root.clock) :
    Inv loop { σ with
      root := r'
      lastTick := loop.fence ev (loop.ask env σ.root σ.lastTick)
      phase := .after (loop.ask env σ.root σ.lastTick) loop
      answers := loop.record (loop.ask env σ.root σ.lastTick) σ.answers
      observed := σ.root.clock.ticks } := by
  have ha := h.ahead (by rw [hphase]; trivial)
  have ht := h.ticking
  have hlast : σ.lastTick < 2 ^ 64 :=
    (ha.last_le.trans ha.observed_le).trans_lt ht.bound
  have hincoming : σ.incoming = ev :: σ.queue := incoming_of_phase hphase
  have hevents := ht.incoming_le
  rw [hincoming, List.forall_mem_cons] at hevents
  obtain ⟨hev, hqueue⟩ := hevents
  obtain ⟨hfence, hfence', htrigger⟩ := @fence_ask loop ev σ.root σ.lastTick env ht.bound hev hlt
  have hroot := ht.quiet hquiet (by rw [hclock]; exact ht.bound)
  refine ⟨{ hroot with incoming_le := ?_ }, ?_, ?_, ?_⟩
  · intro ev' hev'
    change ev' ∈ (Phase.after _ loop).events ++ σ.queue at hev'
    rw [events_after, List.nil_append] at hev'
    exact (hqueue ev' hev').trans hquiet.ticks_le
  · intro _
    refine ⟨hquiet.oldest.trans_le (ha.oldest_le.trans hfence), hfence', ?_, ?_, ha.outranked, ?_⟩
    · exact hquiet.ticks_le
    · intro ev' rest hw
      rw [hidle] at hw
      cases hw
    · intro p e he hyoung
      have he' := hquiet.tree p e he
      left
      rcases ha.entries p e he' hyoung with hs | ⟨hunseen, -⟩
      · exact hs.mono hquiet.clock subset_record
      · intro env' shown hselect
        rw [select_same hquiet.clock] at hselect
        exact reported_ask ht ha.oldest_le hlast env he' (ha.last_le.trans_lt hunseen) hselect
  · intro hkind
    obtain ⟨hle, honce⟩ := h.once hkind
    refine once_record hfence hle honce fun p o hreports => ?_
    show _ ∧ o ≤ loop.fence ev (loop.ask env σ.root σ.lastTick)
    rw [htrigger hkind]
    exact reports_ask ht.ticked hlast hreports
  · exact fun hnot => absurd (started_after _ loop) hnot

end Rounds

/-! ## Batches that are not interrupted -/

/-- A batch whose steps follow each other is `applyChanges`; its event reaches a loop that waits for
one. -/
theorem run_handling (loop : Loop) (sweeps : State → Prop) {σ : State} (hidle : σ.writer = .idle)
    (hunsent : σ.unsent = []) (hqueue : σ.queue = []) (hphase : σ.phase = .listening)
    (hticks : σ.root.clock.bump.ticks < 2 ^ 64) (arenaBytes : ℕ) (changes : List PathChange) :
    Run (Step loop sweeps) σ { σ with
      root := (σ.root.applyChanges arenaBytes changes).1
      phase := .handling (σ.root.applyChanges arenaBytes changes).2
      log := (changes.map fun c => (σ.root.clock.bump.ticks, c)).reverse ++ σ.log } := by
  obtain ⟨root, writer, unsent, queue, last, phase, answers, lagged, observed, start, tree, log⟩ := σ
  dsimp only at hidle hunsent hqueue hphase hticks
  subst hidle hunsent hqueue hphase
  have hwrite : ∀ (ev : TickEvent) (rest : List PathChange) (r : Root) (log : List (ℕ × PathChange)),
      Run (Step loop sweeps)
        ⟨r, .batch ev rest, [], [], last, .listening, answers, lagged, observed, start, tree, log⟩
        ⟨rest.foldl (Root.writeChange ev.tick) r, .batch ev [], [], [], last, .listening, answers,
          lagged, observed, start, tree, (rest.map fun c => (ev.tick, c)).reverse ++ log⟩ := by
    intro ev rest
    induction rest with
    | nil => exact fun r log => .refl
    | cons c rest ih =>
      intro r log
      have hlog : ((c :: rest).map fun c => (ev.tick, c)).reverse ++ log =
          (rest.map fun c => (ev.tick, c)).reverse ++ ((ev.tick, c) :: log) := by
        rw [List.map_cons, List.reverse_cons, List.append_assoc]
        rfl
      rw [hlog]
      exact .head (.writeChange rfl) (ih _ _)
  have hsend : ∀ (r : Root) (ev : TickEvent) (log : List (ℕ × PathChange)),
      Run (Step loop sweeps)
        ⟨r, .batch ev [], [], [], last, .listening, answers, lagged, observed, start, tree, log⟩
        ⟨r, .idle, [], [], last, .handling ev, answers, lagged, observed, start, tree, log⟩ := by
    intro r ev log
    have hstep := @Step.broadcast loop sweeps
      ⟨r, .idle, [ev], [], last, .listening, answers, lagged, observed, start, tree, log⟩ ev
      (by rintro ⟨⟩) (List.mem_singleton.mpr rfl)
    rw [Lagging.send_nil tickChannelCapacity_pos, Lagging.lost_nil tickChannelCapacity_pos,
      List.erase_cons_head] at hstep
    exact .tail (.tail (.single (.release rfl)) hstep) (.receive rfl rfl)
  refine .head (.openBatch arenaBytes changes rfl hticks tickChannelCapacity_pos) ?_
  exact (hwrite _ _ _ _).trans (hsend _ _ _)

/-! ## Whole runs -/

theorem Inv.step {loop : Loop} {sweeps : State → Prop} {σ σ' : State} (h : Inv loop σ)
    (hs : Step loop sweeps σ σ') : Inv loop σ' := by
  cases hs with
  | openBatch arenaBytes changes hidle hticks hfew =>
    exact h.openBatch hidle hticks hfew arenaBytes changes
  | writeChange hw => exact h.writeChange hw
  | release hw => exact h.release hw
  | broadcastUnheard hphase hev => exact h.broadcastUnheard hphase hev
  | broadcast hphase hev => exact h.broadcast hev
  | bump hticks => exact h.quiet (.bump _) hticks
  | sweep hidle hsweep =>
    refine h.quiet (.sweep h.ticking.full) ?_
    rw [Root.pruneTombstones_of_full h.ticking.full]
    exact h.ticking.bound
  | subscribe hphase => exact h.subscribe hphase
  | start hphase => exact h.start hphase
  | receive hphase hq => exact h.receive hphase hq
  | skip hphase hle => exact h.skip hphase hle
  | round env hphase hlt hidle =>
    exact h.round hphase hlt hidle env (Quiet.query _ _ _) (clock_run_root _ _ _)
  | finish hphase => exact h.finish hphase

theorem Inv.init {loop : Loop} {σ : State} (h : Start σ) : Inv loop σ := by
  obtain ⟨env, hreached⟩ := h.reached
  have hpending : σ.pending = [] := by
    rw [pending_of_idle h.writer, h.unsent]
  have hincoming : σ.incoming = [] := (incoming_of_phase h.phase).trans h.queue
  refine ⟨⟨h.full, h.ticks, hreached.wellTicked, ?_, ?_, ?_, ?_, ?_⟩, ?_, ?_, fun _ => h.answers⟩
  · rw [hpending]
    simp
  · rw [hpending]
    exact Nat.zero_le _
  · rw [hincoming]
    simp
  · rw [h.log]
    simp
  · intro ev rest hw
    rw [h.writer] at hw
    cases hw
  · intro hstarted
    rw [h.phase] at hstarted
    exact hstarted.elim
  · intro _
    unfold ReportsOnce
    rw [h.answers]
    exact ⟨by simp, .nil⟩

theorem Inv.upToDate {loop : Loop} {σ : State} (h : Inv loop σ) : UpToDate loop σ := by
  intro hstarted hincoming p e env shown he _ hlt hflight hselect
  rcases (h.ahead hstarted).entries p e he hlt with hs | ⟨-, hc⟩
  · exact hs env shown hselect
  · rcases hc with hf | ⟨ev, hev, -⟩
    · exact absurd hf hflight
    · rw [hincoming] at hev
      cases hev

/-- **Loops.** In every run, with any lag of the receiver and any time spent in commands, whenever
the loop has consumed every event broadcast so far, each live entry that passes its filters and is
younger than its start was reported by a query made at the entry's tick or later; and no two firings
of a trigger report the same path with the same tick. -/
theorem loop_reports_changes (loop : Loop) (sweeps : State → Prop) {σ₀ σ : State}
    (hstart : Start σ₀) (hrun : Run (Step loop sweeps) σ₀ σ) :
    UpToDate loop σ ∧ (loop.IsTrigger → ReportsOnce σ) := by
  have hinv : Inv loop σ := hrun.preserves (fun s s' h hs => h.step hs) (Inv.init hstart)
  exact ⟨hinv.upToDate, fun hkind => (hinv.once hkind).2⟩

/-! ## A file that appears while a trigger is installed -/

/-- A root with the one file `a`, before a loop is started. -/
def beforeLoop : State :=
  ⟨oneFile, .idle, [], [], 0, .absent, [], [], 0, 0, Tree.new, []⟩

theorem start_beforeLoop : Start beforeLoop :=
  ⟨⟨emptyEnv, reached_oneFile⟩, rfl, by decide, rfl, rfl, rfl, rfl, rfl, rfl⟩

def waitingLoop : State :=
  ⟨oneFile, .idle, [], [], 2, .listening, [], [], 2, 2, oneFile.tree, []⟩

theorem run_waitingLoop (loop : Loop) (sweeps : State → Prop) :
    Run (Step loop sweeps) beforeLoop waitingLoop :=
  .tail (.single (.subscribe rfl)) (.start rfl)

/-- The loop when it has received the event of a second file. -/
def secondFileEvent : State :=
  ⟨secondFile.1, .idle, [], [], 2, .handling secondFile.2, [], [], 2, 2, oneFile.tree,
    [(3, .upsert [[0x62]] someFile none)]⟩

theorem run_secondFileEvent (loop : Loop) (sweeps : State → Prop) :
    Run (Step loop sweeps) beforeLoop secondFileEvent :=
  (run_waitingLoop loop sweeps).trans
    (@run_handling loop sweeps waitingLoop rfl rfl rfl rfl (by decide) 0
      [.upsert [[0x62]] someFile none])

/-- The command of a trigger is run for the second file. -/
theorem loop_reports_changes_secondFile :
    ∃ σ, Start beforeLoop ∧ σ.answers ≠ [] ∧ σ.incoming = [] ∧
      UpToDate (.trigger .true) σ ∧ ((Loop.trigger .true).IsTrigger → ReportsOnce σ) := by
  have hround := @Step.round (.trigger .true) (fun _ => True) emptyEnv secondFileEvent secondFile.2
    rfl (by decide) rfl
  have hrun := (run_secondFileEvent (.trigger .true) fun _ => True).tail hround
  refine ⟨_, start_beforeLoop, ?_, ?_, loop_reports_changes _ _ start_beforeLoop hrun⟩
  · dsimp only
    rw [Loop.record, if_pos (by decide)]
    simp
  · rw [incoming_of_phase rfl, events_after]
    rfl

end Watchwoman.Loops
