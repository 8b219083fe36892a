import Watchwoman.Query.Stable

/-!
# Subscriptions

`subscribe.rs`: the handler answers with an initial query, registers the subscription, subscribes
to the tick broadcast and reads the clock as its first fence; the push loop then asks, for each
event past its fence, for what changed since the fence, and moves the fence to the event.

The handler and the loop share no lock with the batches of `apply_changes` beyond the tree lock of
each single query. A batch takes the tree lock and bumps the clock, writes its changes one after the
other, releases the lock, and broadcasts its event; several batches may be on their way to the
broadcast. A query holds the read lock, and by `Query.Stable` a bump meanwhile does not change its
answer, so it is one step. A batch opened between the initial query and the read of the clock is
neither in the answer nor past the fence (`batch_behind_fence_lost`); without one, nothing is lost
(`changes_pushed`).

The loop's receiver gets every event broadcast after it subscribed: a receiver that lags behind by
more than the channel holds has not processed every event.
-/

namespace Watchwoman.Subscribe

open Transition Query

/-! ## The push loop's queries and messages -/

def watchmanCompatVersion : String := "2026.03.30.00"

/-- The spec of the subscription with its clock replaced by `tick`. -/
def pushSpec (spec : QuerySpec) (clock : Clock) (tick : ℕ) : QuerySpec :=
  { spec with
    since := some (ClockSpec.parse (clock.encode tick))
    generators := { spec.generators with since := some (ClockSpec.parse (clock.encode tick)) } }

/-- The message the loop sends for a result. -/
def unilateral (name : String) (rootPath : List Name) (result : QueryResult) : Value :=
  .object [
    ("version", .string watchmanCompatVersion),
    ("subscription", .string name),
    ("clock", .string result.clock),
    ("is_fresh_instance", .bool result.isFreshInstance),
    ("unilateral", .bool true),
    ("root", .string (pathText rootPath)),
    ("files", .array result.files)]

/-- The messages of one round: none for a delta without rows. -/
def messages (name : String) (rootPath : List Name) (result : QueryResult) : List Value :=
  if result.files = [] ∧ result.isFreshInstance = false then []
  else [unilateral name rootPath result]

theorem messages_of_row {name : String} {rootPath : List Name} {result : QueryResult} {row : Value}
    (h : row ∈ result.files) :
    messages name rootPath result = [unilateral name rootPath result] := by
  unfold messages
  rw [if_neg (fun hempty => List.ne_nil_of_mem h hempty.1)]

/-! ## The system -/

/-- Who holds the write lock. -/
inductive Writer where
  | idle
  /-- The batch that will publish `event`, with `rest` still to write. -/
  | batch (event : TickEvent) (rest : List PathChange)

/-- Where the handler and its loop are. -/
inductive Handler where
  | waiting
  | queried (response : QueryResult)
  | registered (response : QueryResult)
  | subscribed (response : QueryResult)
  /-- The loop with its fence and the event it is looking at. -/
  | pushing (response : QueryResult) (lastTick : ℕ) (event : Option TickEvent)

/-- The response has been computed and the fence has not been read. -/
def Handler.Between (response : QueryResult) : Handler → Prop
  | .queried res => res = response
  | .registered res => res = response
  | .subscribed res => res = response
  | _ => False

/-- The receiver of the broadcast exists. -/
def Handler.receives : Handler → Bool
  | .subscribed _ => true
  | .pushing _ _ _ => true
  | _ => false

structure State where
  root : Root
  writer : Writer
  /-- The events of released batches that are not broadcast yet. -/
  unsent : List TickEvent
  handler : Handler
  /-- The events the receiver holds. -/
  queue : List TickEvent
  /-- The messages sent for the subscription. -/
  pdus : List Value

/-- One step of a batch, of the clock command, of a sweep, of the handler or of its loop. Ticks stay
within the `u64` counter. -/
inductive Step (spec : QuerySpec) (name : String) : State → State → Prop
  | openBatch (arenaBytes : ℕ) (changes : List PathChange) {σ : State} (hidle : σ.writer = .idle)
    (hticks : σ.root.clock.bump.ticks < 2 ^ 64) :
    Step spec name σ { σ with
      root := σ.root.openBatch arenaBytes
      writer := .batch ⟨σ.root.clock.bump.ticks, changes.map PathChange.rel⟩ changes }
  | writeChange {σ : State} {ev : TickEvent} {c : PathChange} {rest : List PathChange}
    (hw : σ.writer = .batch ev (c :: rest)) :
    Step spec name σ { σ with root := σ.root.writeChange ev.tick c, writer := .batch ev rest }
  | release {σ : State} {ev : TickEvent} (hw : σ.writer = .batch ev []) :
    Step spec name σ { σ with writer := .idle, unsent := ev :: σ.unsent }
  | broadcast {σ : State} {ev : TickEvent} (hev : ev ∈ σ.unsent) :
    Step spec name σ { σ with
      unsent := σ.unsent.erase ev
      queue := if σ.handler.receives then σ.queue ++ [ev] else σ.queue }
  | bump {σ : State} (hticks : σ.root.clock.bump.ticks < 2 ^ 64) :
    Step spec name σ { σ with root := σ.root.bump }
  | sweep {σ : State} (hidle : σ.writer = .idle) :
    Step spec name σ { σ with root := σ.root.pruneTombstones.1 }
  | initialQuery (env : Env) {σ : State} (hh : σ.handler = .waiting) (hidle : σ.writer = .idle) :
    Step spec name σ { σ with
      root := (run env spec σ.root).2
      handler := .queried (run env spec σ.root).1 }
  | addSubscription {σ : State} {response : QueryResult} (hh : σ.handler = .queried response) :
    Step spec name σ { σ with handler := .registered response }
  | subscribe {σ : State} {response : QueryResult} (hh : σ.handler = .registered response) :
    Step spec name σ { σ with handler := .subscribed response, queue := [] }
  | startTick {σ : State} {response : QueryResult} (hh : σ.handler = .subscribed response) :
    Step spec name σ { σ with handler := .pushing response σ.root.clock.ticks none }
  | receive {σ : State} {response : QueryResult} {last : ℕ} {ev : TickEvent} {rest : List TickEvent}
    (hh : σ.handler = .pushing response last none) (hq : σ.queue = ev :: rest) :
    Step spec name σ { σ with handler := .pushing response last (some ev), queue := rest }
  | skip {σ : State} {response : QueryResult} {last : ℕ} {ev : TickEvent}
    (hh : σ.handler = .pushing response last (some ev)) (hle : ev.tick ≤ last) :
    Step spec name σ { σ with handler := .pushing response last none }
  | push (env : Env) {σ : State} {response : QueryResult} {last : ℕ} {ev : TickEvent}
    (hh : σ.handler = .pushing response last (some ev)) (hlt : last < ev.tick)
    (hidle : σ.writer = .idle) :
    Step spec name σ { σ with
      root := (run env (pushSpec spec σ.root.clock last) σ.root).2
      handler := .pushing response ev.tick none
      pdus := σ.pdus ++ messages name σ.root.path
        (run env (pushSpec spec σ.root.clock last) σ.root).1 }

/-- The root as `promote_to_full` leaves it, with events of earlier batches on their way. -/
structure Start (σ : State) : Prop where
  promoted : ∃ env r entries, Root.Reached env r ∧ σ.root = r.promoteToFull entries
  ticks : σ.root.clock.ticks < 2 ^ 64
  writer : σ.writer = .idle
  unsent : ∀ ev ∈ σ.unsent, ev.tick ≤ σ.root.clock.ticks
  handler : σ.handler = .waiting
  queue : σ.queue = []
  pdus : σ.pdus = []

/-! ## What is promised -/

def responseTick (clock : Clock) (response : QueryResult) : ℕ :=
  (ClockSpec.parse response.clock).tickAgainst clock

/-- A batch of this tick holds the lock or is on its way to the broadcast. -/
def InFlight (σ : State) (tick : ℕ) : Prop :=
  (∃ ev ∈ σ.unsent, ev.tick = tick) ∨ ∃ ev rest, σ.writer = .batch ev rest ∧ ev.tick = tick

/-- Some message has the row of the entry, shown as `shown`. -/
def Delivered (spec : QuerySpec) (name : String) (r : Root) (pdus : List Value) (shown : RelPath)
    (e : FileEntry) : Prop :=
  ∃ env result, unilateral name r.path result ∈ pdus ∧
    Field.renderRow env r.path shown e spec.fields r.clock ∈ result.files

/-- If the loop has processed every event broadcast so far, each live entry that matches the spec
and is younger than the clock of the response, and whose batch has been broadcast, was delivered. -/
def UpToDate (spec : QuerySpec) (name : String) (σ : State) : Prop :=
  ∀ response last, σ.handler = .pushing response last none → σ.queue = [] →
    ∀ p e env shown, σ.root.tree.get p = some e → e.live = true →
      responseTick σ.root.clock response < e.oclock → ¬ InFlight σ e.oclock →
      select env σ.root spec p e = some shown →
      Delivered spec name σ.root σ.pdus shown e

/-- The step opens no batch between the initial query and the read of the fence. -/
def NoBatchBehindFence (σ σ' : State) : Prop :=
  ∀ response, σ.handler.Between response → σ.writer = .idle → σ'.writer = .idle

/-! ## The invariant -/

/-- An event of this tick is with the loop or will reach it. -/
def Coming (σ : State) (tick : ℕ) : Prop :=
  (∃ response last ev, σ.handler = .pushing response last (some ev) ∧ ev.tick = tick) ∨
    (∃ ev ∈ σ.queue, ev.tick = tick) ∨ InFlight σ tick

/-- The entry was delivered if it matches. -/
def Settled (spec : QuerySpec) (name : String) (r : Root) (pdus : List Value) (p : RelPath)
    (e : FileEntry) : Prop :=
  ∀ env shown, select env r spec p e = some shown → Delivered spec name r pdus shown e

/-- What holds of the ticks of the root, of the batch at work and of the events on their way. -/
structure Ticking (σ : State) : Prop where
  full : σ.root.jjEvents = false
  bound : σ.root.clock.ticks < 2 ^ 64
  ticked : σ.root.WellTicked
  unsent_le : ∀ ev ∈ σ.unsent, ev.tick ≤ σ.root.clock.ticks
  queue_le : ∀ ev ∈ σ.queue, ev.tick ≤ σ.root.clock.ticks
  event_le : ∀ response last ev, σ.handler = .pushing response last (some ev) →
    ev.tick ≤ σ.root.clock.ticks
  writing : ∀ ev rest, σ.writer = .batch ev rest →
    1 ≤ ev.tick ∧ σ.root.oldestAvailableTick ≤ ev.tick ∧ ev.tick ≤ σ.root.clock.ticks

/-- Before the fence is read the tree has nothing younger than the response. -/
structure Behind (response : QueryResult) (σ : State) : Prop where
  idle : σ.writer = .idle
  oldest_le : σ.root.oldestAvailableTick ≤ responseTick σ.root.clock response
  entries_le : ∀ p e, σ.root.tree.get p = some e → e.oclock ≤ responseTick σ.root.clock response
  le_ticks : responseTick σ.root.clock response ≤ σ.root.clock.ticks

/-- In the loop whatever is younger than the response was delivered, or is past the fence and its
event is coming. -/
structure Ahead (spec : QuerySpec) (name : String) (response : QueryResult) (last : ℕ) (σ : State) :
    Prop where
  oldest_le : σ.root.oldestAvailableTick ≤ last
  le_ticks : last ≤ σ.root.clock.ticks
  writing : ∀ ev rest, σ.writer = .batch ev rest → last < ev.tick
  entries : ∀ p e, σ.root.tree.get p = some e → responseTick σ.root.clock response < e.oclock →
    Settled spec name σ.root σ.pdus p e ∨ (last < e.oclock ∧ Coming σ e.oclock)

structure Inv (spec : QuerySpec) (name : String) (σ : State) : Prop where
  ticking : Ticking σ
  behind : ∀ response, σ.handler.Between response → Behind response σ
  ahead : ∀ response last event, σ.handler = .pushing response last event →
    Ahead spec name response last σ

/-! ## Changes of the root that touch no entry -/

/-- The root changed at most its tick, its cursors and the tombstones it keeps. -/
structure Quiet (r r' : Root) : Prop where
  path : r'.path = r.path
  clock : Clock.Same r.clock r'.clock
  ticks_le : r.clock.ticks ≤ r'.clock.ticks
  jjEvents : r'.jjEvents = r.jjEvents
  oldest : r'.oldestAvailableTick = r.oldestAvailableTick
  tree : ∀ p e, r'.tree.get p = some e → r.tree.get p = some e

theorem Quiet.bump (r : Root) : Quiet r r.bump :=
  ⟨rfl, (Clock.Same.refl _).bump, Nat.le_succ _, rfl, rfl, fun _ _ h => h⟩

theorem Quiet.sweep {r : Root} (h : r.jjEvents = false) : Quiet r r.pruneTombstones.1 := by
  rw [Root.pruneTombstones_of_full h]
  exact ⟨rfl, .refl _, le_rfl, rfl, rfl, fun _ _ he => (r.tree.get_prune r.watermark).1 he⟩

theorem Quiet.query (env : Env) (spec : QuerySpec) (r : Root) : Quiet r (run env spec r).2 := by
  rcases root_run env spec r with h | ⟨name, h⟩ <;> rw [h]
  · exact ⟨rfl, .refl _, le_rfl, rfl, rfl, fun _ _ he => he⟩
  · exact ⟨rfl, .refl _, le_rfl, rfl, rfl, fun _ _ he => he⟩

theorem clock_run_root (env : Env) (spec : QuerySpec) (r : Root) :
    (run env spec r).2.clock = r.clock := by
  rcases root_run env spec r with h | ⟨name, h⟩ <;> rw [h]
  rfl

theorem Quiet.wellTicked {r r' : Root} (h : Quiet r r') (hr : r.WellTicked) : r'.WellTicked := by
  refine ⟨by rw [h.oldest]; exact hr.oldest_le.trans h.ticks_le, ?_⟩
  rw [h.oldest]
  intro p e he
  exact hr.entries.mono h.ticks_le p e (h.tree p e he)

theorem responseTick_same {c c' : Clock} (h : Clock.Same c c') :
    responseTick c' = responseTick c := by
  funext response
  unfold responseTick
  rw [h.tickAgainst]

section

variable {spec : QuerySpec} {name : String} {r r' : Root} {pdus pdus' : List Value}
  {p : RelPath} {e : FileEntry}

theorem Settled.mono (h : Settled spec name r pdus p e) (hpath : r'.path = r.path)
    (hclock : Clock.Same r.clock r'.clock) (hpdus : pdus ⊆ pdus') :
    Settled spec name r' pdus' p e := by
  intro env shown hselect
  rw [select_same hclock] at hselect
  obtain ⟨env', result, hmem, hrow⟩ := h env shown hselect
  refine ⟨env', result, ?_, ?_⟩
  · rw [hpath]
    exact hpdus hmem
  · rw [hpath, Field.renderRow_same hclock]
    exact hrow

end

section

variable {spec : QuerySpec} {name : String} {σ σ' : State} {response : QueryResult} {last : ℕ}

theorem Ticking.quiet (h : Ticking σ) {r' : Root} (hq : Quiet σ.root r')
    (hbound : r'.clock.ticks < 2 ^ 64) : Ticking { σ with root := r' } where
  full := hq.jjEvents.trans h.full
  bound := hbound
  ticked := hq.wellTicked h.ticked
  unsent_le ev hev := (h.unsent_le ev hev).trans hq.ticks_le
  queue_le ev hev := (h.queue_le ev hev).trans hq.ticks_le
  event_le res last ev hh := (h.event_le res last ev hh).trans hq.ticks_le
  writing ev rest hw := by
    obtain ⟨h1, h2, h3⟩ := h.writing ev rest hw
    exact ⟨h1, hq.oldest.trans_le h2, h3.trans hq.ticks_le⟩

theorem Behind.quiet (h : Behind response σ) {r' : Root} (hq : Quiet σ.root r') :
    Behind response { σ with root := r' } := by
  have htick := congrFun (responseTick_same hq.clock) response
  refine ⟨h.idle, ?_, ?_, ?_⟩
  · rw [hq.oldest, htick]
    exact h.oldest_le
  · intro p e he
    rw [htick]
    exact h.entries_le p e (hq.tree p e he)
  · rw [htick]
    exact h.le_ticks.trans hq.ticks_le

theorem Ahead.quiet (h : Ahead spec name response last σ) {r' : Root} (hq : Quiet σ.root r') :
    Ahead spec name response last { σ with root := r' } := by
  refine ⟨hq.oldest.trans_le h.oldest_le, h.le_ticks.trans hq.ticks_le, h.writing, ?_⟩
  intro p e he hlt
  rw [responseTick_same hq.clock] at hlt
  rcases h.entries p e (hq.tree p e he) hlt with hs | hc
  · exact .inl (hs.mono hq.path hq.clock (List.Subset.refl _))
  · exact .inr hc

theorem Inv.quiet (h : Inv spec name σ) {r' : Root} (hq : Quiet σ.root r')
    (hbound : r'.clock.ticks < 2 ^ 64) : Inv spec name { σ with root := r' } where
  ticking := h.ticking.quiet hq hbound
  behind response hb := (h.behind response hb).quiet hq
  ahead response last event hh := (h.ahead response last event hh).quiet hq

/-- A step that leaves the root and the messages alone keeps what the loop relies on if no event is
lost on its way. -/
theorem Ahead.mono (h : Ahead spec name response last σ) (hroot : σ'.root = σ.root)
    (hpdus : σ'.pdus = σ.pdus) (hw : ∀ ev rest, σ'.writer = .batch ev rest → last < ev.tick)
    (hc : ∀ t, last < t → Coming σ t → Coming σ' t) : Ahead spec name response last σ' := by
  refine ⟨?_, ?_, hw, ?_⟩
  · rw [hroot]
    exact h.oldest_le
  · rw [hroot]
    exact h.le_ticks
  · intro p e he hlt
    rw [hroot] at he hlt
    rcases h.entries p e he hlt with hs | ⟨hlast, hcoming⟩
    · rw [hroot, hpdus]
      exact .inl hs
    · exact .inr ⟨hlast, hc _ hlast hcoming⟩

end

/-! ## The steps of a batch -/

section Batch

variable {spec : QuerySpec} {name : String} {σ : State} {ev : TickEvent} {c : PathChange}
  {rest : List PathChange}

theorem Behind.not_writing {response : QueryResult} (h : Behind response σ)
    (hw : σ.writer = .batch ev rest) : False := by
  rw [h.idle] at hw
  cases hw

theorem Inv.openBatch (h : Inv spec name σ) (hidle : σ.writer = .idle)
    (hticks : σ.root.clock.bump.ticks < 2 ^ 64)
    (hfence : ∀ response, ¬ σ.handler.Between response) (arenaBytes : ℕ)
    (changes : List PathChange) :
    Inv spec name { σ with
      root := σ.root.openBatch arenaBytes
      writer := .batch ⟨σ.root.clock.bump.ticks, changes.map PathChange.rel⟩ changes } := by
  rw [Root.openBatch_of_full h.ticking.full]
  have hq := h.quiet (.bump σ.root) hticks
  refine ⟨{ hq.ticking with writing := ?_ }, fun response hb => absurd hb (hfence response), ?_⟩
  · rintro ev rest ⟨rfl, rfl⟩
    exact ⟨Clock.one_le_bump _, hq.ticking.ticked.oldest_le, le_rfl⟩
  · intro response last event hh
    refine (hq.ahead response last event hh).mono rfl rfl ?_ ?_
    · rintro ev rest ⟨rfl, rfl⟩
      exact Nat.lt_succ_of_le (h.ahead response last event hh).le_ticks
    · rintro t - (hev | hqueue | hunsent | ⟨ev, rest, hw, -⟩)
      · exact .inl hev
      · exact .inr (.inl hqueue)
      · exact .inr (.inr (.inl hunsent))
      · rw [hidle] at hw
        cases hw

theorem Inv.writeChange (h : Inv spec name σ) (hw : σ.writer = .batch ev (c :: rest)) :
    Inv spec name { σ with root := σ.root.writeChange ev.tick c, writer := .batch ev rest } := by
  obtain ⟨h1, ho, hn⟩ := h.ticking.writing _ _ hw
  refine ⟨{ h.ticking with ticked := h.ticking.ticked.writeChange h1 ho hn c, writing := ?_ },
    fun response hb => ((h.behind response hb).not_writing hw).elim, ?_⟩
  · rintro ev' rest' ⟨rfl, rfl⟩
    exact ⟨h1, ho, hn⟩
  · intro response last event hh
    have ha := h.ahead response last event hh
    have hlast := ha.writing _ _ hw
    refine ⟨ha.oldest_le, ha.le_ticks, ?_, ?_⟩
    · rintro ev' rest' ⟨rfl, rfl⟩
      exact hlast
    · intro p e he hlt
      -- the changed path carries the tick of the batch at work, whose event is still to come
      by_cases hp : p = c.rel
      · subst hp
        have htick := (Root.get_applyChange_rel he).1
        rw [htick]
        exact .inr ⟨hlast, .inr (.inr (.inr ⟨ev, rest, rfl, rfl⟩))⟩
      · have he' : σ.root.tree.get p = some e := (Root.get_applyChange_of_ne hp).symm.trans he
        rcases ha.entries p e he' hlt with hs | ⟨hle, hcoming⟩
        · exact .inl (hs.mono rfl (.refl _) (List.Subset.refl _))
        · refine .inr ⟨hle, ?_⟩
          rcases hcoming with hev | hqueue | hunsent | ⟨ev', rest', hw', htick⟩
          · exact .inl hev
          · exact .inr (.inl hqueue)
          · exact .inr (.inr (.inl hunsent))
          · rw [hw] at hw'
            cases hw'
            exact .inr (.inr (.inr ⟨ev, rest, rfl, htick⟩))

theorem Inv.release (h : Inv spec name σ) (hw : σ.writer = .batch ev []) :
    Inv spec name { σ with writer := .idle, unsent := ev :: σ.unsent } := by
  refine ⟨{ h.ticking with unsent_le := ?_, writing := ?_ },
    fun response hb => ((h.behind response hb).not_writing hw).elim, ?_⟩
  · exact List.forall_mem_cons.mpr ⟨(h.ticking.writing _ _ hw).2.2, h.ticking.unsent_le⟩
  · rintro ev' rest' ⟨⟩
  · intro response last event hh
    refine (h.ahead response last event hh).mono rfl rfl (by rintro ev' rest' ⟨⟩) ?_
    rintro t - (hev | hqueue | ⟨ev', hmem, htick⟩ | ⟨ev', rest', hw', htick⟩)
    · exact .inl hev
    · exact .inr (.inl hqueue)
    · exact .inr (.inr (.inl ⟨ev', List.mem_cons_of_mem _ hmem, htick⟩))
    · rw [hw] at hw'
      cases hw'
      exact .inr (.inr (.inl ⟨ev, List.mem_cons_self, htick⟩))

theorem Inv.broadcast (h : Inv spec name σ) (hev : ev ∈ σ.unsent) :
    Inv spec name { σ with
      unsent := σ.unsent.erase ev
      queue := if σ.handler.receives then σ.queue ++ [ev] else σ.queue } := by
  refine ⟨{ h.ticking with unsent_le := ?_, queue_le := ?_ }, ?_, ?_⟩
  · exact fun ev' hmem => h.ticking.unsent_le ev' (List.mem_of_mem_erase hmem)
  · intro ev' hmem
    have hmem' : ev' ∈ σ.queue ++ [ev] := by
      change ev' ∈ ite _ _ _ at hmem
      split_ifs at hmem
      · exact hmem
      · exact List.mem_append_left _ hmem
    rcases List.mem_append.mp hmem' with hq | hq
    · exact h.ticking.queue_le ev' hq
    · rw [List.mem_singleton.mp hq]
      exact h.ticking.unsent_le ev hev
  · intro response hb
    have := h.behind response hb
    exact ⟨this.idle, this.oldest_le, this.entries_le, this.le_ticks⟩
  · intro response last event hh
    have ha := h.ahead response last event hh
    refine ha.mono rfl rfl ha.writing ?_
    have hreceives : σ.handler.receives = true := by rw [hh]; rfl
    simp only [hreceives, if_true]
    rintro t - (hcur | ⟨ev', hmem, htick⟩ | ⟨ev', hmem, htick⟩ | hwriting)
    · exact .inl hcur
    · exact .inr (.inl ⟨ev', List.mem_append_left _ hmem, htick⟩)
    · by_cases heq : ev' = ev
      · subst heq
        exact .inr (.inl ⟨ev', List.mem_append_right _ (List.mem_singleton.mpr rfl), htick⟩)
      · exact .inr (.inr (.inl ⟨ev', (List.mem_erase_of_ne heq).mpr hmem, htick⟩))
    · exact .inr (.inr (.inr hwriting))

end Batch

/-! ## The steps of the handler -/

section Handler

variable {spec : QuerySpec} {name : String} {σ : State} {response : QueryResult}

theorem responseTick_run (env : Env) (spec : QuerySpec) {r : Root} (h : r.clock.ticks < 2 ^ 64) :
    responseTick r.clock (run env spec r).1 = r.clock.ticks := by
  unfold responseTick
  rw [clock_run, responseClock, ClockSpec.parse_encode _ h]
  simp [ClockSpec.tickAgainst, ClockSpec.Names]

theorem Inv.initialQuery (h : Inv spec name σ) (hidle : σ.writer = .idle) (env : Env) :
    Inv spec name { σ with
      root := (run env spec σ.root).2
      handler := .queried (run env spec σ.root).1 } := by
  have hclock := clock_run_root env spec σ.root
  have hq := h.ticking.quiet (.query env spec σ.root) (by rw [hclock]; exact h.ticking.bound)
  refine ⟨{ hq with event_le := by rintro res last ev ⟨⟩ }, ?_, by rintro res last event ⟨⟩⟩
  rintro res rfl
  have htick := responseTick_run env spec h.ticking.bound
  rw [← hclock] at htick
  exact ⟨hidle, htick ▸ hq.ticked.oldest_le,
    fun p e he => htick ▸ (hq.ticked.entries p e he).2.2, htick.le⟩

theorem Inv.between (h : Inv spec name σ) (hb : σ.handler.Between response) {handler : Handler}
    (hh : ∀ res, handler.Between res → res = response)
    (hp : ∀ res last event, handler ≠ .pushing res last event) {queue : List TickEvent}
    (hqueue : queue ⊆ σ.queue) : Inv spec name { σ with handler := handler, queue := queue } := by
  have hbehind := h.behind response hb
  refine ⟨{ h.ticking with
    queue_le := fun ev hev => h.ticking.queue_le ev (hqueue hev)
    event_le := fun res last ev heq => absurd heq (hp res last _) }, ?_,
    fun res last event heq => absurd heq (hp res last event)⟩
  intro res hres
  rw [hh res hres]
  exact ⟨hbehind.idle, hbehind.oldest_le, hbehind.entries_le, hbehind.le_ticks⟩

theorem Inv.startTick (h : Inv spec name σ) (hh : σ.handler = .subscribed response) :
    Inv spec name { σ with handler := .pushing response σ.root.clock.ticks none } := by
  have hbehind := h.behind response (by rw [hh]; exact rfl)
  refine ⟨{ h.ticking with event_le := by rintro res last ev ⟨⟩ }, ?_, ?_⟩
  · rintro res ⟨⟩
  · rintro res last event ⟨rfl, rfl, rfl⟩
    refine ⟨h.ticking.ticked.oldest_le, le_rfl, ?_, ?_⟩
    · intro ev rest hw
      exact (hbehind.not_writing hw).elim
    · intro p e he hlt
      exact absurd (hbehind.entries_le p e he) (not_le.mpr hlt)

end Handler

/-! ## The rounds of the loop -/

section Loop

variable {spec : QuerySpec} {name : String} {σ : State} {response : QueryResult} {last : ℕ}
  {ev : TickEvent}

theorem Inv.receive (h : Inv spec name σ) (hh : σ.handler = .pushing response last none)
    {rest : List TickEvent} (hq : σ.queue = ev :: rest) :
    Inv spec name { σ with handler := .pushing response last (some ev), queue := rest } := by
  have hle := h.ticking.queue_le
  rw [hq] at hle
  obtain ⟨hev, hrest⟩ := List.forall_mem_cons.mp hle
  refine ⟨{ h.ticking with queue_le := hrest, event_le := ?_ }, by rintro res ⟨⟩, ?_⟩
  · rintro res last' ev' ⟨rfl, rfl, rfl⟩
    exact hev
  · rintro res last' event ⟨rfl, rfl, rfl⟩
    have ha := h.ahead _ _ _ hh
    refine ha.mono rfl rfl ha.writing ?_
    rintro t - (⟨res', last', ev', hh', -⟩ | ⟨ev', hmem, htick⟩ | hflight)
    · rw [hh] at hh'
      cases hh'
    · rw [hq] at hmem
      rcases List.mem_cons.mp hmem with rfl | hmem
      · exact .inl ⟨response, last, ev', rfl, htick⟩
      · exact .inr (.inl ⟨ev', hmem, htick⟩)
    · exact .inr (.inr hflight)

theorem Inv.skip (h : Inv spec name σ) (hh : σ.handler = .pushing response last (some ev))
    (hle : ev.tick ≤ last) :
    Inv spec name { σ with handler := .pushing response last none } := by
  refine ⟨{ h.ticking with event_le := by rintro res last' ev' ⟨⟩ }, by rintro res ⟨⟩, ?_⟩
  rintro res last' event ⟨rfl, rfl, rfl⟩
  have ha := h.ahead _ _ _ hh
  refine ha.mono rfl rfl ha.writing ?_
  rintro t hlt (⟨res', last', ev', hh', htick⟩ | hcoming)
  · rw [hh] at hh'
    cases hh'
    omega
  · exact .inr hcoming

theorem select_pushSpec {env env' : Env} {r : Root} {clock : Clock} {t : ℕ} (ht : t < 2 ^ 64)
    {p shown : RelPath} {e : FileEntry} (h : select env r spec p e = some shown) :
    select env' r (pushSpec spec clock t) p e = some shown := by
  have hscm : resolveScmSet env' (pushSpec spec clock t) = none := resolveScmSet_encode ht rfl
  unfold select at h ⊢
  rw [hscm]
  -- the two specs differ in their clock only, which is not looked at from here on
  change (if IsCookie p then none
    else if spec.alwaysIncludeDirectories = false ∧ e.kind = .dir then none else _) = _
  split_ifs at h ⊢
  obtain ⟨shown', hshown, h⟩ := Option.bind_eq_some_iff.mp h
  obtain ⟨hall, h⟩ := Option.ite_none_right_eq_some.mp h
  simp only [Bool.and_eq_true] at hall
  refine Option.bind_eq_some_iff.mpr ⟨shown', hshown, ?_⟩
  refine Option.ite_none_right_eq_some.mpr ⟨?_, h⟩
  simp only [Bool.and_eq_true]
  exact ⟨⟨hall.1.1, trivial⟩, hall.2⟩

/-- A round delivers every entry past the fence that matches. -/
theorem delivered_push {r : Root} (hfull : r.jjEvents = false) (hold : r.oldestAvailableTick ≤ last)
    (hlast : last < 2 ^ 64) (env : Env) {p : RelPath} {e : FileEntry}
    (he : r.tree.get p = some e) (hpast : last < e.oclock) (pdus : List Value) :
    Settled spec name r
      (pdus ++ messages name r.path (run env (pushSpec spec r.clock last) r).1) p e := by
  intro env' shown hselect
  have hfresh : ¬ IsFresh r (pushSpec spec r.clock last) :=
    not_isFresh_encode hlast rfl (.refl _) hfull hold
  have hsince : sinceTick r (pushSpec spec r.clock last) = some last :=
    sinceTick_encode hlast rfl (.refl _)
  have hpast' : Past (sinceTick r (pushSpec spec r.clock last)) e := by
    rw [hsince]
    exact past_some.mpr hpast
  have hpush : select env r (pushSpec spec r.clock last) p e = some shown :=
    select_pushSpec hlast hselect
  have hrow := mem_files hfresh he hpast' hpush
  refine ⟨env, _, List.mem_append_right _ ?_, hrow⟩
  rw [messages_of_row hrow]
  exact List.mem_singleton.mpr rfl

theorem Inv.push (h : Inv spec name σ) (hh : σ.handler = .pushing response last (some ev))
    (hlt : last < ev.tick) (hidle : σ.writer = .idle) (env : Env) :
    Inv spec name { σ with
      root := (run env (pushSpec spec σ.root.clock last) σ.root).2
      handler := .pushing response ev.tick none
      pdus := σ.pdus ++ messages name σ.root.path
        (run env (pushSpec spec σ.root.clock last) σ.root).1 } := by
  have ha := h.ahead _ _ _ hh
  have hquiet := Quiet.query env (pushSpec spec σ.root.clock last) σ.root
  have hclock := clock_run_root env (pushSpec spec σ.root.clock last) σ.root
  have hround : ∀ p e, σ.root.tree.get p = some e → last < e.oclock →
      Settled spec name σ.root (σ.pdus ++ messages name σ.root.path
        (run env (pushSpec spec σ.root.clock last) σ.root).1) p e := by
    intro p e he hpast
    exact delivered_push h.ticking.full ha.oldest_le (ha.le_ticks.trans_lt h.ticking.bound) env he
      hpast σ.pdus
  generalize run env (pushSpec spec σ.root.clock last) σ.root = answer at hquiet hclock hround ⊢
  have hq := h.ticking.quiet hquiet (by rw [hclock]; exact h.ticking.bound)
  refine ⟨{ hq with event_le := by rintro res last' ev' ⟨⟩ }, by rintro res ⟨⟩, ?_⟩
  rintro res last' event ⟨rfl, rfl, rfl⟩
  refine ⟨hquiet.oldest.trans_le (ha.oldest_le.trans hlt.le), hq.event_le response last ev hh,
    ?_, ?_⟩
  · intro ev' rest hw
    rw [hidle] at hw
    cases hw
  · intro p e he hyoung
    rw [responseTick_same hquiet.clock] at hyoung
    have he' := hquiet.tree p e he
    left
    rcases ha.entries p e he' hyoung with hs | ⟨hpast, -⟩
    · exact hs.mono hquiet.path hquiet.clock (List.subset_append_left _ _)
    · exact (hround p e he' hpast).mono hquiet.path hquiet.clock (List.Subset.refl _)

end Loop

/-! ## Batches that are not interrupted -/

/-- A batch whose steps follow each other is `applyChanges`. -/
theorem run_applyChanges (spec : QuerySpec) (name : String) {σ : State} (hidle : σ.writer = .idle)
    (hticks : σ.root.clock.bump.ticks < 2 ^ 64) (arenaBytes : ℕ) (changes : List PathChange) :
    Run (fun s s' => Step spec name s s' ∧ s.handler = σ.handler) σ { σ with
      root := (σ.root.applyChanges arenaBytes changes).1
      unsent := (σ.root.applyChanges arenaBytes changes).2 :: σ.unsent } := by
  have hwrite : ∀ (ev : TickEvent) (rest : List PathChange) (r : Root),
      Run (fun s s' => Step spec name s s' ∧ s.handler = σ.handler)
        { σ with root := r, writer := .batch ev rest }
        { σ with root := rest.foldl (Root.writeChange ev.tick) r, writer := .batch ev [] } := by
    intro ev rest
    induction rest with
    | nil => exact fun r => .refl
    | cons c rest ih => exact fun r => .head ⟨.writeChange rfl, rfl⟩ (ih _)
  refine .head ⟨.openBatch arenaBytes changes hidle hticks, rfl⟩ ?_
  refine (hwrite _ _ _).tail ?_
  obtain ⟨root, writer, unsent, handler, queue, pdus⟩ := σ
  dsimp only at hidle
  subst hidle
  exact ⟨.release rfl, rfl⟩

/-! ## Whole runs -/

/-- The invariant through one step that opens no batch behind the fence. -/
theorem Inv.step {spec : QuerySpec} {name : String} {σ σ' : State} (h : Inv spec name σ)
    (hs : Step spec name σ σ') (hfence : NoBatchBehindFence σ σ') : Inv spec name σ' := by
  cases hs with
  | openBatch arenaBytes changes hidle hticks =>
    refine h.openBatch hidle hticks ?_ arenaBytes changes
    intro response hb
    cases hfence response hb hidle
  | writeChange hw => exact h.writeChange hw
  | release hw => exact h.release hw
  | broadcast hev => exact h.broadcast hev
  | bump hticks => exact h.quiet (.bump _) hticks
  | sweep hidle =>
    refine h.quiet (.sweep h.ticking.full) ?_
    rw [Root.pruneTombstones_of_full h.ticking.full]
    exact h.ticking.bound
  | initialQuery env hh hidle => exact h.initialQuery hidle env
  | @addSubscription _ response hh =>
    have hb : σ.handler.Between response := by rw [hh]; exact rfl
    refine h.between hb ?_ ?_ (List.Subset.refl _)
    · rintro res rfl
      rfl
    · rintro res last event ⟨⟩
  | @subscribe _ response hh =>
    have hb : σ.handler.Between response := by rw [hh]; exact rfl
    refine h.between hb ?_ ?_ (List.nil_subset _)
    · rintro res rfl
      rfl
    · rintro res last event ⟨⟩
  | startTick hh => exact h.startTick hh
  | receive hh hq => exact h.receive hh hq
  | skip hh hle => exact h.skip hh hle
  | push env hh hlt hidle => exact h.push hh hlt hidle env

theorem Inv.start {spec : QuerySpec} {name : String} {σ : State} (h : Start σ) :
    Inv spec name σ := by
  obtain ⟨env, r, entries, hr, hroot⟩ := h.promoted
  have hticked : σ.root.WellTicked := by
    rw [hroot]
    exact hr.wellTicked.step (Root.Step.promote entries r : Root.Step env r _)
  have hfull : σ.root.jjEvents = false := by
    rw [hroot, Root.promoteToFull]
    split_ifs with hjj
    · rfl
    · simpa using hjj
  refine ⟨⟨hfull, h.ticks, hticked, h.unsent, by simp [h.queue], ?_, ?_⟩, ?_, ?_⟩
  · intro res last ev hh
    rw [h.handler] at hh
    cases hh
  · intro ev rest hw
    rw [h.writer] at hw
    cases hw
  · intro res hb
    rw [h.handler] at hb
    cases hb
  · intro res last event hh
    rw [h.handler] at hh
    cases hh

theorem Inv.upToDate {spec : QuerySpec} {name : String} {σ : State} (h : Inv spec name σ) :
    UpToDate spec name σ := by
  intro response last hh hq p e env shown he _ hlt hflight hselect
  rcases (h.ahead _ _ _ hh).entries p e he hlt with hs | ⟨-, hcoming⟩
  · exact hs env shown hselect
  · rcases hcoming with ⟨res, last', ev, hh', -⟩ | ⟨ev, hmem, -⟩ | hf
    · rw [hh] at hh'
      cases hh'
    · rw [hq] at hmem
      cases hmem
    · exact absurd hf hflight

/-- **Subscriptions.** In every run in which no batch is opened between the initial query and the
read of the fence, whenever the loop has processed every event broadcast so far, each live entry
that matches the spec and is younger than the response was delivered. -/
theorem changes_pushed (spec : QuerySpec) (name : String) {σ₀ σ : State} (hstart : Start σ₀)
    (hrun : Run (fun s s' => Step spec name s s' ∧ NoBatchBehindFence s s') σ₀ σ) :
    UpToDate spec name σ := by
  refine Inv.upToDate (hrun.preserves ?_ (Inv.start hstart))
  rintro s s' h ⟨hs, hfence⟩
  exact h.step hs hfence

/-! ## A file that appears around a subscription -/

/-- A client about to subscribe to a root with the one file `a`. -/
def subscribing : State := ⟨oneFile, .idle, [], .waiting, [], []⟩

theorem start_subscribing : Start subscribing :=
  ⟨⟨emptyEnv, oneFile, [], reached_oneFile, rfl⟩, by decide, rfl, by simp [subscribing], rfl, rfl,
    rfl⟩

/-- The root once a second file has appeared, and the event of that batch. -/
def secondFile : Root × TickEvent := oneFile.applyChanges 0 [.upsert [[0x62]] someFile none]

def firstAnswer : QueryResult := (run emptyEnv everything oneFile).1

def looping : State := ⟨oneFile, .idle, [], .pushing firstAnswer 2 none, [], []⟩

def pushed : State :=
  let answer := run emptyEnv (pushSpec everything secondFile.1.clock 2) secondFile.1
  ⟨answer.2, .idle, [], .pushing firstAnswer 3 none, [], messages "s" [] answer.1⟩

/-- The second file appears once the loop is at work. -/
theorem changes_pushed_secondFile :
    Start subscribing ∧ pushed.handler = .pushing firstAnswer 3 none ∧
      UpToDate everything "s" pushed := by
  refine ⟨start_subscribing, rfl, changes_pushed everything "s" start_subscribing ?_⟩
  have hloop : Run (fun s s' => Step everything "s" s s' ∧ NoBatchBehindFence s s') subscribing
      looping :=
    .tail (.tail (.tail (.single ⟨.initialQuery emptyEnv rfl rfl, fun _ _ h => h⟩)
      ⟨.addSubscription rfl, fun _ _ h => h⟩) ⟨.subscribe rfl, fun _ _ h => h⟩)
      ⟨.startTick rfl, fun _ _ h => h⟩
  have hcalm : ∀ (s s' : State) (event : Option TickEvent),
      s.handler = .pushing firstAnswer 2 event → NoBatchBehindFence s s' := by
    intro s s' event hh res hb
    rw [hh] at hb
    cases hb
  have hbatch := @run_applyChanges everything "s" looping rfl (by decide) 0
    [.upsert [[0x62]] someFile none]
  have hsend : Step everything "s"
      ⟨secondFile.1, .idle, [secondFile.2], .pushing firstAnswer 2 none, [], []⟩
      ⟨secondFile.1, .idle, [], .pushing firstAnswer 2 none, [secondFile.2], []⟩ :=
    @Step.broadcast everything "s" _ secondFile.2 (List.mem_singleton.mpr rfl)
  have hreceive : Step everything "s"
      ⟨secondFile.1, .idle, [], .pushing firstAnswer 2 none, [secondFile.2], []⟩
      ⟨secondFile.1, .idle, [], .pushing firstAnswer 2 (some secondFile.2), [], []⟩ :=
    .receive rfl rfl
  have hpast : 2 < secondFile.2.tick := by decide
  have hpush : Step everything "s"
      ⟨secondFile.1, .idle, [], .pushing firstAnswer 2 (some secondFile.2), [], []⟩ pushed :=
    .push emptyEnv rfl hpast rfl
  refine (hloop.trans (hbatch.weaken fun s s' h => ⟨h.1, hcalm s s' _ h.2⟩)).trans ?_
  exact .tail (.tail (.single ⟨hsend, hcalm _ _ _ rfl⟩) ⟨hreceive, hcalm _ _ _ rfl⟩)
    ⟨hpush, hcalm _ _ _ rfl⟩

def answered : State := ⟨oneFile, .idle, [], .queried firstAnswer, [], []⟩

/-- The loop when the second file appeared just before the fence was read. -/
def fenced : State := ⟨secondFile.1, .idle, [], .pushing firstAnswer 3 none, [], []⟩

/-- The file is younger than the response, its event was broadcast before the loop listened, and no
message names it. -/
theorem batch_behind_fence_lost :
    Start subscribing ∧ Run (Step everything "s") subscribing fenced ∧
      ¬ UpToDate everything "s" fenced := by
  refine ⟨start_subscribing, ?_, ?_⟩
  · have hbatch := @run_applyChanges everything "s" answered rfl (by decide) 0
      [.upsert [[0x62]] someFile none]
    have hsent : secondFile.2 ∈ [secondFile.2] := List.mem_singleton.mpr rfl
    refine .head (.initialQuery emptyEnv rfl rfl) ((hbatch.weaken fun s s' h => h.1).trans ?_)
    exact .tail (.tail (.tail (.single (.broadcast hsent)) (.addSubscription rfl))
      (.subscribe rfl)) (.startTick rfl)
  · intro h
    obtain ⟨e, he, hlive, htick⟩ : ∃ e, fenced.root.tree.get [[0x62]] = some e ∧ e.live = true ∧
        e.oclock = 3 := ⟨_, rfl, rfl, rfl⟩
    have hyoung : responseTick fenced.root.clock firstAnswer < e.oclock := by
      have hresponse : responseTick oneFile.clock firstAnswer = oneFile.clock.ticks :=
        responseTick_run emptyEnv everything (by decide)
      rw [htick]
      exact hresponse.trans_lt (by decide)
    have hflight : ¬ InFlight fenced e.oclock := by
      rintro (⟨ev, hev, -⟩ | ⟨ev, rest, hw, -⟩)
      · cases hev
      · cases hw
    have hselect : select emptyEnv fenced.root everything [[0x62]] e = some [[0x62]] := rfl
    obtain ⟨env, result, hmem, -⟩ :=
      h firstAnswer 3 rfl rfl [[0x62]] e emptyEnv [[0x62]] he hlive hyoung hflight hselect
    cases hmem

end Watchwoman.Subscribe
