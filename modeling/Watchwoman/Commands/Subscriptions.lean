import Watchwoman.Commands.Loops

/-!
# Subscriptions, their push loops and the sweeps

Any number of sessions subscribe on one root. `subscribe` puts an entry under the subscription's name
into the registry of the root and starts a push loop; `unsubscribe` takes the entry out. The loop
itself never looks at the registry: it ends when it finds its session closed, and then takes the entry
of its name out, whoever put it there. `gc::sweep` counts the entries and the triggers, compares the
idle time and unregisters the root, each a step of its own.

An unsubscribed loop whose session stays open goes on sending (`unsubscribed_loop_sends`). If the
sessions of the loops of a name are closed by the time the name is unsubscribed, nothing is sent after
it (`unsubscribe_stops_delivery`).
-/

namespace Watchwoman.Subscriptions

open Transition Query Subscribe Loops

/-! ## Push loops -/

/-- Where a subscription is: with its handler up to `subscribed`, then in its push loop. -/
inductive Phase where
  | absent
  /-- The handler has looked the root up. -/
  | resolved
  | promoted
  /-- The initial query is answered. -/
  | queried
  /-- The entry is in the registry. -/
  | registered
  /-- The receiver exists and the start tick has not been read. -/
  | subscribed
  | listening
  | handling (ev : TickEvent) (iteration : ℕ)
  /-- The session was open when the loop looked. -/
  | checked (ev : TickEvent) (iteration : ℕ)
  | sending (message : Value) (iteration : ℕ)
  /-- Out of the loop, the entry not taken out. -/
  | leaving
  | ended

namespace Phase

/-- From the entry in the registry to the end of the loop. -/
def Present : Phase → Prop
  | .absent => False
  | .resolved => False
  | .promoted => False
  | .queried => False
  | .ended => False
  | _ => True

/-- The receiver of the broadcast exists. -/
def receives : Phase → Bool
  | .absent => false
  | .resolved => false
  | .promoted => false
  | .queried => false
  | .registered => false
  | _ => true

/-- The number of the iteration the loop is in. -/
def iteration : Phase → Option ℕ
  | .handling _ n => some n
  | .checked _ n => some n
  | .sending _ n => some n
  | _ => none

def afterQuery (iteration : ℕ) : List Value → Phase
  | [] => .listening
  | message :: _ => .sending message iteration

end Phase

/-- `SubscriptionSpec` -/
structure SubscriptionSpec where
  name : String
  query : QuerySpec

/-- The last field is not read by any step: the name was unsubscribed after the entry was made. -/
structure LoopState where
  spec : SubscriptionSpec
  session : ℕ
  phase : Phase
  lastTick : ℕ
  queue : List TickEvent
  unsubscribed : Bool

namespace LoopState

def name (l : LoopState) : String := l.spec.name

def Present (l : LoopState) : Prop := l.phase.Present

def hear (ev : TickEvent) (l : LoopState) : LoopState :=
  if l.phase.receives then { l with queue := Lagging.send tickChannelCapacity l.queue ev } else l

end LoopState

/-- A message on the queue of a session, with the iteration that put it there. -/
structure Pdu where
  session : ℕ
  iteration : ℕ
  message : Value

def Named (name : String) (message : Value) : Prop :=
  ∃ fields, message = .object fields ∧ fields.lookup "subscription" = some (.string name)

/-! ## Sweeps -/

inductive ReapReason where
  | dead
  | stale
  deriving DecidableEq

/-- Where a sweep is with the root. -/
inductive Sweep where
  | idle
  /-- The directory is there. -/
  | found (staleSecs : ℕ)
  | noSubscriptions (staleSecs : ℕ)
  | noTriggers (staleSecs : ℕ)
  | reaping (reason : ReapReason)
  | pruning
  deriving DecidableEq

/-- Consecutive sweeps that miss the directory before the root is reaped as dead. -/
def deadTickThreshold : ℕ := 2

/-! ## The system -/

/-- The last two fields are not read by any step: what was sent, and the number of the first
iteration after the `unsubscribe` of a name. -/
structure State where
  root : Root
  /-- The root is in the map of the daemon. -/
  registered : Bool
  /-- The last reference to the root is gone. -/
  dropped : Bool
  /-- The events of batches that are not broadcast yet. -/
  unsent : List TickEvent
  subscriptions : HashMap String SubscriptionSpec
  triggers : HashMap String Trigger
  unixNow : ℕ
  lastUsed : ℕ
  missingTicks : ℕ
  loops : ℕ → LoopState
  /-- The sessions whose client is gone. -/
  closed : ℕ → Bool
  sweeps : ℕ → Sweep
  iterations : ℕ
  sent : List Pdu
  stopped : HashMap String ℕ

namespace State

def idleSeconds (σ : State) : ℕ := σ.unixNow - σ.lastUsed

/-- The next check of a sweep. -/
def examine (σ : State) : Sweep → Sweep
  | .found staleSecs =>
    if 0 < staleSecs ∧ σ.subscriptions.entries.length = 0 then .noSubscriptions staleSecs
    else .pruning
  | .noSubscriptions staleSecs =>
    if σ.triggers.entries.length = 0 then .noTriggers staleSecs else .pruning
  | .noTriggers staleSecs =>
    if staleSecs ≤ σ.idleSeconds then .reaping .stale else .pruning
  | sweep => sweep

/-- The sweep `j` unregisters the root. -/
def reap (σ : State) (j : ℕ) : State :=
  { σ with registered := false, sweeps := Function.update σ.sweeps j .idle }

/-- The entry of the name is taken out by `unsubscribe`. -/
def unsubscribe (σ : State) (name : String) : State :=
  { σ with
    subscriptions := σ.subscriptions.erase name
    loops := fun i =>
      if (σ.loops i).name = name then { σ.loops i with unsubscribed := true } else σ.loops i
    stopped := σ.stopped.insert name σ.iterations }

end State

/-- An operation of the root and the events it hands to the broadcast. Ticks stay within the `u64`
counter. -/
inductive Publishes (r : Root) : Root → List TickEvent → Prop
  | batch (arenaBytes : ℕ) (changes : List PathChange) (hticks : r.clock.bump.ticks < 2 ^ 64) :
    Publishes r (r.applyChanges arenaBytes changes).1 [(r.applyChanges arenaBytes changes).2]
  | invalidate (hticks : r.clock.bump.ticks < 2 ^ 64) :
    Publishes r r.invalidateJjEvents.1 r.invalidateJjEvents.2.toList
  /-- Another operation. -/
  | other (env : Env) {r' : Root} (hs : Root.Step env r r') (hticks : r'.clock.ticks < 2 ^ 64) :
    Publishes r r' []

/-- What the handler of a subscription or its push loop does by itself. -/
inductive Move (σ : State) (l : LoopState) : LoopState → Root → Prop
  | promote (entries : List ScanEntry) (hphase : l.phase = .resolved) :
    Move σ l { l with phase := .promoted } (σ.root.promoteToFull entries)
  | initialQuery (env : Env) (hphase : l.phase = .promoted) :
    Move σ l { l with phase := .queried } (run env l.spec.query σ.root).2
  | subscribe (hphase : l.phase = .registered) :
    Move σ l { l with phase := .subscribed, queue := [] } σ.root
  | start (hphase : l.phase = .subscribed) :
    Move σ l { l with phase := .listening, lastTick := σ.root.clock.ticks } σ.root
  | check {ev : TickEvent} {n : ℕ} (hphase : l.phase = .handling ev n)
    (hopen : σ.closed l.session = false) :
    Move σ l { l with phase := .checked ev n } σ.root
  | abandon {ev : TickEvent} {n : ℕ} (hphase : l.phase = .handling ev n)
    (hclosed : σ.closed l.session = true) :
    Move σ l { l with phase := .leaving } σ.root
  | skip {ev : TickEvent} {n : ℕ} (hphase : l.phase = .checked ev n) (hle : ev.tick ≤ l.lastTick) :
    Move σ l { l with phase := .listening } σ.root
  | query (env : Env) {ev : TickEvent} {n : ℕ} (hphase : l.phase = .checked ev n)
    (hlt : l.lastTick < ev.tick) :
    Move σ l
      { l with
        phase := .afterQuery n (messages l.name σ.root.path
          (run env (pushSpec l.spec.query σ.root.clock l.lastTick) σ.root).1)
        lastTick := ev.tick }
      (run env (pushSpec l.spec.query σ.root.clock l.lastTick) σ.root).2
  | fail {message : Value} {n : ℕ} (hphase : l.phase = .sending message n)
    (hclosed : σ.closed l.session = true) :
    Move σ l { l with phase := .leaving } σ.root
  /-- The channel is closed, or the reference to the root cannot be upgraded. -/
  | close (hphase : l.phase = .listening ∨ (∃ ev n, l.phase = .handling ev n) ∨ l.phase = .leaving)
    (hdropped : σ.dropped = true) :
    Move σ l { l with phase := .ended } σ.root

/-- One step of the root, of a command, of a loop or of a sweep. -/
inductive Step : State → State → Prop
  | root {σ : State} {r : Root} {events : List TickEvent} (h : Publishes σ.root r events) :
    Step σ { σ with root := r, unsent := events ++ σ.unsent }
  | broadcast {σ : State} {ev : TickEvent} (hev : ev ∈ σ.unsent) :
    Step σ { σ with unsent := σ.unsent.erase ev, loops := fun i => (σ.loops i).hear ev }
  | tick (now : ℕ) {σ : State} : Step σ { σ with unixNow := now }
  /-- A command looks the root up. -/
  | touch {σ : State} (hregistered : σ.registered = true) : Step σ { σ with lastUsed := σ.unixNow }
  /-- The command is `subscribe`. -/
  | resolve (i : ℕ) (spec : SubscriptionSpec) (session : ℕ) {σ : State}
    (hphase : (σ.loops i).phase = .absent) (hregistered : σ.registered = true) :
    Step σ { σ with
      lastUsed := σ.unixNow
      loops := Function.update σ.loops i ⟨spec, session, .resolved, 0, [], false⟩ }
  | move (i : ℕ) {σ : State} {l : LoopState} {r : Root} (h : Move σ (σ.loops i) l r) :
    Step σ { σ with root := r, loops := Function.update σ.loops i l }
  | addSubscription (i : ℕ) {σ : State} (hphase : (σ.loops i).phase = .queried) :
    Step σ { σ with
      subscriptions := σ.subscriptions.insert (σ.loops i).name (σ.loops i).spec
      loops := Function.update σ.loops i
        { σ.loops i with phase := .registered, unsubscribed := false }
      stopped := σ.stopped.erase (σ.loops i).name }
  | receive (i : ℕ) {σ : State} {ev : TickEvent} {rest : List TickEvent}
    (hphase : (σ.loops i).phase = .listening) (hq : (σ.loops i).queue = ev :: rest) :
    Step σ { σ with
      loops := Function.update σ.loops i
        { σ.loops i with phase := .handling ev σ.iterations, queue := rest }
      iterations := σ.iterations + 1 }
  | send (i : ℕ) {σ : State} {message : Value} {n : ℕ}
    (hphase : (σ.loops i).phase = .sending message n)
    (hopen : σ.closed (σ.loops i).session = false) :
    Step σ { σ with
      loops := Function.update σ.loops i { σ.loops i with phase := .listening }
      sent := ⟨(σ.loops i).session, n, message⟩ :: σ.sent }
  | leave (i : ℕ) {σ : State} (hphase : (σ.loops i).phase = .leaving) :
    Step σ { σ with
      subscriptions := σ.subscriptions.erase (σ.loops i).name
      loops := Function.update σ.loops i { σ.loops i with phase := .ended } }
  /-- Without an entry nothing changes and the response says so. -/
  | unsubscribe (name : String) {σ : State} (hentry : σ.subscriptions.lookup name ≠ none) :
    Step σ (σ.unsubscribe name)
  | disconnect (session : ℕ) {σ : State} :
    Step σ { σ with closed := Function.update σ.closed session true }
  | installTrigger (t : Trigger) {σ : State} :
    Step σ { σ with triggers := σ.triggers.insert t.name t }
  | removeTrigger (name : String) {σ : State} :
    Step σ { σ with triggers := σ.triggers.erase name }
  | watchDel {σ : State} : Step σ { σ with registered := false }
  | drop {σ : State} (hregistered : σ.registered = false) : Step σ { σ with dropped := true }
  | findMissing (j : ℕ) {σ : State} (hsweep : σ.sweeps j = .idle)
    (hregistered : σ.registered = true) :
    Step σ { σ with
      missingTicks := σ.missingTicks + 1
      sweeps := Function.update σ.sweeps j
        (if deadTickThreshold ≤ σ.missingTicks + 1 then .reaping .dead else .idle) }
  | findPresent (j staleSecs : ℕ) {σ : State} (hsweep : σ.sweeps j = .idle)
    (hregistered : σ.registered = true) :
    Step σ { σ with
      missingTicks := 0
      sweeps := Function.update σ.sweeps j (.found staleSecs) }
  | examine (j : ℕ) {σ : State} :
    Step σ { σ with sweeps := Function.update σ.sweeps j (σ.examine (σ.sweeps j)) }
  | prune (j : ℕ) {σ : State} (hsweep : σ.sweeps j = .pruning) :
    Step σ { σ with
      root := σ.root.pruneTombstones.1
      sweeps := Function.update σ.sweeps j .idle }
  | reap (j : ℕ) {σ : State} {reason : ReapReason} (hsweep : σ.sweeps j = .reaping reason) :
    Step σ (σ.reap j)

/-- A root with any triggers, before any subscription. -/
structure Start (σ : State) : Prop where
  reached : ∃ env, Root.Reached env σ.root
  subscriptions : σ.subscriptions = ∅
  loops : ∀ i, (σ.loops i).phase = .absent
  sweeps : ∀ j, σ.sweeps j = .idle
  sent : σ.sent = []
  stopped : σ.stopped = ∅

/-! ## What a loop does by itself -/

section Moves

variable {σ : State} {l l' : LoopState} {r : Root}

theorem named_of_mem_messages {name : String} {path : List Name} {result : QueryResult}
    {message : Value} (h : message ∈ messages name path result) : Named name message := by
  unfold messages at h
  split_ifs at h
  · cases h
  · obtain rfl := List.mem_singleton.mp h
    exact ⟨_, rfl, rfl⟩

theorem Named.unique {name name' : String} {message : Value} (h : Named name message)
    (h' : Named name' message) : name' = name := by
  obtain ⟨fields, rfl, hname⟩ := h
  obtain ⟨fields', hfields, hname'⟩ := h'
  obtain rfl := Value.object.inj hfields
  rw [hname] at hname'
  exact (Value.string.inj (Option.some.inj hname')).symm

theorem afterQuery_cases (n : ℕ) (values : List Value) :
    Phase.afterQuery n values = .listening ∨
      ∃ message ∈ values, Phase.afterQuery n values = .sending message n := by
  cases values with
  | nil => exact .inl rfl
  | cons message rest => exact .inr ⟨message, List.mem_cons_self, rfl⟩

theorem Move.keeps (h : Move σ l l' r) :
    l'.spec = l.spec ∧ l'.session = l.session ∧ l'.unsubscribed = l.unsubscribed := by
  cases h <;> exact ⟨rfl, rfl, rfl⟩

theorem Move.name_eq (h : Move σ l l' r) : l'.name = l.name :=
  congrArg SubscriptionSpec.name h.keeps.1

theorem Move.present (h : Move σ l l' r) (hpresent : l'.Present) : l.Present := by
  unfold LoopState.Present at *
  cases h with
  | promote entries hphase => cases hpresent
  | initialQuery env hphase => cases hpresent
  | subscribe hphase => rw [hphase]; trivial
  | start hphase => rw [hphase]; trivial
  | check hphase hopen => rw [hphase]; trivial
  | abandon hphase hclosed => rw [hphase]; trivial
  | skip hphase hle => rw [hphase]; trivial
  | query env hphase hlt => rw [hphase]; trivial
  | fail hphase hclosed => rw [hphase]; trivial
  | close hphase hdropped => cases hpresent

theorem Move.leaving (h : Move σ l l' r) (hphase : l'.phase = .leaving) :
    σ.closed l.session = true := by
  cases h with
  | abandon _ hclosed => exact hclosed
  | fail _ hclosed => exact hclosed
  | @query env ev n =>
    dsimp only at hphase
    obtain hq | ⟨m, -, hq⟩ := afterQuery_cases n (messages l.name σ.root.path _) <;>
      rw [hq] at hphase <;> cases hphase
  | _ => cases hphase

theorem Move.sending (h : Move σ l l' r) {message : Value} {n : ℕ}
    (hphase : l'.phase = .sending message n) : Named l.name message := by
  cases h with
  | @query env ev n' =>
    dsimp only at hphase
    obtain hq | ⟨m, hm, hq⟩ := afterQuery_cases n' (messages l.name σ.root.path _) <;>
      rw [hq] at hphase
    · cases hphase
    · obtain ⟨rfl, rfl⟩ := Phase.sending.inj hphase
      exact named_of_mem_messages hm
  | _ => cases hphase

theorem Move.iteration (h : Move σ l l' r) {n : ℕ} (hn : l'.phase.iteration = some n) :
    l.phase.iteration = some n := by
  cases h with
  | check hphase hopen => rw [hphase]; exact hn
  | @query env ev n' hphase hlt =>
    rw [hphase]
    dsimp only at hn
    obtain hq | ⟨m, -, hq⟩ := afterQuery_cases n' (messages l.name σ.root.path _) <;>
      rw [hq] at hn
    · cases hn
    · exact hn
  | _ => cases hn

end Moves

/-! ## What is promised -/

/-- No iteration after the `unsubscribe` of a name sends a message of that name. -/
def StopsDelivery (σ : State) : Prop :=
  ∀ name k, σ.stopped.lookup name = some k → ∀ pdu ∈ σ.sent, Named name pdu.message →
    pdu.iteration < k

/-- The step unsubscribes no name of which a loop with an open session is there. -/
def NoOpenLoop (σ σ' : State) : Prop :=
  ∀ name, σ.subscriptions.lookup name ≠ none → σ' = σ.unsubscribe name →
    ∀ i, (σ.loops i).Present → (σ.loops i).name = name → σ.closed (σ.loops i).session = true

/-! ## The invariant -/

/-- What holds of one loop: its iteration has begun, it sends what is its own, and its session is
closed if its name is unsubscribed. -/
structure LoopOk (iterations : ℕ) (closed : ℕ → Bool) (stopped : HashMap String ℕ)
    (l : LoopState) : Prop where
  iteration_lt : ∀ n, l.phase.iteration = some n → n < iterations
  named : ∀ message n, l.phase = .sending message n → Named l.name message
  silent : ∀ k, stopped.lookup l.name = some k → l.Present → closed l.session = true

structure Inv (σ : State) : Prop where
  sent_lt : ∀ pdu ∈ σ.sent, pdu.iteration < σ.iterations
  loops : ∀ i, LoopOk σ.iterations σ.closed σ.stopped (σ.loops i)
  stops : StopsDelivery σ

section Steps

variable {σ σ' : State} {l l' : LoopState} {i : ℕ} {iterations : ℕ} {closed : ℕ → Bool}
  {stopped : HashMap String ℕ}

theorem name_hear (ev : TickEvent) (l : LoopState) : (l.hear ev).name = l.name ∧
    (l.hear ev).session = l.session ∧ (l.hear ev).phase = l.phase ∧
      (l.hear ev).unsubscribed = l.unsubscribed := by
  unfold LoopState.hear
  split_ifs
  · exact ⟨rfl, rfl, rfl, rfl⟩
  · exact ⟨rfl, rfl, rfl, rfl⟩

theorem closed_update {s : ℕ} (h : closed s = true) (session : ℕ) :
    Function.update closed session true s = true := by
  by_cases hs : s = session
  · rw [hs, Function.update_self]
  · rw [Function.update_of_ne hs]
    exact h

theorem LoopOk.of_eq (h : LoopOk iterations closed stopped l) (hname : l'.name = l.name)
    (hsession : l'.session = l.session) (hphase : l'.phase = l.phase) :
    LoopOk iterations closed stopped l' := by
  refine ⟨?_, ?_, ?_⟩
  · rw [hphase]
    exact h.iteration_lt
  · rw [hphase, hname]
    exact h.named
  · unfold LoopState.Present
    rw [hname, hsession, hphase]
    exact h.silent

theorem LoopOk.move {r : Root} (h : LoopOk iterations σ.closed stopped l) (hm : Move σ l l' r) :
    LoopOk iterations σ.closed stopped l' := by
  refine ⟨fun n hn => h.iteration_lt n (hm.iteration hn), ?_, ?_⟩
  · intro message n hphase
    rw [hm.name_eq]
    exact hm.sending hphase
  · intro k hk hpresent
    rw [hm.name_eq] at hk
    rw [hm.keeps.2.1]
    exact h.silent k hk (hm.present hpresent)

theorem LoopOk.quiet (h : LoopOk iterations closed stopped l) (hl : l.Present) {phase : Phase}
    (hphase : phase.iteration = none) :
    LoopOk iterations closed stopped { l with phase := phase } := by
  refine ⟨?_, ?_, fun k hk _ => h.silent k hk hl⟩
  · intro n hn
    rw [show phase.iteration = some n from hn] at hphase
    cases hphase
  · intro message n hsending
    rw [show phase = .sending message n from hsending] at hphase
    cases hphase

theorem Inv.setLoop (h : Inv σ) (hloops : σ'.loops = Function.update σ.loops i l')
    (hiterations : σ'.iterations = σ.iterations) (hclosed : σ'.closed = σ.closed)
    (hstopped : σ'.stopped = σ.stopped) (hsent : σ'.sent = σ.sent)
    (hok : LoopOk σ.iterations σ.closed σ.stopped l') : Inv σ' := by
  refine ⟨?_, ?_, ?_⟩
  · rw [hsent, hiterations]
    exact h.sent_lt
  · rw [hloops, hiterations, hclosed, hstopped]
    exact (Function.forall_update_iff σ.loops fun _ l => LoopOk _ _ _ l).mpr
      ⟨hok, fun j _ => h.loops j⟩
  · unfold StopsDelivery
    rw [hsent, hstopped]
    exact h.stops

theorem Inv.of_eq (h : Inv σ) (hloops : σ'.loops = σ.loops)
    (hiterations : σ'.iterations = σ.iterations) (hclosed : σ'.closed = σ.closed)
    (hstopped : σ'.stopped = σ.stopped) (hsent : σ'.sent = σ.sent) : Inv σ' := by
  refine h.setLoop (i := 0) ?_ hiterations hclosed hstopped hsent (h.loops 0)
  rw [hloops, Function.update_eq_self]

/-- A new entry under a name ends what its `unsubscribe` promised. -/
theorem Inv.addSubscription (h : Inv σ) (i : ℕ) :
    Inv { σ with
      subscriptions := σ.subscriptions.insert (σ.loops i).name (σ.loops i).spec
      loops := Function.update σ.loops i
        { σ.loops i with phase := .registered, unsubscribed := false }
      stopped := σ.stopped.erase (σ.loops i).name } := by
  have hstopped : ∀ name k, (σ.stopped.erase (σ.loops i).name).lookup name = some k →
      name ≠ (σ.loops i).name ∧ σ.stopped.lookup name = some k := by
    intro name k hk
    by_cases hname : name = (σ.loops i).name
    · rw [hname, AList.lookup_erase] at hk
      cases hk
    · rw [AList.lookup_erase_ne hname] at hk
      exact ⟨hname, hk⟩
  refine ⟨h.sent_lt, ?_, fun name k hk => h.stops name k (hstopped name k hk).2⟩
  refine (Function.forall_update_iff σ.loops fun _ l => LoopOk _ _ _ l).mpr ⟨⟨?_, ?_, ?_⟩, ?_⟩
  · rintro n ⟨⟩
  · rintro message n ⟨⟩
  · exact fun k hk => absurd rfl (hstopped _ k hk).1
  · intro j _
    exact { h.loops j with silent := fun k hk => (h.loops j).silent k (hstopped _ k hk).2 }

theorem Inv.receive (h : Inv σ) (hphase : (σ.loops i).phase = .listening) (ev : TickEvent)
    (rest : List TickEvent) :
    Inv { σ with
      loops := Function.update σ.loops i
        { σ.loops i with phase := .handling ev σ.iterations, queue := rest }
      iterations := σ.iterations + 1 } := by
  refine ⟨fun pdu hpdu => Nat.lt_succ_of_lt (h.sent_lt pdu hpdu), ?_, h.stops⟩
  refine (Function.forall_update_iff σ.loops fun _ l => LoopOk _ _ _ l).mpr ⟨⟨?_, ?_, ?_⟩, ?_⟩
  · rintro n ⟨⟩
    exact Nat.lt_succ_self _
  · rintro message n ⟨⟩
  · refine fun k hk _ => (h.loops i).silent k hk ?_
    unfold LoopState.Present
    rw [hphase]
    trivial
  · intro j _
    exact { h.loops j with
      iteration_lt := fun n hn => Nat.lt_succ_of_lt ((h.loops j).iteration_lt n hn) }

/-- Only a loop with an open session sends, so its name is not unsubscribed. -/
theorem Inv.send (h : Inv σ) {message : Value} {n : ℕ}
    (hphase : (σ.loops i).phase = .sending message n)
    (hopen : σ.closed (σ.loops i).session = false) :
    Inv { σ with
      loops := Function.update σ.loops i { σ.loops i with phase := .listening }
      sent := ⟨(σ.loops i).session, n, message⟩ :: σ.sent } := by
  have hok := h.loops i
  have hpresent : (σ.loops i).Present := by
    unfold LoopState.Present
    rw [hphase]
    trivial
  have hlt : n < σ.iterations := hok.iteration_lt n (by rw [hphase]; rfl)
  refine ⟨List.forall_mem_cons.mpr ⟨hlt, h.sent_lt⟩, ?_, ?_⟩
  · exact (Function.forall_update_iff σ.loops fun _ l => LoopOk _ _ _ l).mpr
      ⟨hok.quiet hpresent rfl, fun j _ => h.loops j⟩
  · intro name k hk
    refine List.forall_mem_cons.mpr ⟨fun hnamed => ?_, h.stops name k hk⟩
    obtain rfl := (hok.named message n hphase).unique hnamed
    have hclosed := hok.silent k hk hpresent
    rw [hopen] at hclosed
    cases hclosed

/-- Every iteration so far began before the `unsubscribe`. -/
theorem Inv.unsubscribe (h : Inv σ) {name : String}
    (hopen : ∀ i, (σ.loops i).Present → (σ.loops i).name = name →
      σ.closed (σ.loops i).session = true) : Inv (σ.unsubscribe name) := by
  refine ⟨h.sent_lt, fun i => ?_, ?_⟩
  · refine LoopOk.of_eq (l := σ.loops i) ⟨(h.loops i).iteration_lt, (h.loops i).named, ?_⟩ ?_ ?_ ?_
    · intro k hk hpresent
      by_cases hname : (σ.loops i).name = name
      · exact hopen i hpresent hname
      · rw [show (σ.unsubscribe name).stopped.lookup (σ.loops i).name = _ from
          AList.lookup_insert_ne hname] at hk
        exact (h.loops i).silent k hk hpresent
    all_goals
      unfold State.unsubscribe
      dsimp only
      split_ifs <;> rfl
  · intro name' k hk pdu hpdu hnamed
    by_cases hname : name' = name
    · subst hname
      rw [show (σ.unsubscribe name').stopped.lookup name' = some σ.iterations from
        AList.lookup_insert σ.stopped] at hk
      obtain rfl := Option.some.inj hk
      exact h.sent_lt pdu hpdu
    · rw [show (σ.unsubscribe name).stopped.lookup name' = σ.stopped.lookup name' from
        AList.lookup_insert_ne hname] at hk
      exact h.stops name' k hk pdu hpdu hnamed

theorem Inv.disconnect (h : Inv σ) (session : ℕ) :
    Inv { σ with closed := Function.update σ.closed session true } := by
  refine ⟨h.sent_lt, fun i => ?_, h.stops⟩
  exact { h.loops i with
    silent := fun k hk hpresent => closed_update ((h.loops i).silent k hk hpresent) session }

/-- One step that unsubscribes no name of a loop with an open session. -/
theorem Inv.step (h : Inv σ) (hs : Step σ σ') (hopen : NoOpenLoop σ σ') : Inv σ' := by
  cases hs with
  | @broadcast _ ev hev =>
    refine ⟨h.sent_lt, fun i => ?_, h.stops⟩
    obtain ⟨hname, hsession, hphase, -⟩ := name_hear ev (σ.loops i)
    exact (h.loops i).of_eq hname hsession hphase
  | resolve i spec session hphase hregistered =>
    refine h.setLoop rfl rfl rfl rfl rfl ⟨?_, ?_, ?_⟩
    · rintro n ⟨⟩
    · rintro message n ⟨⟩
    · rintro k hk ⟨⟩
  | move i hm => exact h.setLoop rfl rfl rfl rfl rfl ((h.loops i).move hm)
  | addSubscription i hphase => exact h.addSubscription i
  | receive i hphase hq => exact h.receive hphase _ _
  | send i hphase hsession => exact h.send hphase hsession
  | leave i hphase =>
    refine h.setLoop rfl rfl rfl rfl rfl ((h.loops i).quiet ?_ rfl)
    unfold LoopState.Present
    rw [hphase]
    trivial
  | unsubscribe name hentry => exact h.unsubscribe (hopen name hentry rfl)
  | disconnect session => exact h.disconnect session
  | _ => exact h.of_eq rfl rfl rfl rfl rfl

theorem Inv.init (h : Start σ) : Inv σ := by
  refine ⟨?_, fun i => ⟨?_, ?_, ?_⟩, ?_⟩
  · rw [h.sent]
    simp
  · rw [h.loops i]
    rintro n ⟨⟩
  · rw [h.loops i]
    rintro message n ⟨⟩
  · unfold LoopState.Present
    rw [h.loops i]
    rintro k hk ⟨⟩
  · unfold StopsDelivery
    rw [h.sent]
    simp

end Steps

/-- **Unsubscribe.** In every run that unsubscribes a name only when the sessions of all its loops
are closed, no iteration that starts after the `unsubscribe` of a name sends a message of that name
on any session, until the name is subscribed again. -/
theorem unsubscribe_stops_delivery {σ₀ σ : State} (hstart : Start σ₀)
    (hrun : Run (fun s s' => Step s s' ∧ NoOpenLoop s s') σ₀ σ) : StopsDelivery σ := by
  have hinv : Inv σ := by
    refine hrun.preserves ?_ (Inv.init hstart)
    exact fun s s' h hs => h.step hs.1 hs.2
  exact hinv.stops

/-! ## One subscription -/

def xSpec : SubscriptionSpec := ⟨"x", everything⟩

def noSubscriptions : State :=
  ⟨oneFile, true, false, [], ∅, ∅, 0, 0, 0, fun _ => ⟨xSpec, 0, .absent, 0, [], false⟩,
    fun _ => false, fun _ => .idle, 0, [], ∅⟩

theorem start_noSubscriptions : Start noSubscriptions :=
  ⟨⟨emptyEnv, reached_oneFile⟩, rfl, fun _ => rfl, fun _ => rfl, rfl, rfl⟩

theorem noOpenLoop_of {σ σ' : State} (h : ∀ name, σ.subscriptions.lookup name ≠ none →
    σ'.subscriptions.lookup name ≠ none) : NoOpenLoop σ σ' := by
  rintro name hentry rfl
  exact absurd (AList.lookup_erase name σ.subscriptions) (h name hentry)

theorem noOpenLoop_of_closed {σ σ' : State} (h : ∀ i, σ.closed (σ.loops i).session = true) :
    NoOpenLoop σ σ' :=
  fun _ _ _ i _ _ => h i

def bCreated : List PathChange := [.upsert [[0x62]] someFile none]

def cCreated : List PathChange := [.upsert [[0x63]] someFile none]

/-- The message about the second file is sent, the client leaves, and the name is unsubscribed. -/
theorem unsubscribe_stops_delivery_x : ∃ σ, σ.sent.length = 1 ∧ σ.stopped.lookup "x" = some 1 ∧
    StopsDelivery σ := by
  have hrun : ∃ σ, Run (fun s s' => Step s s' ∧ NoOpenLoop s s') noSubscriptions σ ∧
      σ.sent.length = 1 ∧ σ.stopped.lookup "x" = some 1 := by
    have h₀ : Run (fun s s' => Step s s' ∧ NoOpenLoop s s') noSubscriptions noSubscriptions := .refl
    have h₁ := h₀.tail ⟨.resolve 0 xSpec 0 rfl rfl, noOpenLoop_of fun _ h => h⟩
    have h₂ := h₁.tail ⟨.move 0 (.promote [] rfl), noOpenLoop_of fun _ h => h⟩
    have h₃ := h₂.tail ⟨.move 0 (.initialQuery emptyEnv rfl), noOpenLoop_of fun _ h => h⟩
    have h₄ := h₃.tail ⟨.addSubscription 0 rfl, noOpenLoop_of fun _ h => absurd rfl h⟩
    have h₅ := h₄.tail ⟨.move 0 (.subscribe rfl), noOpenLoop_of fun _ h => h⟩
    have h₆ := h₅.tail ⟨.move 0 (.start rfl), noOpenLoop_of fun _ h => h⟩
    have h₇ := h₆.tail ⟨.root (.batch 0 bCreated (by decide)), noOpenLoop_of fun _ h => h⟩
    have h₈ := h₇.tail ⟨.broadcast (List.mem_singleton.mpr rfl), noOpenLoop_of fun _ h => h⟩
    have h₉ := h₈.tail ⟨.receive 0 rfl (Lagging.send_nil tickChannelCapacity_pos),
      noOpenLoop_of fun _ h => h⟩
    have h₁₀ := h₉.tail ⟨.move 0 (.check rfl rfl), noOpenLoop_of fun _ h => h⟩
    have h₁₁ := h₁₀.tail ⟨.move 0 (.query emptyEnv rfl (by decide)), noOpenLoop_of fun _ h => h⟩
    have h₁₂ := h₁₁.tail ⟨.send 0 rfl rfl, noOpenLoop_of fun _ h => h⟩
    have h₁₃ := h₁₂.tail ⟨.disconnect 0, noOpenLoop_of fun _ h => h⟩
    have h₁₄ := h₁₃.tail ⟨.unsubscribe "x" (by decide),
      noOpenLoop_of_closed fun i => by cases i <;> rfl⟩
    exact ⟨_, h₁₄, rfl, rfl⟩
  obtain ⟨σ, hrun, hsent, hstopped⟩ := hrun
  exact ⟨σ, hsent, hstopped, unsubscribe_stops_delivery start_noSubscriptions hrun⟩

/-- The client unsubscribes and stays, and the loop sends a message about each of the next two
batches. -/
theorem unsubscribed_loop_sends :
    Start noSubscriptions ∧ ∃ σ, Run Step noSubscriptions σ ∧ ¬ StopsDelivery σ := by
  have hrun : ∃ σ, Run Step noSubscriptions σ ∧ σ.stopped.lookup "x" = some 0 ∧
      ∃ pdu ∈ σ.sent, pdu.iteration = 1 ∧ Named "x" pdu.message := by
    have h₀ : Run Step noSubscriptions noSubscriptions := .refl
    have h₁ := h₀.tail (.resolve 0 xSpec 0 rfl rfl)
    have h₂ := h₁.tail (.move 0 (.promote [] rfl))
    have h₃ := h₂.tail (.move 0 (.initialQuery emptyEnv rfl))
    have h₄ := h₃.tail (.addSubscription 0 rfl)
    have h₅ := h₄.tail (.move 0 (.subscribe rfl))
    have h₆ := h₅.tail (.move 0 (.start rfl))
    have h₇ := h₆.tail (.unsubscribe "x" (by decide))
    have h₈ := h₇.tail (.root (.batch 0 bCreated (by decide)))
    have h₉ := h₈.tail (.broadcast (List.mem_singleton.mpr rfl))
    have h₁₀ := h₉.tail (.receive 0 rfl (Lagging.send_nil tickChannelCapacity_pos))
    have h₁₁ := h₁₀.tail (.move 0 (.check rfl rfl))
    have h₁₂ := h₁₁.tail (.move 0 (.query emptyEnv rfl (by decide)))
    have h₁₃ := h₁₂.tail (.send 0 rfl rfl)
    have h₁₄ := h₁₃.tail (.root (.batch 0 cCreated (by decide)))
    have h₁₅ := h₁₄.tail (.broadcast (List.mem_singleton.mpr rfl))
    have h₁₆ := h₁₅.tail (.receive 0 rfl (Lagging.send_nil tickChannelCapacity_pos))
    have h₁₇ := h₁₆.tail (.move 0 (.check rfl rfl))
    have h₁₈ := h₁₇.tail (.move 0 (.query emptyEnv rfl (by decide)))
    have h₁₉ := h₁₈.tail (.send 0 rfl rfl)
    exact ⟨_, h₁₉, rfl, _, List.mem_cons_self, rfl, _, rfl, rfl⟩
  obtain ⟨σ, hrun, hstopped, pdu, hpdu, hiteration, hnamed⟩ := hrun
  refine ⟨start_noSubscriptions, σ, hrun, fun hstops => ?_⟩
  have hlt := hstops "x" 0 hstopped pdu hpdu hnamed
  omega

end Watchwoman.Subscriptions
