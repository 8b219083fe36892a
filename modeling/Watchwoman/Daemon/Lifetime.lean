import Watchwoman.Commands.Loops
import Watchwoman.Lib.Shared

/-!
# How long a root lives

The registry and the commands hold a root by strong references. The event loop of its watcher, its
push loops and its trigger loops have weak ones and take a hold for one round at a time; a trigger
gives it up before it runs its command. `Drop` of the root tells the event loop to stop, with the
event loop the sender goes that keeps the thread of the kernel watch, and with the root's fields the
tick channel that the other loops wait on.

So a registered root is watched at any time (`registered_root_watched`), and one that is neither
registered nor used by a command is released with its tree, its watch and its loops, however long
the commands of its triggers run (`unregistered_root_released`). This is about one root, from when
`register_root` makes it; other roots share nothing with it.
-/

namespace Watchwoman.Lifetime

open Transition Shared

/-! ## The parts -/

/-- Where the call of `register_root` is that made the root. -/
inductive Call where
  | building
  /-- The watcher is ready. -/
  | attached
  /-- The event loop is spawned. -/
  | spawned
  | returned
  | failed

/-- The kernel watch, which belongs to the blocking thread. -/
inductive KernelWatch where
  | unattached
  | attached
  | released

/-- Where the event loop of `watcher::spawn` is. -/
inductive EventLoop where
  | absent
  | waiting
  /-- It has received an event and not asked for the root. -/
  | woken (parts : ℕ)
  /-- The events so far have so many parts. -/
  | gathering (parts : ℕ)
  /-- So many parts are not interpreted yet. -/
  | interpreting (parts : ℕ)
  /-- The batch is applied and its tick is broadcast. -/
  | applied
  | ended

inductive Kind where
  | push
  | trigger

/-- Where a push loop or a trigger loop is. -/
inductive LoopPhase where
  | waiting
  /-- It has received an event and not asked for the root. -/
  | woken
  | asking
  /-- The command of the trigger is running. -/
  | running
  /-- The push loop is over and has not taken its subscription out. -/
  | leaving
  | removing
  | ended

/-- A loop, with the number of events its receiver holds. -/
structure LoopState where
  kind : Kind
  phase : LoopPhase
  queued : ℕ

/-! ## Holds -/

def Call.holds : Call → ℕ
  | .building => 1
  | .attached => 1
  | .spawned => 1
  | .returned => 0
  | .failed => 0

def EventLoop.holds : EventLoop → ℕ
  | .gathering _ => 1
  | .interpreting _ => 1
  | .applied => 1
  | _ => 0

def LoopState.holds (l : LoopState) : ℕ :=
  match l.phase with
  | .asking => 1
  | .removing => 1
  | _ => 0

structure State where
  cell : Cell
  call : Call
  /-- The entry of the registry under the root's path is this root. -/
  registered : Bool
  /-- What commands and sweeps hold. -/
  handles : ℕ
  /-- `Shutdown` is in the channel of the event loop. -/
  shutdown : Bool
  watch : KernelWatch
  /-- The events of the kernel that wait for the event loop, each with the number of its parts: its
  paths, or that events were lost. -/
  events : List ℕ
  eventLoop : EventLoop
  loops : List LoopState

def State.holds (σ : State) : ℕ :=
  σ.call.holds + σ.registered.toNat + σ.handles + σ.eventLoop.holds +
    (σ.loops.map LoopState.holds).sum

/-! ## Steps -/

/-- Where a loop goes that breaks: a push loop still takes its subscription out. -/
def Kind.after : Kind → LoopPhase
  | .push => .leaving
  | .trigger => .ended

/-- The receiver holds one more event, or has lost one. -/
def LoopState.hear (l : LoopState) : LoopState :=
  match l.phase with
  | .ended => l
  | _ => { l with queued := min (l.queued + 1) Loops.tickChannelCapacity }

/-- A step of a push loop or of a trigger loop. -/
inductive LoopStep (c : Cell) : LoopState → Effect → LoopState → Prop
  | receive {kind : Kind} {q : ℕ} :
    LoopStep c ⟨kind, .waiting, q + 1⟩ .keep ⟨kind, .woken, q⟩
  | closed {kind : Kind} (hdropped : c.life = .dropped) :
    LoopStep c ⟨kind, .waiting, 0⟩ .keep ⟨kind, kind.after, 0⟩
  | upgrade {kind : Kind} {q : ℕ} (hstrong : 0 < c.strong) :
    LoopStep c ⟨kind, .woken, q⟩ .acquire ⟨kind, .asking, q⟩
  | lose {kind : Kind} {q : ℕ} (hstrong : c.strong = 0) :
    LoopStep c ⟨kind, .woken, q⟩ .keep ⟨kind, kind.after, q⟩
  | goOn {kind : Kind} {q : ℕ} :
    LoopStep c ⟨kind, .asking, q⟩ .release ⟨kind, .waiting, q⟩
  | leave {kind : Kind} {q : ℕ} :
    LoopStep c ⟨kind, .asking, q⟩ .release ⟨kind, kind.after, q⟩
  | fire {q : ℕ} : LoopStep c ⟨.trigger, .asking, q⟩ .release ⟨.trigger, .running, q⟩
  | upgradeLeaving {kind : Kind} {q : ℕ} (hstrong : 0 < c.strong) :
    LoopStep c ⟨kind, .leaving, q⟩ .acquire ⟨kind, .removing, q⟩
  | loseLeaving {kind : Kind} {q : ℕ} (hstrong : c.strong = 0) :
    LoopStep c ⟨kind, .leaving, q⟩ .keep ⟨kind, .ended, q⟩
  | remove {kind : Kind} {q : ℕ} :
    LoopStep c ⟨kind, .removing, q⟩ .release ⟨kind, .ended, q⟩

/-- What goes on without clients, the kernel and the commands of triggers. -/
inductive Inner : State → State → Prop
  /-- `Drop` of the root, and then of its fields. -/
  | drop {σ : State} (hlife : σ.cell.life = .dropping) :
    Inner σ { σ with cell := { σ.cell with life := .dropped }, shutdown := true }
  | stop {σ : State} (hloop : σ.eventLoop = .waiting) (hshutdown : σ.shutdown = true) :
    Inner σ { σ with eventLoop := .ended }
  | wake {σ : State} {n : ℕ} {rest : List ℕ} (hloop : σ.eventLoop = .waiting)
    (hevents : σ.events = n :: rest) :
    Inner σ { σ with eventLoop := .woken n, events := rest }
  | upgrade {σ : State} {n : ℕ} (hloop : σ.eventLoop = .woken n) (hstrong : 0 < σ.cell.strong) :
    Inner σ { σ with eventLoop := .gathering n, cell := σ.cell.apply .acquire }
  | lose {σ : State} {n : ℕ} (hloop : σ.eventLoop = .woken n) (hstrong : σ.cell.strong = 0) :
    Inner σ { σ with eventLoop := .ended }
  | gather {σ : State} {n k : ℕ} {rest : List ℕ} (hloop : σ.eventLoop = .gathering n)
    (hevents : σ.events = k :: rest) :
    Inner σ { σ with eventLoop := .gathering (n + k), events := rest }
  | lock {σ : State} {n : ℕ} (hloop : σ.eventLoop = .gathering n) :
    Inner σ { σ with eventLoop := .interpreting n }
  | collect {σ : State} {n : ℕ} (hloop : σ.eventLoop = .interpreting (n + 1)) :
    Inner σ { σ with eventLoop := .interpreting n }
  /-- Lost events or an ignore file: the index of jj is dropped, and the tick is broadcast. -/
  | invalidate {σ : State} {n : ℕ} (hloop : σ.eventLoop = .interpreting (n + 1)) :
    Inner σ { σ with eventLoop := .interpreting n, loops := σ.loops.map LoopState.hear }
  | applyChanges {σ : State} (hloop : σ.eventLoop = .interpreting 0) :
    Inner σ { σ with eventLoop := .applied, loops := σ.loops.map LoopState.hear }
  | finishBatch {σ : State} (hloop : σ.eventLoop = .interpreting 0 ∨ σ.eventLoop = .applied) :
    Inner σ { σ with eventLoop := .waiting, cell := σ.cell.apply .release }
  /-- `stop_tx` is gone with the event loop, and the thread drops the watcher. -/
  | detach {σ : State} (hwatch : σ.watch = .attached) (hloop : σ.eventLoop = .ended) :
    Inner σ { σ with watch := .released }
  | loop (l₁ l₂ : List LoopState) {σ : State} {l l' : LoopState} {e : Effect}
    (hloops : σ.loops = l₁ ++ l :: l₂) (hs : LoopStep σ.cell l e l') :
    Inner σ { σ with cell := σ.cell.apply e, loops := l₁ ++ l' :: l₂ }

/-- A step of `register_root`, of another command, of the kernel or of a trigger's command. -/
inductive Outer : State → State → Prop
  | attach {σ : State} (hcall : σ.call = .building) :
    Outer σ { σ with call := .attached, watch := .attached }
  | attachFails {σ : State} (hcall : σ.call = .building) :
    Outer σ { σ with call := .failed, cell := σ.cell.apply .release }
  | spawnEventLoop {σ : State} (hcall : σ.call = .attached) :
    Outer σ { σ with call := .spawned, eventLoop := .waiting }
  /-- The clone goes into the registry, and the caller goes on with the root. -/
  | insert {σ : State} (hcall : σ.call = .spawned) :
    Outer σ { σ with
      call := .returned
      registered := true
      handles := σ.handles + 1
      cell := σ.cell.apply .acquire }
  | lookup {σ : State} (hregistered : σ.registered = true) :
    Outer σ { σ with handles := σ.handles + 1, cell := σ.cell.apply .acquire }
  | finish {σ : State} {n : ℕ} (hhandles : σ.handles = n + 1) :
    Outer σ { σ with handles := n, cell := σ.cell.apply .release }
  /-- The entry is removed, or another root takes its place. -/
  | unregister {σ : State} (hregistered : σ.registered = true) :
    Outer σ { σ with registered := false, cell := σ.cell.apply .release }
  | spawnLoop (kind : Kind) {σ : State} (hheld : 0 < σ.call.holds + σ.handles) :
    Outer σ { σ with loops := σ.loops ++ [⟨kind, .waiting, 0⟩] }
  | event (parts : ℕ) {σ : State} (hwatch : σ.watch = .attached) :
    Outer σ { σ with events := σ.events ++ [parts] }
  | exit (l₁ l₂ : List LoopState) {σ : State} {q : ℕ}
    (hloops : σ.loops = l₁ ++ ⟨.trigger, .running, q⟩ :: l₂) :
    Outer σ { σ with loops := l₁ ++ ⟨.trigger, .waiting, q⟩ :: l₂ }

def Step (σ σ' : State) : Prop := Inner σ σ' ∨ Outer σ σ'

/-- A new root, held by the call that made it. -/
def start : State where
  cell := ⟨1, .live⟩
  call := .building
  registered := false
  handles := 0
  shutdown := false
  watch := .unattached
  events := []
  eventLoop := .absent
  loops := []

/-! ## The invariant -/

/-- How far the watcher is, by how far the call is. -/
def Attaching (σ : State) : Call → Prop
  | .building => σ.watch = .unattached ∧ σ.eventLoop = .absent
  | .attached => σ.watch = .attached ∧ σ.eventLoop = .absent
  | .failed => σ.watch = .unattached ∧ σ.eventLoop = .absent
  | _ => σ.eventLoop ≠ .absent ∧
    (σ.watch = .attached ∨ (σ.watch = .released ∧ σ.eventLoop = .ended))

structure Inv (σ : State) : Prop where
  balanced : σ.cell.Balanced σ.holds
  shutdown_iff : σ.shutdown = true ↔ σ.cell.life = .dropped
  ended : σ.eventLoop = .ended → σ.cell.life ≠ .live
  attaching : Attaching σ σ.call
  registered : σ.registered = true → σ.call = .returned

section Steps

variable {σ σ' : State} {l l' : LoopState} {e : Effect}

theorem holds_after (kind : Kind) (q : ℕ) : LoopState.holds ⟨kind, kind.after, q⟩ = 0 := by
  cases kind <;> rfl

theorem LoopStep.moves (hs : LoopStep σ.cell l e l') : e.Moves l.holds l'.holds := by
  cases hs with
  | @closed kind hdropped => exact holds_after kind 0
  | @lose kind q hstrong => exact holds_after kind q
  | @leave kind q => exact congrArg (· + 1) (holds_after kind q).symm
  | _ => rfl

theorem LoopStep.allowed (hs : LoopStep σ.cell l e l') : e.Allowed σ.cell := by
  cases hs with
  | upgrade hstrong => exact hstrong
  | upgradeLeaving hstrong => exact hstrong
  | _ => trivial

theorem holds_hear (l : LoopState) : l.hear.holds = l.holds := by
  obtain ⟨kind, phase, q⟩ := l
  cases phase <;> rfl

theorem sum_holds_hear (loops : List LoopState) :
    ((loops.map LoopState.hear).map LoopState.holds).sum = (loops.map LoopState.holds).sum := by
  rw [List.map_map]
  congr 2
  funext l
  exact holds_hear l

theorem Inv.move (h : Inv σ) (hmoves : e.Moves σ.holds σ'.holds) (hallowed : e.Allowed σ.cell)
    (hcell : σ'.cell = σ.cell.apply e) (hshutdown : σ'.shutdown = σ.shutdown)
    (hended : σ'.eventLoop = .ended → σ.cell.life ≠ .live) (hattaching : Attaching σ' σ'.call)
    (hregistered : σ'.registered = true → σ'.call = .returned) : Inv σ' := by
  refine ⟨?_, ?_, ?_, hattaching, hregistered⟩
  · rw [hcell]
    exact h.balanced.apply hmoves hallowed
  · rw [hshutdown, hcell, h.shutdown_iff]
    exact (h.balanced.dropped_iff hmoves).symm
  · intro hloop
    rw [hcell]
    exact Cell.life_apply e (hended hloop)

theorem Attaching.goOn {call : Call} (h : Attaching σ call) (hpresent : σ.eventLoop ≠ .absent)
    (hgoing : σ.eventLoop ≠ .ended) (hwatch : σ'.watch = σ.watch)
    (hpresent' : σ'.eventLoop ≠ .absent) : Attaching σ' call := by
  have hattached : ∀ {P : Prop}, (P ∨ (σ.watch = .released ∧ σ.eventLoop = .ended)) → P :=
    fun h => h.resolve_right fun hended => hgoing hended.2
  cases call with
  | building => exact absurd h.2 hpresent
  | attached => exact absurd h.2 hpresent
  | failed => exact absurd h.2 hpresent
  | spawned => exact ⟨hpresent', .inl (hwatch.trans (hattached h.2))⟩
  | returned => exact ⟨hpresent', .inl (hwatch.trans (hattached h.2))⟩

theorem Attaching.same {call : Call} (h : Attaching σ call) (hwatch : σ'.watch = σ.watch)
    (hloop : σ'.eventLoop = σ.eventLoop) : Attaching σ' call := by
  cases call <;> simpa only [Attaching, hwatch, hloop] using h

theorem Inv.eventLoop_step (h : Inv σ) {p p' : EventLoop} {k : List ℕ} {loops : List LoopState}
    (hloop : σ.eventLoop = p) (hgoing : p ≠ .absent ∧ p ≠ .ended)
    (hmoves : e.Moves p.holds p'.holds) (hallowed : e.Allowed σ.cell)
    (hloops : (loops.map LoopState.holds).sum = (σ.loops.map LoopState.holds).sum)
    (hpresent : p' ≠ .absent) (hended : p' = .ended → σ.cell.life ≠ .live) :
    Inv { σ with cell := σ.cell.apply e, events := k, eventLoop := p', loops := loops } := by
  obtain ⟨habsent, hnot⟩ : σ.eventLoop ≠ .absent ∧ σ.eventLoop ≠ .ended := hloop ▸ hgoing
  refine h.move ?_ hallowed rfl rfl hended (h.attaching.goOn habsent hnot rfl hpresent) h.registered
  unfold State.holds
  dsimp only
  rw [hloop, hloops]
  exact (hmoves.add_left _).add_right _

theorem Inv.inner (h : Inv σ) (hs : Inner σ σ') : Inv σ' := by
  cases hs with
  | drop hlife =>
    have hgone : σ.cell.life ≠ .live := by
      rw [hlife]
      rintro ⟨⟩
    have hnone := h.balanced.holds_eq_zero hgone
    refine ⟨⟨h.balanced.strong_eq, ?_⟩, iff_of_true rfl rfl, fun _ => by rintro ⟨⟩,
      h.attaching.same rfl rfl, h.registered⟩
    exact iff_of_false (by rintro ⟨⟩) (hnone ▸ Nat.lt_irrefl 0)
  | stop hloop hshutdown =>
    refine h.eventLoop_step (e := .keep) hloop (by simp) rfl trivial rfl (by simp) fun _ => ?_
    rw [h.shutdown_iff.mp hshutdown]
    rintro ⟨⟩
  | wake hloop hevents =>
    exact h.eventLoop_step (e := .keep) hloop (by simp) rfl trivial rfl (by simp) (by rintro ⟨⟩)
  | upgrade hloop hstrong =>
    exact h.eventLoop_step (e := .acquire) hloop (by simp) rfl hstrong rfl (by simp) (by rintro ⟨⟩)
  | lose hloop hstrong =>
    refine h.eventLoop_step (e := .keep) hloop (by simp) rfl trivial rfl (by simp) fun _ hlive => ?_
    have hpos := h.balanced.live_iff.mp hlive
    rw [← h.balanced.strong_eq, hstrong] at hpos
    exact Nat.lt_irrefl 0 hpos
  | gather hloop hevents =>
    exact h.eventLoop_step (e := .keep) hloop (by simp) rfl trivial rfl (by simp) (by rintro ⟨⟩)
  | lock hloop =>
    exact h.eventLoop_step (e := .keep) hloop (by simp) rfl trivial rfl (by simp) (by rintro ⟨⟩)
  | collect hloop =>
    exact h.eventLoop_step (e := .keep) hloop (by simp) rfl trivial rfl (by simp) (by rintro ⟨⟩)
  | invalidate hloop =>
    exact h.eventLoop_step (e := .keep) hloop (by simp) rfl trivial (sum_holds_hear σ.loops)
      (by simp) (by rintro ⟨⟩)
  | applyChanges hloop =>
    exact h.eventLoop_step (e := .keep) hloop (by simp) rfl trivial (sum_holds_hear σ.loops)
      (by simp) (by rintro ⟨⟩)
  | finishBatch hloop =>
    rcases hloop with hloop | hloop
    · exact h.eventLoop_step (e := .release) hloop (by simp) rfl trivial rfl (by simp)
        (by rintro ⟨⟩)
    · exact h.eventLoop_step (e := .release) hloop (by simp) rfl trivial rfl (by simp)
        (by rintro ⟨⟩)
  | detach hwatch hloop =>
    refine h.move (e := .keep) rfl trivial rfl rfl h.ended ?_ h.registered
    have hpresent : σ.eventLoop ≠ .absent := by
      rw [hloop]
      rintro ⟨⟩
    have hattaching := h.attaching
    show Attaching _ σ.call
    cases hcall : σ.call with
    | building => rw [hcall] at hattaching; exact absurd hattaching.2 hpresent
    | attached => rw [hcall] at hattaching; exact absurd hattaching.2 hpresent
    | failed => rw [hcall] at hattaching; exact absurd hattaching.2 hpresent
    | spawned => exact ⟨hpresent, .inr ⟨rfl, hloop⟩⟩
    | returned => exact ⟨hpresent, .inr ⟨rfl, hloop⟩⟩
  | loop l₁ l₂ hloops hs =>
    refine h.move ?_ hs.allowed rfl rfl h.ended (h.attaching.same rfl rfl) h.registered
    have hsum := hs.moves.sum l₁ l₂
    unfold State.holds
    rw [hloops]
    exact hsum.add_left _

theorem Inv.outer (h : Inv σ) (hs : Outer σ σ') : Inv σ' := by
  have hattaching := h.attaching
  -- a root is registered only once its call has returned
  have hnot : ∀ {call : Call}, σ.call = call → call ≠ .returned → ¬ σ.registered = true := by
    rintro call hcall hne hregistered
    exact hne (hcall.symm.trans (h.registered hregistered))
  cases hs with
  | attach hcall =>
    rw [hcall] at hattaching
    refine h.move (e := .keep) ?_ trivial rfl rfl h.ended ⟨rfl, hattaching.2⟩
      fun hr => absurd hr (hnot hcall (by simp))
    show _ = _
    simp only [State.holds, hcall, Call.holds]
  | attachFails hcall =>
    rw [hcall] at hattaching
    refine h.move (e := .release) ?_ trivial rfl rfl h.ended hattaching
      fun hr => absurd hr (hnot hcall (by simp))
    show _ = _ + 1
    simp only [State.holds, hcall, Call.holds]
    omega
  | spawnEventLoop hcall =>
    rw [hcall] at hattaching
    refine h.move (e := .keep) ?_ trivial rfl rfl (by rintro ⟨⟩)
      ⟨by rintro ⟨⟩, .inl hattaching.1⟩ fun hr => absurd hr (hnot hcall (by simp))
    show _ = _
    simp only [State.holds, hcall, Call.holds, hattaching.2, EventLoop.holds]
  | insert hcall =>
    rw [hcall] at hattaching
    have hfalse : σ.registered = false := by
      simpa using hnot hcall (by simp)
    have hpos : 0 < σ.cell.strong := by
      rw [h.balanced.strong_eq]
      simp only [State.holds, hcall, Call.holds]
      omega
    refine h.move (e := .acquire) ?_ hpos rfl rfl h.ended hattaching fun _ => rfl
    show _ = _ + 1
    simp only [State.holds, hcall, Call.holds, hfalse, Bool.toNat_true, Bool.toNat_false]
    omega
  | lookup hregistered =>
    have hpos : 0 < σ.cell.strong := by
      rw [h.balanced.strong_eq]
      simp only [State.holds, hregistered, Bool.toNat_true]
      omega
    refine h.move (e := .acquire) ?_ hpos rfl rfl h.ended (hattaching.same rfl rfl) h.registered
    show _ = _ + 1
    simp only [State.holds]
    omega
  | finish hhandles =>
    refine h.move (e := .release) ?_ trivial rfl rfl h.ended (hattaching.same rfl rfl) h.registered
    show _ = _ + 1
    simp only [State.holds, hhandles]
    omega
  | unregister hregistered =>
    refine h.move (e := .release) ?_ trivial rfl rfl h.ended (hattaching.same rfl rfl) (by simp)
    show _ = _ + 1
    simp only [State.holds, hregistered, Bool.toNat_true, Bool.toNat_false]
    omega
  | spawnLoop kind hheld =>
    refine h.move (e := .keep) ?_ trivial rfl rfl h.ended (hattaching.same rfl rfl) h.registered
    show _ = _
    simp only [State.holds, List.map_append, List.sum_append]
    rfl
  | event parts hwatch =>
    exact h.move (e := .keep) rfl trivial rfl rfl h.ended (hattaching.same rfl rfl) h.registered
  | @exit l₁ l₂ _ q hloops =>
    refine h.move (e := .keep) ?_ trivial rfl rfl h.ended (hattaching.same rfl rfl) h.registered
    have hmoves : Effect.Moves (LoopState.holds ⟨.trigger, .running, q⟩)
        (LoopState.holds ⟨.trigger, .waiting, q⟩) .keep := rfl
    unfold State.holds
    rw [hloops]
    exact (hmoves.sum l₁ l₂).add_left _

theorem inv_start : Inv start :=
  ⟨⟨rfl, iff_of_true rfl Nat.one_pos⟩, iff_of_false (by rintro ⟨⟩) (by rintro ⟨⟩),
    by rintro ⟨⟩, ⟨rfl, rfl⟩, by rintro ⟨⟩⟩

theorem Inv.step (h : Inv σ) (hs : Step σ σ') : Inv σ' :=
  hs.elim h.inner h.outer

theorem inv_of_run (hrun : Run Step start σ) : Inv σ :=
  hrun.preserves (fun _ _ h hs => h.step hs) inv_start

theorem Step.life (hs : Step σ σ') (hlife : σ.cell.life ≠ .live) : σ'.cell.life ≠ .live := by
  rcases hs with hs | hs
  · cases hs with
    | drop hdropping => rintro ⟨⟩
    | upgrade hloop hstrong => exact Cell.life_apply .acquire hlife
    | finishBatch hloop => exact Cell.life_apply .release hlife
    | @loop l₁ l₂ _ l l' e hloops hs => exact Cell.life_apply e hlife
    | _ => exact hlife
  · cases hs with
    | attachFails hcall => exact Cell.life_apply .release hlife
    | insert hcall => exact Cell.life_apply .acquire hlife
    | lookup hregistered => exact Cell.life_apply .acquire hlife
    | finish hhandles => exact Cell.life_apply .release hlife
    | unregister hregistered => exact Cell.life_apply .release hlife
    | _ => exact hlife

end Steps

/-! ## A root that is used -/

/-- The events of the kernel reach the root. -/
structure Watched (σ : State) : Prop where
  life : σ.cell.life = .live
  watch : σ.watch = .attached
  present : σ.eventLoop ≠ .absent
  going : σ.eventLoop ≠ .ended
  shutdown : σ.shutdown = false

theorem Inv.watched {σ : State} (h : Inv σ) (hregistered : σ.registered = true) : Watched σ := by
  have hlive : σ.cell.life = .live := by
    refine h.balanced.live_iff.mpr ?_
    simp only [State.holds, hregistered, Bool.toNat_true]
    omega
  have hgoing : σ.eventLoop ≠ .ended := fun hended => h.ended hended hlive
  have hattaching := h.attaching
  rw [h.registered hregistered] at hattaching
  refine ⟨hlive, hattaching.2.resolve_right fun hreleased => hgoing hreleased.2, hattaching.1,
    hgoing, ?_⟩
  rw [← Bool.not_eq_true, h.shutdown_iff, hlive]
  rintro ⟨⟩

/-- The root when `register_root` returns. -/
def registeredRoot : State :=
  ⟨⟨2, .live⟩, .returned, true, 1, false, .attached, [], .waiting, []⟩

theorem run_registeredRoot : Run Step start registeredRoot :=
  .tail (.tail (.single (.inr (.attach rfl))) (.inr (.spawnEventLoop rfl))) (.inr (.insert rfl))

/-- No entry of the registry and no command holds the root. -/
structure Unused (σ : State) : Prop where
  registered : σ.registered = false
  handles : σ.handles = 0
  call : σ.call.holds = 0

/-- Nothing is left of the root but commands of its triggers that are still running. -/
structure Released (σ : State) : Prop where
  life : σ.cell.life = .dropped
  watch : σ.watch ≠ .attached
  eventLoop : σ.eventLoop = .absent ∨ σ.eventLoop = .ended
  loops : ∀ l ∈ σ.loops, l.phase = .ended ∨ l.phase = .running

/-! How many inner steps are left at most. -/

def lifeWork : Life → ℕ
  | .live => 2
  | .dropping => 1
  | .dropped => 0

def KernelWatch.work : KernelWatch → ℕ
  | .attached => 1
  | _ => 0

/-- Each part of an event may wake each of the `m` loops. -/
def partsWork (m n : ℕ) : ℕ := (1 + 3 * m) * n

theorem partsWork_succ (m n : ℕ) : partsWork m (n + 1) = partsWork m n + (1 + 3 * m) :=
  Nat.mul_succ ..

/-- And so may a batch. -/
def EventLoop.work (m : ℕ) : EventLoop → ℕ
  | .absent => 0
  | .ended => 0
  | .waiting => 1
  | .applied => 2
  | .interpreting n => 3 + 3 * m + partsWork m n
  | .gathering n => 4 + 3 * m + partsWork m n
  | .woken n => 5 + 3 * m + partsWork m n

def eventWork (m n : ℕ) : ℕ := 5 + 3 * m + partsWork m n

def LoopPhase.work : LoopPhase → ℕ
  | .woken => 5
  | .asking => 4
  | .waiting => 3
  | .leaving => 2
  | .removing => 1
  | .running => 0
  | .ended => 0

def LoopState.work (l : LoopState) : ℕ := l.phase.work + 3 * l.queued

def work (σ : State) : ℕ :=
  lifeWork σ.cell.life + σ.watch.work + σ.eventLoop.work σ.loops.length +
    (σ.events.map (eventWork σ.loops.length)).sum + (σ.loops.map LoopState.work).sum

section Release

variable {σ σ' : State} {l l' : LoopState} {e : Effect}

theorem lifeWork_apply {c : Cell} {n : ℕ} (h : c.Balanced n) (e : Effect) :
    lifeWork (c.apply e).life ≤ lifeWork c.life := by
  cases e with
  | keep => exact le_rfl
  | acquire => exact le_rfl
  | release =>
    show lifeWork (if c.strong = 1 then Life.dropping else c.life) ≤ _
    split_ifs with hlast
    · have hpos : 0 < n := by
        rw [← h.strong_eq, hlast]
        exact Nat.one_pos
      rw [h.live_iff.mpr hpos]
      exact Nat.le_succ 1
    · exact le_rfl

theorem work_after (kind : Kind) : kind.after.work ≤ 2 := by
  cases kind
  · exact le_rfl
  · exact Nat.zero_le 2

theorem LoopStep.work_lt (hs : LoopStep σ.cell l e l') : l'.work < l.work := by
  unfold LoopState.work
  cases hs with
  | @closed kind hdropped =>
    have hafter := work_after kind
    show kind.after.work + 3 * 0 < 3 + 3 * 0
    omega
  | @lose kind q hstrong =>
    have hafter := work_after kind
    show kind.after.work + 3 * q < 5 + 3 * q
    omega
  | @leave kind q =>
    have hafter := work_after kind
    show kind.after.work + 3 * q < 4 + 3 * q
    omega
  | _ =>
    simp only [LoopPhase.work]
    omega

theorem work_hear (l : LoopState) : l.hear.work ≤ l.work + 3 := by
  obtain ⟨kind, phase, q⟩ := l
  have hmin : min (q + 1) Loops.tickChannelCapacity ≤ q + 1 := Nat.min_le_left _ _
  cases phase <;> simp only [LoopState.hear, LoopState.work] <;> omega

theorem sum_work_hear (loops : List LoopState) :
    ((loops.map LoopState.hear).map LoopState.work).sum ≤
      (loops.map LoopState.work).sum + 3 * loops.length := by
  induction loops with
  | nil => exact Nat.zero_le _
  | cons l loops ih =>
    have hl := work_hear l
    simp only [List.map_cons, List.sum_cons, List.length_cons]
    omega

theorem Inner.work_lt (h : Inv σ) (hs : Inner σ σ') : work σ' < work σ := by
  have hlife := lifeWork_apply h.balanced
  unfold work
  cases hs with
  | drop hdropping =>
    rw [hdropping]
    simp only [lifeWork]
    omega
  | stop hloop hshutdown =>
    rw [hloop]
    simp only [EventLoop.work]
    omega
  | wake hloop hevents =>
    rw [hloop, hevents]
    simp only [EventLoop.work, List.map_cons, List.sum_cons, eventWork]
    omega
  | upgrade hloop hstrong =>
    have hacquire := hlife .acquire
    rw [hloop]
    simp only [EventLoop.work]
    omega
  | lose hloop hstrong =>
    rw [hloop]
    simp only [EventLoop.work]
    omega
  | @gather _ n k _ hloop hevents =>
    have hadd : partsWork σ.loops.length (n + k) =
        partsWork σ.loops.length n + partsWork σ.loops.length k := Nat.mul_add ..
    rw [hloop, hevents]
    simp only [EventLoop.work, List.map_cons, List.sum_cons, eventWork, hadd]
    omega
  | lock hloop =>
    rw [hloop]
    simp only [EventLoop.work]
    omega
  | @collect _ n hloop =>
    have hpart := partsWork_succ σ.loops.length n
    rw [hloop]
    simp only [EventLoop.work]
    omega
  | @invalidate _ n hloop =>
    have hpart := partsWork_succ σ.loops.length n
    have hhear := sum_work_hear σ.loops
    rw [hloop]
    simp only [EventLoop.work, List.length_map]
    omega
  | applyChanges hloop =>
    have hhear := sum_work_hear σ.loops
    rw [hloop]
    simp only [EventLoop.work, List.length_map]
    omega
  | finishBatch hloop =>
    have hrelease := hlife .release
    have hbefore : 2 ≤ σ.eventLoop.work σ.loops.length := by
      rcases hloop with hloop | hloop <;> rw [hloop] <;> simp only [EventLoop.work] <;> omega
    show _ + _ + 1 + _ + _ < _
    dsimp only
    omega
  | detach hwatch hloop =>
    rw [hwatch]
    simp only [KernelWatch.work]
    omega
  | @loop l₁ l₂ _ l l' e hloops hs =>
    have heffect := hlife e
    have hlt := hs.work_lt
    have hlength : (l₁ ++ l' :: l₂).length = (l₁ ++ l :: l₂).length := by
      simp only [List.length_append, List.length_cons]
    rw [hloops]
    dsimp only
    rw [sum_map_split, sum_map_split, hlength]
    omega

theorem Unused.inner (h : Unused σ) (hs : Inner σ σ') : Unused σ' := by
  cases hs <;> exact ⟨h.registered, h.handles, h.call⟩

/-- A loop that cannot go on holds nothing, and waits for the channel to close unless it is over. -/
theorem LoopState.stuck {c : Cell} (l : LoopState) (hstuck : ∀ e l', ¬ LoopStep c l e l') :
    l.holds = 0 ∧ (c.life = .dropped → l.phase = .ended ∨ l.phase = .running) := by
  obtain ⟨kind, phase, q⟩ := l
  cases phase with
  | waiting =>
    refine ⟨rfl, fun hdropped => ?_⟩
    cases q with
    | zero => exact absurd (.closed hdropped) (hstuck _ _)
    | succ q => exact absurd .receive (hstuck _ _)
  | woken =>
    rcases Nat.eq_zero_or_pos c.strong with hstrong | hstrong
    · exact absurd (.lose hstrong) (hstuck _ _)
    · exact absurd (.upgrade hstrong) (hstuck _ _)
  | asking => exact absurd .goOn (hstuck _ _)
  | running => exact ⟨rfl, fun _ => .inr rfl⟩
  | leaving =>
    rcases Nat.eq_zero_or_pos c.strong with hstrong | hstrong
    · exact absurd (.loseLeaving hstrong) (hstuck _ _)
    · exact absurd (.upgradeLeaving hstrong) (hstuck _ _)
  | removing => exact absurd .remove (hstuck _ _)
  | ended => exact ⟨rfl, fun _ => .inl rfl⟩

theorem EventLoop.stuck (hstuck : ¬ ∃ σ', Inner σ σ') :
    σ.eventLoop.holds = 0 ∧
      (σ.shutdown = true → σ.eventLoop = .absent ∨ σ.eventLoop = .ended) := by
  cases hloop : σ.eventLoop with
  | absent => exact ⟨rfl, fun _ => .inl rfl⟩
  | waiting => exact ⟨rfl, fun hshutdown => absurd ⟨_, .stop hloop hshutdown⟩ hstuck⟩
  | woken n =>
    rcases Nat.eq_zero_or_pos σ.cell.strong with hstrong | hstrong
    · exact absurd ⟨_, .lose hloop hstrong⟩ hstuck
    · exact absurd ⟨_, .upgrade hloop hstrong⟩ hstuck
  | gathering n => exact absurd ⟨_, .lock hloop⟩ hstuck
  | interpreting n =>
    cases n with
    | zero => exact absurd ⟨_, .finishBatch (.inl hloop)⟩ hstuck
    | succ n => exact absurd ⟨_, .collect hloop⟩ hstuck
  | applied => exact absurd ⟨_, .finishBatch (.inr hloop)⟩ hstuck
  | ended => exact ⟨rfl, fun _ => .inr rfl⟩

/-- Where no inner step is left, everything is released. -/
theorem Unused.released (h : Unused σ) (hinv : Inv σ) (hstuck : ¬ ∃ σ', Inner σ σ') :
    Released σ := by
  have hloop : ∀ l ∈ σ.loops, ∀ e l', ¬ LoopStep σ.cell l e l' := by
    intro l hl e l' hs
    obtain ⟨l₁, l₂, hloops⟩ := List.append_of_mem hl
    exact hstuck ⟨_, .loop l₁ l₂ hloops hs⟩
  obtain ⟨heventHolds, heventLoop⟩ := EventLoop.stuck hstuck
  have hsum : (σ.loops.map LoopState.holds).sum = 0 := by
    refine List.sum_eq_zero fun n hn => ?_
    obtain ⟨l, hl, rfl⟩ := List.mem_map.mp hn
    exact (l.stuck (hloop l hl)).1
  have hholds : σ.holds = 0 := by
    simp only [State.holds, h.call, h.registered, h.handles, heventHolds, hsum, Bool.toNat_false]
  have hdropped : σ.cell.life = .dropped := by
    cases hlife : σ.cell.life with
    | live =>
      have hpos := hinv.balanced.live_iff.mp hlife
      rw [hholds] at hpos
      exact absurd hpos (Nat.lt_irrefl 0)
    | dropping => exact absurd ⟨_, .drop hlife⟩ hstuck
    | dropped => rfl
  have hover := heventLoop (hinv.shutdown_iff.mpr hdropped)
  refine ⟨hdropped, fun hwatch => ?_, hover, fun l hl => (l.stuck (hloop l hl)).2 hdropped⟩
  rcases hover with habsent | hended
  · -- without an event loop the watch was never attached
    have hattaching := hinv.attaching
    have hcall := h.call
    cases hphase : σ.call with
    | returned => rw [hphase] at hattaching; exact hattaching.1 habsent
    | failed =>
      rw [hphase] at hattaching
      rw [hattaching.1] at hwatch
      cases hwatch
    | building => rw [hphase] at hcall; cases hcall
    | attached => rw [hphase] at hcall; cases hcall
    | spawned => rw [hphase] at hcall; cases hcall
  · exact hstuck ⟨_, .detach hwatch hended⟩

end Release

/-- **Released when unused.** Once the registry and the commands have let go of the root, whatever
else holds it, the inner steps come to an end in whatever order they are taken, and at the end the
root is dropped with its tree, the kernel watch is released, the event loop is over, and so is every
push loop and every trigger loop whose command is not running. No step waits for such a command. -/
theorem unregistered_root_released {σ : State} (hrun : Run Step start σ) (hunused : Unused σ) :
    Acc (fun s' s => Inner s s') σ ∧
      ∀ σ', Run Inner σ σ' → (¬ ∃ σ'', Inner σ' σ'') → Released σ' := by
  have hinv := inv_of_run hrun
  refine ⟨?_, fun σ' hrun' hstuck => ?_⟩
  · exact acc_of_measure work (fun _ _ h hs => h.inner hs) (fun _ _ h hs => hs.work_lt h) hinv
  · obtain ⟨hinv', hunused'⟩ : Inv σ' ∧ Unused σ' :=
      ⟨hrun'.preserves (fun _ _ h hs => h.inner hs) hinv,
        hrun'.preserves (fun _ _ h hs => h.inner hs) hunused⟩
    exact hunused'.released hinv' hstuck

/-! ## A root that is unregistered while its trigger runs -/

theorem hear_waiting (kind : Kind) : LoopState.hear ⟨kind, .waiting, 0⟩ = ⟨kind, .waiting, 1⟩ := by
  show LoopState.mk kind .waiting (min (0 + 1) _) = _
  rw [Nat.min_eq_left Loops.tickChannelCapacity_pos]

/-- The event loop has applied a batch, the trigger has fired on it and the push loop is about to
ask, when the root is unregistered and the last command ends. -/
theorem exists_atWork : ∃ σ, Run Step start σ ∧ Unused σ ∧ σ.cell.life = .live ∧
    σ.watch = .attached ∧ σ.loops.map LoopState.phase = [.running, .woken] := by
  have h₁ := run_registeredRoot.tail (.inr (.spawnLoop .trigger Nat.one_pos))
  have h₂ := h₁.tail (.inr (.spawnLoop .push Nat.one_pos))
  have h₃ := h₂.tail (.inr (.event 1 rfl))
  have h₄ := h₃.tail (.inl (.wake rfl rfl))
  have h₅ := h₄.tail (.inl (.upgrade rfl (by decide)))
  have h₆ := h₅.tail (.inl (.lock rfl))
  have h₇ := h₆.tail (.inl (.collect rfl))
  have h₈ := h₇.tail (.inl (.applyChanges rfl))
  have h₉ := h₈.tail (.inl (.loop [] [LoopState.hear ⟨.push, .waiting, 0⟩]
    (congrArg (· :: _) (hear_waiting .trigger)) .receive))
  have h₁₀ := h₉.tail (.inl (.loop [] _ rfl (.upgrade (by decide))))
  have h₁₁ := h₁₀.tail (.inl (.loop [] _ rfl .fire))
  have h₁₂ := h₁₁.tail (.inl (.loop [⟨.trigger, .running, 0⟩] []
    (congrArg (fun l => [_, l]) (hear_waiting .push)) .receive))
  have h₁₃ := h₁₂.tail (.inr (.finish rfl))
  have h₁₄ := h₁₃.tail (.inr (.unregister rfl))
  exact ⟨_, h₁₄, ⟨rfl, rfl, rfl⟩, rfl, rfl, rfl⟩

theorem unregistered_root_released_atWork : ∃ σ, σ.cell.life = .live ∧ σ.watch = .attached ∧
    σ.loops.map LoopState.phase = [.running, .woken] ∧ Acc (fun s' s => Inner s s') σ ∧
      ∀ σ', Run Inner σ σ' → (¬ ∃ σ'', Inner σ' σ'') → Released σ' := by
  obtain ⟨σ, hrun, hunused, hlive, hwatch, hphases⟩ := exists_atWork
  exact ⟨σ, hlive, hwatch, hphases, unregistered_root_released hrun hunused⟩

end Watchwoman.Lifetime
