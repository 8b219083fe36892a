import Watchwoman.Lib.Stopping

/-!
# Shutting down

`shutdown-server` calls `request_shutdown`, which raises a flag and then notifies the tasks that
wait for it. `serve` accepts connections and the garbage collector sweeps until one of the two
reaches them. Both loops are loops of `Stopping`: after the flag is raised `serve` accepts at most
one more connection, the collector makes at most one more sweep, and both return, unless `serve` was
between its look at the flag and its wait when both happened and no client connects
(`shutdown_stops`). The collector cannot be left waiting, since its next tick comes anyway.
-/

namespace Watchwoman.Shutdown

open Transition

/-! ## The two loops -/

/-- Where `serve` is once its socket is bound. -/
inductive Serve where
  /-- At the head of the loop. -/
  | looping
  | selecting (notified : Bool)
  /-- A connection was accepted, or accepting one has failed. -/
  | accepted
  | checking
  /-- Out of the loop. -/
  | broken
  | returned

/-- Where the task of the garbage collector is. -/
inductive Gc where
  /-- It waits for the first tick, which it skips. -/
  | skipping
  | looping
  | selecting (notified : Bool)
  | sweeping
  | checking
  | ended

def Serve.wake : Serve → Serve
  | .selecting _ => .selecting true
  | p => p

def Gc.wake : Gc → Gc
  | .selecting _ => .selecting true
  | p => p

def Serve.phase : Serve → Stopping.Phase
  | .looping => .arming
  | .selecting notified => .waiting notified
  | .accepted => .working
  | .checking => .checking
  | .broken => .ended
  | .returned => .ended

def Gc.phase : Gc → Stopping.Phase
  | .skipping => .arming
  | .looping => .arming
  | .selecting notified => .waiting notified
  | .sweeping => .working
  | .checking => .checking
  | .ended => .ended

/-- The last four fields are not read by any step: what was accepted and swept since the flag was
raised, and which loops were about to wait then. -/
structure State where
  shuttingDown : Bool
  /-- `request_shutdown` has notified the waiters. -/
  told : Bool
  serve : Serve
  gc : Gc
  sockFile : Bool
  /-- Connections that wait to be accepted. -/
  backlog : ℕ
  /-- Connections whose task was spawned. -/
  connections : ℕ
  acceptedSince : ℕ
  sweptSince : ℕ
  serveLate : Bool
  gcLate : Bool

def State.countAccept (σ : State) : ℕ :=
  if σ.shuttingDown then σ.acceptedSince + 1 else σ.acceptedSince

def State.countSweep (σ : State) : ℕ :=
  if σ.shuttingDown then σ.sweptSince + 1 else σ.sweptSince

/-- A step of `serve`, of the collector or of `request_shutdown`. -/
inductive Inner : State → State → Prop
  | selectServe {σ : State} (hserve : σ.serve = .looping) :
    Inner σ { σ with serve := .selecting false }
  | accept {σ : State} {notified : Bool} {n : ℕ} (hserve : σ.serve = .selecting notified)
    (hbacklog : σ.backlog = n + 1) :
    Inner σ { σ with
      serve := .accepted
      backlog := n
      connections := σ.connections + 1
      acceptedSince := σ.countAccept }
  | goOnServe {σ : State} (hserve : σ.serve = .accepted) : Inner σ { σ with serve := .checking }
  | checkServe {σ : State} (hserve : σ.serve = .checking) :
    Inner σ { σ with serve := if σ.shuttingDown then .broken else .looping }
  | hearServe {σ : State} (hserve : σ.serve = .selecting true) :
    Inner σ { σ with serve := .broken }
  /-- The socket is removed, and the listener goes with what it has not accepted. -/
  | removeSock {σ : State} (hserve : σ.serve = .broken) :
    Inner σ { σ with serve := .returned, sockFile := false, backlog := 0 }
  | skip {σ : State} (hgc : σ.gc = .skipping) : Inner σ { σ with gc := .looping }
  | selectGc {σ : State} (hgc : σ.gc = .looping) : Inner σ { σ with gc := .selecting false }
  | tick {σ : State} {notified : Bool} (hgc : σ.gc = .selecting notified) :
    Inner σ { σ with gc := .sweeping, sweptSince := σ.countSweep }
  | goOnGc {σ : State} (hgc : σ.gc = .sweeping) : Inner σ { σ with gc := .checking }
  | checkGc {σ : State} (hgc : σ.gc = .checking) :
    Inner σ { σ with gc := if σ.shuttingDown then .ended else .looping }
  | hearGc {σ : State} (hgc : σ.gc = .selecting true) : Inner σ { σ with gc := .ended }
  /-- The swap of `request_shutdown`, for a command of some connection. -/
  | swap {σ : State} (hconnection : 0 < σ.connections) (hflag : σ.shuttingDown = false) :
    Inner σ { σ with
      shuttingDown := true
      serveLate := σ.serve.phase.isArming
      gcLate := σ.gc.phase.isArming }
  | notifyWaiters {σ : State} (hflag : σ.shuttingDown = true) (htold : σ.told = false) :
    Inner σ { σ with told := true, serve := σ.serve.wake, gc := σ.gc.wake }

/-- What clients and the system do. -/
inductive Outer : State → State → Prop
  | connect {σ : State} (hlistening : σ.serve ≠ .returned) :
    Outer σ { σ with backlog := σ.backlog + 1 }
  | acceptFails {σ : State} {notified : Bool} (hserve : σ.serve = .selecting notified) :
    Outer σ { σ with serve := .accepted, acceptedSince := σ.countAccept }

def Step (σ σ' : State) : Prop := Inner σ σ' ∨ Outer σ σ'

/-- A daemon that has just bound its socket. -/
def start : State where
  shuttingDown := false
  told := false
  serve := .looping
  gc := .skipping
  sockFile := true
  backlog := 0
  connections := 0
  acceptedSince := 0
  sweptSince := 0
  serveLate := false
  gcLate := false

/-! ## The loops as loops that are told to stop -/

def State.serveLoop (σ : State) : Stopping.System :=
  ⟨σ.shuttingDown, σ.told, σ.serve.phase, σ.acceptedSince, σ.serveLate⟩

def State.gcLoop (σ : State) : Stopping.System :=
  ⟨σ.shuttingDown, σ.told, σ.gc.phase, σ.sweptSince, σ.gcLate⟩

/-- What a loop has left to do apart from being one: `serve` removes the socket, the collector skips
its first tick. -/
def Serve.left : Serve → ℕ
  | .broken => 1
  | _ => 0

def Gc.left : Gc → ℕ
  | .skipping => 1
  | _ => 0

section Loops

variable {σ σ' : State}

theorem phase_wake_serve (p : Serve) : p.wake.phase = p.phase.wake := by
  cases p <;> rfl

theorem phase_wake_gc (p : Gc) : p.wake.phase = p.phase.wake := by
  cases p <;> rfl

theorem left_le (p : Serve) : p.left ≤ 1 := by
  cases p <;> simp [Serve.left]

/-- Both loops move together when they are told, and else one of them at most. -/
theorem Inner.loops (hs : Inner σ σ') :
    (Stopping.Step σ.serveLoop σ'.serveLoop ∧
      (σ'.gcLoop = σ.gcLoop ∨ Stopping.Step σ.gcLoop σ'.gcLoop) ∧ σ'.gc.left = σ.gc.left) ∨
    (σ'.serveLoop = σ.serveLoop ∧ Stopping.Step σ.gcLoop σ'.gcLoop ∧
      σ'.serve.left = σ.serve.left ∧ σ'.gc.left = 0) ∨
    (σ'.serveLoop = σ.serveLoop ∧ σ'.gcLoop = σ.gcLoop ∧
      σ'.serve.left + σ'.gc.left < σ.serve.left + σ.gc.left) := by
  have hserved : ∀ {p : Serve}, σ.serve = p → σ.serveLoop.phase = p.phase :=
    fun hserve => congrArg Serve.phase hserve
  have hswept : ∀ {p : Gc}, σ.gc = p → σ.gcLoop.phase = p.phase :=
    fun hgc => congrArg Gc.phase hgc
  cases hs with
  | selectServe hserve => exact .inl ⟨.arm (hserved hserve), .inl rfl, rfl⟩
  | accept hserve hbacklog => exact .inl ⟨.begin (hserved hserve), .inl rfl, rfl⟩
  | goOnServe hserve => exact .inl ⟨.finish (hserved hserve), .inl rfl, rfl⟩
  | checkServe hserve =>
    refine .inl ⟨?_, .inl rfl, rfl⟩
    have hstep := Stopping.Step.check (s := σ.serveLoop) (hserved hserve)
    unfold State.serveLoop
    rw [apply_ite Serve.phase]
    exact hstep
  | hearServe hserve => exact .inl ⟨.hear (hserved hserve), .inl rfl, rfl⟩
  | removeSock hserve =>
    refine .inr (.inr ⟨?_, rfl, ?_⟩)
    · unfold State.serveLoop
      rw [hserve]
      rfl
    · rw [hserve]
      show 0 + σ.gc.left < 1 + σ.gc.left
      omega
  | skip hgc =>
    refine .inr (.inr ⟨rfl, ?_, ?_⟩)
    · unfold State.gcLoop
      rw [hgc]
      rfl
    · rw [hgc]
      exact Nat.lt_succ_self _
  | selectGc hgc => exact .inr (.inl ⟨rfl, .arm (hswept hgc), rfl, rfl⟩)
  | tick hgc => exact .inr (.inl ⟨rfl, .begin (hswept hgc), rfl, rfl⟩)
  | goOnGc hgc => exact .inr (.inl ⟨rfl, .finish (hswept hgc), rfl, rfl⟩)
  | checkGc hgc =>
    refine .inr (.inl ⟨rfl, ?_, rfl, ?_⟩)
    · have hstep := Stopping.Step.check (s := σ.gcLoop) (hswept hgc)
      unfold State.gcLoop
      rw [apply_ite Gc.phase]
      exact hstep
    · dsimp only
      split_ifs <;> rfl
  | hearGc hgc => exact .inr (.inl ⟨rfl, .hear (hswept hgc), rfl, rfl⟩)
  | swap hconnection hflag => exact .inl ⟨.raise hflag, .inr (.raise hflag), rfl⟩
  | notifyWaiters hflag htold =>
    have hserve := Stopping.Step.tell (s := σ.serveLoop) hflag htold
    have hgc := Stopping.Step.tell (s := σ.gcLoop) hflag htold
    refine .inl ⟨?_, .inr ?_, ?_⟩
    · unfold State.serveLoop
      rw [phase_wake_serve]
      exact hserve
    · unfold State.gcLoop
      rw [phase_wake_gc]
      exact hgc
    · show σ.gc.wake.left = σ.gc.left
      cases σ.gc <;> rfl

/-! ## The invariant -/

/-- Both loops are sound, and the socket is removed when `serve` returns. -/
structure Inv (σ : State) : Prop where
  serve : Stopping.Inv σ.serveLoop
  gc : Stopping.Inv σ.gcLoop
  sock : σ.serve = .returned → σ.sockFile = false ∧ σ.backlog = 0

theorem Step.sock (hs : Step σ σ') (h : σ.serve = .returned → σ.sockFile = false ∧ σ.backlog = 0) :
    σ'.serve = .returned → σ'.sockFile = false ∧ σ'.backlog = 0 := by
  rcases hs with hs | hs
  · cases hs with
    | removeSock hserve => exact fun _ => ⟨rfl, rfl⟩
    | checkServe hserve =>
      intro hreturned
      dsimp only at hreturned
      split_ifs at hreturned
    | notifyWaiters hflag htold =>
      intro hreturned
      refine h ?_
      cases hserve : σ.serve <;> simp [hserve, Serve.wake] at hreturned ⊢
    | selectServe | accept | goOnServe | hearServe => rintro ⟨⟩
    | _ => exact h
  · cases hs with
    | connect hlistening => exact fun hreturned => absurd hreturned hlistening
    | acceptFails hserve => rintro ⟨⟩

theorem Inv.step (h : Inv σ) (hs : Step σ σ') : Inv σ' := by
  have hsock := hs.sock h.sock
  have hsame : ∀ {s s' : Stopping.System}, Stopping.Inv s → s' = s → Stopping.Inv s' :=
    fun hinv heq => heq ▸ hinv
  rcases hs with hs | hs
  · rcases hs.loops with ⟨hserve, hgc, -⟩ | ⟨hserve, hgc, -⟩ | ⟨hserve, hgc, -⟩
    · exact ⟨h.serve.step hserve, hgc.elim (hsame h.gc) h.gc.step, hsock⟩
    · exact ⟨hsame h.serve hserve, h.gc.step hgc, hsock⟩
    · exact ⟨hsame h.serve hserve, hsame h.gc hgc, hsock⟩
  · cases hs with
    | connect hlistening => exact ⟨h.serve, h.gc, hsock⟩
    | acceptFails hserve =>
      have hphase := congrArg Serve.phase hserve
      exact ⟨h.serve.step (.begin (s := σ.serveLoop) hphase), h.gc, hsock⟩

theorem inv_start : Inv start := by
  have hloop : ∀ {s : Stopping.System}, s.told = false → s.flag = false → s.begun = 0 →
      Stopping.Inv s := by
    intro s htold hflag hbegun
    refine ⟨fun ht => ?_, fun _ => hbegun, fun hf => ?_⟩
    · cases htold.symm.trans ht
    · cases hflag.symm.trans hf
  exact ⟨hloop rfl rfl rfl, hloop rfl rfl rfl, by rintro ⟨⟩⟩

def work (σ : State) : ℕ :=
  2 * (Stopping.work σ.serveLoop + Stopping.work σ.gcLoop) + σ.serve.left + σ.gc.left

theorem Inner.work_lt (hs : Inner σ σ') (h : Inv σ) (hflag : σ.shuttingDown = true) :
    work σ' < work σ := by
  have hleft := left_le σ'.serve
  unfold work
  rcases hs.loops with ⟨hserve, hgc, hskip⟩ | ⟨hserve, hgc, hsame, hskip⟩ | ⟨hserve, hgc, hlt⟩
  · have hlt := hserve.work_lt h.serve hflag
    rcases hgc with hgc | hgc
    · rw [hgc]
      omega
    · have hlt' := hgc.work_lt h.gc hflag
      omega
  · have hlt := hgc.work_lt h.gc hflag
    rw [hserve]
    omega
  · rw [hserve, hgc]
    omega

theorem Step.shuttingDown (hs : Step σ σ') (hflag : σ.shuttingDown = true) :
    σ'.shuttingDown = true := by
  rcases hs with hs | hs
  · cases hs with
    | swap hconnection hnot => rfl
    | _ => exact hflag
  · cases hs with
    | _ => exact hflag

/-- The daemon has stopped, or `serve` waits for a client, having missed the notification. -/
def Stopped (σ : State) : Prop :=
  σ.gc = .ended ∧ ((σ.serve = .returned ∧ σ.sockFile = false) ∨
    (σ.serve = .selecting false ∧ σ.serveLate = true ∧ σ.backlog = 0 ∧ σ.acceptedSince = 0))

/-- Where no step is left the daemon has stopped, or nearly so. -/
theorem Inv.stopped (h : Inv σ) (hflag : σ.shuttingDown = true) (hstuck : ¬ ∃ σ', Inner σ σ') :
    Stopped σ := by
  have htold : σ.told = true := by
    by_contra hnot
    exact hstuck ⟨_, .notifyWaiters hflag (by simpa using hnot)⟩
  constructor
  · cases hgc : σ.gc with
    | skipping => exact absurd ⟨_, .skip hgc⟩ hstuck
    | looping => exact absurd ⟨_, .selectGc hgc⟩ hstuck
    | selecting notified => exact absurd ⟨_, .tick hgc⟩ hstuck
    | sweeping => exact absurd ⟨_, .goOnGc hgc⟩ hstuck
    | checking => exact absurd ⟨_, .checkGc hgc⟩ hstuck
    | ended => rfl
  · cases hserve : σ.serve with
    | looping => exact absurd ⟨_, .selectServe hserve⟩ hstuck
    | selecting notified =>
      have hphase : σ.serveLoop.phase = .waiting notified := congrArg Serve.phase hserve
      cases notified with
      | true => exact absurd ⟨_, .hearServe hserve⟩ hstuck
      | false =>
        have hlate := (h.serve.winding hflag).waiting htold hphase
        refine .inr ⟨rfl, hlate, ?_, (h.serve.winding hflag).begun_eq_zero hphase⟩
        cases hbacklog : σ.backlog with
        | zero => rfl
        | succ n => exact absurd ⟨_, .accept hserve hbacklog⟩ hstuck
    | accepted => exact absurd ⟨_, .goOnServe hserve⟩ hstuck
    | checking => exact absurd ⟨_, .checkServe hserve⟩ hstuck
    | broken => exact absurd ⟨_, .removeSock hserve⟩ hstuck
    | returned => exact .inl ⟨rfl, (h.sock hserve).1⟩

end Loops

/-- **Shutting down.** Once the flag is raised, in whatever order `serve`, the collector, the rest
of `request_shutdown`, clients and errors go on: at most one more connection is accepted and at most
one more sweep is made; the steps of the daemon come to an end; and at the end the collector has
ended and `serve` has returned and removed the socket, unless `serve` was between its look at the
flag and its wait when the flag was raised and has waited since with no client connecting. -/
theorem shutdown_stops {σ : State} (hrun : Run Step start σ) (hflag : σ.shuttingDown = true) :
    σ.acceptedSince ≤ 1 ∧ σ.sweptSince ≤ 1 ∧ Acc (fun s' s => Inner s s') σ ∧
      ∀ σ', Run Inner σ σ' → (¬ ∃ σ'', Inner σ' σ'') → Stopped σ' := by
  have hinv : Inv σ := hrun.preserves (fun _ _ h hs => h.step hs) inv_start
  have hpreserved : ∀ s s', Inv s ∧ s.shuttingDown = true → Inner s s' →
      Inv s' ∧ s'.shuttingDown = true := by
    rintro s s' ⟨hs, hf⟩ hstep
    exact ⟨hs.step (.inl hstep), Step.shuttingDown (.inl hstep) hf⟩
  refine ⟨(hinv.serve.winding hflag).begun_le, (hinv.gc.winding hflag).begun_le, ?_, ?_⟩
  · exact acc_of_measure work hpreserved (fun _ _ h hs => hs.work_lt h.1 h.2) ⟨hinv, hflag⟩
  · intro σ' hrun' hstuck
    obtain ⟨hinv', hflag'⟩ := hrun'.preserves hpreserved ⟨hinv, hflag⟩
    exact hinv'.stopped hflag' hstuck

/-! ## A shutdown that `serve` misses -/

/-- `serve` has accepted the connection of the command and looked at the flag, and begins to wait
when the command has notified it; the collector sweeps once more, and nothing goes on after that. -/
theorem exists_missed : ∃ σ, Run Step start σ ∧ σ.shuttingDown = true ∧
    σ.serve = .selecting false ∧ ¬ ∃ σ', Inner σ σ' := by
  have h₀ : Run Step start start := .refl
  have h₁ := h₀.tail (.inl (.selectServe rfl))
  have h₂ := h₁.tail (.inr (.connect (by rintro ⟨⟩)))
  have h₃ := h₂.tail (.inl (.accept rfl rfl))
  have h₄ := h₃.tail (.inl (.goOnServe rfl))
  have h₅ := h₄.tail (.inl (.checkServe rfl))
  have h₆ := h₅.tail (.inl (.swap Nat.one_pos rfl))
  have h₇ := h₆.tail (.inl (.notifyWaiters rfl rfl))
  have h₈ := h₇.tail (.inl (.selectServe rfl))
  have h₉ := h₈.tail (.inl (.skip rfl))
  have h₁₀ := h₉.tail (.inl (.selectGc rfl))
  have h₁₁ := h₁₀.tail (.inl (.tick rfl))
  have h₁₂ := h₁₁.tail (.inl (.goOnGc rfl))
  have h₁₃ := h₁₂.tail (.inl (.checkGc rfl))
  refine ⟨_, h₁₃, rfl, rfl, ?_⟩
  rintro ⟨σ', hs⟩
  cases hs <;> (rename_i h; cases h)

theorem shutdown_stops_missed : ∃ σ, σ.serve = .selecting false ∧ (¬ ∃ σ', Inner σ σ') ∧
    σ.acceptedSince ≤ 1 ∧ σ.sweptSince ≤ 1 ∧ Acc (fun s' s => Inner s s') σ ∧
      ∀ σ', Run Inner σ σ' → (¬ ∃ σ'', Inner σ' σ'') → Stopped σ' := by
  obtain ⟨σ, hrun, hflag, hserve, hstuck⟩ := exists_missed
  exact ⟨σ, hserve, hstuck, shutdown_stops hrun hflag⟩

end Watchwoman.Shutdown
