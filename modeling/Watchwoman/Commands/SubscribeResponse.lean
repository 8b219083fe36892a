import Watchwoman.Commands.Subscriptions

/-!
# The response of a subscribe command

The handler of `subscribe` spawns the push loop and returns; only then does `dispatch_and_send` put
its response on the queue of the session, on which the loop puts its messages too. A batch that comes
in between can be taken up by the loop at once, and its message is then ahead of the response
(`message_before_response`). Clients drop the first message as the confirmation.

If a loop takes no event past its start tick from its channel until the response is on the queue,
the response comes first (`response_comes_first`). The daemon below is the one of
`Subscriptions`, with any number of subscriptions and sessions.
-/

namespace Watchwoman.SubscribeResponse

open Transition Query Subscribe Loops Subscriptions

/-- The response of `subscribe`. -/
def confirmation (name : String) (rootPath : List Name) (initial : QueryResult) : Value :=
  .object [
    ("version", .string watchmanCompatVersion),
    ("subscribe", .string name),
    ("clock", .string initial.clock),
    ("is_fresh_instance", .bool initial.isFreshInstance),
    ("root", .string (pathText rootPath)),
    ("files", .array initial.files)]

/-- What is put on the queue of a session for the subscription `i`. -/
inductive Enqueued where
  | response (i : ℕ) (message : Value)
  | message (i : ℕ) (message : Value)

structure State where
  daemon : Subscriptions.State
  /-- The results of the initial queries. -/
  initial : ℕ → Option QueryResult
  /-- What was put on the queues of the sessions so far, in order. -/
  queue : List Enqueued

/-- The handler has spawned the push loop. -/
def Spawned : Subscriptions.Phase → Prop
  | .listening => True
  | .handling _ _ => True
  | .checked _ _ => True
  | .sending _ _ => True
  | .leaving => True
  | .ended => True
  | _ => False

/-- The response of the subscription is on the queue. -/
def Answered (σ : State) (i : ℕ) : Prop := ∃ message, .response i message ∈ σ.queue

/-- One step of the daemon, with what it puts on a queue. -/
inductive Step : State → State → Prop
  /-- The step sends nothing and runs no initial query. -/
  | daemon {σ : State} {d : Subscriptions.State} (h : Subscriptions.Step σ.daemon d)
    (hsent : d.sent = σ.daemon.sent)
    (hquery : ∀ i, (d.loops i).phase = .queried → (σ.daemon.loops i).phase = .queried) :
    Step σ { σ with daemon := d }
  | initialQuery (i : ℕ) (env : Env) {σ : State} (hphase : (σ.daemon.loops i).phase = .promoted) :
    Step σ { σ with
      daemon := { σ.daemon with
        root := (run env (σ.daemon.loops i).spec.query σ.daemon.root).2
        loops := Function.update σ.daemon.loops i { σ.daemon.loops i with phase := .queried } }
      initial := Function.update σ.initial i
        (some (run env (σ.daemon.loops i).spec.query σ.daemon.root).1) }
  | send (i : ℕ) {σ : State} {message : Value} {n : ℕ}
    (hphase : (σ.daemon.loops i).phase = .sending message n)
    (hopen : σ.daemon.closed (σ.daemon.loops i).session = false) :
    Step σ { σ with
      daemon := { σ.daemon with
        loops := Function.update σ.daemon.loops i { σ.daemon.loops i with phase := .listening }
        sent := ⟨(σ.daemon.loops i).session, n, message⟩ :: σ.daemon.sent }
      queue := σ.queue ++ [.message i message] }
  /-- `dispatch_and_send` once the handler has returned; on a closed session it puts nothing. -/
  | respond (i : ℕ) {σ : State} {initial : QueryResult}
    (hspawned : Spawned (σ.daemon.loops i).phase) (hinitial : σ.initial i = some initial)
    (hfirst : ¬ Answered σ i) (hopen : σ.daemon.closed (σ.daemon.loops i).session = false) :
    Step σ { σ with
      queue := σ.queue ++
        [.response i (confirmation (σ.daemon.loops i).name σ.daemon.root.path initial)] }

/-- No subscription yet. -/
structure Start (σ : State) : Prop where
  daemon : Subscriptions.Start σ.daemon
  queue : σ.queue = []

/-- Each message of a subscription has the response of the subscription in front of it. -/
def ResponseFirst (σ : State) : Prop :=
  ∀ front i message, front ++ [.message i message] <+: σ.queue →
    ∃ response, .response i response ∈ front

/-- The step lets no loop whose response is still to be put on the queue take an event that is past
its fence. -/
def Waits (σ σ' : State) : Prop :=
  ∀ i ev n, (σ.daemon.loops i).phase = .listening → (σ'.daemon.loops i).phase = .handling ev n →
    ¬ Answered σ i → σ.daemon.closed (σ.daemon.loops i).session = false →
    ev.tick ≤ (σ.daemon.loops i).lastTick

/-! ## The invariant -/

/-- The loop has nothing to send: the event it looks at, if any, is behind its fence. -/
structure Silent (l : LoopState) : Prop where
  handling : ∀ ev n, l.phase = .handling ev n → ev.tick ≤ l.lastTick
  checked : ∀ ev n, l.phase = .checked ev n → ev.tick ≤ l.lastTick
  sending : ∀ message n, l.phase ≠ .sending message n

structure Inv (σ : State) : Prop where
  silent : ∀ i, ¬ Answered σ i → σ.daemon.closed (σ.daemon.loops i).session = false →
    Silent (σ.daemon.loops i)
  first : ResponseFirst σ

theorem Silent.of_iteration {l : LoopState} (h : l.phase.iteration = none) : Silent l := by
  constructor
  · intro ev n hphase
    rw [hphase] at h
    cases h
  · intro ev n hphase
    rw [hphase] at h
    cases h
  · intro message n hphase
    rw [hphase] at h
    cases h

theorem Silent.of_eq {l l' : LoopState} (h : Silent l) (hphase : l'.phase = l.phase)
    (hlast : l'.lastTick = l.lastTick) : Silent l' := by
  constructor
  · rw [hphase, hlast]
    exact h.handling
  · rw [hphase, hlast]
    exact h.checked
  · rw [hphase]
    exact h.sending

section Steps

variable {d d' : Subscriptions.State} {l l' : LoopState} {r : Root}

theorem Silent.move (h : Silent l) (hm : Move d l l' r) : Silent l' := by
  cases hm with
  | check hphase hopen =>
    refine ⟨by rintro _ _ ⟨⟩, ?_, by rintro _ _ ⟨⟩⟩
    rintro ev n ⟨⟩
    exact h.handling _ _ hphase
  | query env hphase hlt =>
    have hle := h.checked _ _ hphase
    omega
  | _ => exact .of_iteration rfl

/-- What a step of the daemon makes of a loop. -/
inductive LoopStep (d : Subscriptions.State) (l : LoopState) : LoopState → Prop
  | same {l' : LoopState} (hphase : l'.phase = l.phase) (hlast : l'.lastTick = l.lastTick)
    (hsession : l'.session = l.session) : LoopStep d l l'
  | move {l' : LoopState} {r : Root} (h : Move d l l' r) : LoopStep d l l'
  | quiet {l' : LoopState} (h : l'.phase.iteration = none) : LoopStep d l l'
  | receive {l' : LoopState} {ev : TickEvent} {n : ℕ} (hphase : l.phase = .listening)
    (hphase' : l'.phase = .handling ev n) (hlast : l'.lastTick = l.lastTick)
    (hsession : l'.session = l.session) : LoopStep d l l'

theorem LoopStep.update {i : ℕ} (h : LoopStep d (d.loops i) l') (j : ℕ) :
    LoopStep d (d.loops j) (Function.update d.loops i l' j) := by
  by_cases hj : j = i
  · rw [hj, Function.update_self]
    exact h
  · rw [Function.update_of_ne hj]
    exact .same rfl rfl rfl

theorem loopStep (hs : Subscriptions.Step d d') (j : ℕ) : LoopStep d (d.loops j) (d'.loops j) := by
  cases hs with
  | @broadcast _ ev hev =>
    show LoopStep d (d.loops j) ((d.loops j).hear ev)
    unfold LoopState.hear
    split_ifs
    · exact .same rfl rfl rfl
    · exact .same rfl rfl rfl
  | resolve i spec session hphase hregistered => exact LoopStep.update (.quiet rfl) j
  | move i h => exact LoopStep.update (.move h) j
  | addSubscription i hphase => exact LoopStep.update (.quiet rfl) j
  | receive i hphase hq =>
    refine LoopStep.update ?_ j
    exact .receive hphase rfl rfl rfl
  | send i hphase hopen => exact LoopStep.update (.quiet rfl) j
  | leave i hphase => exact LoopStep.update (.quiet rfl) j
  | unsubscribe name hentry =>
    show LoopStep d (d.loops j) (if (d.loops j).name = name then _ else d.loops j)
    split_ifs
    · exact .same rfl rfl rfl
    · exact .same rfl rfl rfl
  | _ => exact .same rfl rfl rfl

theorem closed_step (hs : Subscriptions.Step d d') {s : ℕ} (h : d'.closed s = false) :
    d.closed s = false := by
  cases hs with
  | disconnect session =>
    by_cases hsession : s = session
    · change Function.update d.closed session true s = false at h
      rw [hsession, Function.update_self] at h
      cases h
    · change Function.update d.closed session true s = false at h
      rwa [Function.update_of_ne hsession] at h
  | _ => exact h

variable {σ σ' : State}

/-- The loops of the daemon after a step, with the same queue. -/
theorem Inv.silent_step (h : Inv σ) (hs : Subscriptions.Step σ.daemon σ'.daemon)
    (hqueue : ∀ i, Answered σ i → Answered σ' i) (hwaits : Waits σ σ') (i : ℕ)
    (hanswer : ¬ Answered σ' i)
    (hopen : σ'.daemon.closed (σ'.daemon.loops i).session = false) :
    Silent (σ'.daemon.loops i) := by
  have hanswer' : ¬ Answered σ i := mt (hqueue i) hanswer
  have hopen' := closed_step hs hopen
  have hsilent : (σ'.daemon.loops i).session = (σ.daemon.loops i).session →
      Silent (σ.daemon.loops i) := by
    intro hsession
    exact h.silent i hanswer' (hsession ▸ hopen')
  cases loopStep hs i with
  | same hphase hlast hsession => exact (hsilent hsession).of_eq hphase hlast
  | move hm => exact (hsilent hm.keeps.2.1).move hm
  | quiet hphase => exact .of_iteration hphase
  | @receive ev n hphase hphase' hlast hsession =>
    -- the event is behind the fence, or the step would not wait
    have hle := hwaits i ev n hphase hphase' hanswer' (hsession ▸ hopen')
    constructor
    · intro ev' n' hev
      rw [hphase'] at hev
      cases hev
      rw [hlast]
      exact hle
    · intro ev' n' hev
      rw [hphase'] at hev
      cases hev
    · intro message n' hev
      rw [hphase'] at hev
      cases hev

theorem Answered.append {i : ℕ} (h : Answered σ i) {x : Enqueued}
    (hqueue : σ'.queue = σ.queue ++ [x]) : Answered σ' i := by
  obtain ⟨message, hmem⟩ := h
  exact ⟨message, hqueue ▸ List.mem_append_left _ hmem⟩

theorem ResponseFirst.append (h : ResponseFirst σ) {x : Enqueued}
    (hqueue : σ'.queue = σ.queue ++ [x]) (hx : ∀ i message, x = .message i message → Answered σ i) :
    ResponseFirst σ' := by
  intro front i message hfront
  rw [hqueue, List.prefix_concat_iff] at hfront
  rcases hfront with heq | hfront
  · obtain ⟨rfl, hlast⟩ := List.append_inj' heq rfl
    exact hx i message (List.singleton_inj.mp hlast).symm
  · exact h front i message hfront

theorem Inv.step (h : Inv σ) (hs : Step σ σ') (hwaits : Waits σ σ') : Inv σ' := by
  cases hs with
  | daemon hd hsent hquery => exact ⟨h.silent_step hd (fun _ ha => ha) hwaits, h.first⟩
  | initialQuery i env hphase =>
    have hd : Subscriptions.Step σ.daemon _ := .move i (.initialQuery env hphase)
    exact ⟨h.silent_step hd (fun _ ha => ha) hwaits, h.first⟩
  | @send i _ message n hphase hopen =>
    have hd : Subscriptions.Step σ.daemon _ := .send i hphase hopen
    -- the loop is about to send, so its response is on the queue
    have hanswered : Answered σ i := by
      by_contra hanswer
      exact (h.silent i hanswer hopen).sending message n hphase
    refine ⟨h.silent_step hd (fun _ ha => ha.append rfl) hwaits, h.first.append rfl ?_⟩
    rintro _ _ ⟨⟩
    exact hanswered
  | @respond i _ initial hspawned hinitial hfirst hopen =>
    refine ⟨fun j hanswer => h.silent j fun ha => hanswer (ha.append rfl), h.first.append rfl ?_⟩
    rintro _ _ ⟨⟩

theorem Inv.start (h : Start σ) : Inv σ := by
  refine ⟨fun i _ _ => .of_iteration ?_, ?_⟩
  · rw [h.daemon.loops i]
    rfl
  · intro front i message hfront
    rw [h.queue, List.prefix_nil] at hfront
    simp at hfront

end Steps

/-- **The response comes first.** In every run in which no loop takes an event past its fence from
its channel while the response of its subscription is still to be put on the queue, each message of
a subscription comes after the response of that subscription. -/
theorem response_comes_first {σ₀ σ : State} (hstart : Start σ₀)
    (hrun : Run (fun s s' => Step s s' ∧ Waits s s') σ₀ σ) : ResponseFirst σ := by
  have hinv : Inv σ := hrun.preserves (fun s s' h hs => h.step hs.1 hs.2) (Inv.start hstart)
  exact hinv.first

/-! ## One subscription -/

def quiet : State := ⟨noSubscriptions, fun _ => none, []⟩

theorem start_quiet : Start quiet := ⟨start_noSubscriptions, rfl⟩

theorem phase_update {loops : ℕ → LoopState} {i j : ℕ} {l : LoopState} {p : Subscriptions.Phase}
    (h : (Function.update loops i l j).phase = p) (hl : l.phase ≠ p) : (loops j).phase = p := by
  by_cases hj : j = i
  · rw [hj, Function.update_self] at h
    exact absurd h hl
  · rwa [Function.update_of_ne hj] at h

theorem waits_of {σ σ' : State} (h : ∀ i ev n, (σ'.daemon.loops i).phase = .handling ev n →
    (σ.daemon.loops i).phase = .handling ev n) : Waits σ σ' := by
  intro i ev n hlistening hhandling
  rw [h i ev n hhandling] at hlistening
  cases hlistening

theorem phase_move {d : Subscriptions.State} {l l' : LoopState} {r : Root} (h : Move d l l' r)
    (hphase : l.phase ≠ .promoted) : l'.phase ≠ .queried ∧ ∀ ev n, l'.phase ≠ .handling ev n := by
  cases h with
  | initialQuery env hp => exact absurd hp hphase
  | query env hp hlt =>
    rcases afterQuery_cases _ _ with hafter | ⟨message, -, hafter⟩
    · exact ⟨by rw [hafter]; simp, by rw [hafter]; simp⟩
    · exact ⟨by rw [hafter]; simp, by rw [hafter]; simp⟩
  | _ => exact ⟨by simp, by simp⟩

section Moves

variable (i : ℕ) {σ : State} {l : LoopState} {r : Root}

theorem step_move (h : Move σ.daemon (σ.daemon.loops i) l r)
    (hphase : (σ.daemon.loops i).phase ≠ .promoted) :
    Step σ { σ with daemon := { σ.daemon with
      root := r, loops := Function.update σ.daemon.loops i l } } :=
  .daemon (.move i h) rfl fun _ hj => phase_update hj (phase_move h hphase).1

theorem careful_move (h : Move σ.daemon (σ.daemon.loops i) l r)
    (hphase : (σ.daemon.loops i).phase ≠ .promoted) :
    Step σ { σ with daemon := { σ.daemon with
      root := r, loops := Function.update σ.daemon.loops i l } } ∧
    Waits σ { σ with daemon := { σ.daemon with
      root := r, loops := Function.update σ.daemon.loops i l } } :=
  ⟨step_move i h hphase, waits_of fun _ ev n hj => phase_update hj ((phase_move h hphase).2 ev n)⟩

end Moves

theorem phase_broadcast {d : Subscriptions.State} {ev : TickEvent} {i : ℕ} {p : Subscriptions.Phase}
    (h : ((d.loops i).hear ev).phase = p) : (d.loops i).phase = p :=
  (name_hear ev (d.loops i)).2.2.1.symm.trans h

/-- The response is on the queue when the loop takes the event of a second file. -/
theorem response_comes_first_x : ∃ σ, σ.queue.length = 2 ∧ ResponseFirst σ := by
  have h₀ : Run (fun s s' => Step s s' ∧ Waits s s') quiet quiet := .refl
  have h₁ := h₀.tail ⟨.daemon (.resolve 0 xSpec 0 rfl rfl) rfl fun i h => phase_update h (by simp),
    waits_of fun i ev n h => phase_update h (by simp)⟩
  have h₂ := h₁.tail (careful_move 0 (.promote [] rfl) nofun)
  have h₃ := h₂.tail ⟨.initialQuery 0 emptyEnv rfl,
    waits_of fun i ev n h => phase_update h (by simp)⟩
  have h₄ := h₃.tail ⟨.daemon (.addSubscription 0 rfl) rfl fun i h => phase_update h (by simp),
    waits_of fun i ev n h => phase_update h (by simp)⟩
  have h₅ := h₄.tail (careful_move 0 (.subscribe rfl) nofun)
  have h₆ := h₅.tail (careful_move 0 (.start rfl) nofun)
  have h₇ := h₆.tail ⟨.respond 0 trivial rfl (by rintro ⟨message, ⟨⟩⟩) rfl,
    waits_of fun _ _ _ h => h⟩
  have h₈ := h₇.tail ⟨.daemon (.root (.batch 0 bCreated (by decide))) rfl fun _ h => h,
    waits_of fun _ _ _ h => h⟩
  have h₉ := h₈.tail ⟨.daemon (.broadcast (List.mem_singleton.mpr rfl)) rfl fun _ h =>
    phase_broadcast h, waits_of fun _ _ _ h => phase_broadcast h⟩
  have h₁₀ := h₉.tail ⟨.daemon (.receive 0 rfl (Lagging.send_nil tickChannelCapacity_pos)) rfl
      fun i h => phase_update h (by simp), by
    rintro (_ | i) ev n hl h hanswer
    · exact absurd ⟨_, List.mem_singleton.mpr rfl⟩ hanswer
    · cases hl⟩
  have h₁₁ := h₁₀.tail (careful_move 0 (.check rfl rfl) nofun)
  have h₁₂ := h₁₁.tail (careful_move 0 (.query emptyEnv rfl (by decide)) nofun)
  have h₁₃ := h₁₂.tail ⟨.send 0 rfl rfl, waits_of fun i ev n h => phase_update h (by simp)⟩
  exact ⟨_, rfl, response_comes_first start_quiet h₁₃⟩

/-- A second file is created and the loop sends its message before the response is on the queue. -/
theorem message_before_response :
    Start quiet ∧ ∃ σ, Run Step quiet σ ∧ ¬ ResponseFirst σ := by
  have h₀ : Run Step quiet quiet := .refl
  have h₁ := h₀.tail (.daemon (.resolve 0 xSpec 0 rfl rfl) rfl fun i h => phase_update h (by simp))
  have h₂ := h₁.tail (step_move 0 (.promote [] rfl) nofun)
  have h₃ := h₂.tail (.initialQuery 0 emptyEnv rfl)
  have h₄ := h₃.tail (.daemon (.addSubscription 0 rfl) rfl fun i h => phase_update h (by simp))
  have h₅ := h₄.tail (step_move 0 (.subscribe rfl) nofun)
  have h₆ := h₅.tail (step_move 0 (.start rfl) nofun)
  have h₇ := h₆.tail (.daemon (.root (.batch 0 bCreated (by decide))) rfl fun _ h => h)
  have h₈ := h₇.tail (.daemon (.broadcast (List.mem_singleton.mpr rfl)) rfl fun _ h =>
    phase_broadcast h)
  have h₉ := h₈.tail (.daemon (.receive 0 rfl (Lagging.send_nil tickChannelCapacity_pos)) rfl
    fun i h => phase_update h (by simp))
  have h₁₀ := h₉.tail (step_move 0 (.check rfl rfl) nofun)
  have h₁₁ := h₁₀.tail (step_move 0 (.query emptyEnv rfl (by decide)) nofun)
  have h₁₂ := h₁₁.tail (.send 0 rfl rfl)
  refine ⟨start_quiet, _, h₁₂, fun hfirst => ?_⟩
  obtain ⟨response, hmem⟩ := hfirst [] 0 _ List.prefix_rfl
  cases hmem

end Watchwoman.SubscribeResponse
