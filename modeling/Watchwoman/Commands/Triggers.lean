import Watchwoman.Commands.Loops

/-!
# Triggers and their loops

`trigger.rs`: `trigger` installs the trigger under its name and starts a loop for it. Nothing links
the two but the name: the loop looks, for each event, whether some trigger of its name is installed,
and ends if there is none. A loop whose trigger was replaced finds its successor and goes on with the
old definition (`replaced_trigger_fires`).

If no trigger is installed under a name while a loop of that name is still there, and none is deleted
between a loop's look and its query, only what is installed fires, and no change twice
(`only_installed_fires`).

The triggers that `register_root` loads are installed and started in the same way. What the
expressions mean does not matter here: `parse` is any reading of them.
-/

namespace Watchwoman.Triggers

open Transition Query Subscribe Loops

/-! ## The system -/

/-- Where a trigger's loop is. -/
inductive Phase where
  | absent
  /-- The trigger is installed and the handler has not started the loop. -/
  | installed
  /-- The receiver exists and the start tick has not been read. -/
  | subscribed
  | listening
  | handling (ev : TickEvent)
  /-- A trigger of this name was installed when the loop looked. -/
  | checked (ev : TickEvent)
  /-- The command is running. -/
  | running
  | ended
  deriving DecidableEq

structure LoopState where
  trigger : Trigger
  phase : Phase
  lastTick : ℕ
  queue : List TickEvent

namespace LoopState

def name (l : LoopState) : String := l.trigger.name

/-- The loop is there, or its handler is about to start it. -/
def Alive (l : LoopState) : Prop := l.phase ≠ .absent ∧ l.phase ≠ .ended

def Fenced (l : LoopState) : Prop := l.Alive ∧ l.phase ≠ .installed ∧ l.phase ≠ .subscribed

def hear (ev : TickEvent) (l : LoopState) : LoopState :=
  if l.phase = .absent ∨ l.phase = .installed then l
  else { l with queue := Lagging.send tickChannelCapacity l.queue ev }

end LoopState

/-- A run of a command: the loop's trigger, the trigger that was installed under its name when the
loop ran its query, and the query. -/
structure Firing where
  trigger : Trigger
  installed : Option Trigger
  answer : Answer

structure State where
  root : Root
  unsent : List TickEvent
  triggers : HashMap String Trigger
  loops : ℕ → LoopState
  /-- The last first. -/
  firings : List Firing

/-- The state with the loop `i` moved on. -/
def State.setLoop (σ : State) (i : ℕ) (l : LoopState) : State :=
  { σ with loops := Function.update σ.loops i l }

/-- The state after the query of the loop `i`. -/
def State.query (σ : State) (i : ℕ) (expression : Expr) (a : Answer) : State :=
  let l := { σ.loops i with lastTick := responseTick a.root.clock a.result }
  if (Loop.trigger expression).Emits a then
    { σ with
      loops := Function.update σ.loops i { l with phase := .running }
      firings := ⟨l.trigger, σ.triggers.lookup l.name, a⟩ :: σ.firings }
  else σ.setLoop i { l with phase := .listening }

/-- One step of the root, of a command or of a loop. Ticks stay within the `u64` counter. -/
inductive Step (parse : Value → Option Expr) : State → State → Prop
  | batch (arenaBytes : ℕ) (changes : List PathChange) {σ : State}
    (hticks : σ.root.clock.bump.ticks < 2 ^ 64) :
    Step parse σ { σ with
      root := (σ.root.applyChanges arenaBytes changes).1
      unsent := (σ.root.applyChanges arenaBytes changes).2 :: σ.unsent }
  | invalidate {σ : State} (hticks : σ.root.clock.bump.ticks < 2 ^ 64) :
    Step parse σ { σ with
      root := σ.root.invalidateJjEvents.1
      unsent := σ.root.invalidateJjEvents.2.toList ++ σ.unsent }
  /-- Another operation, or one whose event no loop hears. -/
  | other (env : Env) {σ : State} {r : Root} (hs : Root.Step env σ.root r)
    (hticks : r.clock.ticks < 2 ^ 64) :
    Step parse σ { σ with root := r }
  | broadcast {σ : State} {ev : TickEvent} (hev : ev ∈ σ.unsent) :
    Step parse σ { σ with
      unsent := σ.unsent.erase ev
      loops := fun i => (σ.loops i).hear ev }
  | install (i : ℕ) (t : Trigger) {σ : State} (hphase : (σ.loops i).phase = .absent) :
    Step parse σ { σ with
      triggers := σ.triggers.insert t.name t
      loops := Function.update σ.loops i ⟨t, .installed, 0, []⟩ }
  | delete (name : String) {σ : State} :
    Step parse σ { σ with triggers := σ.triggers.erase name }
  | subscribe (i : ℕ) {σ : State} (hphase : (σ.loops i).phase = .installed) :
    Step parse σ (σ.setLoop i { σ.loops i with phase := .subscribed })
  | start (i : ℕ) {σ : State} (hphase : (σ.loops i).phase = .subscribed) :
    Step parse σ (σ.setLoop i { σ.loops i with
      phase := .listening
      lastTick := σ.root.clock.ticks })
  | receive (i : ℕ) {σ : State} {ev : TickEvent} {rest : List TickEvent}
    (hphase : (σ.loops i).phase = .listening) (hq : (σ.loops i).queue = ev :: rest) :
    Step parse σ (σ.setLoop i { σ.loops i with phase := .handling ev, queue := rest })
  | leave (i : ℕ) {σ : State} {ev : TickEvent} (hphase : (σ.loops i).phase = .handling ev)
    (hgone : σ.triggers.lookup (σ.loops i).name = none) :
    Step parse σ (σ.setLoop i { σ.loops i with phase := .ended })
  | check (i : ℕ) {σ : State} {ev : TickEvent} (hphase : (σ.loops i).phase = .handling ev)
    (hthere : σ.triggers.lookup (σ.loops i).name ≠ none) :
    Step parse σ (σ.setLoop i { σ.loops i with phase := .checked ev })
  | skip (i : ℕ) {σ : State} {ev : TickEvent} (hphase : (σ.loops i).phase = .checked ev)
    (hle : ev.tick ≤ (σ.loops i).lastTick) :
    Step parse σ (σ.setLoop i { σ.loops i with phase := .listening })
  | reject (i : ℕ) {σ : State} {ev : TickEvent} (hphase : (σ.loops i).phase = .checked ev)
    (hlt : (σ.loops i).lastTick < ev.tick)
    (hparse : parse (σ.loops i).trigger.expression = none) :
    Step parse σ (σ.setLoop i { σ.loops i with phase := .ended })
  | query (i : ℕ) (env : Env) {σ : State} {ev : TickEvent} {expression : Expr}
    (hphase : (σ.loops i).phase = .checked ev) (hlt : (σ.loops i).lastTick < ev.tick)
    (hparse : parse (σ.loops i).trigger.expression = some expression) :
    Step parse σ (σ.query i expression
      ((Loop.trigger expression).ask env σ.root (σ.loops i).lastTick))
  | finish (i : ℕ) {σ : State} (hphase : (σ.loops i).phase = .running) :
    Step parse σ (σ.setLoop i { σ.loops i with phase := .listening })

/-- A root without triggers. -/
structure Start (σ : State) : Prop where
  reached : ∃ env, Root.Reached env σ.root
  ticks : σ.root.clock.ticks < 2 ^ 64
  triggers : σ.triggers = ∅
  loops : ∀ i, (σ.loops i).phase = .absent
  firings : σ.firings = []

/-! ## What is promised -/

/-- Every firing was that of the trigger installed under its name. -/
def FiresInstalled (σ : State) : Prop := ∀ f ∈ σ.firings, f.installed = some f.trigger

/-- No two firings of a name report the same change. -/
def FiresOnce (σ : State) : Prop :=
  σ.firings.Pairwise fun f g => f.trigger.name = g.trigger.name →
    ∀ p o, ¬ (f.answer.Reports p o ∧ g.answer.Reports p o)

/-- The step installs no trigger under a name of which a loop is still there. -/
def NoStaleLoop (σ σ' : State) : Prop :=
  ∀ i, (σ.loops i).phase = .absent → (σ'.loops i).phase ≠ .absent →
    ∀ j, (σ.loops j).Alive → (σ.loops j).name ≠ (σ'.loops i).name

/-- The step deletes no trigger for which a loop has looked and not yet asked. -/
def NoDeleteBehindCheck (σ σ' : State) : Prop :=
  ∀ i ev, (σ.loops i).phase = .checked ev → σ.triggers.lookup (σ.loops i).name ≠ none →
    σ'.triggers.lookup (σ.loops i).name ≠ none

/-! ## The invariant -/

/-- What holds of one loop: the trigger under its name, if there is one, is its own, and there is one
if it has looked and not yet asked; nothing past its fence was reported by a firing of its name. -/
structure LoopOk (triggers : HashMap String Trigger) (now : ℕ) (firings : List Firing)
    (l : LoopState) : Prop where
  installed : l.Alive → ∀ t, triggers.lookup l.name = some t → t = l.trigger
  checked : ∀ ev, l.phase = .checked ev → triggers.lookup l.name ≠ none
  last_le : l.Fenced → l.lastTick ≤ now
  fenced : l.Fenced → ∀ f ∈ firings, f.trigger.name = l.name → ∀ p o, f.answer.Reports p o →
    o ≤ l.lastTick

/-- No two loops that are there have one name. -/
def NamesUnique (loops : ℕ → LoopState) : Prop :=
  ∀ i j, (loops i).Alive → (loops j).Alive → (loops i).name = (loops j).name → i = j

structure Inv (σ : State) : Prop where
  ticked : σ.root.WellTicked
  bound : σ.root.clock.ticks < 2 ^ 64
  unique : NamesUnique σ.loops
  loops : ∀ i, LoopOk σ.triggers σ.root.clock.ticks σ.firings (σ.loops i)
  reported_le : ∀ f ∈ σ.firings, ∀ p o, f.answer.Reports p o → o ≤ σ.root.clock.ticks
  fires : FiresInstalled σ
  once : FiresOnce σ

section Loops

variable {σ : State} {triggers : HashMap String Trigger} {now : ℕ} {firings : List Firing}
  {l l' : LoopState} {i : ℕ}

theorem alive_of_phase {phase : Phase} (h : l.phase = phase)
    (hphase : phase ≠ .absent ∧ phase ≠ .ended) : l.Alive := by
  unfold LoopState.Alive
  rw [h]
  exact hphase

theorem fenced_of_phase {phase : Phase} (h : l.phase = phase)
    (hphase : (phase ≠ .absent ∧ phase ≠ .ended) ∧ phase ≠ .installed ∧ phase ≠ .subscribed) :
    l.Fenced := by
  unfold LoopState.Fenced LoopState.Alive
  rw [h]
  exact hphase

theorem LoopOk.mono (h : LoopOk triggers now firings l) {now' : ℕ} (hle : now ≤ now') :
    LoopOk triggers now' firings l :=
  { h with last_le := fun hf => (h.last_le hf).trans hle }

theorem LoopOk.hear (h : LoopOk triggers now firings l) (ev : TickEvent) :
    LoopOk triggers now firings (l.hear ev) := by
  unfold LoopState.hear
  split_ifs
  · exact h
  · exact ⟨h.installed, h.checked, h.last_le, h.fenced⟩

theorem name_hear (ev : TickEvent) (l : LoopState) :
    (l.hear ev).name = l.name ∧ (l.hear ev).phase = l.phase := by
  unfold LoopState.hear
  split_ifs
  · exact ⟨rfl, rfl⟩
  · exact ⟨rfl, rfl⟩

theorem LoopOk.move (h : LoopOk triggers now firings l) (htrigger : l'.trigger = l.trigger)
    (hlast : l'.lastTick = l.lastTick) (halive : l'.Alive → l.Alive)
    (hfenced : l'.Fenced → l.Fenced)
    (hchecked : ∀ ev, l'.phase = .checked ev → triggers.lookup l.name ≠ none) :
    LoopOk triggers now firings l' := by
  have hname : l'.name = l.name := congrArg Trigger.name htrigger
  refine ⟨?_, ?_, ?_, ?_⟩
  · rw [hname, htrigger]
    exact fun ha => h.installed (halive ha)
  · rw [hname]
    exact hchecked
  · rw [hlast]
    exact fun hf => h.last_le (hfenced hf)
  · rw [hname, hlast]
    exact fun hf => h.fenced (hfenced hf)

section Unique

variable {loops : ℕ → LoopState}

theorem NamesUnique.update (h : NamesUnique loops) (halive : l'.Alive → (loops i).Alive)
    (hname : l'.name = (loops i).name) : NamesUnique (Function.update loops i l') := by
  have hold : ∀ j, ((Function.update loops i l' j).Alive → (loops j).Alive) ∧
      (Function.update loops i l' j).name = (loops j).name := by
    intro j
    by_cases hj : j = i
    · subst hj
      rw [Function.update_self]
      exact ⟨halive, hname⟩
    · rw [Function.update_of_ne hj]
      exact ⟨id, rfl⟩
  intro j k hj hk hnames
  rw [(hold j).2, (hold k).2] at hnames
  exact h j k ((hold j).1 hj) ((hold k).1 hk) hnames

theorem NamesUnique.install (h : NamesUnique loops)
    (hstale : ∀ j, (loops j).Alive → (loops j).name ≠ l'.name) :
    NamesUnique (Function.update loops i l') := by
  have hnew : ∀ j, (Function.update loops i l' j).Alive →
      (Function.update loops i l' j).name = l'.name → j = i := by
    intro j halive hname
    by_contra hj
    rw [Function.update_of_ne hj] at halive hname
    exact hstale j halive hname
  intro j k hj hk hnames
  by_cases hji : j = i
  · rw [hji, Function.update_self] at hnames
    rw [hji, hnew k hk hnames.symm]
  · by_cases hki : k = i
    · rw [hki, Function.update_self] at hnames
      exact absurd (hnew j hj hnames) (hki ▸ hji)
    · rw [Function.update_of_ne hji] at hj hnames
      rw [Function.update_of_ne hki] at hk hnames
      exact h j k hj hk hnames

end Unique

theorem Inv.setLoop (h : Inv σ) (htrigger : l'.trigger = (σ.loops i).trigger)
    (halive : l'.Alive → (σ.loops i).Alive)
    (hok : LoopOk σ.triggers σ.root.clock.ticks σ.firings l') : Inv (σ.setLoop i l') :=
  { h with
    unique := h.unique.update halive (congrArg Trigger.name htrigger)
    loops := (Function.forall_update_iff σ.loops
      fun _ l => LoopOk σ.triggers σ.root.clock.ticks σ.firings l).mpr
        ⟨hok, fun j _ => h.loops j⟩ }

theorem Inv.root (h : Inv σ) {r : Root} (hticked : r.WellTicked) (hbound : r.clock.ticks < 2 ^ 64)
    (hle : σ.root.clock.ticks ≤ r.clock.ticks) (unsent : List TickEvent) :
    Inv { σ with root := r, unsent := unsent } :=
  { h with
    ticked := hticked
    bound := hbound
    loops := fun i => (h.loops i).mono hle
    reported_le := fun f hf p o hreports => (h.reported_le f hf p o hreports).trans hle }

end Loops

/-! ## The steps -/

section Steps

variable {parse : Value → Option Expr} {σ σ' : State} {i : ℕ}

theorem Inv.moveLoop (h : Inv σ) {l' : LoopState} (htrigger : l'.trigger = (σ.loops i).trigger)
    (hlast : l'.lastTick = (σ.loops i).lastTick) (halive : l'.Alive → (σ.loops i).Alive)
    (hfenced : l'.Fenced → (σ.loops i).Fenced)
    (hchecked : ∀ ev, l'.phase = .checked ev → σ.triggers.lookup (σ.loops i).name ≠ none) :
    Inv (σ.setLoop i l') :=
  h.setLoop htrigger halive ((h.loops i).move htrigger hlast halive hfenced hchecked)

theorem Inv.install (h : Inv σ) {t : Trigger}
    (hstale : ∀ j, (σ.loops j).Alive → (σ.loops j).name ≠ t.name) :
    Inv { σ with
      triggers := σ.triggers.insert t.name t
      loops := Function.update σ.loops i ⟨t, .installed, 0, []⟩ } := by
  have hunfenced : ¬ (LoopState.mk t .installed 0 []).Fenced := fun hf => hf.2.1 rfl
  refine ⟨h.ticked, h.bound, h.unique.install hstale, ?_, h.reported_le, h.fires, h.once⟩
  refine (Function.forall_update_iff σ.loops
    fun _ l => LoopOk (σ.triggers.insert t.name t) σ.root.clock.ticks σ.firings l).mpr ⟨?_, ?_⟩
  · refine ⟨?_, (by rintro ev ⟨⟩), fun hf => absurd hf hunfenced, fun hf => absurd hf hunfenced⟩
    intro _ t' ht'
    change (σ.triggers.insert t.name t).lookup t.name = some t' at ht'
    rw [AList.lookup_insert] at ht'
    exact (Option.some.inj ht').symm
  · intro j _
    have hok := h.loops j
    have hlookup : (σ.loops j).Alive → (σ.triggers.insert t.name t).lookup (σ.loops j).name =
        σ.triggers.lookup (σ.loops j).name :=
      fun halive => AList.lookup_insert_ne (hstale j halive)
    refine { hok with installed := ?_, checked := ?_ }
    · intro halive
      rw [hlookup halive]
      exact hok.installed halive
    · intro ev hphase
      rw [hlookup (alive_of_phase hphase (by simp))]
      exact hok.checked ev hphase

theorem Inv.delete (h : Inv σ) (name : String)
    (hcheck : ∀ j ev, (σ.loops j).phase = .checked ev →
      (σ.triggers.erase name).lookup (σ.loops j).name ≠ none) :
    Inv { σ with triggers := σ.triggers.erase name } := by
  refine ⟨h.ticked, h.bound, h.unique, ?_, h.reported_le, h.fires, h.once⟩
  intro j
  refine { h.loops j with installed := ?_, checked := hcheck j }
  intro halive t ht
  refine (h.loops j).installed halive t ?_
  by_cases hname : (σ.loops j).name = name
  · rw [hname, AList.lookup_erase] at ht
    cases ht
  · rw [AList.lookup_erase_ne hname] at ht
    exact ht

theorem Inv.start (h : Inv σ) (hphase : (σ.loops i).phase = .subscribed) :
    Inv (σ.setLoop i { σ.loops i with phase := .listening, lastTick := σ.root.clock.ticks }) := by
  have halive := alive_of_phase hphase (by simp)
  refine h.setLoop rfl (fun _ => halive) ⟨fun _ => (h.loops i).installed halive, (by rintro ev ⟨⟩),
    fun _ => le_rfl, ?_⟩
  exact fun _ f hf _ p o hreports => h.reported_le f hf p o hreports

/-- The query of a loop whose trigger is installed. -/
theorem Inv.query (h : Inv σ) {ev : TickEvent} (hphase : (σ.loops i).phase = .checked ev)
    (expression : Expr) (env : Env) :
    Inv (σ.query i expression
      ((Loop.trigger expression).ask env σ.root (σ.loops i).lastTick)) := by
  have hfenced : (σ.loops i).Fenced := fenced_of_phase hphase (by simp)
  have hok := h.loops i
  have hlast : (σ.loops i).lastTick < 2 ^ 64 := (hok.last_le hfenced).trans_lt h.bound
  have htick : responseTick σ.root.clock
      ((Loop.trigger expression).ask env σ.root (σ.loops i).lastTick).result =
        σ.root.clock.ticks := responseTick_run env _ h.bound
  obtain ⟨t, ht⟩ := Option.ne_none_iff_exists'.mp (hok.checked ev hphase)
  obtain rfl := hok.installed hfenced.1 t ht
  -- between the fence and the clock lies what the query reports
  have hreports : ∀ p o,
      ((Loop.trigger expression).ask env σ.root (σ.loops i).lastTick).Reports p o →
        (σ.loops i).lastTick < o ∧ o ≤ σ.root.clock.ticks :=
    fun p o hr => reports_ask h.ticked hlast hr
  unfold State.query
  simp only
  rw [show responseTick ((Loop.trigger expression).ask env σ.root (σ.loops i).lastTick).root.clock _ =
    σ.root.clock.ticks from htick]
  split_ifs
  · refine ⟨h.ticked, h.bound, h.unique.update (fun _ => hfenced.1) rfl, ?_, ?_, ?_, ?_⟩
    · refine (Function.forall_update_iff σ.loops fun _ l => LoopOk _ _ _ l).mpr ⟨?_, ?_⟩
      · refine ⟨fun _ => hok.installed hfenced.1, (by rintro ev ⟨⟩), fun _ => le_rfl, fun _ => ?_⟩
        refine List.forall_mem_cons.mpr ⟨fun _ p o hr => (hreports p o hr).2, ?_⟩
        exact fun f hf _ p o hr => h.reported_le f hf p o hr
      · intro j hj
        refine { h.loops j with fenced := fun hf => ?_ }
        refine List.forall_mem_cons.mpr ⟨fun hname => ?_, (h.loops j).fenced hf⟩
        exact absurd (h.unique i j hfenced.1 hf.1 hname).symm hj
    · refine List.forall_mem_cons.mpr ⟨fun p o hr => (hreports p o hr).2, h.reported_le⟩
    · exact List.forall_mem_cons.mpr ⟨ht, h.fires⟩
    · refine List.pairwise_cons.mpr ⟨?_, h.once⟩
      rintro g hg hname p o ⟨hnew, hold⟩
      have hlo := (hreports p o hnew).1
      have hhi := hok.fenced hfenced g hg hname.symm p o hold
      omega
  · refine h.setLoop rfl (fun _ => hfenced.1) ⟨fun _ => hok.installed hfenced.1,
      (by rintro ev ⟨⟩), fun _ => le_rfl, ?_⟩
    exact fun _ f hf _ p o hr => h.reported_le f hf p o hr

theorem Inv.endLoop (h : Inv σ) :
    Inv (σ.setLoop i { σ.loops i with phase := .ended }) :=
  h.moveLoop rfl rfl (fun halive => absurd rfl halive.2) (fun hf => absurd rfl hf.1.2)
    (by rintro ev ⟨⟩)

theorem Inv.listen (h : Inv σ) (hf : (σ.loops i).Fenced) :
    Inv (σ.setLoop i { σ.loops i with phase := .listening }) :=
  h.moveLoop rfl rfl (fun _ => hf.1) (fun _ => hf) (by rintro ev ⟨⟩)

/-- One step that leaves no stale loop and deletes nothing behind a loop's look. -/
theorem Inv.step (h : Inv σ) (hs : Step parse σ σ') (hstale : NoStaleLoop σ σ')
    (hdelete : NoDeleteBehindCheck σ σ') : Inv σ' := by
  cases hs with
  | batch arenaBytes changes hticks =>
    have hstep : Root.Step emptyEnv σ.root _ := .batch arenaBytes changes σ.root
    refine h.root (h.ticked.step hstep) ?_ hstep.ticks_le _
    rw [Root.clock_applyChanges]
    exact hticks
  | invalidate hticks =>
    have hstep : Root.Step emptyEnv σ.root _ := .invalidate σ.root
    refine h.root (h.ticked.step hstep) ?_ hstep.ticks_le _
    unfold Root.invalidateJjEvents
    split_ifs
    · exact hticks
    · exact h.bound
  | other env hstep hticks => exact h.root (h.ticked.step hstep) hticks hstep.ticks_le σ.unsent
  | @broadcast _ ev hev =>
    refine ⟨h.ticked, h.bound, ?_, fun i => (h.loops i).hear ev, h.reported_le, h.fires, h.once⟩
    intro i j hi hj hnames
    unfold LoopState.Alive at hi hj
    rw [(name_hear ev _).2] at hi hj
    rw [(name_hear ev _).1, (name_hear ev _).1] at hnames
    exact h.unique i j hi hj hnames
  | install i t hphase =>
    refine h.install fun j halive => ?_
    have hnew := hstale i hphase
    simp only [Function.update_self] at hnew
    exact hnew (by rintro ⟨⟩) j halive
  | delete name =>
    refine h.delete name fun j ev hphase => hdelete j ev hphase ?_
    exact (h.loops j).checked ev hphase
  | subscribe i hphase =>
    exact h.moveLoop rfl rfl (fun _ => alive_of_phase hphase (by simp))
      (fun hf => absurd rfl hf.2.2) (by rintro ev ⟨⟩)
  | start i hphase => exact h.start hphase
  | receive i hphase hq =>
    have hf := fenced_of_phase hphase (by simp)
    exact h.moveLoop rfl rfl (fun _ => hf.1) (fun _ => hf) (by rintro ev' ⟨⟩)
  | leave i hphase hgone => exact h.endLoop
  | check i hphase hthere =>
    have hf := fenced_of_phase hphase (by simp)
    exact h.moveLoop rfl rfl (fun _ => hf.1) (fun _ => hf) fun _ _ => hthere
  | skip i hphase hle => exact h.listen (fenced_of_phase hphase (by simp))
  | reject i hphase hlt hparse => exact h.endLoop
  | query i env hphase hlt hparse => exact h.query hphase _ env
  | finish i hphase => exact h.listen (fenced_of_phase hphase (by simp))

theorem Inv.init (h : Start σ) : Inv σ := by
  obtain ⟨env, hreached⟩ := h.reached
  have hdead : ∀ i, ¬ (σ.loops i).Alive := fun i halive => halive.1 (h.loops i)
  refine ⟨hreached.wellTicked, h.ticks, fun i j hi => absurd hi (hdead i), ?_, ?_, ?_, ?_⟩
  · intro i
    refine ⟨fun hi => absurd hi (hdead i), ?_, fun hf => absurd hf.1 (hdead i),
      fun hf => absurd hf.1 (hdead i)⟩
    intro ev hphase
    rw [h.loops i] at hphase
    cases hphase
  · rw [h.firings]
    simp
  · unfold FiresInstalled
    rw [h.firings]
    simp
  · unfold FiresOnce
    rw [h.firings]
    exact .nil

end Steps

/-- **Triggers.** In every run that installs no trigger under a name while a loop of that name is
still there, and deletes none between a loop's look and its query, every firing is that of the
trigger installed under its name when the loop ran its query, and no two firings of a name report
the same change. -/
theorem only_installed_fires (parse : Value → Option Expr) {σ₀ σ : State} (hstart : Start σ₀)
    (hrun : Run (fun s s' => Step parse s s' ∧ NoStaleLoop s s' ∧ NoDeleteBehindCheck s s') σ₀ σ) :
    FiresInstalled σ ∧ FiresOnce σ := by
  have hinv : Inv σ := by
    refine hrun.preserves ?_ (Inv.init hstart)
    exact fun s s' h hs => h.step hs.1 hs.2.1 hs.2.2
  exact ⟨hinv.fires, hinv.once⟩

/-! ## A trigger that is replaced -/

def makeTrigger : Trigger := ⟨"x", ["make"], .string "true", false, none, none⟩

def testTrigger : Trigger := { makeTrigger with command := ["test"] }

/-- Both expressions are `true`. -/
def parseTrue : Value → Option Expr := fun _ => some .true

def noTriggers : State := ⟨oneFile, [], ∅, fun _ => ⟨makeTrigger, .absent, 0, []⟩, []⟩

theorem start_noTriggers : Start noTriggers :=
  ⟨⟨emptyEnv, reached_oneFile⟩, by decide, rfl, fun _ => rfl, rfl⟩

/-- A trigger is installed under a name of which no loop is there. -/
theorem calm_install {σ : State} (i : ℕ) {t : Trigger}
    (hnames : ∀ j, (σ.loops j).Alive → (σ.loops j).name ≠ t.name) {σ' : State}
    (htriggers : σ'.triggers = σ.triggers.insert t.name t)
    (hloops : σ'.loops = Function.update σ.loops i ⟨t, .installed, 0, []⟩) :
    NoStaleLoop σ σ' ∧ NoDeleteBehindCheck σ σ' := by
  constructor
  · intro k habsent hnew j halive
    by_cases hk : k = i
    · rw [hloops, hk, Function.update_self]
      exact hnames j halive
    · rw [hloops, Function.update_of_ne hk] at hnew
      exact absurd habsent hnew
  · intro k ev _ hthere
    rw [htriggers]
    by_cases hname : (σ.loops k).name = t.name
    · rw [hname, AList.lookup_insert]
      exact Option.some_ne_none _
    · rw [AList.lookup_insert_ne hname]
      exact hthere

theorem calm_of {σ σ' : State} (htriggers : σ'.triggers = σ.triggers)
    (hphase : ∀ j, (σ.loops j).phase = .absent → (σ'.loops j).phase = .absent) :
    NoStaleLoop σ σ' ∧ NoDeleteBehindCheck σ σ' := by
  refine ⟨fun i habsent hnew => absurd (hphase i habsent) hnew, fun i ev _ hthere => ?_⟩
  rw [htriggers]
  exact hthere

/-- The first `n` loops are there. -/
theorem calm_of_first (n : ℕ) {σ σ' : State} (htriggers : σ'.triggers = σ.triggers)
    (hfirst : ∀ j < n, (σ.loops j).phase ≠ .absent)
    (hphase : ∀ j, (σ.loops (j + n)).phase = .absent → (σ'.loops (j + n)).phase = .absent) :
    NoStaleLoop σ σ' ∧ NoDeleteBehindCheck σ σ' := by
  refine calm_of htriggers fun j habsent => ?_
  rcases Nat.lt_or_ge j n with hj | hj
  · exact absurd habsent (hfirst j hj)
  · obtain ⟨k, rfl⟩ := Nat.exists_eq_add_of_le' hj
    exact hphase k habsent

def lintTrigger : Trigger := { makeTrigger with name := "y", command := ["lint"] }

/-- Two triggers are installed, and both fire for a second file. -/
theorem only_installed_fires_makeTrigger :
    ∃ σ, σ.firings.map (fun f => f.trigger) = [lintTrigger, makeTrigger] ∧
      FiresInstalled σ ∧ FiresOnce σ := by
  have hrun : ∃ σ, Run (fun s s' => Step parseTrue s s' ∧ NoStaleLoop s s' ∧
      NoDeleteBehindCheck s s') noTriggers σ ∧
        σ.firings.map (fun f => f.trigger) = [lintTrigger, makeTrigger] := by
    have h₀ : Run (fun s s' => Step parseTrue s s' ∧ NoStaleLoop s s' ∧ NoDeleteBehindCheck s s')
        noTriggers noTriggers := .refl
    have h₁ := h₀.tail ⟨.install 0 makeTrigger rfl,
      calm_install 0 (fun j halive => absurd rfl halive.1) rfl rfl⟩
    have h₂ := h₁.tail ⟨.subscribe 0 rfl, calm_of_first 1 rfl (by decide) fun j h => h⟩
    have h₃ := h₂.tail ⟨.start 0 rfl, calm_of_first 1 rfl (by decide) fun j h => h⟩
    have h₄ := h₃.tail ⟨.install 1 lintTrigger rfl, calm_install 1 (by
      rintro (_ | j) halive
      exacts [by decide, absurd rfl halive.1]) rfl rfl⟩
    have h₅ := h₄.tail ⟨.subscribe 1 rfl, calm_of_first 2 rfl (by decide) fun j h => h⟩
    have h₆ := h₅.tail ⟨.start 1 rfl, calm_of_first 2 rfl (by decide) fun j h => h⟩
    have h₇ := h₆.tail ⟨.batch 0 [.upsert [[0x62]] someFile none] (by decide),
      calm_of rfl fun j h => h⟩
    have h₈ := h₇.tail ⟨.broadcast (List.mem_singleton.mpr rfl),
      calm_of_first 2 rfl (by decide) fun j h => h⟩
    have h₉ := h₈.tail ⟨.receive 0 rfl (Lagging.send_nil tickChannelCapacity_pos),
      calm_of_first 2 rfl (by decide) fun j h => h⟩
    have h₁₀ := h₉.tail ⟨.check 0 rfl (by decide), calm_of_first 2 rfl (by decide) fun j h => h⟩
    have h₁₁ := h₁₀.tail ⟨.query 0 emptyEnv rfl (by decide) rfl,
      calm_of_first 2 rfl (by decide) fun j h => h⟩
    have h₁₂ := h₁₁.tail ⟨.receive 1 rfl (Lagging.send_nil tickChannelCapacity_pos),
      calm_of_first 2 rfl (by decide) fun j h => h⟩
    have h₁₃ := h₁₂.tail ⟨.check 1 rfl (by decide), calm_of_first 2 rfl (by decide) fun j h => h⟩
    have h₁₄ := h₁₃.tail ⟨.query 1 emptyEnv rfl (by decide) rfl,
      calm_of_first 2 rfl (by decide) fun j h => h⟩
    exact ⟨_, h₁₄, rfl⟩
  obtain ⟨σ, hrun, hfired⟩ := hrun
  exact ⟨σ, hfired, only_installed_fires parseTrue start_noTriggers hrun⟩

/-- The trigger is replaced, and the loop of the first one runs its command for a second file. -/
theorem replaced_trigger_fires :
    Start noTriggers ∧ ∃ σ, Run (Step parseTrue) noTriggers σ ∧ ¬ FiresInstalled σ := by
  have hrun : ∃ σ, Run (Step parseTrue) noTriggers σ ∧
      σ.firings.map (fun f => (f.trigger, f.installed)) = [(makeTrigger, some testTrigger)] := by
    have h₀ : Run (Step parseTrue) noTriggers noTriggers := .refl
    have h₁ := h₀.tail (.install 0 makeTrigger rfl)
    have h₂ := h₁.tail (.subscribe 0 rfl)
    have h₃ := h₂.tail (.start 0 rfl)
    have h₄ := h₃.tail (.install 1 testTrigger rfl)
    have h₅ := h₄.tail (.batch 0 [.upsert [[0x62]] someFile none] (by decide))
    have h₆ := h₅.tail (.broadcast (List.mem_singleton.mpr rfl))
    have h₇ := h₆.tail (.receive 0 rfl (Lagging.send_nil tickChannelCapacity_pos))
    have h₈ := h₇.tail (.check 0 rfl (by decide))
    have h₉ := h₈.tail (.query 0 emptyEnv rfl (by decide) rfl)
    exact ⟨_, h₉, rfl⟩
  obtain ⟨σ, hrun, hfirings⟩ := hrun
  refine ⟨start_noTriggers, σ, hrun, fun hall => ?_⟩
  obtain ⟨f, hf, heq⟩ := List.mem_map.mp
    (hfirings ▸ List.mem_singleton.mpr rfl : (makeTrigger, some testTrigger) ∈
      σ.firings.map fun f => (f.trigger, f.installed))
  obtain ⟨htrigger, hinstalled⟩ := Prod.mk.inj heq
  have hsame := hall f hf
  rw [htrigger, hinstalled] at hsame
  have hcommand : testTrigger.command = makeTrigger.command :=
    congrArg Trigger.command (Option.some.inj hsame)
  exact absurd hcommand (by decide)

end Watchwoman.Triggers
