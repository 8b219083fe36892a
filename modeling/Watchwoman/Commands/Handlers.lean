import Watchwoman.Commands.Subscriptions
import Watchwoman.Daemon.JjEvents
import Watchwoman.Daemon.Registry

/-!
# The handlers and the mode of a root

An event index serves jj alone. Each handler that would put a root to another use promotes it first,
by a call of its own; nothing but the order of the calls in the handlers keeps a general client from
an answer out of a partial index. A handler is a list of actions on the root it has looked up, and
the actions of any number of handlers interleave with each other, with batches and sweeps, and with
registrations.

In each handler what needs a full index comes after a promotion (`guarded_actions`), a promotion is
never undone, and a root is put into the map only after its persisted triggers were looked at; so a
registered jj-events root has no subscription and no trigger but jj's own, and it answers no query
but jj's (`index_serves_jj`).
-/

namespace Watchwoman.Handlers

open Transition Query JjEvents Subscriptions

def jjBackgroundMonitor : String := "jj-background-monitor"

/-! ## The handlers -/

/-- One access of a handler to its root. -/
inductive Action where
  | promote
  /-- Promote if the root is in jj-events mode and the query is not jj's. -/
  | promoteUnlessJj (spec : QuerySpec)
  | answer (spec : QuerySpec)
  | addSubscription (spec : SubscriptionSpec)
  | removeSubscription (name : String)
  | installTrigger (t : Trigger)
  | removeTrigger (name : String)
  | invalidate
  /-- Invalidate in jj-events mode, else crawl and seed. -/
  | recrawl
  | seed

/-- The spec of `find` with its compiled patterns. -/
def findSpec (globs : List (List UInt8 → Bool)) : QuerySpec :=
  { everything with generators := { glob := if globs.isEmpty then none else some globs } }

/-- The spec of `since`. -/
def sinceSpec (clock : String) : QuerySpec :=
  { everything with
    generators := { since := some (ClockSpec.parse clock) }
    since := some (ClockSpec.parse clock) }

/-- The commands on a registered root that read or change more than its clock, their arguments
parsed. -/
inductive Command where
  | query (spec : QuerySpec)
  | find (globs : List (List UInt8 → Bool))
  | since (clock : String)
  | subscribe (spec : SubscriptionSpec)
  | unsubscribe (name : String)
  | trigger (t : Trigger)
  | triggerDel (name : String)
  | debugRecrawl
  | debugFseventsInjectDrop

/-- What the handler of a command does with the root. -/
def Command.actions : Command → List Action
  | .query spec => [.promoteUnlessJj spec, .answer spec]
  | .find globs => [.promote, .answer (findSpec globs)]
  | .since clock => [.promote, .answer (sinceSpec clock)]
  | .subscribe spec => [.promote, .answer spec.query, .addSubscription spec]
  | .unsubscribe name => [.removeSubscription name]
  | .trigger t =>
    if t.name ≠ jjBackgroundMonitor then [.promote, .installTrigger t] else [.installTrigger t]
  | .triggerDel name => [.removeTrigger name]
  | .debugRecrawl => [.recrawl]
  | .debugFseventsInjectDrop => [.invalidate]

/-! ## The system -/

/-- A root with its registries. -/
structure Instance where
  root : Root
  subscriptions : HashMap String SubscriptionSpec
  triggers : HashMap String Trigger

/-- An answer to a query of a command: the spec, and the mode of the root at that moment. -/
structure Answered where
  spec : QuerySpec
  jjEvents : Bool

/-- An action, what is left to do after it, and the answer it gives. -/
inductive Act (inst : Instance) (rest : List Action) :
    Action → Instance → List Action → List Answered → Prop
  | promote (entries : List ScanEntry) :
    Act inst rest .promote { inst with root := inst.root.promoteToFull entries } rest []
  | promoteUnlessJj (spec : QuerySpec) :
    Act inst rest (.promoteUnlessJj spec) inst
      (if inst.root.jjEvents = true ∧ isJjFsmonitorQuery spec = false then .promote :: rest
        else rest) []
  | answer (env : Env) (spec : QuerySpec) :
    Act inst rest (.answer spec) { inst with root := (run env spec inst.root).2 } rest
      [⟨spec, inst.root.jjEvents⟩]
  | addSubscription (spec : SubscriptionSpec) :
    Act inst rest (.addSubscription spec)
      { inst with subscriptions := inst.subscriptions.insert spec.name spec } rest []
  | removeSubscription (name : String) :
    Act inst rest (.removeSubscription name)
      { inst with subscriptions := inst.subscriptions.erase name } rest []
  | installTrigger (t : Trigger) :
    Act inst rest (.installTrigger t)
      { inst with triggers := inst.triggers.insert t.name t } rest []
  | removeTrigger (name : String) :
    Act inst rest (.removeTrigger name)
      { inst with triggers := inst.triggers.erase name } rest []
  | invalidate :
    Act inst rest .invalidate { inst with root := inst.root.invalidateJjEvents.1 } rest []
  | recrawl :
    Act inst rest .recrawl { inst with root := inst.root.invalidateJjEvents.1 }
      (if inst.root.jjEvents = true then rest else .seed :: rest) []
  | seed (entries : List ScanEntry) :
    Act inst rest .seed { inst with root := inst.root.seed entries } rest []

/-- Where a thread of the daemon is. -/
inductive Thread where
  | idle
  /-- In a handler, with the number of its root. -/
  | running (i : ℕ) (actions : List Action)
  /-- In `register_root`, after a miss. -/
  | missed (path : List Name)
  /-- In `register_root`, before the root is put into the map. -/
  | built (path : List Name) (inst : Instance)

/-- Roots are numbered as they are put into the map; a number is never used twice. -/
structure State where
  instances : ℕ → Option Instance
  roots : HashMap (List Name) ℕ
  rootCounter : ℕ
  threads : ℕ → Thread
  answered : List Answered

/-- The state with the thread `c` moved on. -/
def State.setThread (σ : State) (c : ℕ) (thread : Thread) : State :=
  { σ with threads := Function.update σ.threads c thread }

/-- One step of a thread, of a batch or a sweep, or of a push loop that ends. -/
inductive Step : State → State → Prop
  | dispatch (c : ℕ) (command : Command) {σ : State} {path : List Name} {i : ℕ}
    (hc : σ.threads c = .idle) (hroot : σ.roots.lookup path = some i) :
    Step σ (σ.setThread c (.running i command.actions))
  | act (c : ℕ) {σ : State} {i : ℕ} {action : Action} {rest left : List Action}
    {inst inst' : Instance} {answers : List Answered}
    (hc : σ.threads c = .running i (action :: rest)) (hinst : σ.instances i = some inst)
    (hact : Act inst rest action inst' left answers) :
    Step σ { σ with
      instances := Function.update σ.instances i (some inst')
      threads := Function.update σ.threads c (.running i left)
      answered := answers ++ σ.answered }
  /-- The handler returns. -/
  | done (c : ℕ) {σ : State} : Step σ (σ.setThread c .idle)
  | served (i : ℕ) (env : Env) {σ : State} {inst : Instance} {r : Root}
    (hinst : σ.instances i = some inst) (hs : Served env inst.root r) :
    Step σ { σ with
      instances := Function.update σ.instances i (some { inst with root := r }) }
  /-- A push loop takes its entry out. -/
  | leave (i : ℕ) (name : String) {σ : State} {inst : Instance}
    (hinst : σ.instances i = some inst) :
    Step σ { σ with
      instances := Function.update σ.instances i
        (some { inst with subscriptions := inst.subscriptions.erase name }) }
  | miss (c : ℕ) (path : List Name) {σ : State} (hc : σ.threads c = .idle)
    (hroot : σ.roots.lookup path = none) :
    Step σ (σ.setThread c (.missed path))
  /-- The root of `register_root` with the persisted triggers, which is promoted if one of them is
  not jj's. -/
  | build (c : ℕ) (s : Registry.Surroundings) (triggers : HashMap String Trigger) {σ : State}
    {path : List Name} {n number : ℕ} {root : Root} (hc : σ.threads c = .missed path)
    (htriggers : s.triggers = triggers.entries.map fun e => e.2.name)
    (hbuild : Registry.build path σ.rootCounter s = (n, .ok ⟨number, root⟩)) :
    Step σ { σ with
      rootCounter := n
      threads := Function.update σ.threads c (.built path ⟨root, ∅, triggers⟩) }
  /-- A batch before the root is in the map. -/
  | servedEarly (c : ℕ) (env : Env) {σ : State} {path : List Name} {inst : Instance} {r : Root}
    (hc : σ.threads c = .built path inst) (hs : Served env inst.root r) :
    Step σ (σ.setThread c (.built path { inst with root := r }))
  | insert (c i : ℕ) {σ : State} {path : List Name} {inst : Instance}
    (hc : σ.threads c = .built path inst) (hnew : σ.instances i = none) :
    Step σ { σ with
      instances := Function.update σ.instances i (some inst)
      roots := σ.roots.insert path i
      threads := Function.update σ.threads c .idle }
  | unregister (path : List Name) {σ : State} : Step σ { σ with roots := σ.roots.erase path }

/-- A daemon without roots. -/
structure Start (σ : State) : Prop where
  instances : ∀ i, σ.instances i = none
  roots : σ.roots = ∅
  threads : ∀ c, σ.threads c = .idle
  answered : σ.answered = []

/-! ## What is promised -/

/-- In jj-events mode there is no subscription, and no trigger but jj's. -/
def Clean (inst : Instance) : Prop :=
  inst.root.jjEvents = true → (∀ name, inst.subscriptions.lookup name = none) ∧
    ∀ name t, inst.triggers.lookup name = some t → t.name = jjBackgroundMonitor

/-- Every registered root is clean, and what was answered in jj-events mode was jj's query. -/
structure ServesJj (σ : State) : Prop where
  registered : ∀ path i inst, σ.roots.lookup path = some i → σ.instances i = some inst → Clean inst
  answered : ∀ a ∈ σ.answered, a.jjEvents = true → isJjFsmonitorQuery a.spec = true

/-- No root in full mode is in jj-events mode later. -/
def StaysFull (σ σ' : State) : Prop :=
  ∀ i inst, σ.instances i = some inst → inst.root.jjEvents = false →
    ∃ inst', σ'.instances i = some inst' ∧ inst'.root.jjEvents = false

/-! ## One action -/

/-- On a jj-events root these actions do nothing that needs a full index before a promotion. -/
def Guarded : List Action → Prop
  | [] => True
  | .promote :: _ => True
  | .promoteUnlessJj spec :: rest => isJjFsmonitorQuery spec = true → Guarded rest
  | .answer spec :: rest => isJjFsmonitorQuery spec = true ∧ Guarded rest
  | .addSubscription _ :: _ => False
  | .installTrigger t :: rest => t.name = jjBackgroundMonitor ∧ Guarded rest
  | _ :: rest => Guarded rest

theorem guarded_actions (command : Command) : Guarded command.actions := by
  cases command with
  | query spec => exact fun hjj => ⟨hjj, trivial⟩
  | trigger t =>
    by_cases hname : t.name = jjBackgroundMonitor
    · rw [Command.actions, if_neg (not_not.mpr hname)]
      exact ⟨hname, trivial⟩
    · rw [Command.actions, if_pos hname]
      trivial
  | _ => trivial

section Mode

variable {env : Env} {r r' : Root}

theorem jjEvents_of_served (hs : Served env r r') (hjj : r'.jjEvents = true) :
    r.jjEvents = true := by
  cases hs with
  | batch arenaBytes changes =>
    obtain ⟨tree, h⟩ := Root.writeChanges_eq r.clock.bump.ticks changes (r.openBatch arenaBytes)
    change (changes.foldl _ (r.openBatch arenaBytes)).jjEvents = true at hjj
    rw [h] at hjj
    rw [← Root.jjEvents_openBatch arenaBytes r]
    exact hjj
  | invalidate =>
    unfold Root.invalidateJjEvents at hjj
    split_ifs at hjj with h
    · exact h
    · exact hjj
  | promote entries =>
    unfold Root.promoteToFull at hjj
    split_ifs at hjj
    exact hjj
  | recrawl entries hfull => exact hjj
  | sweep =>
    unfold Root.pruneTombstones at hjj
    split_ifs at hjj with h
    · exact h
    · exact hjj
  | bump => exact hjj
  | query spec =>
    rcases root_run env spec r with h | ⟨name, h⟩ <;> rw [h] at hjj
    · exact hjj
    · exact hjj

theorem not_jjEvents_promoteToFull (entries : List ScanEntry) (r : Root) :
    (r.promoteToFull entries).jjEvents = false := by
  unfold Root.promoteToFull
  split_ifs with h
  · rfl
  · exact eq_false_of_ne_true h

end Mode

section Action

variable {inst inst' : Instance} {action : Action} {rest left : List Action}
  {answers : List Answered}

theorem Act.mode (h : Act inst rest action inst' left answers)
    (hjj : inst'.root.jjEvents = true) : inst.root.jjEvents = true := by
  cases h with
  | promote entries => exact @jjEvents_of_served emptyEnv _ _ (.promote entries inst.root) hjj
  | answer env spec => exact @jjEvents_of_served env _ _ (.query spec inst.root) hjj
  | invalidate => exact @jjEvents_of_served emptyEnv _ _ (.invalidate inst.root) hjj
  | recrawl => exact @jjEvents_of_served emptyEnv _ _ (.invalidate inst.root) hjj
  | _ => exact hjj

theorem Clean.of_served {env : Env} {r : Root} (h : Clean inst) (hs : Served env inst.root r) :
    Clean { inst with root := r } :=
  fun hjj => h (jjEvents_of_served hs hjj)

/-- An action of a guarded handler keeps the root clean. -/
theorem Act.clean (h : Act inst rest action inst' left answers) (hclean : Clean inst)
    (hguarded : inst.root.jjEvents = true → Guarded (action :: rest)) : Clean inst' := by
  intro hjj
  obtain ⟨hsubs, htriggers⟩ := hclean (h.mode hjj)
  have hg := hguarded (h.mode hjj)
  cases h with
  | addSubscription spec => exact hg.elim
  | removeSubscription name =>
    refine ⟨fun name' => ?_, htriggers⟩
    by_cases hname : name' = name
    · rw [hname]
      exact AList.lookup_erase name _
    · exact (AList.lookup_erase_ne hname).trans (hsubs name')
  | installTrigger t =>
    refine ⟨hsubs, fun name t' ht' => ?_⟩
    dsimp only at ht'
    rw [HashMap.lookup_insert_eq] at ht'
    split_ifs at ht'
    · rw [← Option.some.inj ht']
      exact hg.1
    · exact htriggers name t' ht'
  | removeTrigger name =>
    refine ⟨hsubs, fun name' t' ht' => ?_⟩
    dsimp only at ht'
    by_cases hname : name' = name
    · rw [hname, AList.lookup_erase] at ht'
      cases ht'
    · rw [AList.lookup_erase_ne hname] at ht'
      exact htriggers name' t' ht'
  | _ => exact ⟨hsubs, htriggers⟩

/-- What is left of a guarded handler is guarded. -/
theorem Act.guarded (h : Act inst rest action inst' left answers)
    (hguarded : inst.root.jjEvents = true → Guarded (action :: rest))
    (hjj : inst'.root.jjEvents = true) : Guarded left := by
  have hold := h.mode hjj
  have hg := hguarded hold
  cases h with
  | promote entries =>
    dsimp only at hjj
    rw [not_jjEvents_promoteToFull] at hjj
    cases hjj
  | promoteUnlessJj spec =>
    split_ifs with hnot
    · trivial
    · refine hg ?_
      by_contra hspec
      exact hnot ⟨hold, eq_false_of_ne_true hspec⟩
  | answer env spec => exact hg.2
  | addSubscription spec => exact hg.elim
  | installTrigger t => exact hg.2
  | recrawl =>
    rw [if_pos hold]
    exact hg
  | _ => exact hg

theorem Act.answered (h : Act inst rest action inst' left answers)
    (hguarded : inst.root.jjEvents = true → Guarded (action :: rest)) :
    ∀ a ∈ answers, a.jjEvents = true → isJjFsmonitorQuery a.spec = true := by
  cases h with
  | answer env spec =>
    refine List.forall_mem_singleton.mpr fun hjj => ?_
    exact (hguarded hjj).1
  | _ => exact fun a ha => absurd ha List.not_mem_nil

end Action

/-! ## The invariant -/

/-- The root of a handler exists, and what is left of the handler is guarded. -/
def ThreadOk (instances : ℕ → Option Instance) : Thread → Prop
  | .running i actions =>
    ∃ inst, instances i = some inst ∧ (inst.root.jjEvents = true → Guarded actions)
  | .built _ inst => Clean inst
  | _ => True

structure Inv (σ : State) : Prop where
  clean : ∀ i inst, σ.instances i = some inst → Clean inst
  exists_root : ∀ path i, σ.roots.lookup path = some i → ∃ inst, σ.instances i = some inst
  threads : ∀ c, ThreadOk σ.instances (σ.threads c)
  answered : ∀ a ∈ σ.answered, a.jjEvents = true → isJjFsmonitorQuery a.spec = true

section Steps

variable {σ σ' : State} {i c : ℕ} {inst inst' : Instance} {thread : Thread}

theorem ThreadOk.mono {instances instances' : ℕ → Option Instance} (h : ThreadOk instances thread)
    (hstays : ∀ j jnst, instances j = some jnst → ∃ jnst', instances' j = some jnst' ∧
      (jnst'.root.jjEvents = true → jnst.root.jjEvents = true)) : ThreadOk instances' thread := by
  cases thread with
  | running j actions =>
    obtain ⟨jnst, hj, hguarded⟩ := h
    obtain ⟨jnst', hj', hmode⟩ := hstays j jnst hj
    exact ⟨jnst', hj', fun hjj => hguarded (hmode hjj)⟩
  | idle => trivial
  | missed path => trivial
  | built path built => exact h

theorem stays_update {instances : ℕ → Option Instance} (hinst : instances i = some inst)
    (hmode : inst'.root.jjEvents = true → inst.root.jjEvents = true) :
    ∀ j jnst, instances j = some jnst → ∃ jnst',
      Function.update instances i (some inst') j = some jnst' ∧
      (jnst'.root.jjEvents = true → jnst.root.jjEvents = true) := by
  intro j jnst hj
  by_cases hji : j = i
  · subst hji
    obtain rfl := Option.some.inj (hinst.symm.trans hj)
    exact ⟨inst', Function.update_self _ _ _, hmode⟩
  · exact ⟨jnst, (Function.update_of_ne hji _ _).trans hj, id⟩

theorem Inv.setInstance (h : Inv σ) (hinst : σ.instances i = some inst) (hclean : Clean inst')
    (hmode : inst'.root.jjEvents = true → inst.root.jjEvents = true) :
    Inv { σ with instances := Function.update σ.instances i (some inst') } := by
  have hstays := stays_update hinst hmode
  refine ⟨?_, ?_, fun c => (h.threads c).mono hstays, h.answered⟩
  · refine (Function.forall_update_iff σ.instances fun _ o => ∀ jnst, o = some jnst →
      Clean jnst).mpr ⟨?_, fun j _ => h.clean j⟩
    rintro jnst ⟨⟩
    exact hclean
  · intro path j hj
    obtain ⟨jnst, hjnst⟩ := h.exists_root path j hj
    obtain ⟨jnst', hjnst', -⟩ := hstays j jnst hjnst
    exact ⟨jnst', hjnst'⟩

theorem Inv.setThread (h : Inv σ) (hok : ThreadOk σ.instances thread) :
    Inv (σ.setThread c thread) :=
  { h with
    threads := (Function.forall_update_iff σ.threads fun _ th => ThreadOk σ.instances th).mpr
      ⟨hok, fun d _ => h.threads d⟩ }

theorem root_of_build {path : List Name} {counter n number : ℕ} {s : Registry.Surroundings}
    {root : Root} (h : Registry.build path counter s = (n, .ok ⟨number, root⟩)) :
    root = Registry.buildRoot path (counter + 1) s := by
  unfold Registry.build at h
  split at h
  · cases h
  · cases h
  · split at h
    · cases h
    · cases h
      rfl

/-- What `register_root` builds is clean: a persisted trigger other than jj's promotes it. -/
theorem clean_build {path : List Name} {counter n number : ℕ} {s : Registry.Surroundings}
    {triggers : HashMap String Trigger} {root : Root}
    (htriggers : s.triggers = triggers.entries.map fun e => e.2.name)
    (hbuild : Registry.build path counter s = (n, .ok ⟨number, root⟩)) :
    Clean ⟨root, ∅, triggers⟩ := by
  intro hjj
  refine ⟨fun name => AList.lookup_empty name, fun name t ht => ?_⟩
  have hmem : t.name ∈ s.triggers := by
    rw [htriggers]
    exact List.mem_map.mpr ⟨⟨name, t⟩, HashMap.mem_entries_iff.mpr ht, rfl⟩
  by_contra hname
  have hany : s.triggers.any (· != "jj-background-monitor") = true :=
    List.any_eq_true.mpr ⟨t.name, hmem, bne_iff_ne.mpr hname⟩
  rw [show root = _ from root_of_build hbuild, Registry.buildRoot, if_pos hany,
    not_jjEvents_promoteToFull] at hjj
  cases hjj

theorem Inv.act (h : Inv σ) {action : Action} {rest left : List Action} {answers : List Answered}
    (hc : σ.threads c = .running i (action :: rest)) (hinst : σ.instances i = some inst)
    (hact : Act inst rest action inst' left answers) :
    Inv { σ with
      instances := Function.update σ.instances i (some inst')
      threads := Function.update σ.threads c (.running i left)
      answered := answers ++ σ.answered } := by
  have hthread := h.threads c
  rw [hc] at hthread
  obtain ⟨jnst, hjnst, hguarded⟩ := hthread
  obtain rfl := Option.some.inj (hinst.symm.trans hjnst)
  have hinv := h.setInstance hinst (hact.clean (h.clean i inst hinst) hguarded) hact.mode
  refine ⟨hinv.clean, hinv.exists_root, ?_, ?_⟩
  · refine (Function.forall_update_iff σ.threads fun _ th => ThreadOk _ th).mpr
      ⟨⟨inst', Function.update_self _ _ _, hact.guarded hguarded⟩, fun d _ => hinv.threads d⟩
  · exact List.forall_mem_append.mpr ⟨hact.answered hguarded, h.answered⟩

/-- A new root is put into the map. -/
theorem Inv.insert (h : Inv σ) {path : List Name} (hc : σ.threads c = .built path inst)
    (hnew : σ.instances i = none) :
    Inv { σ with
      instances := Function.update σ.instances i (some inst)
      roots := σ.roots.insert path i
      threads := Function.update σ.threads c .idle } := by
  have hclean := h.threads c
  rw [hc] at hclean
  have hstays : ∀ j jnst, σ.instances j = some jnst → ∃ jnst',
      Function.update σ.instances i (some inst) j = some jnst' ∧
      (jnst'.root.jjEvents = true → jnst.root.jjEvents = true) := by
    intro j jnst hj
    have hji : j ≠ i := by
      rintro rfl
      rw [hnew] at hj
      cases hj
    exact ⟨jnst, (Function.update_of_ne hji _ _).trans hj, id⟩
  refine ⟨?_, ?_, ?_, h.answered⟩
  · refine (Function.forall_update_iff σ.instances fun _ o => ∀ jnst, o = some jnst →
      Clean jnst).mpr ⟨?_, fun j _ => h.clean j⟩
    rintro jnst ⟨⟩
    exact hclean
  · intro path' j hj
    dsimp only at hj ⊢
    rw [HashMap.lookup_insert_eq] at hj
    split_ifs at hj
    · obtain rfl := Option.some.inj hj
      exact ⟨inst, Function.update_self _ _ _⟩
    · obtain ⟨jnst, hjnst⟩ := h.exists_root path' j hj
      obtain ⟨jnst', hjnst', -⟩ := hstays j jnst hjnst
      exact ⟨jnst', hjnst'⟩
  · exact (Function.forall_update_iff σ.threads fun _ th => ThreadOk _ th).mpr
      ⟨trivial, fun d _ => (h.threads d).mono hstays⟩

theorem Inv.step (h : Inv σ) (hs : Step σ σ') : Inv σ' := by
  cases hs with
  | dispatch c command hc hroot =>
    obtain ⟨inst, hinst⟩ := h.exists_root _ _ hroot
    exact h.setThread ⟨inst, hinst, fun _ => guarded_actions command⟩
  | act c hc hinst hact => exact h.act hc hinst hact
  | done c => exact h.setThread trivial
  | served i env hinst hs =>
    exact h.setInstance hinst ((h.clean i _ hinst).of_served hs) (jjEvents_of_served hs)
  | @leave i name _ inst hinst =>
    have hact : Act inst [] (.removeSubscription name) _ [] [] := .removeSubscription name
    exact h.setInstance hinst (hact.clean (h.clean i _ hinst) fun _ => trivial) hact.mode
  | miss c path hc hroot => exact h.setThread trivial
  | build c s triggers hc htriggers hbuild =>
    refine ⟨h.clean, h.exists_root, ?_, h.answered⟩
    exact (Function.forall_update_iff σ.threads fun _ th => ThreadOk σ.instances th).mpr
      ⟨clean_build htriggers hbuild, fun d _ => h.threads d⟩
  | servedEarly c env hc hs =>
    have hclean := h.threads c
    rw [hc] at hclean
    exact h.setThread (Clean.of_served hclean hs)
  | insert c i hc hnew => exact h.insert hc hnew
  | unregister path =>
    refine ⟨h.clean, fun path' i hi => ?_, h.threads, h.answered⟩
    by_cases hpath : path' = path
    · dsimp only at hi
      rw [hpath, AList.lookup_erase] at hi
      cases hi
    · exact h.exists_root path' i ((AList.lookup_erase_ne hpath).symm.trans hi)

theorem Inv.init (h : Start σ) : Inv σ := by
  refine ⟨?_, ?_, ?_, ?_⟩
  · intro i inst hi
    rw [h.instances i] at hi
    cases hi
  · intro path i hi
    rw [h.roots, AList.lookup_empty] at hi
    cases hi
  · intro c
    rw [h.threads c]
    trivial
  · rw [h.answered]
    exact fun a ha => absurd ha List.not_mem_nil

/-- No step takes a root away or back to jj-events mode. -/
theorem StaysFull.step (hs : Step σ σ') : StaysFull σ σ' := by
  have hkeeps : σ'.instances = σ.instances → StaysFull σ σ' := by
    intro heq i inst hinst hfull
    rw [heq]
    exact ⟨inst, hinst, hfull⟩
  have hupdates : ∀ i inst inst', σ.instances i = some inst →
      σ'.instances = Function.update σ.instances i (some inst') →
      (inst'.root.jjEvents = true → inst.root.jjEvents = true) → StaysFull σ σ' := by
    intro i inst inst' hinst heq hmode j jnst hj hfull
    obtain ⟨jnst', hjnst', hmode'⟩ := stays_update hinst hmode j jnst hj
    rw [heq]
    refine ⟨jnst', hjnst', eq_false_of_ne_true fun hjj => ?_⟩
    rw [hmode' hjj] at hfull
    cases hfull
  cases hs with
  | act c hc hinst hact => exact hupdates _ _ _ hinst rfl hact.mode
  | served i env hinst hs => exact hupdates _ _ _ hinst rfl (jjEvents_of_served hs)
  | leave i name hinst => exact hupdates _ _ _ hinst rfl id
  | insert c i hc hnew =>
    intro j jnst hj hfull
    have hji : j ≠ i := by
      rintro rfl
      rw [hnew] at hj
      cases hj
    exact ⟨jnst, (Function.update_of_ne hji _ _).trans hj, hfull⟩
  | _ => exact hkeeps rfl

theorem StaysFull.run (hrun : Run Step σ σ') : StaysFull σ σ' := by
  induction hrun with
  | refl => exact fun i inst hinst hfull => ⟨inst, hinst, hfull⟩
  | tail _ hs ih =>
    intro i inst hinst hfull
    obtain ⟨inst', hinst', hfull'⟩ := ih i inst hinst hfull
    exact StaysFull.step hs i inst' hinst' hfull'

end Steps

/-- **The event index serves only jj.** In every state of the daemon a registered root in jj-events
mode has no subscription and no trigger but `jj-background-monitor`, and every query of a command
that was answered in jj-events mode was jj's; and no root returns from full to jj-events mode. -/
theorem index_serves_jj {σ₀ σ σ' : State} (hstart : Start σ₀) (hrun : Run Step σ₀ σ)
    (hlater : Run Step σ σ') : ServesJj σ ∧ StaysFull σ σ' := by
  have hinv : Inv σ := hrun.preserves (fun s s' h hs => h.step hs) (Inv.init hstart)
  exact ⟨⟨fun _ i inst _ hinst => hinv.clean i inst hinst, hinv.answered⟩, .run hlater⟩

/-! ## A root of jj -/

def noRoots : State := ⟨fun _ => none, ∅, 0, fun _ => .idle, []⟩

def jjTrigger : Trigger :=
  ⟨jjBackgroundMonitor, ["jj", "debug", "snapshot"], .bool true, false, none, none⟩

def jjDirectory : Registry.Surroundings :=
  ⟨some true, .default, true, [], [], [jjBackgroundMonitor], 1700000000, 42, none⟩

/-- The root is registered and answers jj's query out of its event index. -/
theorem index_serves_jj_jjDirectory : ∃ σ, Run Step noRoots σ ∧
    σ.answered.map Answered.jjEvents = [true] ∧ ServesJj σ := by
  have hrun : ∃ σ, Run Step noRoots σ ∧ σ.answered.map Answered.jjEvents = [true] :=
    ⟨_, .head (.miss 0 [[0x72]] rfl rfl)
      (.head (.build 0 jjDirectory ((∅ : HashMap String Trigger).insert jjTrigger.name jjTrigger) rfl
          rfl rfl)
        (.head (.insert 0 0 rfl rfl)
          (.head (.dispatch 0 (.query jjQuery) rfl (AList.lookup_insert _))
            (.head (.act 0 rfl rfl (.promoteUnlessJj jjQuery))
              (.single (.act 0 rfl rfl (.answer emptyEnv jjQuery))))))), rfl⟩
  obtain ⟨σ, hrun, hanswered⟩ := hrun
  have hstart : Start noRoots := ⟨fun _ => rfl, rfl, fun _ => rfl, rfl⟩
  exact ⟨σ, hrun, hanswered, (index_serves_jj hstart hrun .refl).1⟩

end Watchwoman.Handlers
