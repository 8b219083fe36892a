import Watchwoman.Commands.Isolation
import Watchwoman.Daemon.RootRuns

/-!
# What a command can do

The handlers change the daemon in few ways: a root is touched, one of its maps gains or loses an
entry, an operation of its index runs, a root is registered or leaves the map, a file of triggers is
written. `Step` has one case for each of them, and every command is a run of such steps
(`run_dispatch`), so what the steps preserve holds along every run of commands.
-/

namespace Watchwoman.Dispatch

open Transaction Program Transition Persistence Query CommandError
open Handlers (jjBackgroundMonitor)

/-! ## The steps -/

/-- What comes from outside in a run: what the commands find, the queries of the subscriptions and
the triggers that the clients send. -/
structure Admitted where
  env : CommandEnv → Prop
  query : Value → Prop
  trigger : Trigger → Prop

namespace Admitted

/-- The command may come. -/
structure Admits (a : Admitted) (e : Event) : Prop where
  env : a.env e.env
  query : ∀ command args, e.command = some (command, args) → ∀ v ∈ args, a.query v
  trigger : ∀ command args, e.command = some (command, args) → ∀ v ∈ args, ∀ t,
    parseTrigger v = .ok t → a.trigger t

end Admitted

/-- One change of a registered root. -/
inductive WatchStep (a : Admitted) : Watch → Watch → Prop
  | touch (unixNow : ℕ) (w : Watch) : WatchStep a w (w.touch unixNow)
  | root (env : Env) {w : Watch} {r : Root} (h : Root.Step env w.root r) :
    WatchStep a w { w with root := r }
  /-- Only a full index has subscriptions. -/
  | subscribe (name : String) {query : Value} (h : a.query query) {w : Watch}
    (hfull : w.root.jjEvents = false) :
    WatchStep a w { w with subscriptions := w.subscriptions.insert name ⟨name, query⟩ }
  | unsubscribe (name : String) (w : Watch) :
    WatchStep a w { w with subscriptions := w.subscriptions.erase name }
  /-- Only a full index has triggers other than jj's. -/
  | trigger {t : Trigger} (h : a.trigger t) {w : Watch}
    (hfull : t.name ≠ jjBackgroundMonitor → w.root.jjEvents = false) :
    WatchStep a w { w with triggers := w.triggers.insert t.name t }
  | untrigger (name : String) (w : Watch) :
    WatchStep a w { w with triggers := w.triggers.erase name }
  | enter (name : String) (w : Watch) :
    WatchStep a w { w with assertedStates := w.assertedStates.insert name () }
  | leave (name : String) (w : Watch) :
    WatchStep a w { w with assertedStates := w.assertedStates.erase name }
  | markMissing (w : Watch) : WatchStep a w w.markMissing
  | markPresent (w : Watch) : WatchStep a w w.markPresent

section

variable {serde : Serde}

/-- The root that `register_root` puts into the map. -/
def newWatch (env : CommandEnv) (path : List Name) (σ : DaemonState serde.File) : Watch :=
  let triggers := loadPersistedTriggers env path σ
  let names := triggers.entries.map fun e => e.2.name
  { Watch.new (Registry.buildRoot path (σ.rootCounter + 1) (env.surroundings path names))
      env.unixNow with triggers }

/-- One change of the daemon. -/
inductive Step (a : Admitted) : DaemonState serde.File → DaemonState serde.File → Prop
  | watch {σ : DaemonState serde.File} {path : List Name} {w w' : Watch}
    (hw : σ.roots.lookup path = some w) (h : WatchStep a w w') : Step a σ (σ.setRoot path w')
  | register {env : CommandEnv} (henv : a.env env) {σ : DaemonState serde.File} {path : List Name}
    (hnone : σ.roots.lookup path = none) :
    Step a σ ({ σ with rootCounter := σ.rootCounter + 1 }.setRoot path (newWatch env path σ))
  /-- A registration that fails has taken a number. -/
  | count {env : CommandEnv} (henv : a.env env) (σ : DaemonState serde.File) :
    Step a σ { σ with rootCounter := σ.rootCounter + 1 }
  | unregister (path : List Name) (σ : DaemonState serde.File) : Step a σ (σ.unregisterRoot path).1
  | drain (σ : DaemonState serde.File) : Step a σ σ.drainRoots.1
  | persist {σ : DaemonState serde.File} {path : List Name} {w : Watch}
    (hw : σ.roots.lookup path = some w) :
    Step a σ { σ with
      files := (σ.persistence.persistTriggers w.root.path (HashMap.values w.triggers)).files }
  | logReap (event : ReapEvent) (σ : DaemonState serde.File) : Step a σ (σ.logReap event)
  | shutdown (σ : DaemonState serde.File) : Step a σ { σ with shuttingDown := true }

variable {a : Admitted} {env : CommandEnv} {args : List Value}

/-! ## Working on a root -/

theorem setRoot_setRoot (σ : DaemonState serde.File) (path : List Name) (w w' : Watch) :
    (σ.setRoot path w).setRoot path w' = σ.setRoot path w' := by
  unfold DaemonState.setRoot
  rw [AList.insert_insert]

theorem lookup_setRoot (σ : DaemonState serde.File) (path : List Name) (w : Watch) :
    (σ.setRoot path w).roots.lookup path = some w :=
  AList.lookup_insert σ.roots

theorem run_setRoot {w w' : Watch} (h : Run (WatchStep a) w w') (σ : DaemonState serde.File)
    (path : List Name) : Run (Step a) (σ.setRoot path w) (σ.setRoot path w') := by
  induction h with
  | refl => exact .refl
  | @tail w' w'' _ hs ih =>
    refine ih.tail ?_
    rw [← setRoot_setRoot σ path w' w'']
    exact .watch (lookup_setRoot σ path w') hs

/-- The root of a command was put back as it was found. -/
def Held (r : Resolved) (σ : DaemonState serde.File) : Prop :=
  ∃ τ : DaemonState serde.File, σ = τ.setRoot r.path r.watch

/-- What `resolve_root` leaves: an error and the daemon as it was, or a root of the daemon, which it
has touched. -/
theorem resolveRoot_cases (missing : String) (σ : DaemonState serde.File) :
    (∃ e, (resolveRoot env missing args).exec σ = (.error e, σ)) ∨
      ∃ text path w, σ.roots.lookup path = some w ∧
        (resolveRoot env missing args).exec σ =
          (.ok ⟨text, path, w.touch env.unixNow⟩, σ.setRoot path (w.touch env.unixNow)) := by
  unfold resolveRoot
  rw [exec_bind, exec_lift]
  cases orBadArgs missing (args.head?.bind Value.asStr) with
  | error e => exact .inl ⟨e, rfl⟩
  | ok arg =>
    dsimp only
    cases (canonical env arg).key with
    | none => exact .inl ⟨_, rfl⟩
    | some key =>
      dsimp only
      rw [exec_bind, exec_findRoot]
      cases hw : rootAt σ key with
      | none => exact .inl ⟨_, rfl⟩
      | some w => exact .inr ⟨_, key, w, hw, rfl⟩

theorem keeps_onRoot {missing : String} {f : Resolved → Cmd serde Value}
    (hf : ∀ r, (f r).KeepsFrom (Held r) (Run (Step a))) :
    (resolveRoot env missing args >>= f).Keeps (Run (Step a)) := by
  intro σ
  rw [exec_bind]
  obtain ⟨e, hexec⟩ | ⟨text, path, w, hw, hexec⟩ := @resolveRoot_cases _ env args missing σ
  · rw [hexec]
  · rw [hexec]
    exact .head (.watch hw (.touch env.unixNow w)) (hf _ _ ⟨σ, rfl⟩)

theorem keepsFrom_respond {r : Resolved} {w : Watch} (h : Run (WatchStep a) r.watch w)
    (response : Value) :
    (respond r.path w response : Cmd serde Value).KeepsFrom (Held r) (Run (Step a)) := by
  rintro _ ⟨τ, rfl⟩
  show Run (Step a) _ ((τ.setRoot r.path r.watch).setRoot r.path w)
  rw [setRoot_setRoot]
  exact run_setRoot h τ r.path

theorem keepsFrom_modify {r : Resolved} {f : DaemonState serde.File → DaemonState serde.File}
    (h : ∀ τ : DaemonState serde.File,
      Run (Step a) (τ.setRoot r.path r.watch) (f (τ.setRoot r.path r.watch))) (response : Value) :
    (modify f >>= fun _ => pure response : Cmd serde Value).KeepsFrom (Held r) (Run (Step a)) := by
  rintro _ ⟨τ, rfl⟩
  exact h τ

theorem keepsFrom_report (r : Resolved) (response : Value) :
    (pure response : Cmd serde Value).KeepsFrom (Held r) (Run (Step a)) :=
  fun _ _ => .refl

/-! ## The commands on a root -/

theorem watchStep_root {w : Watch} {r : Root} (env : Env) (h : Root.Step env w.root r) :
    Run (WatchStep a) w { w with root := r } :=
  .single (.root env h)

theorem run_promoteToFull (env : CommandEnv) (w : Watch) : Run (WatchStep a) w (w.promoteToFull env) :=
  watchStep_root (env.query w.root.path) (.promote _ _)

theorem not_jjEvents_promote (env : CommandEnv) (w : Watch) :
    (w.promoteToFull env).root.jjEvents = false :=
  Handlers.not_jjEvents_promoteToFull _ w.root

theorem jjEvents_query (env : Env) (spec : QuerySpec) {r : Root} (h : r.jjEvents = false) :
    (Query.run env spec r).2.jjEvents = false := by
  rcases Query.root_run env spec r with hrun | ⟨name, hrun⟩
  · rw [hrun]
    exact h
  · rw [hrun]
    exact h

theorem keepsFrom_answer {r : Resolved} {w : Watch} (h : Run (WatchStep a) r.watch w)
    (spec : QuerySpec) :
    (answer env r w spec : Cmd serde Value).KeepsFrom (Held r) (Run (Step a)) :=
  keepsFrom_respond (h.tail (.root (env.query r.path) (.query spec w.root))) _

theorem keeps_query : (query env args : Cmd serde Value).Keeps (Run (Step a)) := by
  refine keeps_onRoot fun r => .lift_bind fun raw _ => .lift_bind fun spec _ => ?_
  refine keepsFrom_answer ?_ spec
  split_ifs
  · exact run_promoteToFull env r.watch
  · exact .refl

theorem keeps_find : (find env args : Cmd serde Value).Keeps (Run (Step a)) :=
  keeps_onRoot fun r => .lift_bind fun spec _ => keepsFrom_answer (run_promoteToFull env r.watch) spec

theorem keeps_since : (since env args : Cmd serde Value).Keeps (Run (Step a)) :=
  keeps_onRoot fun r => .lift_bind fun _ _ => .lift_bind fun spec _ =>
    keepsFrom_answer (run_promoteToFull env r.watch) spec

theorem keeps_subscribe (session : Session) (hquery : ∀ v ∈ args, a.query v) :
    (subscribe env session args : Cmd serde Value).Keeps (Run (Step a)) := by
  refine keeps_onRoot fun r => .lift_bind fun name _ => .lift_bind fun raw hraw => .lift_bind
    fun spec _ => keepsFrom_respond ?_ _
  have hmem : raw ∈ args := List.mem_of_getElem? (orBadArgs_eq_ok.mp hraw)
  have hqueried : WatchStep a (r.watch.promoteToFull env)
      { r.watch.promoteToFull env with
        root := (Query.run (env.query r.path) spec (r.watch.promoteToFull env).root).2 } :=
    .root (env.query r.path) (.query spec _)
  refine ((run_promoteToFull env r.watch).tail hqueried).tail ?_
  exact .subscribe name (hquery raw hmem) (jjEvents_query _ spec (not_jjEvents_promote env r.watch))

theorem keeps_unsubscribe : (unsubscribe env args : Cmd serde Value).Keeps (Run (Step a)) :=
  keeps_onRoot fun r => .lift_bind fun name _ =>
    keepsFrom_respond (.single (.unsubscribe name r.watch)) _

theorem keeps_clock : (clock env args : Cmd serde Value).Keeps (Run (Step a)) :=
  keeps_onRoot fun r => keepsFrom_respond (watchStep_root (env.query r.path) (.bump _)) _

theorem keeps_state {f : Resolved × String → Cmd serde Value}
    (hf : ∀ r name, (f (r, name)).KeepsFrom (Held r) (Run (Step a))) :
    (parseState env args >>= f).Keeps (Run (Step a)) := by
  unfold parseState
  rw [bind_assoc]
  refine keeps_onRoot fun r => ?_
  rw [bind_assoc]
  refine .lift_bind fun name _ => ?_
  rw [pure_bind]
  exact hf r name

theorem keeps_stateEnter : (stateEnter env args : Cmd serde Value).Keeps (Run (Step a)) :=
  keeps_state fun r name => keepsFrom_respond (.single (.enter name r.watch)) _

theorem keeps_stateLeave : (stateLeave env args : Cmd serde Value).Keeps (Run (Step a)) :=
  keeps_state fun r name => keepsFrom_respond (.single (.leave name r.watch)) _

theorem run_persistTriggers {σ : DaemonState serde.File} {path : List Name} {w : Watch}
    (hw : σ.roots.lookup path = some w) : Run (Step a) σ (persistTriggers env w σ) := by
  unfold persistTriggers
  split_ifs
  · exact .single (.persist hw)
  · exact .refl

theorem keeps_trigger (htrigger : ∀ v ∈ args, ∀ t, parseTrigger v = .ok t → a.trigger t) :
    (trigger env args : Cmd serde Value).Keeps (Run (Step a)) := by
  refine keeps_onRoot fun r => .lift_bind fun spec hspec => .lift_bind fun t ht =>
    keepsFrom_modify (fun τ => ?_) _
  have hmem : spec ∈ args := List.mem_of_getElem? (orBadArgs_eq_ok.mp hspec)
  unfold installTrigger
  dsimp only
  rw [setRoot_setRoot]
  refine .trans (run_setRoot ?_ τ r.path) (run_persistTriggers (lookup_setRoot τ r.path _))
  by_cases hname : t.name = jjBackgroundMonitor
  · rw [if_neg (not_not_intro hname)]
    exact .single (.trigger (htrigger spec hmem t ht) (absurd hname))
  · rw [if_pos hname]
    exact (run_promoteToFull env r.watch).tail
      (.trigger (htrigger spec hmem t ht) fun _ => not_jjEvents_promote env r.watch)

theorem keeps_triggerDel : (triggerDel env args : Cmd serde Value).Keeps (Run (Step a)) := by
  refine keeps_onRoot fun r => .lift_bind fun name _ => keepsFrom_modify (fun τ => ?_) _
  unfold removeTrigger
  split_ifs
  · dsimp only
    rw [setRoot_setRoot]
    exact .trans (run_setRoot (.single (.untrigger name r.watch)) τ r.path)
      (run_persistTriggers (lookup_setRoot τ r.path _))
  · exact .refl

theorem keeps_recrawl : (recrawl env args : Cmd serde Value).Keeps (Run (Step a)) := by
  refine keeps_onRoot fun r => ?_
  have hinvalidate := @watchStep_root a r.watch _ (env.query r.path) (.invalidate r.watch.root)
  revert hinvalidate
  dsimp only
  obtain ⟨root, _ | event⟩ := r.watch.root.invalidateJjEvents
  · exact fun _ => keepsFrom_respond (watchStep_root (env.query r.path) (.seed _ _)) _
  · exact fun hinvalidate => keepsFrom_respond hinvalidate _

theorem keeps_injectDrop : (injectDrop env args : Cmd serde Value).Keeps (Run (Step a)) :=
  keeps_onRoot fun r => keepsFrom_respond (watchStep_root (env.query r.path) (.invalidate _)) _

theorem keeps_report (missing : String) (report : Resolved → Value) :
    (resolveRoot env missing args >>= fun r => pure (report r) : Cmd serde Value).Keeps
      (Run (Step a)) :=
  keeps_onRoot fun r => keepsFrom_report r _

/-! ## The other commands -/

theorem step_registerRoot (henv : a.env env) (path : List Name) (σ : DaemonState serde.File) :
    Relation.ReflGen (Step a) σ ((registerRoot env path).exec σ).2 := by
  unfold registerRoot
  rw [exec_get_bind]
  cases hw : σ.roots.lookup path with
  | some w => exact .single (.watch hw (.touch env.unixNow w))
  | none =>
    dsimp only
    split
    · exact .refl
    · exact .refl
    · rw [exec_modify_bind]
      split
      · exact .single (.count henv σ)
      · exact .single (.register henv hw)

/-- A command that registers a root does nothing else to the daemon. -/
theorem registering_cases {x : Except CommandError (List Name)} (f : List Name → List Name)
    (response : List Name → Value) (σ : DaemonState serde.File) :
    ((do
      let path ← liftM x
      registerRoot env (f path)
      return response path : Cmd serde Value).exec σ).2 = σ ∨
    ∃ path, ((do
      let path ← liftM x
      registerRoot env (f path)
      return response path : Cmd serde Value).exec σ).2 = ((registerRoot env path).exec σ).2 := by
  rw [exec_bind, exec_lift]
  cases x with
  | error e => exact .inl rfl
  | ok path =>
    refine .inr ⟨f path, ?_⟩
    dsimp only
    rw [exec_bind]
    obtain ⟨_ | _, τ⟩ := (registerRoot env (f path)).exec σ
    · rfl
    · rfl

theorem step_registering (henv : a.env env) {x : Except CommandError (List Name)}
    (f : List Name → List Name) (response : List Name → Value) (σ : DaemonState serde.File) :
    Relation.ReflGen (Step a) σ ((do
      let path ← liftM x
      registerRoot env (f path)
      return response path : Cmd serde Value).exec σ).2 := by
  rcases @registering_cases _ env x f response σ with hsame | ⟨path, hregistered⟩
  · rw [hsame]
  · rw [hregistered]
    exact step_registerRoot henv path σ

theorem step_watch (henv : a.env env) (σ : DaemonState serde.File) :
    Relation.ReflGen (Step a) σ ((watch env args : Cmd serde Value).exec σ).2 :=
  step_registering henv id _ σ

theorem step_watchProject (henv : a.env env) (σ : DaemonState serde.File) :
    Relation.ReflGen (Step a) σ ((watchProject env args : Cmd serde Value).exec σ).2 :=
  step_registering henv (fun start => (resolveProjectRoot env start).1) _ σ

theorem keeps_watchDel : (watchDel env args : Cmd serde Value).Keeps (Run (Step a)) := by
  refine .bind (keeps_lift _) fun arg σ => ?_
  dsimp only
  cases (canonical env arg).key with
  | none => exact .refl
  | some key => exact .single (.unregister key σ)

theorem keeps_watchDelAll : (watchDelAll : Cmd serde Value).Keeps (Run (Step a)) :=
  fun σ => .single (.drain σ)

theorem run_foldl {f : DaemonState serde.File → List Name → DaemonState serde.File}
    (hf : ∀ σ path, Run (Step a) σ (f σ path)) (paths : List (List Name))
    (σ : DaemonState serde.File) : Run (Step a) σ (paths.foldl f σ) := by
  induction paths generalizing σ with
  | nil => exact .refl
  | cons path paths ih => exact .trans (hf σ path) (ih _)

theorem run_prunePath (σ : DaemonState serde.File) (path : List Name) :
    Run (Step a) σ (prunePath σ path) := by
  unfold prunePath
  cases hw : σ.roots.lookup path with
  | none => exact .refl
  | some w => exact .single (.watch hw (.root emptyEnv (.sweep w.root)))

theorem exists_run_examine (s : DaemonState.SweepEnv) (path : List Name) (w : Watch) :
    ∃ w₁, WatchStep a w w₁ ∧ Run (WatchStep a) w₁ (DaemonState.examine s path w).1 := by
  unfold DaemonState.examine
  split_ifs
  · exact ⟨_, .markPresent w, .refl⟩
  · exact ⟨_, .markPresent w, .single (.root emptyEnv (.sweep w.root))⟩
  · exact ⟨_, .markMissing w, .refl⟩
  · exact ⟨_, .markMissing w, .refl⟩

theorem run_reap (s : DaemonState.SweepEnv) (σ : DaemonState serde.File) (path : List Name)
    (reason : Subscriptions.ReapReason) : Run (Step a) σ (DaemonState.reap s σ path reason) := by
  unfold DaemonState.reap DaemonState.unregisterRoot
  cases (σ.roots.lookup path).isSome with
  | false => exact .refl
  | true => exact .tail (.single (.unregister path σ)) (.logReap ⟨path, reason, s.unixNow⟩ _)

theorem run_sweepPath (s : DaemonState.SweepEnv) (σ : DaemonState serde.File) (path : List Name) :
    Run (Step a) σ (DaemonState.sweepPath s σ path) := by
  unfold DaemonState.sweepPath
  cases hw : σ.roots.lookup path with
  | none => exact .refl
  | some w =>
    obtain ⟨w₁, hfirst, hrest⟩ := @exists_run_examine a s path w
    have hexamined : Run (Step a) σ (σ.setRoot path (DaemonState.examine s path w).1) :=
      .head (.watch hw hfirst) (run_setRoot hrest σ path)
    revert hexamined
    dsimp only
    obtain ⟨w', _ | reason⟩ := DaemonState.examine s path w
    · exact id
    · exact fun hexamined => hexamined.trans (run_reap s _ path reason)

theorem run_sweep (s : DaemonState.SweepEnv) (σ : DaemonState serde.File) :
    Run (Step a) σ (DaemonState.sweep s σ) :=
  run_foldl (run_sweepPath s) _ σ

/-! ## All commands -/

theorem Command.keeps_run (session : Session) {command : Command}
    (henv : command = .watch ∨ command = .watchProject → a.env env) (hquery : ∀ v ∈ args, a.query v)
    (htrigger : ∀ v ∈ args, ∀ t, parseTrigger v = .ok t → a.trigger t) :
    (command.run env session args : Cmd serde Value).Keeps (Run (Step a)) := by
  cases command with
  | log => exact keeps_lift _
  | debugDropPrivs | debugPoison => exact keeps_throw _
  | status | watchList | debugStatus => exact fun σ => .refl
  | watch => exact fun σ => (step_watch (henv (.inl rfl)) σ).to_reflTransGen
  | watchProject => exact fun σ => (step_watchProject (henv (.inr rfl)) σ).to_reflTransGen
  | watchDel => exact keeps_watchDel
  | watchDelAll => exact keeps_watchDelAll
  | clock => exact keeps_clock
  | query => exact keeps_query
  | find => exact keeps_find
  | since => exact keeps_since
  | subscribe => exact keeps_subscribe session hquery
  | unsubscribe => exact keeps_unsubscribe
  | stateEnter => exact keeps_stateEnter
  | stateLeave => exact keeps_stateLeave
  | trigger => exact keeps_trigger htrigger
  | triggerDel => exact keeps_triggerDel
  | debugRecrawl | debugKqueueAndFseventsRecrawl => exact keeps_recrawl
  | debugFseventsInjectDrop => exact keeps_injectDrop
  | flushSubscriptions | triggerList | debugShowCursors | debugGetAssertedStates
  | debugGetSubscriptions | debugRootStatus | debugWatcherInfo | debugContenthash =>
    exact keeps_report _ _
  | debugAgeout => exact fun σ => run_foldl run_prunePath _ σ
  | debugGcTick => exact fun σ => run_sweep env.sweepEnv σ
  | shutdownServer => exact fun σ => .single (.shutdown σ)
  | _ => exact keeps_pure _

/-- **What commands do.** However a command ends, the daemon after it is reached by steps. -/
theorem run_dispatch {e : Event} (he : a.Admits e) (σ : DaemonState serde.File) :
    Run (Step a) σ (dispatch e.env e.session e.pdu σ).2 := by
  rw [dispatch_eq]
  rcases Event.program_cases serde e with ⟨command, args, hc, hprogram⟩ | ⟨-, err, hrefused⟩
  · rw [hprogram]
    exact Command.keeps_run e.session (fun _ => he.env) (he.query command args hc)
      (he.trigger command args hc) σ
  · rw [hrefused σ]

/-! ## What else moves the daemon -/

/-- One move of the daemon: a whole command of a client, a change that the watcher of a root or one of
its loops makes, or a sweep of the garbage collector. -/
inductive Move (a : Admitted) : DaemonState serde.File → DaemonState serde.File → Prop
  | command {e : Event} (he : a.Admits e) (σ : DaemonState serde.File) :
    Move a σ (dispatch e.env e.session e.pdu σ).2
  | watcher (arenaBytes : ℕ) (changes : List PathChange) {σ : DaemonState serde.File}
    {path : List Name} {w : Watch} (hw : σ.roots.lookup path = some w) :
    Move a σ (σ.setRoot path { w with root := (w.root.applyChanges arenaBytes changes).1 })
  /-- The events of a root were lost. -/
  | dropped {σ : DaemonState serde.File} {path : List Name} {w : Watch}
    (hw : σ.roots.lookup path = some w) :
    Move a σ (σ.setRoot path { w with root := w.root.invalidateJjEvents.1 })
  /-- A push loop or a trigger loop asks its root. -/
  | loop (env : Env) (spec : QuerySpec) {σ : DaemonState serde.File} {path : List Name} {w : Watch}
    (hw : σ.roots.lookup path = some w) :
    Move a σ (σ.setRoot path { w with root := (Query.run env spec w.root).2 })
  /-- A push loop ends. -/
  | loopEnd (name : String) {σ : DaemonState serde.File} {path : List Name} {w : Watch}
    (hw : σ.roots.lookup path = some w) :
    Move a σ (σ.setRoot path { w with subscriptions := w.subscriptions.erase name })
  | sweep (s : DaemonState.SweepEnv) (σ : DaemonState serde.File) : Move a σ (σ.sweep s)

theorem Move.run {σ σ' : DaemonState serde.File} (h : Move a σ σ') : Run (Step a) σ σ' := by
  cases h with
  | command he => exact run_dispatch he σ
  | watcher arenaBytes changes hw => exact .single (.watch hw (.root emptyEnv (.batch _ _ _)))
  | dropped hw => exact .single (.watch hw (.root emptyEnv (.invalidate _)))
  | loop env spec hw => exact .single (.watch hw (.root env (.query spec _)))
  | loopEnd name hw => exact .single (.watch hw (.unsubscribe name _))
  | sweep s => exact run_sweep s σ

theorem Move.preserves {inv : DaemonState serde.File → Prop}
    (hstep : ∀ σ σ', inv σ → Step a σ σ' → inv σ') {σ σ' : DaemonState serde.File}
    (hrun : Run (Move a) σ σ') (h : inv σ) : inv σ' :=
  hrun.preserves (fun _ _ hs hmove => hmove.run.preserves hstep hs) h

end

end Watchwoman.Dispatch
