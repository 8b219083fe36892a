import Watchwoman.Commands.Failures
import Watchwoman.Daemon.Reaping
import Watchwoman.Lib.Components
import Watchwoman.Query.Grammar

/-!
# Roots do not interfere

A command that names a root reads and changes that root alone. So what a client of one root is
answered, and the state its root is left in, are the same whatever other clients do to other roots
meanwhile: the commands on other roots can be taken out of a run (`other_roots_do_not_interfere`).
The commands that go over all roots act on each by itself; only the registration of a root looks at
more, at the number of the next root and at the files of the state directory.
-/

namespace Watchwoman.Dispatch

open Transaction Program Persistence Components CommandError

def rootAt {File : Type} (σ : DaemonState File) (path : List Name) : Option Watch :=
  σ.roots.lookup path

/-- The key of the root that the first argument names. -/
def rootKey (env : CommandEnv) (args : List Value) : Option (List Name) :=
  (args.head?.bind Value.asStr).bind fun p => (canonical env p).key

/-- The commands that work on the root their first argument names. -/
def Command.onRoot : Command → Bool
  | .clock | .query | .find | .since | .subscribe | .unsubscribe | .flushSubscriptions
  | .stateEnter | .stateLeave | .trigger | .triggerList | .triggerDel | .debugRecrawl
  | .debugShowCursors | .debugGetAssertedStates | .debugGetSubscriptions | .debugRootStatus
  | .debugWatcherInfo | .debugContenthash | .debugFseventsInjectDrop
  | .debugKqueueAndFseventsRecrawl | .watchDel => true
  | _ => false

def Command.onAll : Command → Bool
  | .watchDelAll | .debugAgeout | .debugGcTick => true
  | _ => false

section

variable {serde : Serde} {env : CommandEnv} {args : List Value} {path : List Name}

theorem rootAt_setRoot (σ : DaemonState serde.File) (path p : List Name) (w : Watch) :
    rootAt (σ.setRoot path w) p = if p = path then some w else rootAt σ p :=
  HashMap.lookup_insert_eq _ _ _ _

/-! ## What the handlers are made of -/

theorem exec_findRoot (path : List Name) (σ : DaemonState serde.File) :
    (findRoot env path : Cmd serde _).exec σ =
      match rootAt σ path with
      | none => (.ok none, σ)
      | some w => (.ok (some (w.touch env.unixNow)), σ.setRoot path (w.touch env.unixNow)) := by
  unfold findRoot rootAt
  rw [exec_get_bind]
  cases σ.roots.lookup path <;> rfl

theorem local_findRoot (path : List Name) :
    Local rootAt path (findRoot env path : Cmd serde (Option Watch)) := by
  refine ⟨?_, ?_, ?_⟩
  · intro σ τ hst
    rw [exec_findRoot, exec_findRoot, hst]
    cases rootAt τ path <;> rfl
  · intro σ τ hst
    rw [exec_findRoot, exec_findRoot]
    cases hw : rootAt τ path with
    | none =>
      rw [hst.trans hw]
      exact hst
    | some w =>
      rw [hst.trans hw]
      show rootAt (σ.setRoot path _) path = rootAt (τ.setRoot path _) path
      rw [rootAt_setRoot, rootAt_setRoot, if_pos rfl, if_pos rfl]
  · intro p hp σ
    rw [exec_findRoot]
    cases rootAt σ path with
    | none => rfl
    | some w =>
      show rootAt (σ.setRoot path _) p = rootAt σ p
      rw [rootAt_setRoot, if_neg hp]

theorem ok_of_exec_lift {α : Type} {x : Except CommandError α} {σ : DaemonState serde.File} {a : α}
    (h : ((liftM x : Cmd serde α).exec σ).1 = .ok a) : x = .ok a := by
  rw [exec_lift] at h
  exact h

theorem local_resolveRoot {missing : String} (hkey : ∀ p, rootKey env args = some p → p = path) :
    Local rootAt path (resolveRoot env missing args : Cmd serde Resolved) := by
  unfold resolveRoot
  refine .bind (local_lift _) fun σ arg harg => ?_
  have harg := orBadArgs_eq_ok.mp (ok_of_exec_lift harg)
  dsimp only
  cases hk : (canonical env arg).key with
  | none => exact local_throw _
  | some key =>
    obtain rfl : key = path := by
      refine hkey key ?_
      rw [rootKey, harg, Option.bind_some, hk]
    refine .bind (local_findRoot key) fun _ found _ => ?_
    cases found with
    | none => exact local_throw _
    | some w => exact local_pure _

/-- A command finds its root at the path that its first argument names. -/
theorem path_of_resolveRoot {missing : String} {σ : DaemonState serde.File} {r : Resolved}
    (h : ((resolveRoot env missing args).exec σ).1 = .ok r) : rootKey env args = some r.path := by
  unfold resolveRoot at h
  rw [exec_bind, exec_lift] at h
  cases harg : orBadArgs missing (args.head?.bind Value.asStr) with
  | error e =>
    rw [harg] at h
    cases h
  | ok arg =>
    rw [harg] at h
    dsimp only at h
    rw [rootKey, orBadArgs_eq_ok.mp harg, Option.bind_some]
    cases hk : (canonical env arg).key with
    | none =>
      rw [hk] at h
      cases h
    | some key =>
      rw [hk] at h
      dsimp only at h
      rw [exec_bind, exec_findRoot] at h
      cases hw : rootAt σ key with
      | none =>
        rw [hw] at h
        cases h
      | some w =>
        rw [hw] at h
        cases h
        rfl

theorem local_respond (path : List Name) (w : Watch) (response : Value) :
    Local rootAt path (respond path w response : Cmd serde Value) := by
  refine .bind (local_modify ?_ ?_) fun _ _ _ => local_pure _
  · intro σ τ _
    rw [rootAt_setRoot, rootAt_setRoot, if_pos rfl, if_pos rfl]
  · intro σ p hp
    rw [rootAt_setRoot, if_neg hp]

theorem rootAt_persistTriggers (w : Watch) (σ : DaemonState serde.File) :
    rootAt (persistTriggers env w σ) = rootAt σ := by
  unfold persistTriggers
  split_ifs <;> rfl

theorem local_onRoot {missing : String} {f : Resolved → Cmd serde Value}
    (hf : ∀ r, Local rootAt r.path (f r)) (hkey : ∀ p, rootKey env args = some p → p = path) :
    Local rootAt path (resolveRoot env missing args >>= f) := by
  refine .bind (local_resolveRoot hkey) fun σ r hr => ?_
  rw [← hkey r.path (path_of_resolveRoot hr)]
  exact hf r

/-! ## The commands on a root -/

theorem local_answer (r : Resolved) (w : Watch) (spec : QuerySpec) :
    Local rootAt r.path (answer env r w spec : Cmd serde Value) :=
  local_respond _ _ _

theorem local_query (hkey : ∀ p, rootKey env args = some p → p = path) :
    Local rootAt path (query env args : Cmd serde Value) :=
  local_onRoot (fun r => .bind (local_lift _) fun _ _ _ => .bind (local_lift _) fun _ _ _ =>
    local_answer r _ _) hkey

theorem local_find (hkey : ∀ p, rootKey env args = some p → p = path) :
    Local rootAt path (find env args : Cmd serde Value) :=
  local_onRoot (fun r => .bind (local_lift _) fun _ _ _ => local_answer r _ _) hkey

theorem local_since (hkey : ∀ p, rootKey env args = some p → p = path) :
    Local rootAt path (since env args : Cmd serde Value) :=
  local_onRoot (fun r => .bind (local_lift _) fun _ _ _ => .bind (local_lift _) fun _ _ _ =>
    local_answer r _ _) hkey

theorem local_subscribe (session : Session) (hkey : ∀ p, rootKey env args = some p → p = path) :
    Local rootAt path (subscribe env session args : Cmd serde Value) :=
  local_onRoot (fun _ => .bind (local_lift _) fun _ _ _ => .bind (local_lift _) fun _ _ _ =>
    .bind (local_lift _) fun _ _ _ => local_respond _ _ _) hkey

theorem local_unsubscribe (hkey : ∀ p, rootKey env args = some p → p = path) :
    Local rootAt path (unsubscribe env args : Cmd serde Value) :=
  local_onRoot (fun _ => .bind (local_lift _) fun _ _ _ => local_respond _ _ _) hkey

theorem local_clock (hkey : ∀ p, rootKey env args = some p → p = path) :
    Local rootAt path (clock env args : Cmd serde Value) :=
  local_onRoot (fun _ => local_respond _ _ _) hkey

theorem local_state (hkey : ∀ p, rootKey env args = some p → p = path)
    (f : Resolved × String → Cmd serde Value) (hf : ∀ r name, Local rootAt r.path (f (r, name))) :
    Local rootAt path (parseState env args >>= f) := by
  unfold parseState
  rw [bind_assoc]
  refine local_onRoot (fun r => ?_) hkey
  rw [bind_assoc]
  refine .bind (local_lift _) fun _ name _ => ?_
  rw [pure_bind]
  exact hf r name

theorem local_trigger (hkey : ∀ p, rootKey env args = some p → p = path) :
    Local rootAt path (trigger env args : Cmd serde Value) := by
  refine local_onRoot (fun r => .bind (local_lift _) fun _ _ _ => .bind (local_lift _)
    fun _ t _ => .bind (local_modify ?_ ?_) fun _ _ _ => local_pure _) hkey
  · intro σ τ _
    unfold installTrigger
    rw [rootAt_persistTriggers, rootAt_persistTriggers, rootAt_setRoot, rootAt_setRoot, if_pos rfl,
      if_pos rfl]
  · intro σ p hp
    unfold installTrigger
    rw [rootAt_persistTriggers, rootAt_setRoot, if_neg hp]

theorem local_triggerDel (hkey : ∀ p, rootKey env args = some p → p = path) :
    Local rootAt path (triggerDel env args : Cmd serde Value) := by
  refine local_onRoot (fun r => .bind (local_lift _) fun _ name _ =>
    .bind (local_modify ?_ ?_) fun _ _ _ => local_pure _) hkey
  · intro σ τ hst
    unfold removeTrigger
    split_ifs
    · rw [rootAt_persistTriggers, rootAt_persistTriggers, rootAt_setRoot, rootAt_setRoot,
        if_pos rfl, if_pos rfl]
    · exact hst
  · intro σ p hp
    unfold removeTrigger
    split_ifs
    · rw [rootAt_persistTriggers, rootAt_setRoot, if_neg hp]
    · rfl

theorem local_recrawl (hkey : ∀ p, rootKey env args = some p → p = path) :
    Local rootAt path (recrawl env args : Cmd serde Value) := by
  refine local_onRoot (fun r => ?_) hkey
  dsimp only
  split
  · exact local_respond _ _ _
  · exact local_respond _ _ _

theorem local_injectDrop (hkey : ∀ p, rootKey env args = some p → p = path) :
    Local rootAt path (injectDrop env args : Cmd serde Value) :=
  local_onRoot (fun _ => local_respond _ _ _) hkey

theorem local_report (missing : String) (report : Resolved → Value)
    (hkey : ∀ p, rootKey env args = some p → p = path) : Local rootAt path
      (resolveRoot env missing args >>= fun r => pure (report r) : Cmd serde Value) :=
  local_onRoot (fun _ => local_pure _) hkey

theorem local_watchDel (hkey : ∀ p, rootKey env args = some p → p = path) :
    Local rootAt path (watchDel env args : Cmd serde Value) := by
  unfold watchDel
  refine .bind (local_lift _) fun σ arg harg => ?_
  have harg : args.head?.bind Value.asStr = some arg := orBadArgs_eq_ok.mp (ok_of_exec_lift harg)
  dsimp only
  cases hk : (canonical env arg).key with
  | none =>
    exact local_of_const
      (.ok (obj [("watch-del", .bool false), ("root", .string (canonical env arg).text)]))
      fun _ => rfl
  | some key =>
    obtain rfl : key = path := by
      refine hkey key ?_
      rw [rootKey, harg, Option.bind_some, hk]
    refine ⟨?_, ?_, ?_⟩
    · intro σ τ hst
      show Except.ok (obj [("watch-del", .bool (rootAt σ key).isSome), _]) =
        Except.ok (obj [("watch-del", .bool (rootAt τ key).isSome), _])
      rw [hst]
    · intro σ τ _
      show (σ.roots.erase key).lookup key = (τ.roots.erase key).lookup key
      rw [AList.lookup_erase, AList.lookup_erase]
    · intro p hp σ
      exact AList.lookup_erase_ne hp

/-- **One root.** A command that names a root is local there. -/
theorem Command.local_run (session : Session) {command : Command} (honRoot : command.onRoot = true)
    (hkey : ∀ p, rootKey env args = some p → p = path) :
    Local rootAt path (command.run env session args : Cmd serde Value) := by
  cases command with
  | clock => exact local_clock hkey
  | query => exact local_query hkey
  | find => exact local_find hkey
  | since => exact local_since hkey
  | subscribe => exact local_subscribe session hkey
  | unsubscribe => exact local_unsubscribe hkey
  | flushSubscriptions => exact local_report _ _ hkey
  | stateEnter => exact local_state hkey _ fun _ _ => local_respond _ _ _
  | stateLeave => exact local_state hkey _ fun _ _ => local_respond _ _ _
  | trigger => exact local_trigger hkey
  | triggerList => exact local_report _ _ hkey
  | triggerDel => exact local_triggerDel hkey
  | debugRecrawl => exact local_recrawl hkey
  | debugShowCursors => exact local_report _ _ hkey
  | debugGetAssertedStates => exact local_report _ _ hkey
  | debugGetSubscriptions => exact local_report _ _ hkey
  | debugRootStatus => exact local_report _ _ hkey
  | debugWatcherInfo => exact local_report _ _ hkey
  | debugContenthash => exact local_report _ _ hkey
  | debugFseventsInjectDrop => exact local_injectDrop hkey
  | debugKqueueAndFseventsRecrawl => exact local_recrawl hkey
  | watchDel => exact local_watchDel hkey
  | _ => cases honRoot

/-! ## The other commands -/

/-- The path at which a command registers a root, if it does. -/
def Command.registers (env : CommandEnv) (args : List Value) : Command → Option (List Name)
  | .watch => (canonicalArg env args).toOption
  | .watchProject => (canonicalArg env args).toOption.map fun start => (resolveProjectRoot env start).1
  | _ => none

/-- `register_root` is about one path. -/
theorem spares_registerRoot {p : List Name} (hp : p ≠ path) :
    Spares rootAt p (registerRoot env path : Cmd serde PUnit) := by
  intro σ
  unfold registerRoot
  rw [exec_get_bind]
  split
  · show rootAt (σ.setRoot path _) p = rootAt σ p
    rw [rootAt_setRoot, if_neg hp]
  · split
    · rfl
    · rfl
    · rw [exec_modify_bind]
      split
      · rfl
      · show rootAt (DaemonState.setRoot _ path _) p = rootAt σ p
        rw [rootAt_setRoot, if_neg hp]
        rfl

theorem spares_pure {p : List Name} (v : Value) : Spares rootAt p (pure v : Cmd serde Value) :=
  fun _ => rfl

theorem spares_lift {α : Type} {p : List Name} (x : Except CommandError α) :
    Spares rootAt p (liftM x : Cmd serde α) := by
  intro σ
  rw [exec_lift]

theorem spares_watch {p : List Name} (hp : Command.watch.registers env args ≠ some p) :
    Spares rootAt p (watch env args : Cmd serde Value) := by
  intro σ
  unfold watch
  rw [exec_bind, exec_lift]
  unfold Command.registers at hp
  cases hpath : canonicalArg env args with
  | error e => rfl
  | ok path =>
    rw [hpath] at hp
    have hne : p ≠ path := fun h => hp (congrArg some h.symm)
    exact (spares_registerRoot hne).bind (fun _ => spares_pure _) σ

theorem spares_watchProject {p : List Name}
    (hp : Command.watchProject.registers env args ≠ some p) :
    Spares rootAt p (watchProject env args : Cmd serde Value) := by
  intro σ
  unfold watchProject
  rw [exec_bind, exec_lift]
  unfold Command.registers at hp
  cases hstart : canonicalArg env args with
  | error e => rfl
  | ok start =>
    rw [hstart] at hp
    have hne : p ≠ (resolveProjectRoot env start).1 := fun h => hp (congrArg some h.symm)
    exact (spares_registerRoot hne).bind (fun _ => spares_pure _) σ

/-- One round of a sweep settles its own root. -/
theorem rootAt_sweepPath (s : DaemonState.SweepEnv) (σ : DaemonState serde.File)
    (path p : List Name) : rootAt (DaemonState.sweepPath s σ path) p =
      if p = path then (rootAt σ path).bind (DaemonState.survivor s path) else rootAt σ p := by
  unfold DaemonState.sweepPath rootAt
  cases hw : σ.roots.lookup path with
  | none =>
    split_ifs with hp
    · rw [hp, hw]
      rfl
    · rfl
  | some w =>
    unfold DaemonState.survivor
    dsimp only [Option.bind_some]
    generalize DaemonState.examine s path w = x
    obtain ⟨w', _ | reason⟩ := x
    · exact rootAt_setRoot σ path p w'
    · have hreap : (DaemonState.reap s (σ.setRoot path w') path reason).roots =
          (σ.roots.insert path w').erase path := by
        unfold DaemonState.reap DaemonState.unregisterRoot
        rw [show ((σ.setRoot path w').roots.lookup path).isSome = true by
          show ((σ.roots.insert path w').lookup path).isSome = true
          rw [AList.lookup_insert]
          rfl]
        rfl
      dsimp only
      rw [hreap, HashMap.lookup_erase_eq, HashMap.lookup_insert_eq]
      split_ifs <;> rfl

theorem rootAt_prunePath (σ : DaemonState serde.File) (path p : List Name) :
    rootAt (prunePath σ path) p =
      if p = path then
        (rootAt σ path).map fun w => { w with root := w.root.pruneTombstones.1 }
      else rootAt σ p := by
  unfold prunePath rootAt
  cases hw : σ.roots.lookup path with
  | none =>
    split_ifs with hp
    · rw [hp, hw]
      rfl
    · rfl
  | some w => exact rootAt_setRoot σ path p _

theorem rootAt_foldl_keys {f : DaemonState serde.File → List Name → DaemonState serde.File}
    {h : List Name → Option Watch → Option Watch} (hnone : ∀ path, h path none = none)
    (hf : ∀ σ path p, rootAt (f σ path) p = if p = path then h path (rootAt σ path) else rootAt σ p)
    (σ : DaemonState serde.File) (p : List Name) :
    rootAt (σ.roots.keys.foldl f σ) p = h p (rootAt σ p) := by
  rw [view_foldl hf σ.roots.keys_nodup]
  split_ifs with hmem
  · rfl
  · have habsent : rootAt σ p = none := AList.lookup_eq_none.mpr hmem
    rw [habsent, hnone]

/-- A command over all roots does to each what that root says. -/
theorem Command.autonomous_run (session : Session) {command : Command}
    (honAll : command.onAll = true) (p : List Name) :
    Autonomous rootAt p (command.run env session args : Cmd serde Value) := by
  cases command with
  | watchDelAll => exact fun _ _ _ => rfl
  | debugAgeout =>
    intro σ τ hst
    have hageout : ∀ υ : DaemonState serde.File,
        rootAt (Program.exec (ageout : Cmd serde Value) υ).2 p =
          (rootAt υ p).map fun w => { w with root := w.root.pruneTombstones.1 } := by
      intro υ
      show rootAt (υ.roots.keys.foldl prunePath υ) p = _
      exact rootAt_foldl_keys
        (h := fun _ o => o.map fun w => { w with root := w.root.pruneTombstones.1 })
        (fun _ => rfl) rootAt_prunePath υ p
    show rootAt (Program.exec (ageout : Cmd serde Value) σ).2 p =
      rootAt (Program.exec (ageout : Cmd serde Value) τ).2 p
    rw [hageout, hageout, hst]
  | debugGcTick =>
    intro σ τ hst
    have hsweep : ∀ υ : DaemonState serde.File, rootAt (υ.sweep env.sweepEnv) p =
        (rootAt υ p).bind (DaemonState.survivor env.sweepEnv p) := fun υ =>
      rootAt_foldl_keys (h := fun path o => o.bind (DaemonState.survivor env.sweepEnv path))
        (fun _ => rfl) (rootAt_sweepPath env.sweepEnv) υ p
    show rootAt (σ.sweep env.sweepEnv) p = rootAt (τ.sweep env.sweepEnv) p
    rw [hsweep, hsweep, hst]
  | _ => cases honAll

theorem Command.spares_run (session : Session) {command : Command}
    (honRoot : command.onRoot = false) (honAll : command.onAll = false) {p : List Name}
    (hp : command.registers env args ≠ some p) :
    Spares rootAt p (command.run env session args : Cmd serde Value) := by
  cases command with
  | watch => exact spares_watch hp
  | watchProject => exact spares_watchProject hp
  | log => exact spares_lift _
  | clock | query | find | since | subscribe | unsubscribe | flushSubscriptions | stateEnter
  | stateLeave | trigger | triggerList | triggerDel | debugRecrawl | debugShowCursors
  | debugGetAssertedStates | debugGetSubscriptions | debugRootStatus | debugWatcherInfo
  | debugContenthash | debugFseventsInjectDrop | debugKqueueAndFseventsRecrawl | watchDel =>
    cases honRoot
  | watchDelAll | debugAgeout | debugGcTick => cases honAll
  | _ => exact fun _ => rfl

end

/-! ## Runs of commands -/

/-- A command as it arrives: what it finds outside of the daemon, its session and its PDU. -/
structure Event where
  env : CommandEnv
  session : Session
  pdu : Value

namespace Event

/-- The command of the PDU and its arguments. -/
def command (e : Event) : Option (Command × List Value) := do
  let arr ← e.pdu.asArray
  let name ← arr.head?.bind Value.asStr
  let command ← Command.names.lookup name
  return (command, arr.tail)

/-- The command names the root at the path. -/
def names (path : List Name) (e : Event) : Bool :=
  e.command.any fun c => c.1.onRoot && rootKey e.env c.2 == some path

/-- The command names the root at the path, or goes over all roots. -/
def about (path : List Name) (e : Event) : Bool :=
  e.names path || e.command.any fun c => c.1.onAll

/-- The command registers a root at the path. -/
def Registers (path : List Name) (e : Event) : Prop :=
  ∃ c ∈ e.command, c.1.registers e.env c.2 = some path

variable {serde : Serde}

def program (serde : Serde) (e : Event) : Cmd serde Value := dispatchInner e.env e.session e.pdu

theorem command_eq (e : Event) : e.command =
    (e.pdu.asArray.bind fun arr => (arr.head?.bind Value.asStr).bind fun name =>
      (Command.names.lookup name).map fun command => (command, arr.tail)) := by
  unfold command
  cases e.pdu.asArray with
  | none => rfl
  | some arr =>
    cases hname : arr.head?.bind Value.asStr with
    | none => simp [hname]
    | some name =>
      cases hcommand : Command.names.lookup name <;> simp [hname, hcommand]

/-- What `dispatch_inner` does once it has the array. -/
def dispatchArray (serde : Serde) (e : Event) (arr : List Value) : Cmd serde Value := do
  let name ← orBadArgs "missing command name" (arr.head?.bind Value.asStr)
  match Command.names.lookup name with
  | some command => command.run e.env e.session arr.tail
  | none => throw (.unknown name)

/-- A PDU runs its command, or it is refused and changes nothing. -/
theorem program_cases (serde : Serde) (e : Event) :
    (∃ command args, e.command = some (command, args) ∧
      e.program serde = command.run e.env e.session args) ∨
    (e.command = none ∧ ∃ err, ∀ σ, (e.program serde).exec σ = (.error err, σ)) := by
  rw [command_eq]
  have hprogram : ∀ arr, e.pdu.asArray = some arr → e.program serde = dispatchArray serde e arr := by
    intro arr harr
    unfold program dispatchInner
    rw [harr]
    rfl
  cases harr : e.pdu.asArray with
  | none =>
    refine .inr ⟨rfl, .badArgs "PDU must be an array", fun σ => ?_⟩
    unfold program dispatchInner
    rw [harr]
    rfl
  | some arr =>
    rw [hprogram arr harr, Option.bind_some]
    unfold dispatchArray
    cases hname : arr.head?.bind Value.asStr with
    | none => exact .inr ⟨rfl, .badArgs "missing command name", fun _ => rfl⟩
    | some name =>
      rw [Option.bind_some]
      cases hcommand : Command.names.lookup name with
      | none =>
        refine .inr ⟨rfl, .unknown name, fun σ => ?_⟩
        rw [exec_bind]
        show Program.exec (match Command.names.lookup name with
          | some command => Command.run e.env e.session arr.tail command
          | none => throw (.unknown name)) σ = _
        rw [hcommand]
        rfl
      | some command =>
        refine .inl ⟨command, arr.tail, rfl, ?_⟩
        show (match Command.names.lookup name with
          | some command => Command.run e.env e.session arr.tail command
          | none => throw (CommandError.unknown name)) = _
        rw [hcommand]

section

variable {path : List Name} {e : Event}

theorem local_program (h : e.names path = true) : Local rootAt path (e.program serde) := by
  rcases program_cases serde e with ⟨command, args, hc, hprogram⟩ | ⟨hc, -⟩
  · rw [names, hc, Option.any_some, Bool.and_eq_true, beq_iff_eq] at h
    rw [hprogram]
    refine Command.local_run e.session h.1 fun p hp => ?_
    rw [h.2] at hp
    exact (Option.some.inj hp).symm
  · rw [names, hc] at h
    cases h

theorem autonomous_program (h : e.about path = true) :
    Autonomous rootAt path (e.program serde) := by
  rcases Bool.or_eq_true_iff.mp h with hnames | hall
  · exact (local_program hnames).autonomous
  · rcases program_cases serde e with ⟨command, args, hc, hprogram⟩ | ⟨hc, -⟩
    · rw [hc] at hall
      rw [hprogram]
      exact Command.autonomous_run e.session hall path
    · rw [hc] at hall
      cases hall

/-- A command that is not about the root, and does not register it, leaves it alone. -/
theorem spares_program (h : e.about path = false) (hregisters : ¬ e.Registers path) :
    Spares rootAt path (e.program serde) := by
  rcases program_cases serde e with ⟨command, args, hc, hprogram⟩ | ⟨-, err, hrefused⟩
  · rw [about, names, hc, Option.any_some, Option.any_some, Bool.or_eq_false_iff] at h
    rw [hprogram]
    have hother : command.registers e.env args ≠ some path := fun hr =>
      hregisters ⟨(command, args), hc, hr⟩
    cases honRoot : command.onRoot with
    | false => exact Command.spares_run e.session honRoot h.2 hother
    | true =>
      rw [honRoot, Bool.true_and, beq_eq_false_iff_ne] at h
      -- the command is local at the root it names, or it names none
      cases hkey : rootKey e.env args with
      | none =>
        have hlocal : Local rootAt ([] :: path) (command.run e.env e.session args : Cmd serde Value) :=
          Command.local_run e.session honRoot fun p hp => by
            rw [hkey] at hp
            cases hp
        exact hlocal.spares path (List.cons_ne_self [] path |>.symm)
      | some key =>
        have hlocal : Local rootAt key (command.run e.env e.session args : Cmd serde Value) :=
          Command.local_run e.session honRoot fun p hp =>
            (Option.some.inj (hkey.symm.trans hp)).symm
        refine hlocal.spares path ?_
        rintro rfl
        exact h.1 hkey
  · intro σ
    rw [hrefused σ]

end

end Event

section

variable {serde : Serde}

/-- The responses of a run of commands, one after the other. -/
def responses : List Event → DaemonState serde.File → List (Event × Value)
  | [], _ => []
  | e :: events, σ =>
    (e, (dispatch e.env e.session e.pdu σ).1) ::
      responses events (dispatch e.env e.session e.pdu σ).2

def dispatchAll (events : List Event) (σ : DaemonState serde.File) : DaemonState serde.File :=
  events.foldl (fun σ e => (dispatch e.env e.session e.pdu σ).2) σ

def responseTo : Except CommandError Value → Value
  | .ok v => withVersion v
  | .error e => withVersion (obj [("error", .string e.display)])

theorem dispatch_eq (e : Event) (σ : DaemonState serde.File) :
    dispatch e.env e.session e.pdu σ =
      (responseTo ((e.program serde).exec σ).1, ((e.program serde).exec σ).2) := by
  unfold dispatch Event.program
  obtain ⟨_ | _, _⟩ := (dispatchInner e.env e.session e.pdu).exec σ <;> rfl

theorem responses_eq (events : List Event) (σ : DaemonState serde.File) :
    responses events σ =
      (outcomes (Event.program serde) events σ).map fun o => (o.1, responseTo o.2) := by
  induction events generalizing σ with
  | nil => rfl
  | cons e events ih => rw [responses, outcomes, List.map_cons, dispatch_eq, ih]

theorem dispatchAll_eq (events : List Event) (σ : DaemonState serde.File) :
    dispatchAll events σ = finalState (Event.program serde) events σ := by
  unfold dispatchAll finalState
  simp only [dispatch_eq]

/-- **Roots do not interfere.** Take any commands of any clients, none of which registers a root at a
path. The commands that name the root at the path are answered as if the commands on other roots had
never been given, and the root at the path is left in the same state. -/
theorem other_roots_do_not_interfere (path : List Name) (events : List Event)
    (hregisters : ∀ e ∈ events, ¬ e.Registers path) (σ : DaemonState serde.File) :
    (responses events σ).filter (fun r => r.1.names path) =
        (responses (events.filter (Event.about path)) σ).filter (fun r => r.1.names path) ∧
      rootAt (dispatchAll events σ) path =
        rootAt (dispatchAll (events.filter (Event.about path)) σ) path := by
  obtain ⟨hout, hfinal⟩ := @run_purge _ _ _ _ _ rootAt path _ (Event.program serde)
    (Event.about path) (Event.names path) (fun e h => Bool.or_eq_true_iff.mpr (.inl h)) events
    (fun e he h => Event.spares_program h (hregisters e he))
    (fun e _ h => Event.autonomous_program h)
    (fun e _ h => (Event.local_program h).answers) σ σ rfl
  rw [responses_eq, responses_eq, dispatchAll_eq, dispatchAll_eq, List.filter_map, List.filter_map]
  exact ⟨congrArg _ hout, hfinal⟩

end

/-- The daemon with a second root `/b`. -/
def twoRoots : DaemonState documents.File :=
  jjDaemon.setRoot [[0x62]]
    (Watch.new ((Root.new [[0x62]] .default false 2 1700000000 42).seed []) 1700000000)

def asks (name root : String) : Event :=
  ⟨noWatches, ⟨1, .json⟩, .array [.string name, .string root]⟩

/-- The clock of `/a` is asked for before and after `/b` is removed. -/
def removedBetween : List Event := [asks "clock" "/a", asks "watch-del" "/b", asks "clock" "/a"]

theorem not_registers_removedBetween (path : List Name) :
    ∀ e ∈ removedBetween, ¬ e.Registers path := by
  simp only [removedBetween, List.forall_mem_cons, List.not_mem_nil, false_implies, implies_true,
    and_true]
  refine ⟨?_, ?_, ?_⟩
  all_goals
    rintro ⟨c, hc, hr⟩
    obtain rfl := Option.some.inj hc
    cases hr

/-- The removal of `/b` does not change what `/a` answers. -/
theorem other_roots_do_not_interfere_removedBetween :
    rootAt twoRoots [[0x62]] ≠ none ∧ rootAt (dispatchAll removedBetween twoRoots) [[0x62]] = none ∧
    (responses removedBetween twoRoots).filter (fun r => r.1.names [[0x61]]) =
      (responses (removedBetween.filter (Event.about [[0x61]])) twoRoots).filter
        (fun r => r.1.names [[0x61]]) ∧
    rootAt (dispatchAll removedBetween twoRoots) [[0x61]] =
      rootAt (dispatchAll (removedBetween.filter (Event.about [[0x61]])) twoRoots) [[0x61]] := by
  refine ⟨by rintro ⟨⟩, rfl, ?_⟩
  exact other_roots_do_not_interfere [[0x61]] removedBetween (not_registers_removedBetween _) twoRoots

end Watchwoman.Dispatch
