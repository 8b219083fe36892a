import Watchwoman.Commands.Dispatch

/-!
# A failed command changes nothing

Every handler takes its arguments apart in stages, and each stage can fail. A handler has looked a
root up by then, which resets the timer of the root, and `register_root` has taken a number; beyond
that a handler changes the daemon only when no stage is left. So a command that ends with an error
leaves every root and every file as they were (`failed_command_changes_nothing`).
-/

namespace Watchwoman.Dispatch

open Transaction Program Persistence Query CommandError

/-! ## What may differ -/

/-- The roots differ at most in the time they were last used. -/
def SameRoot (w w' : Watch) : Prop := w' = { w with lastUsed := w'.lastUsed }

/-- The daemons differ at most in the times their roots were last used and in the number of the next
root. -/
structure Unchanged {File : Type} (σ σ' : DaemonState File) : Prop where
  roots : ∀ path, Option.Rel SameRoot (σ.roots.lookup path) (σ'.roots.lookup path)
  files : σ'.files = σ.files
  reapLog : σ'.reapLog = σ.reapLog
  shuttingDown : σ'.shuttingDown = σ.shuttingDown

theorem SameRoot.trans {w₁ w₂ w₃ : Watch} (h : SameRoot w₁ w₂) (h' : SameRoot w₂ w₃) :
    SameRoot w₁ w₃ := by
  unfold SameRoot at *
  rw [h', h]

theorem relSameRoot_refl (w : Option Watch) : Option.Rel SameRoot w w := by
  cases w with
  | none => exact .none
  | some w => exact .some rfl

theorem relSameRoot_trans {w₁ w₂ w₃ : Option Watch} (h : Option.Rel SameRoot w₁ w₂)
    (h' : Option.Rel SameRoot w₂ w₃) : Option.Rel SameRoot w₁ w₃ := by
  cases h with
  | none => exact h'
  | some h =>
    cases h' with
    | some h' => exact .some (h.trans h')

instance {File : Type} : Std.Refl (@Unchanged File) :=
  ⟨fun _ => ⟨fun _ => relSameRoot_refl _, rfl, rfl, rfl⟩⟩

instance {File : Type} : IsTrans (DaemonState File) Unchanged :=
  ⟨fun _ _ _ h h' => ⟨fun path => relSameRoot_trans (h.roots path) (h'.roots path),
    h'.files.trans h.files, h'.reapLog.trans h.reapLog, h'.shuttingDown.trans h.shuttingDown⟩⟩

section

variable {serde : Serde} {env : CommandEnv} {args : List Value}

theorem unchanged_touch {σ : DaemonState serde.File} {path : List Name} {w : Watch}
    (hw : σ.roots.lookup path = some w) (now : ℕ) :
    Unchanged σ (σ.setRoot path (w.touch now)) := by
  refine ⟨fun p => ?_, rfl, rfl, rfl⟩
  show Option.Rel SameRoot _ ((σ.roots.insert path (w.touch now)).lookup p)
  rw [HashMap.lookup_insert_eq]
  split_ifs with hp
  · rw [hp, hw]
    exact .some rfl
  · exact relSameRoot_refl _

/-! ## The stages that can fail -/

theorem keeps_findRoot (path : List Name) :
    (findRoot env path : Cmd serde (Option Watch)).Keeps Unchanged := by
  intro σ
  unfold findRoot
  rw [exec_get_bind]
  split
  · exact refl_of Unchanged σ
  · rename_i w hw
    exact unchanged_touch hw env.unixNow

theorem keeps_resolveRoot (missing : String) (args : List Value) :
    (resolveRoot env missing args : Cmd serde Resolved).Keeps Unchanged := by
  unfold resolveRoot
  refine .bind (keeps_lift _) fun arg => ?_
  dsimp only
  split
  · exact keeps_throw _
  · refine .bind (keeps_findRoot _) fun found => ?_
    cases found with
    | none => exact keeps_throw _
    | some w => exact keeps_pure _

/-- `register_root` fails only where no root is registered, and has then taken at most a number. -/
theorem registerRoot_failed {σ : DaemonState serde.File} {path : List Name} {e : CommandError}
    (h : ((registerRoot env path).exec σ).1 = .error e) :
    σ.roots.lookup path = none ∧
      ∃ n, ((registerRoot env path).exec σ).2 = { σ with rootCounter := n } := by
  revert h
  unfold registerRoot
  rw [exec_get_bind]
  split
  · rintro ⟨⟩
  · rename_i hnone
    intro h
    refine ⟨hnone, ?_⟩
    revert h
    split
    · exact fun _ => ⟨σ.rootCounter, rfl⟩
    · exact fun _ => ⟨σ.rootCounter, rfl⟩
    · rw [exec_modify_bind]
      split
      · exact fun _ => ⟨σ.rootCounter + 1, rfl⟩
      · rintro ⟨⟩

theorem atomic_registerRoot (path : List Name) :
    (registerRoot env path : Cmd serde PUnit).Atomic Unchanged := by
  intro σ e he
  obtain ⟨-, n, hσ⟩ := registerRoot_failed he
  rw [hσ]
  exact ⟨fun _ => relSameRoot_refl _, rfl, rfl, rfl⟩

theorem infallible_respond (path : List Name) (w : Watch) (response : Value) :
    (respond path w response : Cmd serde Value).Infallible :=
  .bind (infallible_modify _) fun _ => infallible_pure _

/-! ## The handlers -/

theorem atomic_watch : (watch env args : Cmd serde Value).Atomic Unchanged :=
  .bind (keeps_lift _) fun path =>
    (atomic_registerRoot path).bind_infallible fun _ => infallible_pure _

theorem atomic_watchProject : (watchProject env args : Cmd serde Value).Atomic Unchanged :=
  .bind (keeps_lift _) fun _ =>
    (atomic_registerRoot _).bind_infallible fun _ => infallible_pure _

theorem atomic_watchDel : (watchDel env args : Cmd serde Value).Atomic Unchanged :=
  .bind (keeps_lift _) fun _ => .bind keeps_get fun _ =>
    (infallible_set _).bind (fun _ => infallible_pure _) |>.atomic

theorem atomic_query : (query env args : Cmd serde Value).Atomic Unchanged :=
  .bind (keeps_resolveRoot _ args) fun _ => .bind (keeps_lift _) fun _ =>
    .bind (keeps_lift _) fun _ => (infallible_respond _ _ _).atomic

theorem atomic_find : (find env args : Cmd serde Value).Atomic Unchanged :=
  .bind (keeps_resolveRoot _ args) fun _ => .bind (keeps_lift _) fun _ =>
    (infallible_respond _ _ _).atomic

theorem atomic_since : (since env args : Cmd serde Value).Atomic Unchanged :=
  .bind (keeps_resolveRoot _ args) fun _ => .bind (keeps_lift _) fun _ =>
    .bind (keeps_lift _) fun _ => (infallible_respond _ _ _).atomic

theorem atomic_subscribe (session : Session) :
    (subscribe env session args : Cmd serde Value).Atomic Unchanged :=
  .bind (keeps_resolveRoot _ args) fun _ => .bind (keeps_lift _) fun _ =>
    .bind (keeps_lift _) fun _ => .bind (keeps_lift _) fun _ => (infallible_respond _ _ _).atomic

theorem atomic_unsubscribe : (unsubscribe env args : Cmd serde Value).Atomic Unchanged :=
  .bind (keeps_resolveRoot _ args) fun _ => .bind (keeps_lift _) fun _ =>
    (infallible_respond _ _ _).atomic

theorem keeps_parseState : (parseState env args : Cmd serde _).Keeps Unchanged :=
  .bind (keeps_resolveRoot _ args) fun _ => .bind (keeps_lift _) fun _ => keeps_pure _

theorem atomic_trigger : (trigger env args : Cmd serde Value).Atomic Unchanged :=
  .bind (keeps_resolveRoot _ args) fun _ => .bind (keeps_lift _) fun _ =>
    .bind (keeps_lift _) fun _ =>
      (infallible_modify _).bind (fun _ => infallible_pure _) |>.atomic

theorem atomic_triggerDel : (triggerDel env args : Cmd serde Value).Atomic Unchanged :=
  .bind (keeps_resolveRoot _ args) fun _ => .bind (keeps_lift _) fun _ =>
    (infallible_modify _).bind (fun _ => infallible_pure _) |>.atomic

theorem atomic_clock : (clock env args : Cmd serde Value).Atomic Unchanged :=
  .bind (keeps_resolveRoot _ args) fun _ => (infallible_respond _ _ _).atomic

theorem atomic_injectDrop : (injectDrop env args : Cmd serde Value).Atomic Unchanged :=
  .bind (keeps_resolveRoot _ args) fun _ => (infallible_respond _ _ _).atomic

theorem atomic_recrawl : (recrawl env args : Cmd serde Value).Atomic Unchanged := by
  refine .bind (keeps_resolveRoot _ args) fun r => ?_
  dsimp only
  split
  · exact (infallible_respond _ _ _).atomic
  · exact (infallible_respond _ _ _).atomic

theorem atomic_report (missing : String) (report : Resolved → Value) :
    (resolveRoot env missing args >>= fun r => pure (report r) : Cmd serde Value).Atomic Unchanged :=
  .bind (keeps_resolveRoot missing args) fun _ => (keeps_pure _).atomic

theorem Command.atomic_run (session : Session) (command : Command) :
    (command.run env session args : Cmd serde Value).Atomic Unchanged := by
  cases command with
  | log => exact (keeps_lift _).atomic
  | status => exact (keeps_get.bind fun _ => keeps_pure _).atomic
  | watch => exact atomic_watch
  | watchProject => exact atomic_watchProject
  | watchList => exact (keeps_get.bind fun _ => keeps_pure _).atomic
  | watchDel => exact atomic_watchDel
  | watchDelAll =>
    exact .bind keeps_get fun _ => (infallible_set _).bind (fun _ => infallible_pure _) |>.atomic
  | clock => exact atomic_clock
  | query => exact atomic_query
  | find => exact atomic_find
  | since => exact atomic_since
  | subscribe => exact atomic_subscribe session
  | unsubscribe => exact atomic_unsubscribe
  | flushSubscriptions => exact atomic_report _ _
  | stateEnter => exact .bind keeps_parseState fun _ => (infallible_respond _ _ _).atomic
  | stateLeave => exact .bind keeps_parseState fun _ => (infallible_respond _ _ _).atomic
  | trigger => exact atomic_trigger
  | triggerList => exact atomic_report _ _
  | triggerDel => exact atomic_triggerDel
  | debugRecrawl => exact atomic_recrawl
  | debugAgeout =>
    exact .bind keeps_get fun _ => (infallible_set _).bind (fun _ => infallible_pure _) |>.atomic
  | debugShowCursors => exact atomic_report _ _
  | debugGetAssertedStates => exact atomic_report _ _
  | debugGetSubscriptions => exact atomic_report _ _
  | debugRootStatus => exact atomic_report _ _
  | debugStatus => exact (keeps_get.bind fun _ => keeps_pure _).atomic
  | debugWatcherInfo => exact atomic_report _ _
  | debugContenthash => exact atomic_report _ _
  | debugFseventsInjectDrop => exact atomic_injectDrop
  | debugKqueueAndFseventsRecrawl => exact atomic_recrawl
  | debugGcTick => exact (infallible_modify _).bind (fun _ => infallible_pure _) |>.atomic
  | debugDropPrivs => exact (keeps_throw _).atomic
  | debugPoison => exact (keeps_throw _).atomic
  | shutdownServer => exact (infallible_modify _).bind (fun _ => infallible_pure _) |>.atomic
  | _ => exact (keeps_pure _).atomic

theorem atomic_dispatchInner (session : Session) (pdu : Value) :
    (dispatchInner env session pdu : Cmd serde Value).Atomic Unchanged := by
  refine .bind (keeps_lift _) fun arr => .bind (keeps_lift _) fun name => ?_
  split
  · exact Command.atomic_run session _
  · exact (keeps_throw _).atomic

end

/-- A command that ends with an error leaves the daemon as it was, up to the times its roots were last
used and the number of the next root; and a registration that fails, also one that fails when the
watch is attached, leaves no root at its path. -/
theorem failed_command_changes_nothing (serde : Serde) (env : CommandEnv) (session : Session)
    (σ : DaemonState serde.File) :
    (∀ pdu e, ((dispatchInner env session pdu).exec σ).1 = .error e →
      Unchanged σ ((dispatchInner env session pdu).exec σ).2) ∧
    ∀ path e, ((registerRoot env path).exec σ).1 = .error e →
      ((registerRoot env path).exec σ).2.roots.lookup path = none ∧
        Unchanged σ ((registerRoot env path).exec σ).2 := by
  refine ⟨fun pdu e he => atomic_dispatchInner session pdu σ e he, fun path e he => ?_⟩
  obtain ⟨hnone, n, hσ⟩ := registerRoot_failed he
  refine ⟨?_, atomic_registerRoot path σ e he⟩
  rw [hσ]
  exact hnone

/-- A system with the directories `/a` and `/b`, on which no further watch can be attached. -/
def noWatches : CommandEnv where
  parse := ⟨fun _ _ _ => .ok fun _ => false, fun _ _ => .ok fun _ => false, fun _ => "Null"⟩
  query _ := emptyEnv
  canonicalize p :=
    if p = "/a" then .ok [[0x61]]
    else if p = "/b" then .ok [[0x62]]
    else .error "No such file or directory (os error 2)"
  metadata _ := .ok true
  pathExists _ := false
  watchmanConfig _ := (.default, false)
  initialScan _ _ := []
  watchError _ := some "OS file watch limit reached."
  readConfig _ := none
  hasStateDir := true
  canPersist _ := true
  unixNow := 1700000060
  staleIdleSecs := 3600
  startTime := 1700000000
  pid := 42
  platform := .linux
  sockPath := "/run/sock"
  uptimeSeconds := 60
  startedAtUnix := 1700000000
  usage := ⟨0, 0, 0, 0⟩
  allocStats := ⟨"jemalloc", none, none, none⟩
  arenaBytes _ := 0
  entrySize := 144

/-- A daemon with the jj-events root `/a`. -/
def jjDaemon : DaemonState documents.File where
  roots := (∅ : HashMap (List Name) Watch).insert [[0x61]]
    (Watch.new ((Root.new [[0x61]] .default true 1 1700000000 42).seed []) 1700000000)
  rootCounter := 1
  reapLog := []
  shuttingDown := false
  files _ := none

def badQuery : Value :=
  .array [.string "query", .string "/a", .object [("expression", .string "bogus")]]

/-- A query that the parser refuses does not promote its root, and a root whose watch cannot be
attached is not registered. -/
theorem failed_command_changes_nothing_jjDaemon :
    (((dispatchInner noWatches ⟨1, .json⟩ badQuery).exec jjDaemon).1 =
        .error (.badArgs "unknown bare expression `bogus`") ∧
      Unchanged jjDaemon ((dispatchInner noWatches ⟨1, .json⟩ badQuery).exec jjDaemon).2) ∧
    ((registerRoot noWatches [[0x62]]).exec jjDaemon).1 =
        .error (.internal "OS file watch limit reached.") ∧
      ((registerRoot noWatches [[0x62]]).exec jjDaemon).2.roots.lookup [[0x62]] = none := by
  have h := failed_command_changes_nothing documents noWatches ⟨1, .json⟩ jjDaemon
  have hquery : ((dispatchInner noWatches ⟨1, .json⟩ badQuery).exec jjDaemon).1 =
      .error (.badArgs "unknown bare expression `bogus`") := rfl
  have hregister : ((registerRoot noWatches [[0x62]]).exec jjDaemon).1 =
      .error (.internal "OS file watch limit reached.") := rfl
  exact ⟨⟨hquery, h.1 badQuery _ hquery⟩, hregister, (h.2 [[0x62]] _ hregister).1⟩

end Watchwoman.Dispatch
