import Watchwoman.Commands.Runs
import Watchwoman.Commands.TriggerQuery
import Watchwoman.Protocol.BserCanonical

/-!
# What the daemon sends

A response is put together from texts, numbers, rows and what clients have sent before: the queries
of their subscriptions and the expressions of their triggers. Decoded values are plain, the files of
triggers hold plain ones, and each handler makes a plain value of plain ones; so whatever the daemon
answers or pushes, a client that decodes BSER gets that very value (`responses_read_back`).
-/

namespace Watchwoman.Dispatch

open Transaction Program Transition Persistence Query CommandError Bser
open Subscribe (watchmanCompatVersion)

/-! ## Plain values -/

/-- An object has distinct keys, a template full rows, and bytes are not a text. -/
structure PlainNode (v : Value) : Prop where
  keys : v.KeysDistinct
  rows : v.RowsFull
  text : NotText v

/-- The value is as a decoder returns it. -/
def Plain (v : Value) : Prop := v.All PlainNode

section

variable {v : Value}

@[simp] theorem plain_null : Plain .null := ⟨trivial, trivial, trivial⟩

@[simp] theorem plain_bool (b : Bool) : Plain (.bool b) := ⟨trivial, trivial, trivial⟩

@[simp] theorem plain_int (i : Int64) : Plain (.int i) := ⟨trivial, trivial, trivial⟩

@[simp] theorem plain_real (bits : UInt64) : Plain (.real bits) := ⟨trivial, trivial, trivial⟩

@[simp] theorem plain_string (s : String) : Plain (.string s) := ⟨trivial, trivial, trivial⟩

@[simp] theorem plain_array {a : List Value} : Plain (.array a) ↔ ∀ v ∈ a, Plain v := by
  unfold Plain
  rw [Value.all_array]
  exact and_iff_right ⟨trivial, trivial, trivial⟩

theorem plain_object {o : List (String × Value)} :
    Plain (.object o) ↔ (o.map Prod.fst).Nodup ∧ ∀ e ∈ o, Plain e.2 := by
  unfold Plain
  rw [Value.all_object]
  exact and_congr_left fun _ => ⟨fun h => h.keys, fun h => ⟨h, trivial, trivial⟩⟩

theorem plain_obj {o : List (String × Value)} (hkeys : (o.map Prod.fst).Nodup)
    (h : ∀ e ∈ o, Plain e.2) : Plain (obj o) :=
  plain_object.mpr ⟨hkeys, h⟩

theorem plain_singleton (key : String) (hv : Plain v) : Plain (obj [(key, v)]) :=
  plain_obj (List.nodup_singleton key) fun _ he => by rwa [List.mem_singleton.mp he]

theorem plain_map {α : Type} {f : α → Value} (l : List α) (h : ∀ a ∈ l, Plain (f a)) :
    Plain (.array (l.map f)) := by
  refine plain_array.mpr fun v hv => ?_
  obtain ⟨a, ha, rfl⟩ := List.mem_map.mp hv
  exact h a ha

theorem plain_strings {α : Type} (f : α → String) (l : List α) :
    Plain (.array (l.map fun a => .string (f a))) :=
  plain_map l fun a _ => plain_string (f a)

theorem plain_foldl {α : Type} (key : α → String) {value : α → Value}
    (hvalue : ∀ a, Plain (value a)) (l : List α) {o : List (String × Value)}
    (ho : Plain (.object o)) :
    Plain (.object (l.foldl (fun o a => IndexMap.insert (key a) (value a) o) o)) := by
  induction l generalizing o with
  | nil => exact ho
  | cons a l ih =>
    obtain ⟨hkeys, ho⟩ := plain_object.mp ho
    refine ih (plain_object.mpr ⟨IndexMap.nodup_insert hkeys, fun e he => ?_⟩)
    rcases IndexMap.mem_insert he with rfl | hmem
    · exact hvalue a
    · exact ho e hmem

theorem plain_empty : Plain (.object []) :=
  plain_object.mpr ⟨List.nodup_nil, fun _ he => absurd he List.not_mem_nil⟩

theorem Plain.lookup {o : List (String × Value)} (h : Plain (.object o)) {key : String}
    (hv : o.lookup key = some v) : Plain v := by
  obtain ⟨l₁, l₂, rfl, -⟩ := List.lookup_eq_some_iff.mp hv
  exact (plain_object.mp h).2 (key, v) (List.mem_append_right _ List.mem_cons_self)

/-- A decoded value is plain. -/
theorem plain_of_canonical {lim : AllocLimits} (h : Canonical lim v) : Plain v := by
  obtain ⟨hkeys, -, hrows, htext⟩ := h
  induction v with
  | null | bool _ | int _ | real _ | string _ | bytes _ => exact ⟨hkeys, hrows, htext⟩
  | array a ih =>
    refine plain_array.mpr fun v hv => ih v hv ?_ ?_ ?_
    · exact (Value.all_array.mp hkeys).2 v hv
    · exact (Value.all_array.mp hrows).2 v hv
    · exact (Value.all_array.mp htext).2 v hv
  | object o ih =>
    refine plain_object.mpr ⟨(Value.all_object.mp hkeys).1, fun e he => ih e he ?_ ?_ ?_⟩
    · exact (Value.all_object.mp hkeys).2 e he
    · exact (Value.all_object.mp hrows).2 e he
    · exact (Value.all_object.mp htext).2 e he
  | template keys rows ih =>
    obtain ⟨-, hkeys⟩ := Value.all_template.mp hkeys
    obtain ⟨hfull, hrows⟩ := Value.all_template.mp hrows
    obtain ⟨-, htext⟩ := Value.all_template.mp htext
    refine Value.all_template.mpr ⟨⟨trivial, hfull, trivial⟩, fun row hrow v hv => ?_⟩
    exact ih row hrow v hv (hkeys row hrow v hv) (hrows row hrow v hv) (htext row hrow v hv)

/-- What JSON documents are read to is plain. -/
theorem plain_jsonToValue (d : Server.Json) : Plain (Server.jsonToValue d) := by
  rw [Documents.jsonToValue_eq]
  induction d using Documents.Json.induct with
  | null => exact plain_null
  | bool b => exact plain_bool b
  | number n =>
    rw [Documents.readDocument, Documents.numberToValue]
    split
    · exact plain_int _
    · exact plain_real _
  | string s => exact plain_string s
  | array a ih =>
    rw [Documents.readDocument_array]
    exact plain_map a ih
  | object o ih =>
    rw [Documents.readDocument, Documents.readDocumentEntries_eq]
    refine plain_object.mpr ⟨IndexMap.nodup_extend List.nodup_nil, fun e he => ?_⟩
    obtain ⟨kd, hkd, rfl⟩ := List.mem_map.mp ((IndexMap.mem_extend he).resolve_left List.not_mem_nil)
    exact ih kd hkd

end

/-! ## Rows -/

/-- What a query reads from the disk is plain, as `sha1_of` returns it. -/
def PlainEnv (env : Env) : Prop := ∀ path, Plain (env.sha1Of path)

theorem plain_value {env : Env} (henv : PlainEnv env) (rootPath : List Name) (rel : RelPath)
    (entry : FileEntry) (clock : Clock) (f : Field) :
    Plain (f.value env rootPath rel entry clock) := by
  cases f with
  | contentSha1Hex => exact henv _
  | symlinkTarget =>
    unfold Field.value
    cases entry.symlinkTarget with
    | none => exact plain_null
    | some target => exact plain_string target
  | _ => exact ⟨trivial, trivial, trivial⟩

theorem plain_renderRow {env : Env} (henv : PlainEnv env) (rootPath : List Name) (rel : RelPath)
    (entry : FileEntry) (fields : List Field) (clock : Clock) :
    Plain (Field.renderRow env rootPath rel entry fields clock) := by
  unfold Field.renderRow
  split_ifs
  · exact plain_string _
  · simp only [indexInsert_eq]
    exact plain_foldl Field.wireName (plain_value henv rootPath rel entry clock) fields plain_empty

theorem plain_files {env : Env} (henv : PlainEnv env) (spec : QuerySpec) (r : Root) :
    ∀ v ∈ (Query.run env spec r).1.files, Plain v := by
  rw [files_run]
  intro v hv
  split_ifs at hv
  · exact absurd hv List.not_mem_nil
  · obtain ⟨e, -, he⟩ := List.mem_filterMap.mp hv
    split_ifs at he
    unfold row at he
    obtain ⟨shown, -, rfl⟩ := Option.map_eq_some_iff.mp he
    exact plain_renderRow henv _ _ _ _ _

theorem plain_messages (name : String) (rootPath : List Name) {result : QueryResult}
    (h : ∀ v ∈ result.files, Plain v) :
    ∀ v ∈ Subscribe.messages name rootPath result, Plain v := by
  intro v hv
  unfold Subscribe.messages at hv
  split_ifs at hv
  · exact absurd hv List.not_mem_nil
  · obtain rfl := List.mem_singleton.mp hv
    exact plain_obj (by simp) (by simpa using h)

/-! ## The handlers -/

/-- Clients send plain values, and a query finds plain ones. -/
def plainly : Admitted where
  env e := ∀ path, PlainEnv (e.query path)
  query := Plain
  trigger t := Plain t.expression

section

variable {serde : Serde} {env : CommandEnv} {args : List Value}

theorem plain_onRoot {missing : String} {f : Resolved → Cmd serde Value}
    (hf : ∀ r, Coherent plainly r.path r.watch → (f r).Returns Plain)
    {σ : DaemonState serde.File} (hσ : Consistent plainly σ) {v : Value}
    (hv : ((resolveRoot env missing args >>= f).exec σ).1 = .ok v) : Plain v := by
  rw [exec_bind] at hv
  obtain ⟨e, hexec⟩ | ⟨text, path, w, hw, hexec⟩ := @resolveRoot_cases _ env args missing σ
  · rw [hexec] at hv
    cases hv
  · rw [hexec] at hv
    exact hf _ ((hσ.roots path w hw).step (.touch env.unixNow w)) _ v hv

theorem returns_respond {path : List Name} {w : Watch} {response : Value} (h : Plain response) :
    (respond path w response : Cmd serde Value).Returns Plain :=
  returns_modify_pure _ h

theorem plain_resultToPdu (rootPath : String) {result : QueryResult}
    (h : ∀ v ∈ result.files, Plain v) : Plain (resultToPdu rootPath result) :=
  plain_obj (by simp) (by simpa using h)

theorem returns_answer (henv : ∀ path, PlainEnv (env.query path)) (r : Resolved) (w : Watch)
    (spec : QuerySpec) : (answer env r w spec : Cmd serde Value).Returns Plain :=
  returns_respond (plain_resultToPdu _ (plain_files (henv r.path) spec w.root))

theorem plain_subscribed (name : String) (rootPath : String) {result : QueryResult}
    (h : ∀ v ∈ result.files, Plain v) :
    Plain (obj [
      ("version", .string watchmanCompatVersion),
      ("subscribe", .string name),
      ("clock", .string result.clock),
      ("is_fresh_instance", .bool result.isFreshInstance),
      ("root", .string rootPath),
      ("files", .array result.files)]) :=
  plain_obj (by simp) (by simpa using h)

theorem plain_triggerToValue {t : Trigger} (h : Plain t.expression) : Plain (triggerToValue t) := by
  unfold triggerToValue
  cases t.stdin <;> cases t.maxFilesStdin <;>
    exact plain_obj (by simp) (by simpa [Info.int] using h)

/-- The names of the cursors stay apart behind `n:`. -/
theorem plain_showCursors (r : Root) :
    Plain (obj [("cursors", .object (r.cursors.entries.map fun e =>
      ("n:" ++ e.1, .string (r.clock.encode e.2))))]) := by
  refine plain_obj (by simp) ?_
  simp only [List.forall_mem_cons, List.not_mem_nil, false_implies, implies_true, and_true]
  refine plain_object.mpr ⟨?_, fun e he => ?_⟩
  · rw [List.map_map]
    have hkeys : (r.cursors.entries.map Sigma.fst).Nodup := r.cursors.nodupKeys
    have hmapped := hkeys.map (f := ("n:" ++ ·)) fun a b hab => by simpa using hab
    rw [List.map_map] at hmapped
    exact hmapped
  · obtain ⟨c, -, rfl⟩ := List.mem_map.mp he
    exact plain_string _

theorem plain_version : Plain (Info.version env args) := by
  have hcaps := @plain_foldl String id (fun name => .bool (Info.hasCapability env name))
    (fun _ => plain_bool _) (Info.asked args "required" ++ Info.asked args "optional") [] plain_empty
  unfold Info.version
  dsimp only
  split_ifs
  · split <;> exact plain_obj (by simp) (by simp)
  · split
    · exact plain_obj (by simp) (by simpa using hcaps)
    · exact plain_obj (by simp) (by simpa using hcaps)

theorem plain_rootStatus (path : List Name) (w : Watch) : Plain (Info.rootStatus env path w) :=
  plain_obj (by simp) (by simp [Info.int])

theorem plain_reapValue (e : ReapEvent) : Plain (Info.reapValue e) :=
  plain_obj (by simp) (by simp [Info.int])

theorem plain_memoryStatus (σ : DaemonState serde.File) : Plain (Info.memoryStatus env σ) := by
  unfold Info.memoryStatus Info.stat
  cases env.allocStats.allocated <;> cases env.allocStats.active <;> cases env.allocStats.mapped <;>
    exact plain_obj (by simp) (by simp [Info.int])

theorem plain_status (σ : DaemonState serde.File) : Plain (Info.status env σ) := by
  refine plain_obj (by simp) ?_
  have hroots : Plain (.array (σ.roots.entries.map fun e => Info.rootStatus env e.1 e.2)) :=
    plain_map _ fun e _ => plain_rootStatus e.1 e.2
  simpa [Info.int, plain_memoryStatus, plain_reapValue] using hroots

theorem plain_pathList (paths : List (List Name)) : Plain (pathList paths) :=
  plain_strings pathText paths

theorem plain_listCapabilities : Plain (Info.listCapabilities env) :=
  plain_singleton _ (plain_strings id _)

theorem plain_getConfig : Plain (Info.getConfig env args) := by
  unfold Info.getConfig
  split
  · exact plain_singleton _ (plain_jsonToValue _)
  · exact plain_singleton _ plain_empty

theorem plain_log {v : Value} (h : Info.log args = .ok v) : Plain v := by
  unfold Info.log at h
  cases hmessage : orBadArgs "log message missing" (args[1]?.bind Value.asStr) with
  | error e =>
    rw [hmessage] at h
    cases h
  | ok message =>
    rw [hmessage] at h
    obtain rfl := Except.ok.inj h
    exact plain_singleton _ (plain_bool true)

/-- What `watch` and `watch-project` respond. -/
theorem plain_watched (root : List Name) (relativePath : Option RelPath) :
    Plain (obj ([
        ("watch", .string (pathText root)),
        ("watcher", .string (defaultWatcherName env.platform))] ++
      (relativePath.map fun rel => ("relative_path", .string rel.toStringLossy)).toList)) := by
  cases relativePath <;> exact plain_obj (by simp) (by simp)

theorem plain_recrawled (w : Watch) (files : ℕ) : Plain (recrawled w files) :=
  plain_obj (by simp) (by simp [Info.int])

theorem plain_getSubscriptions {path : List Name} {w : Watch} (h : Coherent plainly path w) :
    Plain (obj [("subscriptions", .array ((HashMap.values w.subscriptions).map fun s =>
      obj [("name", .string s.name), ("query", s.query)]))]) := by
  refine plain_singleton _ (plain_map _ fun s hs => ?_)
  obtain ⟨name, hlookup⟩ := HashMap.mem_values_iff.mp hs
  have hquery : Plain s.query := (h.subscriptions name s hlookup).2
  exact plain_obj (by simp) (by simpa using hquery)

theorem plain_triggerList {path : List Name} {w : Watch} (h : Coherent plainly path w) :
    Plain (obj [("triggers", .array ((HashMap.values w.triggers).map triggerToValue))]) := by
  refine plain_singleton _ (plain_map _ fun t ht => ?_)
  obtain ⟨name, hlookup⟩ := HashMap.mem_values_iff.mp ht
  exact plain_triggerToValue (h.triggers name t hlookup).2

theorem plain_state {f : Resolved × String → Cmd serde Value} (hf : ∀ x, (f x).Returns Plain)
    {σ : DaemonState serde.File} (hσ : Consistent plainly σ) {v : Value}
    (hv : ((parseState env args >>= f).exec σ).1 = .ok v) : Plain v := by
  unfold parseState at hv
  rw [bind_assoc] at hv
  refine plain_onRoot (fun r _ => ?_) hσ hv
  rw [bind_assoc]
  refine .lift_bind fun name _ => ?_
  rw [pure_bind]
  exact hf (r, name)

theorem plain_registering {x : Except CommandError (List Name)} {f : List Name → List Name}
    {response : List Name → Value} (h : ∀ path, Plain (response path)) :
    (do
      let path ← liftM x
      registerRoot env (f path)
      return response path : Cmd serde Value).Returns Plain := by
  refine .lift_bind fun path _ σ v hv => ?_
  rw [exec_bind] at hv
  revert hv
  obtain ⟨_ | _, τ⟩ := (registerRoot env (f path)).exec σ
  · rintro ⟨⟩
  · rintro ⟨⟩
    exact h path

/-- **Plain responses.** What a command responds in a daemon that holds plain values is plain. -/
theorem Command.plain_run (session : Session) (henv : ∀ path, PlainEnv (env.query path))
    {command : Command} {σ : DaemonState serde.File} (hσ : Consistent plainly σ) {v : Value}
    (hv : ((command.run env session args : Cmd serde Value).exec σ).1 = .ok v) : Plain v := by
  cases command with
  | getSockname | getPid | logLevel | globalLogLevel | getLog | debugPollForSettle
  | debugWatcherInfoClear | debugSetParallelCrawl | debugSetSubscriptionsPaused
  | debugSymlinkTargetCache | debugGcTick | shutdownServer =>
    obtain rfl := Except.ok.inj hv
    exact plain_obj (by simp) (by simp)
  | debugDropPrivs | debugPoison => cases hv
  | version =>
    obtain rfl := Except.ok.inj hv
    exact plain_version
  | listCapabilities =>
    obtain rfl := Except.ok.inj hv
    exact plain_listCapabilities
  | getConfig =>
    obtain rfl := Except.ok.inj hv
    exact plain_getConfig
  | log =>
    exact plain_log (ok_of_exec_lift hv)
  | status =>
    obtain rfl := Except.ok.inj hv
    exact plain_status σ
  | watch => exact plain_registering (f := id) (fun path => plain_watched path none) σ v hv
  | watchProject =>
    exact plain_registering (f := fun start => (resolveProjectRoot env start).1)
      (fun start => plain_watched _ (resolveProjectRoot env start).2) σ v hv
  | watchList | watchDelAll =>
    obtain rfl := Except.ok.inj hv
    exact plain_singleton _ (plain_pathList _)
  | debugStatus =>
    obtain rfl := Except.ok.inj hv
    exact plain_obj (by simp) (by simp [Info.int, plain_pathList])
  | debugAgeout =>
    obtain rfl := Except.ok.inj hv
    exact plain_obj (by simp) (by simp [Info.int])
  | watchDel =>
    refine Returns.lift_bind (fun arg _ τ v hv => ?_) σ v hv
    obtain rfl := Except.ok.inj hv
    exact plain_obj (by simp) (by simp)
  | clock => exact plain_onRoot (fun r _ => returns_respond (plain_singleton _ (by simp))) hσ hv
  | query =>
    exact plain_onRoot (fun r _ => .lift_bind fun _ _ => .lift_bind fun spec _ =>
      returns_answer henv r _ spec) hσ hv
  | find =>
    exact plain_onRoot (fun r _ => .lift_bind fun spec _ => returns_answer henv r _ spec) hσ hv
  | since =>
    exact plain_onRoot (fun r _ => .lift_bind fun _ _ => .lift_bind fun spec _ =>
      returns_answer henv r _ spec) hσ hv
  | subscribe =>
    exact plain_onRoot (fun r _ => .lift_bind fun name _ => .lift_bind fun _ _ => .lift_bind
      fun spec _ => returns_respond (plain_subscribed name r.text (plain_files (henv r.path) spec _)))
      hσ hv
  | unsubscribe =>
    exact plain_onRoot (fun r _ => .lift_bind fun name _ =>
      returns_respond (plain_obj (by simp) (by simp))) hσ hv
  | flushSubscriptions =>
    exact plain_onRoot (fun r _ => returns_pure (plain_singleton _ (plain_strings _ _))) hσ hv
  | stateEnter | stateLeave =>
    exact plain_state (fun _ => returns_respond (plain_singleton _ (plain_string _))) hσ hv
  | trigger =>
    exact plain_onRoot (fun r _ => .lift_bind fun _ _ => .lift_bind fun t _ =>
      returns_modify_pure _ (plain_singleton _ (plain_string _))) hσ hv
  | triggerList => exact plain_onRoot (fun r hr => returns_pure (plain_triggerList hr)) hσ hv
  | triggerDel =>
    exact plain_onRoot (fun r _ => .lift_bind fun name _ =>
      returns_modify_pure _ (plain_obj (by simp) (by simp))) hσ hv
  | debugRecrawl | debugKqueueAndFseventsRecrawl =>
    refine plain_onRoot (fun r _ => ?_) hσ hv
    dsimp only
    split
    · exact returns_respond (plain_recrawled _ _)
    · exact returns_respond (plain_recrawled _ _)
  | debugFseventsInjectDrop =>
    exact plain_onRoot (fun r _ => returns_respond (plain_singleton _ (plain_bool _))) hσ hv
  | debugShowCursors =>
    exact plain_onRoot (fun r _ => returns_pure (plain_showCursors r.watch.root)) hσ hv
  | debugGetAssertedStates =>
    exact plain_onRoot (fun r _ => returns_pure (plain_obj (by simp) (by simp))) hσ hv
  | debugGetSubscriptions =>
    exact plain_onRoot (fun r hr => returns_pure (plain_getSubscriptions hr)) hσ hv
  | debugRootStatus =>
    exact plain_onRoot (fun r _ => returns_pure (plain_obj (by simp) (by simp [Info.int]))) hσ hv
  | debugWatcherInfo | debugContenthash =>
    exact plain_onRoot (fun r _ => returns_pure (plain_obj (by simp) (by simp))) hσ hv

end

/-! ## What clients read -/

section

variable {serde : Serde} {e : Event}

theorem plain_withVersion {v : Value} (h : Plain v) : Plain (withVersion v) := by
  unfold withVersion
  split
  · rename_i map
    obtain ⟨hkeys, hmap⟩ := plain_object.mp h
    split_ifs with hversion
    · exact h
    · refine plain_object.mpr ⟨?_, List.forall_mem_cons.mpr ⟨plain_string _, hmap⟩⟩
      refine List.nodup_cons.mpr ⟨fun hmem => hversion ?_, hkeys⟩
      obtain ⟨entry, hentry, hkey⟩ := List.mem_map.mp hmem
      exact List.lookup_isSome_iff.mpr ⟨entry, hentry, beq_iff_eq.mpr hkey.symm⟩
  · exact h

theorem plain_dispatch (he : plainly.Admits e) {σ : DaemonState serde.File}
    (hσ : Consistent plainly σ) : Plain (dispatch e.env e.session e.pdu σ).1 := by
  have herror : ∀ err : CommandError, Plain (responseTo (.error err)) := fun err =>
    plain_withVersion (plain_singleton "error" (plain_string err.display))
  rw [dispatch_eq]
  rcases Event.program_cases serde e with ⟨command, args, hc, hprogram⟩ | ⟨-, err, hrefused⟩
  · rw [hprogram]
    cases hout : ((command.run e.env e.session args : Cmd serde Value).exec σ).1 with
    | error err => exact herror err
    | ok v => exact plain_withVersion (Command.plain_run e.session he.env hσ hout)
  · rw [hrefused σ]
    exact herror err

theorem plain_expression {spec : Value} {t : Trigger} (h : parseTrigger spec = .ok t)
    (hspec : Plain spec) : Plain t.expression := by
  rw [expression_parseTrigger h]
  cases spec with
  | object o =>
    show Plain ((o.lookup "expression").getD (.string "true"))
    cases hlookup : o.lookup "expression" with
    | none => exact plain_string _
    | some v => exact hspec.lookup hlookup
  | _ => exact plain_string _

theorem admits_of_plain (henv : ∀ path, PlainEnv (e.env.query path)) (hpdu : Plain e.pdu) :
    plainly.Admits e := by
  have hargs : ∀ command args, e.command = some (command, args) → ∀ v ∈ args, Plain v := by
    intro command args hc v hv
    rw [Event.command_eq] at hc
    obtain ⟨arr, harr, hc⟩ := Option.bind_eq_some_iff.mp hc
    obtain ⟨name, -, hc⟩ := Option.bind_eq_some_iff.mp hc
    obtain ⟨_, -, hc⟩ := Option.map_eq_some_iff.mp hc
    obtain ⟨-, rfl⟩ := Prod.mk.inj hc
    cases hpdu' : e.pdu with
    | array a =>
      rw [hpdu'] at harr hpdu
      obtain rfl := Option.some.inj harr
      exact plain_array.mp hpdu v (List.mem_of_mem_tail hv)
    | _ =>
      rw [hpdu'] at harr
      cases harr
  exact ⟨henv, hargs, fun command args hc v hv t ht => plain_expression ht (hargs command args hc v hv)⟩

theorem stored_plainly : plainly.Stored := fun _ _ => plain_jsonToValue _

theorem filesAdmitted_plainly (σ : DaemonState serde.File) : FilesAdmitted plainly σ :=
  fun _ _ _ _ _ _ _ => plain_jsonToValue _

theorem decodePdu_of_plain {lim : AllocLimits} {v : Value} (h : Plain v)
    (hallocated : v.All (Value.Allocatable lim)) (hfits : Encodable v) {enc : Encoding}
    (henc : enc ≠ .json) :
    ∃ bytes, encodePdu v enc = .ok bytes ∧
      ∀ r, decodePdu lim (bytes ++ r) = .ok (v, bytes.length) := by
  refine ⟨_, encodePdu_eq henc v, fun r => ?_⟩
  rw [decodePdu_encoded ⟨h.mono fun _ hv => hv.keys, hallocated⟩ (h.mono fun _ hv => hv.rows) hfits
    enc r, norm_of_notText v (h.mono fun _ hv => hv.text)]

/-- **What clients read.** Let clients send decoded values, in any number of commands and with
anything else going on in between. Then what the daemon responds to the next command, and what a push
loop of a root sends, is read back from its BSER encoding as the very value the daemon made, as long
as it was allocated and fits the length of a PDU. -/
theorem responses_read_back {σ₀ σ : DaemonState serde.File}
    (hstart : σ₀.roots = ∅ ∧ σ₀.reapLog = []) (hrun : Run (Move plainly) σ₀ σ)
    (he : plainly.Admits e) (lim : AllocLimits) (v : Value)
    (hv : v = (dispatch e.env e.session e.pdu σ).1 ∨
      ∃ name env spec path w, PlainEnv env ∧ σ.roots.lookup path = some w ∧
        v ∈ Subscribe.messages name path (Query.run env spec w.root).1)
    (hallocated : v.All (Value.Allocatable lim)) (hfits : Encodable v) (enc : Encoding)
    (henc : enc ≠ .json) :
    ∃ bytes, encodePdu v enc = .ok bytes ∧
      ∀ r, decodePdu lim (bytes ++ r) = .ok (v, bytes.length) := by
  refine decodePdu_of_plain ?_ hallocated hfits henc
  rcases hv with rfl | ⟨name, env, spec, path, w, henv, -, hmem⟩
  · refine plain_dispatch he (consistent_of_run stored_plainly hstart (filesAdmitted_plainly σ₀) hrun)
  · exact plain_messages name path (plain_files henv spec w.root) v hmem

end

/-- A client subscribes to `/a` with a query of its own. -/
def subscribeX : Event :=
  ⟨twoDirectories, ⟨1, .bserV2⟩, .array [.string "subscribe", .string "/a", .string "x",
    .object [("fields", .array [.string "name"])]]⟩

/-- The subscriptions of `/a`, as they are listed. -/
def listedSubscriptions : Value :=
  .object [
    ("version", .string watchmanCompatVersion),
    ("subscriptions", .array [.object [
      ("name", .string "x"),
      ("query", .object [("fields", .array [.string "name"])])]])]

theorem admits_commandOn (name path : String) : plainly.Admits (commandOn name path) := by
  refine admits_of_plain (fun _ _ => plain_null) ?_
  simp [commandOn]

theorem admits_subscribeX : plainly.Admits subscribeX := by
  refine admits_of_plain (fun _ _ => plain_null) ?_
  simp [subscribeX, plain_object]

/-- What one client sent, another one reads back. -/
theorem responses_read_back_listedSubscriptions :
    ∃ bytes, encodePdu listedSubscriptions .bserV2 = .ok bytes ∧
      ∀ r, decodePdu .bits64 (bytes ++ r) = .ok (listedSubscriptions, bytes.length) := by
  refine responses_read_back (e := commandOn "debug-get-subscriptions" "/a") ⟨rfl, rfl⟩
    (.tail (.single (.command (admits_commandOn "watch" "/a") noRoots))
      (.command admits_subscribeX _))
    (admits_commandOn _ _) .bits64 listedSubscriptions (.inl rfl) ?_ ?_ .bserV2 (by decide)
  · simp [listedSubscriptions, Value.Allocatable, AllocLimits.bits64, Value.All, Value.AllItems,
      Value.AllEntries]
  · have hlen : (writeValue listedSubscriptions).length < 200 := by decide
    exact lt_trans hlen (by norm_num)

end Watchwoman.Dispatch
