import Watchwoman.Commands.Failures

/-!
# The tools

`watchman-wait` and `watchman-make` up to their loops. A tool asks the daemon to watch the project
of each of its paths, subscribes to its first path with an expression made of its patterns, and
throws the responses away; `watchman-make` has one path. What it subscribes to is the path and not
the root of the project, so a tool that is started below the root of a project gets no subscription,
and waits for messages that never come, unless the directory itself is watched too
(`subscribed_iff`).
-/

namespace Watchwoman.Bin

open Transaction Program Persistence Query Dispatch CommandError

/-! ## The requests -/

def matchBasename (pat : String) : Value :=
  .array [.string "match", .string pat, .string "basename"]

def anyPattern : List Value → Value
  | [one] => one
  | any => .array (.string "anyof" :: any)

def subscription (patterns : List String) : Value :=
  obj ([("fields", .array [.string "name"]), ("empty_on_fresh_instance", .bool true)] ++
    if patterns.isEmpty then [] else [("expression", anyPattern (patterns.map matchBasename))])

def watchRequest (path : String) : Value := .array [.string "watch-project", .string path]

def subscribeRequest (path name : String) (patterns : List String) : Value :=
  .array [.string "subscribe", .string path, .string name, subscription patterns]

/-! ## The expression -/

def Compiles (parse : ParseEnv) (pat : String) : Prop :=
  ∃ matcher, parse.buildGlob pat false false = .ok matcher

def Succeeds {ε α : Type} (x : Except ε α) : Prop := ∃ a, x = .ok a

section Parse

variable {parse : ParseEnv} {patterns : List String}

theorem not_succeeds_error {ε α : Type} (e : ε) : ¬ Succeeds (.error e : Except ε α) := by
  rintro ⟨a, h⟩
  cases h

theorem succeeds_bind {ε α β : Type} {x : Except ε α} {f : α → Except ε β}
    (hf : ∀ a, Succeeds (f a)) : Succeeds (x >>= f) ↔ Succeeds x := by
  cases x with
  | error e => exact iff_of_false (not_succeeds_error e) (not_succeeds_error e)
  | ok a => exact iff_of_true (hf a) ⟨a, rfl⟩

theorem succeeds_matchBasename (pat : String) :
    Succeeds (Expr.parse parse (matchBasename pat)) ↔ Compiles parse pat := by
  have hparse : Expr.parse parse (matchBasename pat) =
      ((parse.buildGlob pat false false).mapError fun e =>
        .badArgs ("bad match pattern: " ++ e)).map fun matcher => .match matcher .basename := by
    have hpattern : orBadArgs "`match` requires a pattern"
        ([.string pat, .string "basename"].head?.bind Value.asStr) = .ok pat := rfl
    have hscope : Expr.scopeArg [.string pat, .string "basename"] = .ok .basename := rfl
    have hwhole : (MatchScope.basename == .wholename) = false := rfl
    show Expr.parseMatch parse false [.string pat, .string "basename"] = _
    unfold Expr.parseMatch
    rw [hpattern, hscope]
    dsimp only [bind, Except.bind]
    rw [hwhole]
    cases parse.buildGlob pat false false <;> rfl
  rw [hparse]
  unfold Compiles
  cases parse.buildGlob pat false false with
  | ok matcher => exact iff_of_true ⟨_, rfl⟩ ⟨matcher, rfl⟩
  | error e => exact iff_of_false (not_succeeds_error _) (not_succeeds_error e)

theorem succeeds_parseAll : Succeeds (Expr.parseAll parse (patterns.map matchBasename)) ↔
    ∀ pat ∈ patterns, Compiles parse pat := by
  induction patterns with
  | nil => exact ⟨fun _ _ h => absurd h List.not_mem_nil, fun _ => ⟨[], rfl⟩⟩
  | cons pat patterns ih =>
    rw [List.forall_mem_cons, ← ih, ← succeeds_matchBasename, List.map_cons, Expr.parseAll]
    cases Expr.parse parse (matchBasename pat) with
    | error e => exact iff_of_false (not_succeeds_error e) fun h => not_succeeds_error e h.1
    | ok e =>
      show Succeeds (Expr.parseAll parse _ >>= fun es => .ok (e :: es)) ↔ _
      rw [succeeds_bind fun es => ⟨e :: es, rfl⟩]
      exact ⟨fun h => ⟨⟨e, rfl⟩, h⟩, And.right⟩

theorem succeeds_anyPattern (hne : patterns ≠ []) :
    Succeeds (Expr.parse parse (anyPattern (patterns.map matchBasename))) ↔
      ∀ pat ∈ patterns, Compiles parse pat := by
  rw [← succeeds_parseAll]
  obtain ⟨pat, rest, rfl⟩ := List.exists_cons_of_ne_nil hne
  cases rest with
  | nil =>
    rw [succeeds_parseAll, List.forall_mem_singleton]
    exact succeeds_matchBasename pat
  | cons pat' rest =>
    show Succeeds (Expr.parse parse (.array (.string "anyof" :: _))) ↔ _
    rw [Expr.parse, Expr.parseArray]
    exact succeeds_bind fun list => ⟨_, rfl⟩

theorem succeeds_parseSpec : Succeeds (parseSpec parse (subscription patterns)) ↔
    ∀ pat ∈ patterns, Compiles parse pat := by
  by_cases hne : patterns = []
  · subst hne
    exact ⟨fun _ _ h => absurd h List.not_mem_nil, fun _ => ⟨_, rfl⟩⟩
  · have hspec : subscription patterns = .object [("fields", .array [.string "name"]),
        ("empty_on_fresh_instance", .bool true),
        ("expression", anyPattern (patterns.map matchBasename))] := by
      unfold subscription obj
      rw [if_neg (by simpa using hne)]
      rfl
    rw [← succeeds_anyPattern hne, hspec]
    show Succeeds (Expr.parse parse _ >>= fun _ => _) ↔ _
    exact succeeds_bind fun expression => ⟨_, rfl⟩

end Parse

/-! ## The daemon -/

section Daemon

variable {serde : Serde} (session : Session) {env : CommandEnv} {σ : DaemonState serde.File}
  {key : List Name}

/-- The daemon after a tool has asked it to watch the project of each path, with what the daemon
finds on the disk each time. -/
def watchPaths (paths : List (CommandEnv × String)) (σ : DaemonState serde.File) :
    DaemonState serde.File :=
  paths.foldl (fun σ x => (dispatch x.1 session (watchRequest x.2) σ).2) σ

/-- What comes of the subscription of a tool that has asked for its paths and subscribes to one: the
first, whose name it resolves again. -/
def subscribed (paths : List (CommandEnv × String)) (env : CommandEnv) (path name : String)
    (patterns : List String) (σ : DaemonState serde.File) : Except CommandError Value :=
  ((dispatchInner env session (subscribeRequest path name patterns)).exec
    (watchPaths session paths σ)).1

/-- To watch the project of the path is to watch the root. -/
structure Registers (env : CommandEnv) (path : String) (root : List Name) : Prop where
  project : ∃ start, env.canonicalize path = .ok start ∧ (resolveProjectRoot env start).1 = root
  isDir : env.metadata root = .ok true
  watched : env.watchError root = none

theorem registered_setRoot (root : List Name) (w : Watch) :
    (σ.setRoot root w).roots.lookup key ≠ none ↔ σ.roots.lookup key ≠ none ∨ root = key := by
  show (σ.roots.insert root w).lookup key ≠ none ↔ _
  rw [HashMap.lookup_insert_eq]
  by_cases hkey : key = root
  · rw [if_pos hkey]
    exact iff_of_true (Option.some_ne_none w) (.inr hkey.symm)
  · rw [if_neg hkey]
    exact ⟨.inl, fun h => h.resolve_right (Ne.symm hkey)⟩

theorem state_bind_pure {α β : Type} (x : Cmd serde α) (b : β) :
    ((x >>= fun _ => pure b).exec σ).2 = (x.exec σ).2 := by
  rw [exec_bind]
  obtain ⟨a | e, σ'⟩ := x.exec σ <;> rfl

/-- `register_root` registers its root if it can, and no other. -/
theorem registered_registerRoot (root : List Name) :
    ((registerRoot env root).exec σ).2.roots.lookup key ≠ none ↔
      σ.roots.lookup key ≠ none ∨
        (root = key ∧ env.metadata root = .ok true ∧ env.watchError root = none) := by
  unfold registerRoot
  rw [exec_get_bind]
  cases hw : σ.roots.lookup root with
  | some w =>
    show (σ.setRoot root (w.touch env.unixNow)).roots.lookup key ≠ none ↔ _
    rw [registered_setRoot]
    refine or_congr_right' fun hnew => ?_
    have hne : root ≠ key := by
      rintro rfl
      exact hnew (by rw [hw]; exact Option.some_ne_none w)
    exact iff_of_false hne fun h => hne h.1
  | none =>
    dsimp only
    cases hmeta : env.metadata root with
    | error e => exact ⟨.inl, fun h => h.resolve_right (by simp)⟩
    | ok isDir =>
      cases isDir with
      | false => exact ⟨.inl, fun h => h.resolve_right (by simp)⟩
      | true =>
        dsimp only
        rw [exec_modify_bind]
        cases hwatch : env.watchError root with
        | some e => exact ⟨.inl, fun h => h.resolve_right (by simp)⟩
        | none =>
          refine (registered_setRoot root _).trans (or_congr_right ?_)
          simp

theorem canonicalArg_singleton (path : String) : canonicalArg env [.string path] =
    (env.canonicalize path).mapError fun e => .internal ("canonicalize: " ++ e) := by
  have harg : argPath [.string path] = .ok path := rfl
  unfold canonicalArg
  rw [harg]
  dsimp only [bind, Except.bind]
  cases env.canonicalize path <;> rfl

/-- What is registered once the daemon was asked to watch the project of a path. -/
theorem registered_watchRequest (path : String) :
    (dispatch env session (watchRequest path) σ).2.roots.lookup key ≠ none ↔
      σ.roots.lookup key ≠ none ∨ Registers env path key := by
  have hstate : (dispatch env session (watchRequest path) σ).2 =
      ((watchProject env [.string path]).exec σ).2 := by
    have hinner : dispatchInner env session (watchRequest path) =
        (watchProject env [.string path] : Cmd serde Value) := rfl
    unfold dispatch
    rw [hinner]
    obtain ⟨v | e, σ'⟩ := (watchProject env [.string path]).exec σ <;> rfl
  rw [hstate]
  unfold watchProject
  rw [exec_bind, exec_lift, canonicalArg_singleton]
  cases hstart : env.canonicalize path with
  | error e =>
    refine ⟨.inl, fun h => h.resolve_right ?_⟩
    rintro ⟨⟨start, hstart', -⟩, -, -⟩
    cases hstart.symm.trans hstart'
  | ok start =>
    show ((registerRoot env (resolveProjectRoot env start).1 >>= fun _ =>
      pure (obj _) : Cmd serde Value).exec σ).2.roots.lookup key ≠ none ↔ _
    rw [state_bind_pure, registered_registerRoot]
    refine or_congr_right ⟨?_, ?_⟩
    · rintro ⟨hroot, hdir, hwatch⟩
      exact ⟨⟨start, hstart, hroot⟩, hroot ▸ hdir, hroot ▸ hwatch⟩
    · rintro ⟨⟨start', hstart', hroot⟩, hdir, hwatch⟩
      obtain rfl := Except.ok.inj (hstart.symm.trans hstart')
      exact ⟨hroot, hroot ▸ hdir, hroot ▸ hwatch⟩

theorem registered_watchPaths (paths : List (CommandEnv × String)) :
    (watchPaths session paths σ).roots.lookup key ≠ none ↔
      σ.roots.lookup key ≠ none ∨ ∃ x ∈ paths, Registers x.1 x.2 key := by
  induction paths generalizing σ with
  | nil =>
    refine ⟨.inl, fun h => h.resolve_right ?_⟩
    rintro ⟨x, hx, -⟩
    cases hx
  | cons x paths ih =>
    show (watchPaths session paths (dispatch x.1 session (watchRequest x.2) σ).2).roots.lookup key ≠
      none ↔ _
    rw [ih, registered_watchRequest, or_assoc]
    refine or_congr_right ⟨?_, ?_⟩
    · rintro (hhere | ⟨y, hy, hlater⟩)
      · exact ⟨x, List.mem_cons_self, hhere⟩
      · exact ⟨y, List.mem_cons_of_mem x hy, hlater⟩
    · rintro ⟨y, hy, hregisters⟩
      rcases List.mem_cons.mp hy with rfl | hy
      · exact .inl hregisters
      · exact .inr ⟨y, hy, hregisters⟩

/-- The root of a request is found if it is registered. -/
theorem succeeds_resolveRoot (missing path : String) (rest : List Value) :
    Succeeds ((resolveRoot env missing (.string path :: rest)).exec σ).1 ↔
      ∃ key, (canonical env path).key = some key ∧ σ.roots.lookup key ≠ none := by
  have harg : orBadArgs missing ((Value.string path :: rest).head?.bind Value.asStr) =
      .ok path := rfl
  unfold resolveRoot
  rw [exec_bind, exec_lift, harg]
  dsimp only
  cases hkey : (canonical env path).key with
  | none =>
    refine iff_of_false (not_succeeds_error _) ?_
    rintro ⟨key, h, -⟩
    cases h
  | some key =>
    dsimp only
    rw [exec_bind]
    unfold findRoot
    rw [exec_get_bind]
    cases hw : σ.roots.lookup key with
    | none =>
      refine iff_of_false (not_succeeds_error _) ?_
      rintro ⟨key', h, hne⟩
      obtain rfl := Option.some.inj h
      exact hne hw
    | some w =>
      refine iff_of_true ⟨_, rfl⟩ ⟨key, rfl, ?_⟩
      rw [hw]
      exact Option.some_ne_none w

theorem succeeds_subscribe (path name : String) (spec : Value) :
    Succeeds ((Dispatch.subscribe env session [.string path, .string name, spec]).exec σ).1 ↔
      (∃ key, (canonical env path).key = some key ∧ σ.roots.lookup key ≠ none) ∧
        Succeeds (parseSpec env.parse spec) := by
  unfold Dispatch.subscribe
  rw [exec_bind, ← succeeds_resolveRoot "subscribe requires a root" path [.string name, spec]]
  obtain ⟨e | r, σ'⟩ := (resolveRoot env "subscribe requires a root"
    [.string path, .string name, spec]).exec σ
  · exact iff_of_false (not_succeeds_error e) fun h => not_succeeds_error e h.1
  · show Succeeds
      ((liftM (parseSpec env.parse spec) >>= fun _ => _ : Cmd serde Value).exec σ').1 ↔ _
    rw [exec_bind, exec_lift]
    cases parseSpec env.parse spec with
    | error e => exact iff_of_false (not_succeeds_error e) fun h => not_succeeds_error e h.2
    | ok spec => exact iff_of_true ⟨_, rfl⟩ ⟨⟨r, rfl⟩, spec, rfl⟩

end Daemon

/-- **The tools.** Whatever the daemon watches already and whatever it finds on the disk each time,
a tool gets its subscription exactly if the path that it subscribes to is registered itself, or is
the root of the project of one of its paths and can be watched, and every pattern compiles. -/
theorem subscribed_iff {serde : Serde} (session : Session) (paths : List (CommandEnv × String))
    (env : CommandEnv) (path name : String) (patterns : List String)
    (σ : DaemonState serde.File) :
    (∃ response, subscribed session paths env path name patterns σ = .ok response) ↔
      (∃ key, (canonical env path).key = some key ∧
        (σ.roots.lookup key ≠ none ∨ ∃ x ∈ paths, Registers x.1 x.2 key)) ∧
      ∀ pat ∈ patterns, Compiles env.parse pat := by
  have hsubscribe := @succeeds_subscribe serde session env (watchPaths session paths σ) path name
    (subscription patterns)
  simp only [registered_watchPaths, succeeds_parseSpec] at hsubscribe
  exact hsubscribe

end Watchwoman.Bin
