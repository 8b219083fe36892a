import Watchwoman.Lib.Replica
import Watchwoman.Query.Cursors
import Watchwoman.Query.RelativeRoot

/-!
# What the answers through a cursor add up to

A client that reads only the answers of the queries through one named cursor, and believes each row
it is given, knows after every one of them exactly the live paths that the query selects, with their
rows. Batches, sweeps, bumps and other queries may stand between the queries in any order. The tree
is a versioned store here, and what the client believes is a replica of it (`Replica`); tombstones
reach the client before a sweep drops them since no sweep goes past the cursor.
-/

namespace Watchwoman

/-! ## Expressions that look at the path only -/

namespace Expr

mutual

/-- No test of the expression looks at the entry or at the clock. -/
def pathOnly : Expr → Bool
  | .allOf list => pathOnlyAll list
  | .anyOf list => pathOnlyAll list
  | .not inner => pathOnly inner
  | .type _ => Bool.false
  | .size .. => Bool.false
  | .exists => Bool.false
  | .empty => Bool.false
  | .since _ => Bool.false
  | _ => Bool.true

def pathOnlyAll : List Expr → Bool
  | [] => Bool.true
  | e :: es => pathOnly e && pathOnlyAll es

end

section

variable (entry entry' : FileEntry) (clock clock' : Clock) (rel : RelPath) (cs : Bool)

mutual

theorem eval_of_pathOnly : ∀ e : Expr, e.pathOnly = Bool.true →
    eval entry ⟨clock, rel, cs⟩ e = eval entry' ⟨clock', rel, cs⟩ e
  | .allOf list, h => evalAll_of_pathOnly list h
  | .anyOf list, h => evalAny_of_pathOnly list h
  | .not inner, h => by rw [eval, eval, eval_of_pathOnly inner h]
  | .true, _ => rfl
  | .false, _ => rfl
  | .name .., _ => rfl
  | .match _ .basename, _ => rfl
  | .match _ .wholename, _ => rfl
  | .pcre .., _ => rfl
  | .suffix _, _ => rfl
  | .dirname .., _ => rfl

theorem evalAll_of_pathOnly : ∀ es : List Expr, pathOnlyAll es = Bool.true →
    evalAll entry ⟨clock, rel, cs⟩ es = evalAll entry' ⟨clock', rel, cs⟩ es
  | [], _ => rfl
  | e :: es, h => by
    obtain ⟨he, hes⟩ := Bool.and_eq_true_iff.mp h
    rw [evalAll, evalAll, eval_of_pathOnly e he, evalAll_of_pathOnly es hes]

theorem evalAny_of_pathOnly : ∀ es : List Expr, pathOnlyAll es = Bool.true →
    evalAny entry ⟨clock, rel, cs⟩ es = evalAny entry' ⟨clock', rel, cs⟩ es
  | [], _ => rfl
  | e :: es, h => by
    obtain ⟨he, hes⟩ := Bool.and_eq_true_iff.mp h
    rw [evalAny, evalAny, eval_of_pathOnly e he, evalAny_of_pathOnly es hes]

end

end

end Expr

namespace Query

open Root RootOp LastWrite Replica

/-! ## What a client believes -/

/-- What a row says: the name, and the row itself if the path exists. -/
def reading (row : Value) : Option (String × Option Value) :=
  match Field.read .name row, Field.read .exists row with
  | some (.string n), some (.bool live) => some (n, if live then some row else none)
  | _, _ => none

/-- What is believed of each name after a row. -/
def learn (view : View String Value) (row : Value) : View String Value :=
  match reading row with
  | some (n, v) => Function.update view n v
  | none => view

/-- What is believed after an answer; a fresh one makes the client forget what it knew. -/
def tell (view : View String Value) (answer : QueryResult) : View String Value :=
  answer.files.foldl learn (if answer.isFreshInstance then fun _ => none else view)

/-- The root, and what the answers through the cursor have made a client believe. -/
structure Observed where
  root : Root
  view : View String Value

/-- An operation, with what hashing and the version control system return at that time. -/
def Observed.exec (name : String) (o : Observed) (x : Env × RootOp) : Observed where
  root := x.2.exec x.1 o.root
  view := match x.2 with
    | .query spec =>
      if spec.since = some (.named name) then tell o.view (run x.1 spec o.root).1 else o.view
    | _ => o.view

def Observed.execAll (name : String) (o : Observed) (ops : List (Env × RootOp)) : Observed :=
  ops.foldl (Observed.exec name) o

/-- The spec selects by the path alone, and shows a path as `shown` does. -/
def SelectsByPath (shown : RelPath → Option RelPath) (spec : QuerySpec) : Prop :=
  ∀ env r p e, select env r spec p e = shown p

/-- A query through the cursor that selects by the path alone and asks for the fields. -/
structure Polls (name : String) (shown : RelPath → Option RelPath) (fields : List Field)
    (spec : QuerySpec) : Prop where
  since : spec.since = some (.named name)
  byPath : SelectsByPath shown spec
  fields : spec.fields = fields

/-- The fields tell names and deletions apart, and say nothing of the contents on disk. -/
structure Telling (fields : List Field) : Prop where
  name_mem : .name ∈ fields
  exists_mem : .exists ∈ fields
  hash_not_mem : .contentSha1Hex ∉ fields

/-- What a spec without tests of the entry shows of a path. -/
def shownBy (spec : QuerySpec) (rel : RelPath) : Option RelPath :=
  if IsCookie rel then none
  else (displayRel spec rel).bind fun shown =>
    if spec.generators.accept shown &&
        spec.expression.eval (FileEntry.missing 0) ⟨Clock.new 0 0 0, shown, spec.caseSensitive⟩ then
      some shown
    else none

theorem selectsByPath_of_pathOnly {spec : QuerySpec}
    (hscm : ∀ env, resolveScmSet env spec = none) (hdirs : spec.alwaysIncludeDirectories = true)
    (hexpr : spec.expression.pathOnly = true) : SelectsByPath (shownBy spec) spec := by
  intro env r p e
  unfold select shownBy
  split_ifs with hcookie hdir
  · rfl
  · rw [hdirs] at hdir
    cases hdir.1
  · show (displayRel spec p).bind _ = _
    congr 1
    funext shown
    rw [hscm]
    simp only [Bool.and_true]
    rw [Expr.eval_of_pathOnly e (FileEntry.missing 0) r.clock (Clock.new 0 0 0) shown _ _ hexpr]

/-! ## Rows -/

section Rows

variable {env env' : Env} {rootPath rootPath' : List Name} {rel : RelPath} {entry : FileEntry}
  {fields : List Field} {clock : Clock}

theorem renderRow_env (h : .contentSha1Hex ∉ fields) :
    Field.renderRow env rootPath rel entry fields clock =
      Field.renderRow env' rootPath' rel entry fields clock := by
  have hvalue : ∀ f ∈ fields, Field.value env rootPath rel entry clock f =
      Field.value env' rootPath' rel entry clock f := by
    intro f hf
    cases f with
    | contentSha1Hex => exact absurd hf h
    | _ => rfl
  unfold Field.renderRow
  split_ifs
  · rfl
  · congr 1
    refine List.foldl_ext _ _ [] fun o f hf => ?_
    rw [hvalue f hf]

theorem reading_renderRow (h : Telling fields) :
    reading (Field.renderRow env rootPath rel entry fields clock) =
      some (rel.toStringLossy, if entry.live then
        some (Field.renderRow env rootPath rel entry fields clock) else none) := by
  unfold reading
  rw [Field.read_renderRow h.name_mem, Field.read_renderRow h.exists_mem]
  rfl

end Rows

/-- What a row makes the client believe of a name, if it is about it. -/
def writes (n : String) (row : Value) : Option (Option Value) :=
  (reading row).bind fun x => if x.1 = n then some x.2 else none

theorem learn_apply (view : View String Value) (row : Value) (n : String) :
    learn view row n = (writes n row).getD (view n) := by
  unfold learn writes
  cases reading row with
  | none => rfl
  | some x =>
    rw [Option.bind_some]
    show Function.update view x.1 x.2 n = _
    split_ifs with hn
    · rw [hn, Function.update_self]
      rfl
    · rw [Function.update_of_ne (Ne.symm hn)]
      rfl

theorem foldl_learn_apply (view : View String Value) (rows : List Value) (n : String) :
    rows.foldl learn view n = (lastSome? (writes n) rows).getD (view n) :=
  getD_foldl (fun view : View String Value => view n) (fun s a => learn_apply s a n) rows view

theorem tell_of_delta {view : View String Value} {answer : QueryResult}
    (h : answer.isFreshInstance = false) : tell view answer = answer.files.foldl learn view := by
  unfold tell
  rw [h]
  rfl

theorem lastSome?_of_mem {α β : Type} {write : α → Option β} {l : List α} {b : β}
    (hex : ∃ a ∈ l, write a = some b) (hall : ∀ a ∈ l, ∀ c, write a = some c → c = b) :
    lastSome? write l = some b := by
  obtain ⟨a, ha, hb⟩ := hex
  cases hlast : lastSome? write l with
  | none =>
    rw [lastSome?_eq_none_iff.mp hlast a ha] at hb
    cases hb
  | some c =>
    obtain ⟨a', ha', hc⟩ := exists_of_lastSome? hlast
    rw [hall a' ha' c hc]

/-! ## The tree as a versioned store -/

section Store

variable {P : Set RelPath} {shown : RelPath → Option RelPath} {fields : List Field}

/-- What a client is to believe of an entry: its row, unless the path is gone. -/
def recordOf (q : RelPath) (fields : List Field) (clock : Clock) (e : FileEntry) :
    Record Value where
  version := e.oclock
  value := if e.live then some (Field.renderRow emptyEnv [] q e fields clock) else none

/-- The tree, with the paths of `P` as keys. -/
def store (P : Set RelPath) (shown : RelPath → Option RelPath) (fields : List Field) (r : Root) :
    Store P Value := fun p =>
  (shown p).bind fun q => (r.tree.get p).map (recordOf q fields r.clock)

/-- What a client believes of the paths of `P`. -/
def viewOf (P : Set RelPath) (shown : RelPath → Option RelPath) (view : View String Value) :
    View P Value := fun p => (shown p).bind fun q => view q.toStringLossy

/-- The client knows names of shown paths of `P` only. -/
def Named (P : Set RelPath) (shown : RelPath → Option RelPath) (view : View String Value) : Prop :=
  ∀ n, view n ≠ none → ∃ p ∈ P, ∃ q ∈ shown p, q.toStringLossy = n

theorem viewOf_empty : viewOf P shown (fun _ => none) = fun _ => none := by
  funext p
  unfold viewOf
  cases shown p <;> rfl

theorem named_empty : Named P shown fun _ => none := fun _ hn => absurd rfl hn

theorem store_congr {r r' : Root} (hclock : Clock.Same r.clock r'.clock) {p : P}
    (h : r'.tree.get p = r.tree.get p) : store P shown fields r' p = store P shown fields r p := by
  have hrecord : ∀ q, recordOf q fields r'.clock = recordOf q fields r.clock := by
    intro q
    funext e
    unfold recordOf
    rw [Field.renderRow_same hclock]
  unfold store
  rw [h]
  simp only [hrecord]

/-- A path keeps its entry, gets a newer one, or loses a tombstone that is no newer. -/
def PathEvolves (seen : Option ℕ) (r r' : Root) (p : RelPath) : Prop :=
  r'.tree.get p = r.tree.get p ∨
    (∃ e, r'.tree.get p = some e ∧ ∀ t ∈ seen, t < e.oclock) ∨
    (r'.tree.get p = none ∧ ∀ t ∈ seen, ∃ e, r.tree.get p = some e ∧ e.live = false ∧ e.oclock ≤ t)

theorem evolves_of_paths {seen : Option ℕ} {r r' : Root} (hclock : Clock.Same r.clock r'.clock)
    (h : ∀ p, PathEvolves seen r r' p) :
    Evolves seen (store P shown fields r) (store P shown fields r') := by
  intro p
  cases hshown : shown p with
  | none =>
    left
    simp only [store, hshown, Option.bind_none]
  | some q =>
    rcases h p with hsame | ⟨e, he, hnewer⟩ | ⟨hgone, hdropped⟩
    · exact .inl (store_congr hclock hsame)
    · refine .inr (.inl ⟨recordOf q fields r'.clock e, ?_, hnewer⟩)
      simp only [store, hshown, he, Option.bind_some, Option.map_some]
    · refine .inr (.inr ⟨?_, fun t ht => ?_⟩)
      · simp only [store, hshown, hgone, Option.bind_some, Option.map_none]
      · obtain ⟨e, he, hdead, hle⟩ := hdropped t ht
        refine ⟨recordOf q fields r.clock e, ?_, if_neg (by simp [hdead]), hle⟩
        simp only [store, hshown, he, Option.bind_some, Option.map_some]

end Store

/-! ## Rows since a tick -/

section Answers

variable {P : Set RelPath} {shown : RelPath → Option RelPath} {fields : List Field}
  {seen : Option ℕ} {env : Env} {r : Root} {rows : List Value}

/-- No two paths of `P` are shown under one name. -/
def ShownApart (P : Set RelPath) (shown : RelPath → Option RelPath) : Prop :=
  ∀ p ∈ P, ∀ p' ∈ P, ∀ q ∈ shown p, ∀ q' ∈ shown p', q.toStringLossy = q'.toStringLossy → p = p'

/-- The rows are those of the shown paths whose entries are newer than `seen`. -/
def RowsSince (shown : RelPath → Option RelPath) (fields : List Field) (seen : Option ℕ)
    (env : Env) (r : Root) (rows : List Value) : Prop :=
  ∀ v, v ∈ rows ↔ ∃ p q e, shown p = some q ∧ r.tree.get p = some e ∧
    (∀ t ∈ seen, t < e.oclock) ∧ v = Field.renderRow env r.path q e fields r.clock

theorem RowsSince.writes (hrows : RowsSince shown fields seen env r rows) (hfields : Telling fields)
    {n : String} {v : Value} (hv : v ∈ rows) {b : Option Value} (hwrites : writes n v = some b) :
    ∃ p q e, shown p = some q ∧ r.tree.get p = some e ∧ (∀ t ∈ seen, t < e.oclock) ∧
      v = Field.renderRow env r.path q e fields r.clock ∧ q.toStringLossy = n := by
  obtain ⟨p, q, e, hshown, he, hnewer, rfl⟩ := (hrows v).mp hv
  unfold Query.writes at hwrites
  rw [reading_renderRow hfields, Option.bind_some] at hwrites
  have hname : q.toStringLossy = n := by
    by_contra hne
    rw [if_neg hne] at hwrites
    cases hwrites
  exact ⟨p, q, e, hshown, he, hnewer, rfl, hname⟩

/-- The rows tell of a shown path what the store holds for it since the tick. -/
theorem RowsSince.learn (hrows : RowsSince shown fields seen env r rows)
    (hwithin : ∀ p, r.tree.get p ≠ none → p ∈ P) (hfields : Telling fields)
    (hapart : ShownApart P shown) (view : View String Value) {p : P} {q : RelPath}
    (hq : shown p = some q) : rows.foldl Query.learn view q.toStringLossy =
      ((store P shown fields r).since seen p).getD (view q.toStringLossy) := by
  have hrow : ∀ v ∈ rows, ∀ b, Query.writes q.toStringLossy v = some b →
      ∃ e, r.tree.get p = some e ∧ (∀ t ∈ seen, t < e.oclock) ∧
        v = Field.renderRow env r.path q e fields r.clock := by
    intro v hv b hwrites
    obtain ⟨p', q', e, hshown, he, hnewer, rfl, hname⟩ := hrows.writes hfields hv hwrites
    have hmem : p' ∈ P := hwithin p' (by rw [he]; exact Option.some_ne_none e)
    obtain rfl := hapart p' hmem p p.2 q' hshown q hq hname
    obtain rfl := Option.some.inj (hshown.symm.trans hq)
    exact ⟨e, he, hnewer, rfl⟩
  rw [foldl_learn_apply]
  congr 1
  unfold Store.since store
  rw [hq, Option.bind_some]
  cases he : r.tree.get p with
  | none =>
    refine lastSome?_eq_none_iff.mpr fun v hv => ?_
    cases hwrites : Query.writes q.toStringLossy v with
    | none => rfl
    | some b =>
      obtain ⟨e, he', -⟩ := hrow v hv b hwrites
      rw [he] at he'
      cases he'
  | some e =>
    rw [Option.map_some, Option.bind_some]
    split_ifs with hnewer
    · have hwrites : Query.writes q.toStringLossy (Field.renderRow env r.path q e fields r.clock) =
          some (recordOf q fields r.clock e).value := by
        unfold Query.writes recordOf
        rw [reading_renderRow hfields, Option.bind_some, if_pos rfl,
          @renderRow_env env emptyEnv r.path [] q e fields _ hfields.hash_not_mem]
      refine lastSome?_of_mem ⟨_, (hrows _).mpr ⟨p, q, e, hq, he, hnewer, rfl⟩, hwrites⟩ ?_
      intro v hv b hb
      obtain ⟨e', he', -, rfl⟩ := hrow v hv b hb
      obtain rfl := Option.some.inj (he.symm.trans he')
      exact Option.some.inj (hb.symm.trans hwrites)
    · refine lastSome?_eq_none_iff.mpr fun v hv => ?_
      cases hwrites : Query.writes q.toStringLossy v with
      | none => rfl
      | some b =>
        obtain ⟨e', he', hnewer', -⟩ := hrow v hv b hwrites
        obtain rfl := Option.some.inj (he.symm.trans he')
        exact absurd hnewer' hnewer

theorem RowsSince.view (hrows : RowsSince shown fields seen env r rows)
    (hwithin : ∀ p, r.tree.get p ≠ none → p ∈ P) (hfields : Telling fields)
    (hapart : ShownApart P shown) (view : View String Value) :
    viewOf P shown (rows.foldl Query.learn view) =
      (viewOf P shown view).apply ((store P shown fields r).since seen) := by
  funext p
  unfold viewOf View.apply
  dsimp only
  cases hq : shown p with
  | none =>
    unfold Store.since store
    rw [hq]
    rfl
  | some q => exact hrows.learn hwithin hfields hapart view hq

theorem RowsSince.named (hrows : RowsSince shown fields seen env r rows)
    (hwithin : ∀ p, r.tree.get p ≠ none → p ∈ P) (hfields : Telling fields)
    {view : View String Value} (hview : Named P shown view) :
    Named P shown (rows.foldl Query.learn view) := by
  intro n hn
  rw [foldl_learn_apply] at hn
  cases hlast : lastSome? (Query.writes n) rows with
  | none =>
    rw [hlast] at hn
    exact hview n hn
  | some b =>
    obtain ⟨v, hv, hwrites⟩ := exists_of_lastSome? hlast
    obtain ⟨p, q, e, hshown, he, -, -, hname⟩ := hrows.writes hfields hv hwrites
    exact ⟨p, hwithin p (by rw [he]; exact Option.some_ne_none e), q, hshown, hname⟩

end Answers

/-! ## Operations on a path -/

theorem get_applyChange_or (jj : Bool) (tick : ℕ) (t : Tree) (c : PathChange) (p : RelPath) :
    (applyChange jj tick t c).get p = t.get p ∨
      (p = c.rel ∧ ∃ e, (applyChange jj tick t c).get p = some e ∧ e.oclock = tick) := by
  by_cases hp : p = c.rel
  · subst hp
    cases hget : (applyChange jj tick t c).get c.rel with
    | some e => exact .inr ⟨rfl, e, rfl, (get_applyChange_rel hget).1⟩
    | none =>
      left
      by_contra hknown
      obtain ⟨e, he, -⟩ := @exists_get_applyChange jj tick t c fun _ => .inr (Ne.symm hknown)
      rw [hget] at he
      cases he
  · exact .inl (get_applyChange_of_ne hp)

theorem get_writeChanges_or (tick : ℕ) (changes : List PathChange) (r : Root) (p : RelPath) :
    (changes.foldl (writeChange tick) r).tree.get p = r.tree.get p ∨
      ((∃ c ∈ changes, c.rel = p) ∧
        ∃ e, (changes.foldl (writeChange tick) r).tree.get p = some e ∧ e.oclock = tick) := by
  induction changes generalizing r with
  | nil => exact .inl rfl
  | cons c changes ih =>
    rw [List.foldl_cons]
    rcases ih (writeChange tick r c) with hsame | ⟨⟨c', hc', hrel⟩, hentry⟩
    · rw [hsame]
      rcases get_applyChange_or r.jjEvents tick r.tree c p with hkept | ⟨hrel, hentry⟩
      · exact .inl hkept
      · exact .inr ⟨⟨c, List.mem_cons_self, hrel.symm⟩, hentry⟩
    · exact .inr ⟨⟨c', List.mem_cons_of_mem _ hc', hrel⟩, hentry⟩

/-- A sweep leaves a path alone or drops an old tombstone. -/
theorem get_pruneTombstones_or {r : Root} (hfull : r.jjEvents = false) (p : RelPath) :
    r.pruneTombstones.1.tree.get p = r.tree.get p ∨
      (r.pruneTombstones.1.tree.get p = none ∧
        ∃ e, r.tree.get p = some e ∧ e.live = false ∧ e.oclock ≤ r.watermark) := by
  rw [pruneTombstones_of_full hfull]
  cases hafter : (r.tree.pruneTombstonesBefore r.watermark).1.get p with
  | some e =>
    left
    rw [(r.tree.get_prune r.watermark).1 hafter]
  | none =>
    cases hget : r.tree.get p with
    | none => exact .inl rfl
    | some e =>
      have hdropped : ¬ Tree.Kept r.watermark e := by
        intro hkept
        rw [(r.tree.get_prune r.watermark).2 hget hkept] at hafter
        cases hafter
      obtain ⟨hdead, hold⟩ := not_or.mp hdropped
      exact .inr ⟨rfl, e, rfl, by simpa using hdead, Nat.not_lt.mp hold⟩

/-- A sweep that spares what is newer than `seen`. -/
theorem pathEvolves_prune {seen : Option ℕ} {r : Root} {p : RelPath} (hfull : r.jjEvents = false)
    (hspares : ∀ t ∈ seen, ∀ e, r.tree.get p = some e → e.live = false → t < e.oclock →
      r.watermark < e.oclock) : PathEvolves seen r r.pruneTombstones.1 p := by
  rcases get_pruneTombstones_or hfull p with hsame | ⟨hgone, e, he, hdead, hold⟩
  · exact .inl hsame
  · refine .inr (.inr ⟨hgone, fun t ht => ⟨e, he, hdead, ?_⟩⟩)
    by_contra hyoung
    exact absurd (hspares t ht e he hdead (Nat.lt_of_not_le hyoung)) (Nat.not_lt.mpr hold)

/-! ## The run as a run of a replica -/

section Simulation

variable {P : Set RelPath} {shown : RelPath → Option RelPath} {fields : List Field} {name : String}
  {o : Observed}

/-- The root as a store, the cursor as the last refresh and the client's beliefs as the replica. -/
def Observed.system (P : Set RelPath) (shown : RelPath → Option RelPath) (fields : List Field)
    (name : String) (o : Observed) : System P Value where
  store := store P shown fields o.root
  seen := o.root.cursors.lookup name
  view := viewOf P shown o.view

/-- The index is full, the cursor is one it reaches back to, and neither the tree nor the client
knows a path outside of `P`. -/
structure Observed.Sane (P : Set RelPath) (shown : RelPath → Option RelPath) (name : String)
    (o : Observed) : Prop where
  full : o.root.jjEvents = false
  ticked : o.root.WellTicked
  cursor : ∀ t ∈ o.root.cursors.lookup name,
    o.root.oldestAvailableTick ≤ t ∧ t ≤ o.root.clock.ticks
  within : ∀ p, o.root.tree.get p ≠ none → p ∈ P
  named : Named P shown o.view

/-- What an operation of the run has to respect. -/
structure Allowable (P : Set RelPath) (shown : RelPath → Option RelPath) (fields : List Field)
    (name : String) (op : RootOp) : Prop where
  changes : ∀ c ∈ op.changes, c.rel ∈ P
  polls : ∀ spec, op = .query spec → spec.since = some (.named name) → Polls name shown fields spec

theorem pathEvolves_batch (hs : o.Sane P shown name) (arenaBytes : ℕ) (changes : List PathChange)
    (p : RelPath) : PathEvolves (o.root.cursors.lookup name) o.root
      (o.root.applyChanges arenaBytes changes).1 p := by
  show PathEvolves _ _ (changes.foldl _ (o.root.openBatch arenaBytes)) p
  rw [openBatch_of_full hs.full]
  rcases get_writeChanges_or o.root.clock.bump.ticks changes o.root.bump p with
    hsame | ⟨-, e, he, htick⟩
  · exact .inl hsame
  · refine .inr (.inl ⟨e, he, fun t ht => ?_⟩)
    rw [htick]
    exact Nat.lt_succ_of_le (hs.cursor t ht).2

theorem pathEvolves_sweep (hs : o.Sane P shown name) (p : RelPath) :
    PathEvolves (o.root.cursors.lookup name) o.root o.root.pruneTombstones.1 p :=
  pathEvolves_prune hs.full fun _ ht _ _ _ hlt => (watermark_le_cursor ht).trans_lt hlt

theorem not_isFresh_of_sane (hs : o.Sane P shown name) {spec : QuerySpec}
    (hsince : spec.since = some (.named name)) : ¬ IsFresh o.root spec := by
  rintro (hnone | ⟨-, hjj⟩ | ⟨t, ht, hlt⟩)
  · rw [sinceTick_named hsince] at hnone
    cases hnone
  · rw [hs.full] at hjj
    cases hjj
  · rw [clockTick_named hsince] at ht
    obtain ⟨hpos, rfl⟩ : 0 < o.root.cursorTick name ∧ o.root.cursorTick name = t := by
      simpa using ht
    cases hcursor : o.root.cursors.lookup name with
    | none => simp [cursorTick, hcursor] at hpos
    | some t =>
      simp only [cursorTick, hcursor, Option.getD_some] at hlt
      have hold := (hs.cursor t hcursor).1
      omega

theorem past_cursor_iff (hs : o.Sane P shown name) {spec : QuerySpec}
    (hsince : spec.since = some (.named name)) {p : RelPath} {e : FileEntry}
    (he : o.root.tree.get p = some e) :
    Past (sinceTick o.root spec) e ↔ ∀ t ∈ o.root.cursors.lookup name, t < e.oclock := by
  rw [sinceTick_named hsince, past_some, cursorTick]
  cases hcursor : o.root.cursors.lookup name with
  | none =>
    have hpos := (hs.ticked.entries p e he).1
    simp only [Option.getD_none, Option.mem_def, reduceCtorEq, false_implies, implies_true,
      iff_true]
    omega
  | some t => simp

theorem rowsSince_of_polls (hs : o.Sane P shown name) {spec : QuerySpec}
    (hpolls : Polls name shown fields spec) (env : Env) :
    (run env spec o.root).1.isFreshInstance = false ∧
      RowsSince shown fields (o.root.cursors.lookup name) env o.root
        (run env spec o.root).1.files := by
  have hfresh := not_isFresh_of_sane hs hpolls.since
  refine ⟨by rw [isFreshInstance_run, decide_eq_false_iff_not]; exact hfresh, fun v => ?_⟩
  rw [files_run, if_neg fun h => hfresh h.1, mem_rows_iff, hpolls.fields]
  constructor
  · rintro ⟨p, e, q, he, hpast, hselect, rfl⟩
    rw [hpolls.byPath] at hselect
    exact ⟨p, q, e, hselect, he, (past_cursor_iff hs hpolls.since he).mp hpast, rfl⟩
  · rintro ⟨p, q, e, hshown, he, hnewer, rfl⟩
    refine ⟨p, e, q, he, (past_cursor_iff hs hpolls.since he).mpr hnewer, ?_, rfl⟩
    rw [hpolls.byPath]
    exact hshown

theorem lookup_run_of_ne {spec : QuerySpec} (hsince : spec.since ≠ some (.named name)) (env : Env)
    (r : Root) : (run env spec r).2.cursors.lookup name = r.cursors.lookup name := by
  unfold run
  simp only
  split
  · rename_i tick other hcursor
    have hne : name ≠ other := by
      rintro rfl
      unfold resolveNamedCursor at hcursor
      split at hcursor
      · rename_i name' hname
        cases hcursor
        exact hsince hname
      · cases hcursor
    show (r.cursors.insert other r.clock.ticks).lookup name = _
    rw [HashMap.lookup_insert_eq, if_neg hne]
  · rfl

theorem sameIndex_run (env : Env) (spec : QuerySpec) (r : Root) :
    SameIndex r (run env spec r).2 ∧ (run env spec r).2.clock = r.clock := by
  rcases root_run env spec r with h | ⟨other, h⟩
  · rw [h]
    exact ⟨.refl r, rfl⟩
  · rw [h]
    exact ⟨.setCursor r other _, rfl⟩

/-- A path that an operation makes known was known before, or the operation changes it. -/
theorem known_exec (hs : o.Sane P shown name) {x : Env × RootOp} {p : RelPath}
    (hp : (o.exec name x).root.tree.get p ≠ none) :
    o.root.tree.get p ≠ none ∨ ∃ c ∈ x.2.changes, c.rel = p := by
  obtain ⟨env, op⟩ := x
  cases op with
  | batch arenaBytes changes =>
    change (changes.foldl _ (o.root.openBatch arenaBytes)).tree.get p ≠ none at hp
    rw [openBatch_of_full hs.full] at hp
    rcases get_writeChanges_or o.root.clock.bump.ticks changes o.root.bump p with
      hsame | ⟨hchanged, -⟩
    · rw [hsame] at hp
      exact .inl hp
    · exact .inr hchanged
  | sweep =>
    obtain ⟨e, he⟩ := Option.ne_none_iff_exists'.mp hp
    change o.root.pruneTombstones.1.tree.get p = some e at he
    rw [pruneTombstones_of_full hs.full] at he
    left
    rw [(o.root.tree.get_prune o.root.watermark).1 he]
    exact Option.some_ne_none e
  | bump => exact .inl hp
  | query spec =>
    change (run env spec o.root).2.tree.get p ≠ none at hp
    rw [tree_run_root] at hp
    exact .inl hp

/-- Each operation keeps the state consistent, if the paths it makes known are in `P`. -/
theorem Observed.Sane.exec (hs : o.Sane P shown name) (hfields : Telling fields)
    {x : Env × RootOp} (hwithin : ∀ p, (o.exec name x).root.tree.get p ≠ none → p ∈ P)
    (hpolls : ∀ spec, x.2 = .query spec → spec.since = some (.named name) →
      Polls name shown fields spec) : (o.exec name x).Sane P shown name := by
  obtain ⟨env, op⟩ := x
  cases op with
  | batch arenaBytes changes =>
    have hroot : (Observed.exec name o (env, .batch arenaBytes changes)).root =
        (o.root.applyChanges arenaBytes changes).1 := rfl
    obtain ⟨tree, htree⟩ := writeChanges_eq o.root.clock.bump.ticks changes o.root.bump
    have hbatch : (o.root.applyChanges arenaBytes changes).1 =
        { o.root.bump with tree := tree } := by
      show changes.foldl _ (o.root.openBatch arenaBytes) = _
      rw [openBatch_of_full hs.full, htree]
    refine ⟨?_, hs.ticked.applyChanges arenaBytes changes, ?_, hwithin, hs.named⟩
    · rw [hroot, hbatch]
      exact hs.full
    · rw [hroot, hbatch]
      exact fun t ht => ⟨(hs.cursor t ht).1, Nat.le_succ_of_le (hs.cursor t ht).2⟩
  | sweep =>
    have hroot : (Observed.exec name o (env, .sweep)).root = o.root.pruneTombstones.1 := rfl
    have hprune := pruneTombstones_of_full hs.full
    refine ⟨?_, hs.ticked.step (@Step.sweep env o.root), ?_, hwithin, hs.named⟩
    · rw [hroot, hprune]
      exact hs.full
    · rw [hroot, hprune]
      exact hs.cursor
  | bump =>
    exact ⟨hs.full, hs.ticked.step (@Step.bump env o.root),
      fun t ht => ⟨(hs.cursor t ht).1, Nat.le_succ_of_le (hs.cursor t ht).2⟩, hwithin, hs.named⟩
  | query spec =>
    have hroot : (Observed.exec name o (env, .query spec)).root = (run env spec o.root).2 := rfl
    obtain ⟨hindex, hclock⟩ := sameIndex_run env spec o.root
    refine ⟨?_, hs.ticked.step (.query spec o.root), ?_, hwithin, ?_⟩
    · rw [hroot, hindex.jjEvents]
      exact hs.full
    · intro t ht
      rw [hroot, hclock, hindex.oldest]
      rw [hroot] at ht
      by_cases hsince : spec.since = some (.named name)
      · rw [root_run_named hsince] at ht
        have hcursor : (o.root.setCursor name o.root.clock.ticks).cursors.lookup name =
            some o.root.clock.ticks := AList.lookup_insert o.root.cursors
        obtain rfl := Option.some.inj (hcursor.symm.trans ht)
        exact ⟨hs.ticked.oldest_le, le_rfl⟩
      · rw [lookup_run_of_ne hsince] at ht
        exact hs.cursor t ht
    · intro n hn
      by_cases hsince : spec.since = some (.named name)
      · obtain ⟨hdelta, hrows⟩ := rowsSince_of_polls hs (hpolls spec rfl hsince) env
        simp only [Observed.exec, if_pos hsince, tell_of_delta hdelta] at hn
        exact hrows.named hs.within hfields hs.named n hn
      · simp only [Observed.exec, if_neg hsince] at hn
        exact hs.named n hn

theorem store_run (env : Env) (spec : QuerySpec) (r : Root) :
    store P shown fields (run env spec r).2 = store P shown fields r := by
  obtain ⟨hindex, -⟩ := sameIndex_run env spec r
  funext p
  refine store_congr hindex.clock ?_
  rw [hindex.tree]

theorem Observed.system_query (hs : o.Sane P shown name) (hfields : Telling fields)
    (hapart : ShownApart P shown) {spec : QuerySpec} (hpolls : Polls name shown fields spec)
    (env : Env) : (o.exec name (env, .query spec)).system P shown fields name =
      ⟨store P shown fields o.root, some o.root.clock.ticks,
        (o.system P shown fields name).view.apply
          ((store P shown fields o.root).since (o.root.cursors.lookup name))⟩ := by
  obtain ⟨hdelta, hrows⟩ := rowsSince_of_polls hs hpolls env
  have hview : viewOf P shown (Observed.exec name o (env, .query spec)).view =
      (o.system P shown fields name).view.apply
        ((store P shown fields o.root).since (o.root.cursors.lookup name)) := by
    simp only [Observed.exec, if_pos hpolls.since, tell_of_delta hdelta]
    exact hrows.view hs.within hfields hapart o.view
  have hcursor : (run env spec o.root).2.cursors.lookup name = some o.root.clock.ticks := by
    rw [root_run_named hpolls.since]
    exact AList.lookup_insert o.root.cursors
  rw [← hview, ← store_run env spec, ← hcursor]
  rfl

/-- Each operation is a step of the replicated store. -/
theorem Observed.system_exec (hs : o.Sane P shown name) (hfields : Telling fields)
    (hapart : ShownApart P shown) {x : Env × RootOp}
    (hpolls : ∀ spec, x.2 = .query spec → spec.since = some (.named name) →
      Polls name shown fields spec) :
    System.Step (o.system P shown fields name) ((o.exec name x).system P shown fields name) := by
  obtain ⟨env, op⟩ := x
  cases op with
  | batch arenaBytes changes =>
    have hclock : (o.root.applyChanges arenaBytes changes).1.clock = o.root.clock.bump :=
      clock_applyChanges arenaBytes changes o.root
    have hcursors := cursors_applyChanges arenaBytes changes o.root
    unfold Observed.system
    show System.Step _ ⟨store P shown fields (o.root.applyChanges arenaBytes changes).1,
      (o.root.applyChanges arenaBytes changes).1.cursors.lookup name, _⟩
    rw [hcursors]
    refine .evolve (evolves_of_paths ?_ (pathEvolves_batch hs arenaBytes changes))
    rw [hclock]
    exact (Clock.Same.refl _).bump
  | sweep =>
    obtain ⟨hcursors, hclock⟩ := cursors_pruneTombstones o.root
    unfold Observed.system
    show System.Step _ ⟨store P shown fields o.root.pruneTombstones.1,
      o.root.pruneTombstones.1.cursors.lookup name, _⟩
    rw [hcursors]
    refine .evolve (evolves_of_paths ?_ (pathEvolves_sweep hs))
    rw [hclock]
    exact .refl _
  | bump => exact .evolve (evolves_of_paths (Clock.Same.refl _).bump fun p => .inl rfl)
  | query spec =>
    obtain ⟨hindex, -⟩ := sameIndex_run env spec o.root
    by_cases hsince : spec.since = some (.named name)
    · rw [Observed.system_query hs hfields hapart (hpolls spec rfl hsince) env]
      exact .refresh _ _ _ _
    · have hsystem : (Observed.exec name o (env, .query spec)).system P shown fields name =
          o.system P shown fields name := by
        unfold Observed.system
        simp only [Observed.exec, if_neg hsince]
        show System.mk (store P shown fields (run env spec o.root).2)
          ((run env spec o.root).2.cursors.lookup name) _ = _
        rw [store_run, lookup_run_of_ne hsince]
      rw [hsystem]
      exact .evolve (.refl _ _)

theorem Observed.system_execAll (hs : o.Sane P shown name) (hfields : Telling fields)
    (hapart : ShownApart P shown) {ops : List (Env × RootOp)}
    (hops : ∀ x ∈ ops, Allowable P shown fields name x.2) :
    (o.execAll name ops).Sane P shown name ∧ Transition.Run System.Step
      (o.system P shown fields name) ((o.execAll name ops).system P shown fields name) := by
  induction ops generalizing o with
  | nil => exact ⟨hs, .refl⟩
  | cons x ops ih =>
    obtain ⟨hx, hops⟩ := List.forall_mem_cons.mp hops
    have hwithin : ∀ p, (o.exec name x).root.tree.get p ≠ none → p ∈ P := by
      intro p hp
      rcases known_exec hs hp with hknown | ⟨c, hc, rfl⟩
      · exact hs.within p hknown
      · exact hx.changes c hc
    obtain ⟨hsane, hrun⟩ := ih (hs.exec hfields hwithin hx.polls) hops
    exact ⟨hsane, .head (Observed.system_exec hs hfields hapart hx.polls) hrun⟩

theorem values_store_iff (hfields : Telling fields) {r : Root} {p : P} {q : RelPath}
    (hq : shown p = some q) (env : Env) (rootPath : List Name) {v : Value} :
    (store P shown fields r).values p = some v ↔ ∃ e, r.tree.get p = some e ∧ e.live = true ∧
      v = Field.renderRow env rootPath q e fields r.clock := by
  unfold Store.values store recordOf
  rw [hq, Option.bind_some]
  cases he : r.tree.get p with
  | none => simp
  | some e =>
    simp only [Option.map_some, Option.bind_some, Option.some.injEq, exists_eq_left']
    rw [@renderRow_env env emptyEnv rootPath [] q e fields r.clock hfields.hash_not_mem]
    by_cases hlive : e.live = true
    · simp [hlive, eq_comm]
    · simp [hlive]

/-- The client believes the rows of the live paths that the query shows, and nothing else. -/
def Observed.KnowsLive (env : Env) (shown : RelPath → Option RelPath) (fields : List Field)
    (o : Observed) : Prop :=
  ∀ n v, o.view n = some v ↔ ∃ p e q, o.root.tree.get p = some e ∧ e.live = true ∧
    shown p = some q ∧ q.toStringLossy = n ∧
    v = Field.renderRow env o.root.path q e fields o.root.clock

/-- A client whose beliefs are the values of the store knows what is live. -/
theorem knowsLive_of_values (hwithin : ∀ p, o.root.tree.get p ≠ none → p ∈ P)
    (hnamed : Named P shown o.view) (hfields : Telling fields)
    (hvalues : viewOf P shown o.view = (store P shown fields o.root).values) (env : Env) :
    o.KnowsLive env shown fields := by
  have hview : ∀ p : P, ∀ q, shown p = some q →
      o.view q.toStringLossy = (store P shown fields o.root).values p := by
    intro p q hq
    have hp : (shown p).bind (fun q => o.view q.toStringLossy) =
        (store P shown fields o.root).values p := congrFun hvalues p
    rw [hq] at hp
    exact hp
  intro n v
  constructor
  · intro hv
    obtain ⟨p, hp, q, hq, rfl⟩ := hnamed n (by rw [hv]; exact Option.some_ne_none v)
    rw [hview ⟨p, hp⟩ q hq, values_store_iff hfields hq env o.root.path] at hv
    obtain ⟨e, he, hlive, rfl⟩ := hv
    exact ⟨p, e, q, he, hlive, hq, rfl, rfl⟩
  · rintro ⟨p, e, q, he, hlive, hq, rfl, rfl⟩
    have hp : p ∈ P := hwithin p (by rw [he]; exact Option.some_ne_none e)
    rw [hview ⟨p, hp⟩ q hq, values_store_iff hfields hq env o.root.path]
    exact ⟨e, he, hlive, rfl⟩

/-- After a poll the client knows what is live. -/
theorem Observed.Sane.knowsLive_poll (hs : o.Sane P shown name) (hfields : Telling fields)
    (hapart : ShownApart P shown) {s₀ : Store P Value}
    (hrun : Transition.Run System.Step ⟨s₀, none, fun _ => none⟩ (o.system P shown fields name))
    {spec : QuerySpec} (hpolls : Polls name shown fields spec) (env : Env) :
    (o.exec name (env, .query spec)).KnowsLive env shown fields := by
  have hwithin : ∀ p, (o.exec name (env, .query spec)).root.tree.get p ≠ none → p ∈ P := by
    intro p hp
    rcases known_exec hs hp with hknown | ⟨c, hc, -⟩
    · exact hs.within p hknown
    · cases hc
  have hsane : (o.exec name (env, .query spec)).Sane P shown name := by
    refine hs.exec hfields hwithin ?_
    rintro spec' ⟨⟩ -
    exact hpolls
  refine knowsLive_of_values hsane.within hsane.named hfields ?_ env
  have hcurrent : ((o.exec name (env, .query spec)).system P shown fields name).Current := by
    rw [Observed.system_query hs hfields hapart hpolls env]
    exact System.current_of_run hrun _
  exact hcurrent

theorem Observed.sane_start {r : Root} (hfull : r.jjEvents = false) (hticked : r.WellTicked)
    (hnew : r.cursors.lookup name = none) (hknown : ∀ p, r.tree.get p ≠ none → p ∈ P) :
    Observed.Sane P shown name ⟨r, fun _ => none⟩ ∧
      Observed.system P shown fields name ⟨r, fun _ => none⟩ =
        ⟨store P shown fields r, none, fun _ => none⟩ := by
  constructor
  · refine ⟨hfull, hticked, ?_, hknown, named_empty⟩
    rw [hnew]
    rintro t ⟨⟩
  · unfold Observed.system
    rw [hnew, viewOf_empty]

end Simulation

/-- **What the answers add up to.** Let a client poll a full-index root through a cursor of its own,
with queries that select by the path alone, and let anything else happen to the root in between. If
the paths of the run are shown under different names, then after each poll the rows the client was
told add up to the live paths that the query shows, with the rows they have at that moment. -/
theorem answers_add_up (env₀ : Env) (r₀ : Root) (hr : Reached env₀ r₀) (hfull : r₀.jjEvents = false)
    (name : String) (hnew : r₀.cursors.lookup name = none) (shown : RelPath → Option RelPath)
    (fields : List Field) (hfields : Telling fields) (P : Set RelPath) (hapart : ShownApart P shown)
    (hknown : ∀ p, r₀.tree.get p ≠ none → p ∈ P) (ops : List (Env × RootOp))
    (hops : ∀ x ∈ ops, Allowable P shown fields name x.2) (env : Env) (spec : QuerySpec)
    (hpolls : Polls name shown fields spec) :
    (Observed.execAll name ⟨r₀, fun _ => none⟩ (ops ++ [(env, .query spec)])).KnowsLive
      env shown fields := by
  obtain ⟨hstart, hempty⟩ :=
    @Observed.sane_start P shown fields name r₀ hfull hr.wellTicked hnew hknown
  obtain ⟨hsane, hrun⟩ := Observed.system_execAll hstart hfields hapart hops
  rw [hempty] at hrun
  rw [Observed.execAll, List.foldl_append]
  exact hsane.knowsLive_poll hfields hapart hrun hpolls env

/-! ## Paths that are texts -/

/-- The names of the path are texts without a slash. -/
def IsText (p : RelPath) : Prop := ∀ n ∈ p, n ≠ [] ∧ 0x2F ∉ n ∧ ∃ s, n = Utf8.bytesOf s

theorem IsText.bytes_eq {p : RelPath} (h : IsText p) : ∃ s, p.bytes = Utf8.bytesOf s := by
  have hnames : ∃ l : List String, p = l.map Utf8.bytesOf := by
    induction p with
    | nil => exact ⟨[], rfl⟩
    | cons n p ih =>
      obtain ⟨⟨-, -, s, rfl⟩, hp⟩ := List.forall_mem_cons.mp h
      obtain ⟨l, rfl⟩ := ih hp
      exact ⟨s :: l, rfl⟩
  obtain ⟨l, rfl⟩ := hnames
  refine ⟨"/".intercalate l, ?_⟩
  rw [Utf8.bytesOf_intercalate]
  rfl

theorem IsText.eq_of_toStringLossy {p q : RelPath} (hp : IsText p) (hq : IsText q)
    (h : p.toStringLossy = q.toStringLossy) : p = q := by
  obtain ⟨s, hs⟩ := hp.bytes_eq
  obtain ⟨t, ht⟩ := hq.bytes_eq
  unfold RelPath.toStringLossy at h
  rw [hs, ht, Utf8.lossy_bytesOf, Utf8.lossy_bytesOf] at h
  have hbytes : p.bytes = q.bytes := by rw [hs, ht, h]
  exact Joined.intercalate_inj (fun n hn => ⟨(hp n hn).1, (hp n hn).2.1⟩)
    (fun n hn => ⟨(hq n hn).1, (hq n hn).2.1⟩) hbytes

/-- A query shows such paths apart, below a relative root too. -/
theorem shownApart_of_isText (spec : QuerySpec) : ShownApart {p | IsText p} (shownBy spec) := by
  have hdisplay : ∀ {p q : RelPath}, shownBy spec p = some q → displayRel spec p = some q := by
    intro p q h
    unfold shownBy at h
    split_ifs at h
    obtain ⟨shown, hshown, hq⟩ := Option.bind_eq_some_iff.mp h
    split_ifs at hq
    rw [hshown, hq]
  intro p hp p' hp' q hq q' hq' hname
  have hq := hdisplay hq
  have hq' := hdisplay hq'
  unfold displayRel at hq hq'
  cases hbase : spec.relativeRoot with
  | none =>
    rw [hbase] at hq hq'
    obtain rfl := Option.some.inj hq
    obtain rfl := Option.some.inj hq'
    exact IsText.eq_of_toStringLossy hp hp' hname
  | some base =>
    rw [hbase] at hq hq'
    obtain ⟨b, rfl, rfl⟩ := RelPath.stripPrefix_eq_some_iff.mp hq
    obtain ⟨b', hb, rfl⟩ := RelPath.stripPrefix_eq_some_iff.mp hq'
    obtain rfl : b = b' := List.map_injective_iff.mpr (fun _ _ => Component.normal.inj) hb
    have hqq' : q = q' := IsText.eq_of_toStringLossy
      (fun n hn => hp n (List.mem_append_right b hn))
      (fun n hn => hp' n (List.mem_append_right b hn)) hname
    rw [hqq']

theorem isText_letter {b : UInt8} (htext : ∃ s, [b] = Utf8.bytesOf s) (hslash : b ≠ 0x2F) :
    IsText [[b]] := by
  intro n hn
  rw [List.mem_singleton.mp hn]
  exact ⟨List.cons_ne_nil b [], by simpa using Ne.symm hslash, htext⟩

/-- The file `a` is all a root knows after a crawl that found nothing else. -/
theorem isText_of_seed {r : Root} {md : Metadata} {target : Option String} {p : RelPath}
    (h : (r.seed [([[0x61]], md, target)]).tree.get p ≠ none) : IsText p := by
  have hget := Tree.get_upsert Tree.new [[0x61]] md target r.clock.bump.ticks false
    r.clock.bump.ticks p
  have hpath : p = [[0x61]] := by
    by_contra hne
    rw [if_neg hne] at hget
    exact h hget
  rw [hpath]
  exact isText_letter ⟨"a", by decide⟩ (by decide)

/-- A poll, and then one file takes the place of the other. -/
def replaced : List (Env × RootOp) :=
  [(emptyEnv, .query sinceCursor),
    (emptyEnv, .batch 0 [.remove [[0x61]], .upsert [[0x62]] someFile none]), (emptyEnv, .sweep)]

theorem polls_sinceCursor :
    Polls "x" (shownBy sinceCursor) Field.defaultFields sinceCursor :=
  ⟨rfl, selectsByPath_of_pathOnly (fun _ => resolveScmSet_named rfl) rfl rfl, rfl⟩

theorem answers_add_up_replaced :
    (Observed.execAll "x" ⟨oneFile, fun _ => none⟩
      (replaced ++ [(emptyEnv, .query sinceCursor)])).KnowsLive emptyEnv (shownBy sinceCursor)
        Field.defaultFields := by
  refine answers_add_up emptyEnv oneFile reached_oneFile rfl "x" rfl (shownBy sinceCursor)
    Field.defaultFields ⟨by decide, by decide, by decide⟩ {p | IsText p}
    (shownApart_of_isText sinceCursor) (fun p hp => isText_of_seed hp) replaced ?_ emptyEnv
    sinceCursor polls_sinceCursor
  intro x hx
  simp only [replaced, List.mem_cons, List.not_mem_nil, or_false] at hx
  rcases hx with rfl | rfl | rfl
  · refine ⟨fun c hc => absurd hc List.not_mem_nil, ?_⟩
    rintro spec ⟨⟩ -
    exact polls_sinceCursor
  · refine ⟨?_, by rintro spec ⟨⟩⟩
    intro c hc
    simp only [RootOp.changes, List.mem_cons, List.not_mem_nil, or_false] at hc
    rcases hc with rfl | rfl
    · exact isText_letter ⟨"a", by decide⟩ (by decide)
    · exact isText_letter ⟨"b", by decide⟩ (by decide)
  · exact ⟨fun c hc => absurd hc List.not_mem_nil, by rintro spec ⟨⟩⟩

end Query

end Watchwoman
