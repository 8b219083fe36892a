import Watchwoman.Query.Freshness
import Watchwoman.Query.Parse

/-!
# Queries below a subdirectory

`relative_root` narrows a query to a subdirectory and strips it from the names of the answer. The
stripped path is handed to the generators, the expression and the fields in place of the path of the
entry: the hash of a file's contents is then looked up at the stripped path
(`relative_root_renames_iff`), and a set of changed paths is asked for either of the two
(`scm_rows_iff`).
-/

namespace Watchwoman

/-! ## The fields of a row -/

namespace Field

/-- What a row says of a field. A row that is a bare text is the name. -/
def read (f : Field) : Value → Option Value
  | .object o => o.lookup f.wireName
  | v => if f = .name then some v else none

theorem wireName_injective : Function.Injective wireName := by
  intro f g h
  exact Option.some.inj (((parse_eq_some_iff _ f).mpr rfl).symm.trans ((parse_eq_some_iff _ g).mpr h))

/-- A row has the value of every field that was asked for. -/
theorem read_renderRow {env : Env} {rootPath : List Name} {rel : RelPath} {entry : FileEntry}
    {fields : List Field} {clock : Clock} {f : Field} (hf : f ∈ fields) :
    f.read (renderRow env rootPath rel entry fields clock) =
      some (f.value env rootPath rel entry clock) := by
  unfold renderRow
  split_ifs with hname
  · rw [hname] at hf
    rw [List.mem_singleton.mp hf]
    rfl
  · have hextend : fields.foldl
        (fun o f => Bser.indexInsert f.wireName (f.value env rootPath rel entry clock) o) [] =
        IndexMap.extend [] (fields.map fun f =>
          (f.wireName, f.value env rootPath rel entry clock)) := by
      rw [IndexMap.extend, List.foldl_map]
      simp only [Bser.indexInsert_eq]
    show List.lookup f.wireName _ = _
    rw [hextend]
    have hmem : (f.wireName, f.value env rootPath rel entry clock) ∈
        fields.map fun f => (f.wireName, f.value env rootPath rel entry clock) :=
      List.mem_map.mpr ⟨f, hf, rfl⟩
    refine IndexMap.lookup_extend_of_mem hmem ?_ []
    intro e he hkey
    obtain ⟨g, -, rfl⟩ := List.mem_map.mp he
    rw [wireName_injective hkey]

theorem value_congr {env : Env} {rootPath : List Name} {rel rel' : RelPath} {entry : FileEntry}
    {clock : Clock} {f : Field} (hname : f ≠ .name)
    (hhash : f = .contentSha1Hex → env.sha1Of (rootPath ++ rel) = env.sha1Of (rootPath ++ rel')) :
    f.value env rootPath rel entry clock = f.value env rootPath rel' entry clock := by
  cases f with
  | name => exact absurd rfl hname
  | contentSha1Hex => exact hhash rfl
  | _ => rfl

end Field

namespace Query

variable {env : Env} {r : Root} {spec : QuerySpec} {p q : RelPath} {e : FileEntry}

/-! ## The rows of an answer -/

/-- The row the answer has for an entry, if it has one. -/
def answerRow (env : Env) (r : Root) (spec : QuerySpec) (rel : RelPath) (entry : FileEntry) :
    Option Value :=
  if IsFresh r spec ∧ spec.emptyOnFreshInstance = true then none
  else if Past (sinceTick r spec) entry then row env r spec rel entry
  else none

theorem files_eq_filterMap (env : Env) (r : Root) (spec : QuerySpec) :
    (run env spec r).1.files =
      r.tree.entries.entries.filterMap fun x => answerRow env r spec x.1 x.2 := by
  rw [files_run]
  unfold answerRow rows
  split_ifs
  · exact List.filterMap_none _ |>.symm
  · rfl

/-- The entry at `p`, shown as `q`, passes every test of the row loop but the one for the set of
changed paths. -/
structure Passes (r : Root) (spec : QuerySpec) (p : RelPath) (e : FileEntry) (q : RelPath) :
    Prop where
  answered : ¬ (IsFresh r spec ∧ spec.emptyOnFreshInstance = true)
  past : Past (sinceTick r spec) e
  notCookie : ¬ IsCookie p
  kind : ¬ (spec.alwaysIncludeDirectories = false ∧ e.kind = .dir)
  below : displayRel spec p = some q
  generated : spec.generators.accept q = true
  matched : spec.expression.eval e ⟨r.clock, q, spec.caseSensitive⟩ = true

/-- The set of changed paths, if there is one, has one of the two. -/
def Allowed (env : Env) (spec : QuerySpec) (p q : RelPath) : Prop :=
  ∀ set ∈ resolveScmSet env spec, p ∈ set ∨ q ∈ set

theorem select_eq_some_iff :
    select env r spec p e = some q ↔ ¬ IsCookie p ∧
      ¬ (spec.alwaysIncludeDirectories = false ∧ e.kind = .dir) ∧ displayRel spec p = some q ∧
      spec.generators.accept q = true ∧ Allowed env spec p q ∧
      spec.expression.eval e ⟨r.clock, q, spec.caseSensitive⟩ = true := by
  unfold select
  split_ifs with hcookie hdir
  · simp [hcookie]
  · simp [hdir]
  · cases displayRel spec p with
    | none => simp
    | some shown =>
      unfold Allowed
      simp only [Option.bind_eq_bind, Option.bind_some, Option.ite_none_right_eq_some,
        Bool.and_eq_true, Option.some_inj]
      cases resolveScmSet env spec with
      | none =>
        constructor
        · rintro ⟨⟨⟨haccept, -⟩, heval⟩, rfl⟩
          exact ⟨hcookie, hdir, rfl, haccept, by simp, heval⟩
        · rintro ⟨-, -, rfl, haccept, -, heval⟩
          exact ⟨⟨⟨haccept, rfl⟩, heval⟩, rfl⟩
      | some set =>
        have hmem : (set.contains p || set.contains shown) = true ↔ p ∈ set ∨ shown ∈ set := by
          simp
        constructor
        · rintro ⟨⟨⟨haccept, hset⟩, heval⟩, rfl⟩
          refine ⟨hcookie, hdir, rfl, haccept, fun set' hset' => ?_, heval⟩
          obtain rfl := Option.some.inj hset'
          exact hmem.mp hset
        · rintro ⟨-, -, rfl, haccept, hset, heval⟩
          exact ⟨⟨⟨haccept, hmem.mpr (hset set rfl)⟩, heval⟩, rfl⟩

theorem answerRow_eq_some_iff {v : Value} :
    answerRow env r spec p e = some v ↔ ∃ q, Passes r spec p e q ∧ Allowed env spec p q ∧
      v = Field.renderRow env r.path q e spec.fields r.clock := by
  unfold answerRow row
  constructor
  · intro h
    split_ifs at h with hempty hpast
    obtain ⟨q, hselect, rfl⟩ := Option.map_eq_some_iff.mp h
    obtain ⟨hcookie, hdir, hbelow, haccept, hallowed, heval⟩ := select_eq_some_iff.mp hselect
    exact ⟨q, ⟨hempty, hpast, hcookie, hdir, hbelow, haccept, heval⟩, hallowed, rfl⟩
  · rintro ⟨q, ⟨hempty, hpast, hcookie, hdir, hbelow, haccept, heval⟩, hallowed, rfl⟩
    rw [if_neg hempty, if_pos hpast,
      select_eq_some_iff.mpr ⟨hcookie, hdir, hbelow, haccept, hallowed, heval⟩]
    rfl

/-! ## Renaming -/

/-- The clock is on the axis of the ticks: neither a cursor nor a revision. -/
def OnTickAxis : Option ClockSpec → Prop
  | some (.named _) => False
  | some (.scm _ _) => False
  | _ => True

/-- A query with neither an expression nor generators. -/
structure Plain (spec : QuerySpec) : Prop where
  expression : spec.expression = .true
  generators : spec.generators = {}
  since : OnTickAxis spec.since

def atRoot (spec : QuerySpec) : QuerySpec := { spec with relativeRoot := none }

/-- Each row for an entry shown as `q` has what the row of the whole root has for that entry in every
field but the name, and the name `q`. -/
def RenamesOnly (env : Env) (r : Root) (spec : QuerySpec) : Prop :=
  ∀ p e q v, r.tree.get p = some e → displayRel spec p = some q →
    answerRow env r spec p e = some v →
    ∃ v', answerRow env r (atRoot spec) p e = some v' ∧
      (∀ f ∈ spec.fields, f ≠ .name → ∃ x, f.read v = some x ∧ f.read v' = some x) ∧
      (.name ∈ spec.fields → Field.name.read v = some (.string q.toStringLossy))

theorem Plain.allowed (h : Plain spec) (p q : RelPath) : Allowed env spec p q := by
  intro set hset
  have hsince := h.since
  unfold resolveScmSet at hset
  split at hset
  · rename_i hscm
    rw [hscm] at hsince
    exact hsince.elim
  · cases hset

theorem Plain.passes_atRoot (h : Plain spec) (hpass : Passes r spec p e q) :
    Passes r (atRoot spec) p e p where
  answered := hpass.answered
  past := hpass.past
  notCookie := hpass.notCookie
  kind := hpass.kind
  below := rfl
  generated := by
    show spec.generators.accept p = true
    rw [h.generators]
    rfl
  matched := by
    show spec.expression.eval e _ = true
    rw [h.expression]
    rfl

theorem Plain.answerRow_eq (h : Plain spec) (hpass : Passes r spec p e q) :
    answerRow env r spec p e = some (Field.renderRow env r.path q e spec.fields r.clock) ∧
    answerRow env r (atRoot spec) p e =
      some (Field.renderRow env r.path p e spec.fields r.clock) := by
  have hroot : Plain (atRoot spec) := ⟨h.expression, h.generators, h.since⟩
  exact ⟨answerRow_eq_some_iff.mpr ⟨q, hpass, h.allowed p q, rfl⟩,
    answerRow_eq_some_iff.mpr ⟨p, h.passes_atRoot hpass, hroot.allowed p p, rfl⟩⟩

theorem eq_of_displayRel (hbase : spec.relativeRoot.getD [] = []) (h : displayRel spec p = some q) :
    q = p := by
  unfold displayRel at h
  cases hroot : spec.relativeRoot with
  | none =>
    rw [hroot] at h
    exact (Option.some.inj h).symm
  | some base =>
    rw [hroot] at h hbase
    obtain ⟨b, hb, rfl⟩ := RelPath.stripPrefix_eq_some_iff.mp h
    have hnil : b.map Component.normal = [] := hb.symm.trans hbase
    rw [List.map_eq_nil_iff.mp hnil, List.nil_append]

theorem ne_of_displayRel (hbase : spec.relativeRoot.getD [] ≠ []) (h : displayRel spec p = some q) :
    q ≠ p := by
  unfold displayRel at h
  cases hroot : spec.relativeRoot with
  | none =>
    rw [hroot] at hbase
    exact absurd rfl hbase
  | some base =>
    rw [hroot] at h hbase
    obtain ⟨b, rfl, rfl⟩ := RelPath.stripPrefix_eq_some_iff.mp h
    intro heq
    have hlen := congrArg List.length heq
    rw [List.length_append] at hlen
    have hb : b = [] := List.eq_nil_of_length_eq_zero (by omega)
    exact hbase (by rw [hb]; rfl)

/-- **Relative roots.** For every content of the files, the rows below `relative_root` are those of
the whole root under other names, exactly if no hash was asked for, or `relative_root` has no
components, or nothing below it is listed. -/
theorem relative_root_renames_iff (r : Root) (spec : QuerySpec) (hplain : Plain spec)
    (changedPaths : ScmVcs → String → Option (List RelPath)) :
    (∀ sha1Of, RenamesOnly ⟨sha1Of, changedPaths⟩ r spec) ↔
      .contentSha1Hex ∉ spec.fields ∨ spec.relativeRoot.getD [] = [] ∨
        ∀ p e q, r.tree.get p = some e → ¬ Passes r spec p e q := by
  constructor
  · intro h
    by_contra hcond
    push Not at hcond
    obtain ⟨hhash, hbase, p, e, q, he, hpass⟩ := hcond
    -- contents that tell the file of the entry from every other
    let env : Env := ⟨fun path => .bool (decide (path = r.path ++ p)), changedPaths⟩
    obtain ⟨hrow, hrow'⟩ := @Plain.answerRow_eq env _ _ _ _ _ hplain hpass
    obtain ⟨v', hv', hfields, -⟩ := h _ p e q _ he hpass.below hrow
    obtain rfl := Option.some.inj (hv'.symm.trans hrow')
    obtain ⟨x, hx, hx'⟩ := hfields .contentSha1Hex hhash (by decide)
    rw [Field.read_renderRow hhash] at hx hx'
    have hsame := Option.some.inj (hx.trans hx'.symm)
    simp only [Field.value, env, List.append_cancel_left_eq, decide_true, Value.bool.injEq,
      decide_eq_true_eq] at hsame
    exact ne_of_displayRel hbase hpass.below hsame
  · intro h sha1Of p e q v he hshown hv
    obtain ⟨q', hpass, -, rfl⟩ := answerRow_eq_some_iff.mp hv
    obtain rfl := Option.some.inj (hpass.below.symm.trans hshown)
    refine ⟨_, (hplain.answerRow_eq hpass).2, fun f hf hname => ?_, fun hf => ?_⟩
    · refine ⟨_, Field.read_renderRow hf, ?_⟩
      rw [Field.read_renderRow hf, Option.some_inj]
      refine Field.value_congr hname fun hhash => ?_
      rcases h with hno | hbase | hnone
      · exact absurd (hhash ▸ hf) hno
      · rw [eq_of_displayRel hbase hshown]
      · exact absurd hpass (hnone p e _ he)
    · exact Field.read_renderRow hf

/-- A full-index root with the files `x` and `a/x`. -/
def twoFiles : Root :=
  (Root.new [] .default false 1 1700000000 42).seed [([[0x78]], someFile, none),
    ([[0x61], [0x78]], someFile, none)]

/-- The names and hashes below `a`. -/
def hashesBelowA : QuerySpec :=
  { everything with fields := [.name, .contentSha1Hex], relativeRoot := some [.normal [0x61]] }

theorem plain_hashesBelowA : Plain hashesBelowA := ⟨rfl, rfl, trivial⟩

/-- The hash of a file is the number of names in its path. -/
def depthEnv : Env := ⟨fun path => .int (Int64.ofNat path.length), fun _ _ => none⟩

theorem relative_root_renames_iff_twoFiles :
    Plain hashesBelowA ∧
    ((∀ sha1Of, RenamesOnly ⟨sha1Of, fun _ _ => none⟩ twoFiles hashesBelowA) ↔
      .contentSha1Hex ∉ hashesBelowA.fields ∨ hashesBelowA.relativeRoot.getD [] = [] ∨
        ∀ p e q, twoFiles.tree.get p = some e → ¬ Passes twoFiles hashesBelowA p e q) :=
  ⟨plain_hashesBelowA,
    relative_root_renames_iff twoFiles hashesBelowA plain_hashesBelowA fun _ _ => none⟩

/-- The row of `a/x` below `a` has the hash of `x`. -/
theorem hash_below_a_of_other_file :
    Plain hashesBelowA ∧ ¬ RenamesOnly depthEnv twoFiles hashesBelowA := by
  refine ⟨plain_hashesBelowA, fun h => ?_⟩
  obtain ⟨v', hv', hfields, -⟩ := h [[0x61], [0x78]] _ [[0x78]] _ rfl rfl rfl
  obtain ⟨x, hx, hx'⟩ := hfields .contentSha1Hex (by decide) (by decide)
  obtain rfl := Option.some.inj hv'
  have hshown : x = .int 1 := (Option.some.inj hx).symm
  have hroot : x = .int 2 := (Option.some.inj hx').symm
  exact absurd (Value.int.inj (hshown.symm.trans hroot)) (by decide)

/-! ## Changed paths -/

/-- The answer has a row for an entry only if its path is in the set, and has one for every entry
whose path is in the set and that passes the other tests. -/
structure ScmExact (env : Env) (r : Root) (spec : QuerySpec) (set : List RelPath) : Prop where
  sound : ∀ p e, r.tree.get p = some e → answerRow env r spec p e ≠ none → p ∈ set
  complete : ∀ p e q, r.tree.get p = some e → Passes r spec p e q → p ∈ set →
    Field.renderRow env r.path q e spec.fields r.clock ∈ (run env spec r).1.files

/-- **Changed paths.** A query since a revision lists the entries the version control system
reported and no others, exactly if no entry that passes the other tests has its stripped path in the
set but not its own. -/
theorem scm_rows_iff (env : Env) (r : Root) (spec : QuerySpec) (vcs : ScmVcs) (mergebase : String)
    (set : List RelPath) (hsince : spec.since = some (.scm vcs mergebase))
    (hset : env.changedPaths vcs mergebase = some set) :
    ScmExact env r spec set ↔
      ∀ p e q, r.tree.get p = some e → Passes r spec p e q → q ∈ set → p ∈ set := by
  have hallowed : ∀ p q, Allowed env spec p q ↔ p ∈ set ∨ q ∈ set := by
    intro p q
    unfold Allowed resolveScmSet
    rw [hsince]
    simp [hset]
  have hrow : ∀ p e q, Passes r spec p e q → p ∈ set ∨ q ∈ set →
      answerRow env r spec p e = some (Field.renderRow env r.path q e spec.fields r.clock) :=
    fun p e q hpass hmem => answerRow_eq_some_iff.mpr ⟨q, hpass, (hallowed p q).mpr hmem, rfl⟩
  constructor
  · intro h p e q he hpass hq
    refine h.sound p e he ?_
    rw [hrow p e q hpass (.inr hq)]
    exact Option.some_ne_none _
  · intro h
    refine ⟨fun p e he hlisted => ?_, fun p e q he hpass hp => ?_⟩
    · obtain ⟨v, hv⟩ := Option.ne_none_iff_exists'.mp hlisted
      obtain ⟨q, hpass, hmem, -⟩ := answerRow_eq_some_iff.mp hv
      rcases (hallowed p q).mp hmem with hp | hq
      · exact hp
      · exact h p e q he hpass hq
    · rw [files_eq_filterMap]
      exact List.mem_filterMap.mpr
        ⟨⟨p, e⟩, Tree.mem_entries_iff.mpr he, hrow p e q hpass (.inl hp)⟩

/-- Version control that has seen `x` change. -/
def changedX : Env := ⟨fun _ => .null, fun _ _ => some [[[0x78]]]⟩

def sinceHead : QuerySpec :=
  { everything with fields := [.name], since := some (ClockSpec.parse "scm:git:HEAD") }

theorem scm_rows_iff_sinceHead :
    sinceHead.since = some (.scm .git "HEAD") ∧ changedX.changedPaths .git "HEAD" = some [[[0x78]]] ∧
    (ScmExact changedX twoFiles sinceHead [[[0x78]]] ↔
      ∀ p e q, twoFiles.tree.get p = some e → Passes twoFiles sinceHead p e q → q ∈ [[[0x78]]] →
        p ∈ [[[0x78]]]) :=
  have hsince : sinceHead.since = some (.scm .git "HEAD") := by decide
  ⟨hsince, rfl, scm_rows_iff changedX twoFiles sinceHead .git "HEAD" _ hsince rfl⟩

/-- The names below `a` that have changed since the last commit. -/
def sinceHeadBelowA : QuerySpec := { sinceHead with relativeRoot := some [.normal [0x61]] }

/-- Below `a`, the file `a/x` is listed because `x` has changed. -/
theorem unchanged_file_listed :
    sinceHeadBelowA.since = some (.scm .git "HEAD") ∧
    changedX.changedPaths .git "HEAD" = some [[[0x78]]] ∧
    ¬ ScmExact changedX twoFiles sinceHeadBelowA [[[0x78]]] := by
  refine ⟨by decide, rfl, fun h => ?_⟩
  have hlisted : ∃ e, twoFiles.tree.get [[0x61], [0x78]] = some e ∧
      answerRow changedX twoFiles sinceHeadBelowA [[0x61], [0x78]] e ≠ none :=
    ⟨_, rfl, Option.some_ne_none _⟩
  obtain ⟨e, he, hrow⟩ := hlisted
  exact absurd (h.sound _ e he hrow) (by decide)

end Query

end Watchwoman
