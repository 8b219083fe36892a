import Watchwoman.Daemon.RootRuns

/-!
# Fresh answers

When an answer is fresh the client forgets what it knew, so it has to be the live set. The since
tick never drops an entry from a fresh answer, by the bookkeeping of ticks; tombstones are not left
out of it, so it is the live set exactly when no tombstone passes the filters
(`fresh_rows_perm_iff`).

A clock of another instance compares as tick zero. In a full index that alone does not make the
answer fresh (`foreign_clock_fresh_iff`).
-/

namespace Watchwoman.Query

open Root

variable {env : Env} {r : Root} {spec : QuerySpec}

@[simp] theorem isFreshInstance_run :
    (run env spec r).1.isFreshInstance = decide (IsFresh r spec) := by
  unfold run
  simp only
  split <;> rfl

theorem files_run : (run env spec r).1.files =
    if IsFresh r spec ∧ spec.emptyOnFreshInstance = true then [] else rows env r spec := by
  unfold run
  simp only
  split <;> rfl

/-- The clock string of a response given in this state. -/
def responseClock (r : Root) : String := r.clock.encode r.clock.ticks

theorem clock_run (env : Env) (spec : QuerySpec) (r : Root) :
    (run env spec r).1.clock = responseClock r := by
  unfold run
  simp only
  split <;> rfl

theorem root_run (env : Env) (spec : QuerySpec) (r : Root) :
    (run env spec r).2 = r ∨ ∃ name, (run env spec r).2 = r.setCursor name r.clock.ticks := by
  unfold run
  simp only
  split
  · exact .inr ⟨_, rfl⟩
  · exact .inl rfl

theorem tree_run_root (env : Env) (spec : QuerySpec) (r : Root) :
    (run env spec r).2.tree = r.tree := by
  rcases root_run env spec r with h | ⟨name, h⟩ <;> rw [h]
  rfl

theorem mem_files {p shown : RelPath} {e : FileEntry} (hfresh : ¬ IsFresh r spec)
    (he : r.tree.get p = some e) (hpast : Past (sinceTick r spec) e)
    (hselect : select env r spec p e = some shown) :
    Field.renderRow env r.path shown e spec.fields r.clock ∈ (run env spec r).1.files := by
  rw [files_run, if_neg (fun h => hfresh h.1)]
  refine List.mem_filterMap.mpr ⟨⟨p, e⟩, Tree.mem_entries_iff.mpr he, ?_⟩
  rw [if_pos hpast, row, hselect]
  rfl

/-! ## The since tick of a fresh answer -/

theorem sinceTick_of_clockTick {t : ℕ} (h : clockTick r spec = some t) :
    sinceTick r spec = some t := by
  unfold clockTick at h
  unfold sinceTick
  split at h
  · rename_i tick name _ hcursor
    split_ifs at h
    rw [hcursor]
    simpa using h
  · rename_i n hcursor hsince
    rw [hcursor, hsince]
    simpa using h
  · rename_i a b c d hcursor hsince
    rw [hcursor, hsince]
    simpa using h
  · cases h

theorem past_of_isFresh (hr : r.WellTicked) (hfresh : IsFresh r spec) {p : RelPath} {e : FileEntry}
    (he : r.tree.get p = some e) : Past (sinceTick r spec) e := by
  have hticks := hr.entries p e he
  rcases hfresh with hnone | ⟨hzero, -⟩ | ⟨t, ht, hlt⟩
  · intro t ht
    rw [hnone] at ht
    cases ht
  · intro t ht
    rw [hzero] at ht
    cases ht
    omega
  · intro t' ht'
    rw [sinceTick_of_clockTick (Option.mem_def.mp ht)] at ht'
    cases ht'
    omega

theorem rows_eq_of_isFresh (hr : r.WellTicked) (hfresh : IsFresh r spec) :
    rows env r spec = r.tree.entries.entries.filterMap fun e => row env r spec e.1 e.2 := by
  unfold rows
  refine List.filterMap_congr fun e he => ?_
  rw [if_pos (past_of_isFresh hr hfresh (Tree.mem_entries_iff.mp he))]

/-! ## Tombstones in a fresh answer -/

/-- One row for each live entry that passes the filters. -/
def liveRows (env : Env) (r : Root) (spec : QuerySpec) : List Value :=
  r.tree.entries.entries.filterMap fun e => if e.2.live then row env r spec e.1 e.2 else none

/-- Two selections of a list, the second a part of the first, are as long only if the first takes
nothing the second leaves. -/
theorem length_filterMap_eq_iff {α β : Type} {f g : α → Option β} {l : List α}
    (h : ∀ a ∈ l, g a = f a ∨ g a = none) :
    (l.filterMap f).length = (l.filterMap g).length ↔ ∀ a ∈ l, g a = none → f a = none := by
  have hle : ∀ {l : List α}, (∀ a ∈ l, g a = f a ∨ g a = none) →
      (l.filterMap g).length ≤ (l.filterMap f).length := by
    intro l hl
    induction l with
    | nil => exact le_rfl
    | cons a l ih =>
      obtain ⟨ha, hl⟩ := List.forall_mem_cons.mp hl
      have hrest := ih hl
      rcases ha with ha | ha
      · rw [List.filterMap_cons, List.filterMap_cons, ha]
        cases f a with
        | none => exact hrest
        | some b => exact Nat.succ_le_succ hrest
      · rw [List.filterMap_cons_none ha, List.filterMap_cons]
        cases f a with
        | none => exact hrest
        | some b => exact Nat.le_succ_of_le hrest
  induction l with
  | nil => simp
  | cons a l ih =>
    obtain ⟨ha, hl⟩ := List.forall_mem_cons.mp h
    have hrest := ih hl
    have hlen := hle hl
    rw [List.forall_mem_cons]
    cases hf : f a with
    | none =>
      have hg : g a = none := by
        rcases ha with ha | ha
        · rw [ha, hf]
        · exact ha
      rw [List.filterMap_cons_none hf, List.filterMap_cons_none hg]
      exact hrest.trans (by simp)
    | some b =>
      rcases ha with ha | ha
      · rw [List.filterMap_cons_some hf, List.filterMap_cons_some (ha.trans hf), List.length_cons,
          List.length_cons, Nat.add_right_cancel_iff]
        exact hrest.trans (by simp [ha, hf])
      · rw [List.filterMap_cons_some hf, List.filterMap_cons_none ha, List.length_cons]
        simp only [ha, true_implies, reduceCtorEq, false_and, iff_false]
        omega

theorem row_eq_none_iff {p : RelPath} {e : FileEntry} :
    row env r spec p e = none ↔ select env r spec p e = none := by
  unfold row
  rw [Option.map_eq_none_iff]

/-- **Fresh answers.** In every state of a root, a fresh answer that is not suppressed lists one row
for each live entry that passes the filters, and no other, exactly when no tombstone of the tree
passes them. -/
theorem fresh_rows_perm_iff (env : Env) (r : Root) (hr : Reached env r) (spec : QuerySpec)
    (hempty : spec.emptyOnFreshInstance = false)
    (hfresh : (run env spec r).1.isFreshInstance = true) :
    (run env spec r).1.files.Perm (liveRows env r spec) ↔
      ∀ p e, r.tree.get p = some e → e.live = false → select env r spec p e = none := by
  have hf : IsFresh r spec := by simpa using hfresh
  have hfiles : (run env spec r).1.files =
      r.tree.entries.entries.filterMap fun e => row env r spec e.1 e.2 := by
    rw [files_run, if_neg (by simp [hempty]), rows_eq_of_isFresh hr.wellTicked hf]
  have hpart : ∀ e ∈ r.tree.entries.entries,
      (if e.2.live then row env r spec e.1 e.2 else none) = row env r spec e.1 e.2 ∨
        (if e.2.live then row env r spec e.1 e.2 else none) = none := by
    intro e _
    split_ifs
    · exact .inl rfl
    · exact .inr rfl
  rw [hfiles]
  unfold liveRows
  constructor
  · intro hperm p e he hdead
    have hlen := (length_filterMap_eq_iff hpart).mp hperm.length_eq ⟨p, e⟩
      (Tree.mem_entries_iff.mpr he) (by simp [hdead])
    exact row_eq_none_iff.mp hlen
  · intro hnone
    refine List.Perm.of_eq (List.filterMap_congr ?_)
    rintro ⟨p, e⟩ he
    by_cases hlive : e.live = true
    · rw [if_pos hlive]
    · rw [if_neg hlive]
      exact row_eq_none_iff.mpr
        (hnone p e (Tree.mem_entries_iff.mp he) (by simpa using hlive))

def emptyEnv : Env := ⟨fun _ => .null, fun _ _ => none⟩

def someFile : Metadata := ⟨.file, 0, 0, 0, 0, 0, 0, 1, none, none⟩

/-- A full-index root with the one file `a`. -/
def oneFile : Root :=
  (Root.new [] .default false 1 1700000000 42).seed [([[0x61]], someFile, none)]

theorem reached_oneFile : Reached emptyEnv oneFile :=
  ⟨_, ⟨_, _, _, _, _, _, rfl⟩, .single (.seed _ _)⟩

/-- Everything, with the default fields. -/
def everything : QuerySpec where
  expression := .true
  fields := Field.defaultFields
  generators := {}
  since := none
  relativeRoot := none
  emptyOnFreshInstance := false
  alwaysIncludeDirectories := true
  caseSensitive := true

theorem fresh_rows_perm_iff_oneFile :
    (run emptyEnv everything oneFile).1.isFreshInstance = true ∧
    ((run emptyEnv everything oneFile).1.files.Perm (liveRows emptyEnv oneFile everything) ↔
      ∀ p e, oneFile.tree.get p = some e → e.live = false →
        select emptyEnv oneFile everything p e = none) :=
  ⟨by decide, fresh_rows_perm_iff emptyEnv oneFile reached_oneFile everything rfl (by decide)⟩

def oneFileGone : Root := (oneFile.applyChanges 0 [.remove [[0x61]]]).1

/-- A query without a clock is fresh and lists the deleted file. -/
theorem fresh_answer_lists_tombstone :
    Reached emptyEnv oneFileGone ∧ everything.emptyOnFreshInstance = false ∧
    (run emptyEnv everything oneFileGone).1.isFreshInstance = true ∧
    ¬ (run emptyEnv everything oneFileGone).1.files.Perm
      (liveRows emptyEnv oneFileGone everything) :=
  ⟨reached_oneFile.next (.batch _ _ _), rfl, by decide, fun h => by
    have hlen : (run emptyEnv everything oneFileGone).1.files.length = 1 := by decide
    have hlive : (liveRows emptyEnv oneFileGone everything).length = 0 := by decide
    have := h.length_eq
    omega⟩

/-! ## Clocks of another instance -/

/-- The string starts with `c:` and does not spell a clock of the root's own instance. -/
def ForeignClock (r : Root) (s : String) : Prop :=
  startsWith s "c:" = true ∧ ¬ ∃ t, ClockSpec.Spells s r.clock.startTime.toNat r.clock.pid.toNat
    r.clock.rootNumber.toNat t

/-- The string spells a clock of some instance. -/
def SpellsClock (s : String) : Prop :=
  ∃ startTime pid rootNumber t, ClockSpec.Spells s startTime pid rootNumber t

theorem toList_of_startsWith_c {s : String} (h : startsWith s "c:" = true) :
    ∃ rest, s.toList = 'c' :: ':' :: rest := by
  obtain ⟨rest, hrest⟩ := List.isPrefixOf_iff_prefix.mp h
  exact ⟨rest, hrest.symm⟩

theorem parse_foreign {s : String} (h : ForeignClock r s) :
    (ClockSpec.parse s = .epoch ∧ ¬ SpellsClock s) ∨
    ∃ startTime pid rootNumber t,
      ClockSpec.parse s = .full startTime pid rootNumber t ∧ SpellsClock s ∧
        ¬ ClockSpec.Names r.clock startTime pid rootNumber := by
  obtain ⟨hc, hown⟩ := h
  obtain ⟨rest, hrest⟩ := toList_of_startsWith_c hc
  rcases ClockSpec.parse_of_c hrest with hp | ⟨a, b, c, d, hp⟩
  · refine .inl ⟨hp, ?_⟩
    rintro ⟨a, b, c, d, hspell⟩
    rw [ClockSpec.parse_eq_full_iff.mpr hspell] at hp
    cases hp
  · have hspell := ClockSpec.parse_eq_full_iff.mp hp
    refine .inr ⟨a, b, c, d, hp, ⟨a, b, c, d, hspell⟩, ?_⟩
    rintro ⟨rfl, rfl, rfl⟩
    exact hown ⟨d, hspell⟩

/-- **Foreign clocks.** For every state of a root and every clock string of another instance, the
answer is fresh exactly when the index is an event index, or the string spells a clock and the
index does not reach back to the root's start. -/
theorem foreign_clock_fresh_iff (env : Env) (r : Root) (spec : QuerySpec) (s : String)
    (hs : spec.since = some (ClockSpec.parse s)) (hforeign : ForeignClock r s) :
    (run env spec r).1.isFreshInstance = true ↔
      r.jjEvents = true ∨ (SpellsClock s ∧ 0 < r.oldestAvailableTick) := by
  rw [isFreshInstance_run, decide_eq_true_iff]
  rcases parse_foreign hforeign with ⟨hp, hno⟩ | ⟨a, b, c, d, hp, hyes, hnot⟩
  · rw [hp] at hs
    have hcursor : resolveNamedCursor r spec = none := by
      unfold resolveNamedCursor; rw [hs]
    have hsince : sinceTick r spec = some 0 := by
      unfold sinceTick; rw [hcursor, hs]; rfl
    have hclock : clockTick r spec = none := by
      unfold clockTick; rw [hcursor, hs]
    unfold IsFresh
    rw [hsince, hclock]
    simp [hno]
  · rw [hp] at hs
    have hcursor : resolveNamedCursor r spec = none := by
      unfold resolveNamedCursor; rw [hs]
    have htick : (ClockSpec.full a b c d).tickAgainst r.clock = 0 := if_neg hnot
    have hsince : sinceTick r spec = some 0 := by
      unfold sinceTick; rw [hcursor, hs, ← htick]; rfl
    have hclock : clockTick r spec = some 0 := by
      unfold clockTick; rw [hcursor, hs, ← htick]
    unfold IsFresh
    rw [hsince, hclock]
    simp [hyes]

def earlierDaemon : String := "c:1600000000:7:1:9"

theorem foreignClock_earlierDaemon : ForeignClock oneFile earlierDaemon := by
  refine ⟨by decide, ?_⟩
  rintro ⟨t, h⟩
  have hp : ClockSpec.parse earlierDaemon = .full 1600000000 7 1 9 := by decide
  rw [← ClockSpec.parse_eq_full_iff, hp] at h
  cases h

def sinceEarlierDaemon : QuerySpec :=
  { everything with since := some (ClockSpec.parse earlierDaemon) }

theorem foreign_clock_fresh_iff_earlierDaemon :
    (run emptyEnv sinceEarlierDaemon oneFile).1.isFreshInstance = true ↔
      oneFile.jjEvents = true ∨ (SpellsClock earlierDaemon ∧ 0 < oneFile.oldestAvailableTick) :=
  foreign_clock_fresh_iff emptyEnv oneFile sinceEarlierDaemon earlierDaemon rfl
    foreignClock_earlierDaemon

/-- A full index answers a clock of an earlier daemon as a delta. -/
theorem full_index_answers_foreign_clock :
    Reached emptyEnv oneFile ∧ ForeignClock oneFile earlierDaemon ∧
    (run emptyEnv sinceEarlierDaemon oneFile).1.isFreshInstance = false :=
  ⟨reached_oneFile, foreignClock_earlierDaemon, by decide⟩

end Watchwoman.Query
