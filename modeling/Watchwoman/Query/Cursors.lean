import Watchwoman.Lib.LastWrite
import Watchwoman.Query.Deletions

/-!
# Named cursors

A query since `n:name` lists what changed since the last query through the cursor and moves the
cursor to the tick it observed. The watermark of a sweep is at or below every cursor, so no sweep
drops a tombstone that a cursor has yet to see, and the second of two queries through one cursor
reports exactly the paths that batches touched in between (`cursor_reports_changes`).
-/

namespace Watchwoman

theorem ClockSpec.parse_named (name : String) : parse ("n:" ++ name) = .named name := by
  have hlist : ("n:" ++ name).toList = 'n' :: ':' :: name.toList := by
    rw [String.toList_append]
    rfl
  unfold parse
  rw [hlist]
  exact congrArg ClockSpec.named String.ofList_toList

/-! ## Sweeps and cursors -/

namespace Root

theorem foldl_min_le (l : List (Sigma fun _ : String => ℕ)) (w : ℕ) :
    l.foldl (fun w c => min w c.2) w ≤ w ∧
      ∀ c ∈ l, l.foldl (fun w c => min w c.2) w ≤ c.2 := by
  induction l generalizing w with
  | nil => exact ⟨le_rfl, by simp⟩
  | cons c l ih =>
    obtain ⟨hw, hl⟩ := ih (min w c.2)
    rw [List.foldl_cons]
    exact ⟨hw.trans (min_le_left _ _),
      List.forall_mem_cons.mpr ⟨hw.trans (min_le_right _ _), hl⟩⟩

theorem cursorTick_setCursor (r : Root) (name : String) (tick : ℕ) :
    (r.setCursor name tick).cursorTick name = tick := by
  unfold setCursor cursorTick
  rw [AList.lookup_insert]
  rfl

theorem cursors_openBatch (arenaBytes : ℕ) (r : Root) :
    (r.openBatch arenaBytes).cursors = r.cursors := by
  unfold openBatch
  split_ifs <;> rfl

theorem cursors_applyChanges (arenaBytes : ℕ) (changes : List PathChange) (r : Root) :
    (r.applyChanges arenaBytes changes).1.cursors = r.cursors := by
  obtain ⟨tree, h⟩ := writeChanges_eq r.clock.bump.ticks changes (r.openBatch arenaBytes)
  show (changes.foldl _ (r.openBatch arenaBytes)).cursors = _
  rw [h]
  exact cursors_openBatch arenaBytes r

theorem cursors_pruneTombstones (r : Root) :
    r.pruneTombstones.1.cursors = r.cursors ∧ r.pruneTombstones.1.clock = r.clock := by
  unfold pruneTombstones
  split_ifs
  · exact ⟨rfl, rfl⟩
  · exact ⟨rfl, rfl⟩

theorem cursorTick_of_cursors {r r' : Root} (h : r'.cursors = r.cursors) :
    r'.cursorTick = r.cursorTick := by
  funext name
  unfold cursorTick
  rw [h]

/-- No operation moves a cursor ahead of the clock. -/
theorem Step.cursorTick_le {env : Env} {r r' : Root} (hs : Step env r r')
    (h : ∀ name, r.cursorTick name ≤ r.clock.ticks) :
    ∀ name, r'.cursorTick name ≤ r'.clock.ticks := by
  have hkept : r'.cursors = r.cursors → ∀ name, r'.cursorTick name ≤ r'.clock.ticks := by
    intro hcursors name
    rw [cursorTick_of_cursors hcursors]
    exact (h name).trans hs.ticks_le
  cases hs with
  | seed entries => exact hkept rfl
  | batch arenaBytes changes => exact hkept (cursors_applyChanges arenaBytes changes r)
  | invalidate =>
    refine hkept ?_
    unfold invalidateJjEvents
    split_ifs <;> rfl
  | promote entries =>
    refine hkept ?_
    unfold promoteToFull
    split_ifs <;> rfl
  | sweep => exact hkept (cursors_pruneTombstones r).1
  | bump => exact hkept rfl
  | query spec =>
    rcases Query.root_run env spec r with hrun | ⟨stored, hrun⟩
    · rw [hrun]
      exact h
    · rw [hrun]
      intro name
      unfold setCursor cursorTick
      rw [HashMap.lookup_insert_eq]
      split_ifs
      · exact le_rfl
      · exact h name

theorem Reached.cursorTick_le {env : Env} {r : Root} (h : Reached env r) (name : String) :
    r.cursorTick name ≤ r.clock.ticks := by
  have hnew : ∀ s, IsNew s → ∀ name, s.cursorTick name ≤ s.clock.ticks := by
    rintro s ⟨path, ignores, jj, number, start, pid, rfl⟩ name
    exact Nat.zero_le _
  have hstep : ∀ s s', (∀ name, s.cursorTick name ≤ s.clock.ticks) → Step env s s' →
      ∀ name, s'.cursorTick name ≤ s'.clock.ticks := fun s s' hs hstep => hstep.cursorTick_le hs
  exact Transition.Reachable.invariant hnew hstep h name

theorem watermark_le_cursor {r : Root} {name : String} {t : ℕ}
    (h : r.cursors.lookup name = some t) : r.watermark ≤ t :=
  (foldl_min_le r.cursors.entries r.clock.ticks).2 _ (HashMap.mem_entries_iff.mpr h)

theorem get_sweep_of_cursor {r : Root} {name : String} {t : ℕ}
    (hc : r.cursors.lookup name = some t) {p : RelPath} {e : FileEntry}
    (he : r.tree.get p = some e) (hlt : t < e.oclock) :
    r.pruneTombstones.1.tree.get p = some e := by
  unfold pruneTombstones
  split_ifs
  · exact he
  · exact (r.tree.get_prune r.watermark).2 he (.inr ((watermark_le_cursor hc).trans_lt hlt))

end Root

namespace Query

open Root RootOp LastWrite

/-! ## What a run does to a path -/

/-- The exists flag the change leaves at `p`, if it is about `p`. -/
def leaves (p : RelPath) (c : PathChange) : Option Bool :=
  if c.rel = p then some (decide (c ≠ .remove p)) else none

/-- The changes of the batches of a run. -/
def changesOf (ops : List RootOp) : List PathChange := ops.flatMap RootOp.changes

/-- The exists flag the batches of the run leave at `p`, if one of them is about `p`. -/
def finalExists (p : RelPath) (ops : List RootOp) : Option Bool :=
  lastSome? (leaves p) (changesOf ops)

/-- A batch of the run upserts `p`, or signals it. -/
def Upserts (p : RelPath) (ops : List RootOp) : Prop :=
  ∃ c ∈ changesOf ops, c.rel = p ∧ c ≠ .remove p

/-- A batch of the run removes `p`. -/
def Removes (p : RelPath) (ops : List RootOp) : Prop := .remove p ∈ changesOf ops

/-- A batch of the run is about `p`. -/
def Touches (p : RelPath) (ops : List RootOp) : Prop := ∃ c ∈ changesOf ops, c.rel = p

/-- No query of the run goes through the cursor. -/
def SparesCursor (name : String) (ops : List RootOp) : Prop :=
  ∀ spec, .query spec ∈ ops → spec.since ≠ some (.named name)

/-- The answer has a row for `p` with the exists flag the run left at it. -/
def ReportsFinal (env : Env) (spec : QuerySpec) (r : Root) (p : RelPath) (ops : List RootOp) :
    Prop :=
  ∃ e, r.tree.get p = some e ∧ finalExists p ops = some e.live ∧
    Field.renderRow env r.path p e spec.fields r.clock ∈ (run env spec r).1.files

theorem touches_of_finalExists {p : RelPath} {ops : List RootOp} {live : Bool}
    (h : finalExists p ops = some live) : Touches p ops := by
  obtain ⟨c, hc, hleaves⟩ := exists_of_lastSome? h
  unfold leaves at hleaves
  split_ifs at hleaves with hrel
  exact ⟨c, hc, hrel⟩

theorem finalExists_of_touches {p : RelPath} {ops : List RootOp} (h : Touches p ops) :
    finalExists p ops ≠ none := by
  obtain ⟨c, hc, hrel⟩ := h
  intro hnone
  have hleaves := lastSome?_eq_none_iff.mp hnone c hc
  rw [leaves, if_pos hrel] at hleaves
  cases hleaves

/-! ## Following a path from one query to the next -/

/-- What is known of `p` after the changes `done`, since the state `r₁` in which the cursor was
stored. -/
structure Following (name : String) (r₁ : Root) (p : RelPath) (done : List PathChange) (r : Root) :
    Prop where
  full : r.jjEvents = false
  ticks : r₁.clock.ticks ≤ r.clock.ticks
  oldest : r.oldestAvailableTick ≤ r₁.clock.ticks
  cursor : r.cursors.lookup name = some r₁.clock.ticks
  same : lastSome? (leaves p) done = none → ∀ e, r.tree.get p = some e → r₁.tree.get p = some e
  changed : ∀ live, lastSome? (leaves p) done = some live → ∀ e, r.tree.get p = some e →
    r₁.clock.ticks < e.oclock ∧ e.live = live
  present : r₁.tree.Live p ∨ (∃ c ∈ done, c.rel = p ∧ c ≠ .remove p) → r.tree.get p ≠ none

namespace Following

variable {env : Env} {name : String} {r₁ r : Root} {p : RelPath} {done : List PathChange}

theorem bump (h : Following name r₁ p done r) : Following name r₁ p done r.bump :=
  { h with ticks := Nat.le_succ_of_le h.ticks }

theorem present_before (h : Following name r₁ p done r) {c : PathChange}
    (hknown : r₁.tree.Live p ∨ ∃ c' ∈ done ++ [c], c'.rel = p ∧ c' ≠ .remove p)
    (hc : ¬ (c.rel = p ∧ c ≠ .remove p)) : r.tree.get p ≠ none := by
  refine h.present (hknown.imp_right ?_)
  rintro ⟨c', hc', hbrings⟩
  rcases List.mem_append.mp hc' with hmem | hmem
  · exact ⟨c', hmem, hbrings⟩
  · rw [List.mem_singleton.mp hmem] at hbrings
    exact absurd hbrings hc

theorem writeChange (h : Following name r₁ p done r) {tick : ℕ} (htick : r₁.clock.ticks < tick)
    (c : PathChange) : Following name r₁ p (done ++ [c]) (r.writeChange tick c) := by
  have hget : (r.writeChange tick c).tree = applyChange false tick r.tree c := by
    unfold Root.writeChange
    rw [h.full]
  have hlast : lastSome? (leaves p) (done ++ [c]) =
      (leaves p c).or (lastSome? (leaves p) done) := by
    rw [lastSome?_append, lastSome?_singleton]
  refine ⟨h.full, h.ticks, h.oldest, h.cursor, ?_, ?_, ?_⟩
  · intro hnone e he
    rw [hlast, Option.or_eq_none_iff] at hnone
    have hp : p ≠ c.rel := by
      rintro rfl
      simp [leaves] at hnone
    rw [hget, get_applyChange_of_ne hp] at he
    exact h.same hnone.2 e he
  · intro live hlive e he
    rw [hlast] at hlive
    rw [hget] at he
    by_cases hp : p = c.rel
    · subst hp
      obtain ⟨hoclock, hremove⟩ := get_applyChange_rel he
      rw [leaves, if_pos rfl, Option.some_or, Option.some_inj] at hlive
      refine ⟨hoclock ▸ htick, ?_⟩
      rw [← hlive, Bool.eq_iff_iff, decide_eq_true_iff, ne_eq, ← hremove, Bool.not_eq_false]
    · rw [get_applyChange_of_ne hp] at he
      rw [leaves, if_neg (Ne.symm hp), Option.none_or] at hlive
      exact h.changed live hlive e he
  · intro hknown
    rw [hget]
    by_cases hp : p = c.rel
    · subst hp
      -- a path that is removed was there before
      obtain ⟨e, he, -⟩ := @exists_get_applyChange false tick r.tree c
        (fun hremove => .inr (h.present_before hknown fun hbrings => hbrings.2 hremove))
      rw [he]
      exact Option.some_ne_none e
    · rw [get_applyChange_of_ne hp]
      exact h.present_before hknown fun hbrings => hp hbrings.1.symm

theorem writeChanges (h : Following name r₁ p done r) {tick : ℕ} (htick : r₁.clock.ticks < tick)
    (changes : List PathChange) :
    Following name r₁ p (done ++ changes) (changes.foldl (Root.writeChange tick) r) := by
  induction changes generalizing done r with
  | nil => simpa using h
  | cons c changes ih =>
    have hstep := ih (h.writeChange htick c)
    rw [List.append_assoc] at hstep
    exact hstep

/-- An entry that must still be there is one that a sweep keeps. -/
theorem sweep (h : Following name r₁ p done r) :
    Following name r₁ p done r.pruneTombstones.1 := by
  have hgone : ∀ e, r.pruneTombstones.1.tree.get p = some e → r.tree.get p = some e := by
    intro e he
    rw [pruneTombstones_of_full h.full] at he
    exact (r.tree.get_prune r.watermark).1 he
  have hpresent : r₁.tree.Live p ∨ (∃ c ∈ done, c.rel = p ∧ c ≠ .remove p) →
      r.pruneTombstones.1.tree.get p ≠ none := by
    intro hknown
    obtain ⟨e, he⟩ := Option.ne_none_iff_exists'.mp (h.present hknown)
    cases hlast : lastSome? (leaves p) done with
    | none =>
      have hlive : r₁.tree.Live p := by
        rcases hknown with hlive | ⟨c, hc, hrel, -⟩
        · exact hlive
        · have hleaves := lastSome?_eq_none_iff.mp hlast c hc
          rw [leaves, if_pos hrel] at hleaves
          cases hleaves
      obtain ⟨e₁, he₁, hlive₁⟩ := hlive
      have hsame := h.same hlast e he
      rw [he₁] at hsame
      obtain rfl := Option.some.inj hsame
      rw [pruneTombstones_of_full h.full, (r.tree.get_prune r.watermark).2 he (.inl hlive₁)]
      simp
    | some live =>
      rw [get_sweep_of_cursor h.cursor he (h.changed live hlast e he).1]
      simp
  rw [pruneTombstones_of_full h.full] at hgone hpresent ⊢
  exact ⟨h.full, h.ticks, h.oldest, h.cursor, fun hnone e he => h.same hnone e (hgone e he),
    fun live hlive e he => h.changed live hlive e (hgone e he), hpresent⟩

/-- A query through another cursor, or through none. -/
theorem query (h : Following name r₁ p done r) {spec : QuerySpec}
    (hspec : spec.since ≠ some (.named name)) :
    Following name r₁ p done (run env spec r).2 := by
  unfold run
  simp only
  split
  · rename_i tick other hcursor
    refine { h with cursor := ?_ }
    have hne : name ≠ other := by
      rintro rfl
      unfold resolveNamedCursor at hcursor
      split at hcursor
      · rename_i name' hname
        cases hcursor
        exact hspec hname
      · cases hcursor
    change (r.cursors.insert other r.clock.ticks).lookup name = _
    rw [HashMap.lookup_insert_eq, if_neg hne]
    exact h.cursor
  · exact h

/-- One operation. -/
theorem exec (h : Following name r₁ p done r) (env : Env) {op : RootOp}
    (hop : ∀ spec, op = .query spec → spec.since ≠ some (.named name)) :
    Following name r₁ p (done ++ op.changes) (op.exec env r) := by
  cases op with
  | batch arenaBytes changes =>
    change Following name r₁ p _ (changes.foldl (Root.writeChange _) (r.openBatch arenaBytes))
    rw [openBatch_of_full h.full]
    exact h.bump.writeChanges (Nat.lt_succ_of_le h.ticks) changes
  | sweep =>
    rw [RootOp.changes, List.append_nil]
    · exact h.sweep
    · rintro arenaBytes changes ⟨⟩
  | bump =>
    rw [RootOp.changes, List.append_nil]
    · exact h.bump
    · rintro arenaBytes changes ⟨⟩
  | query spec =>
    rw [RootOp.changes, List.append_nil]
    · exact h.query (hop spec rfl)
    · rintro arenaBytes changes ⟨⟩

theorem execAll (h : Following name r₁ p done r) {ops : List RootOp}
    (hops : SparesCursor name ops) :
    Following name r₁ p (done ++ changesOf ops) (execAll env r ops) := by
  induction ops generalizing done r with
  | nil =>
    rw [changesOf, List.flatMap_nil, List.append_nil]
    exact h
  | cons op ops ih =>
    have hop : ∀ spec, op = .query spec → spec.since ≠ some (.named name) := by
      rintro spec rfl
      exact hops spec List.mem_cons_self
    have hstep := ih (h.exec env hop) fun spec hmem => hops spec (List.mem_cons_of_mem _ hmem)
    rw [List.append_assoc] at hstep
    exact hstep

end Following

/-! ## The second query -/

section Second

variable {env : Env} {name : String} {r : Root} {spec : QuerySpec}

theorem resolveNamedCursor_named (hspec : spec.since = some (.named name)) :
    resolveNamedCursor r spec = some (r.cursorTick name, name) := by
  unfold resolveNamedCursor
  rw [hspec]

theorem sinceTick_named (hspec : spec.since = some (.named name)) :
    sinceTick r spec = some (r.cursorTick name) := by
  unfold sinceTick
  rw [resolveNamedCursor_named hspec]
  rfl

theorem clockTick_named (hspec : spec.since = some (.named name)) :
    clockTick r spec = if 0 < r.cursorTick name then some (r.cursorTick name) else none := by
  unfold clockTick
  rw [resolveNamedCursor_named hspec]

theorem resolveScmSet_named (hspec : spec.since = some (.named name)) :
    resolveScmSet env spec = none := by
  unfold resolveScmSet
  rw [hspec]

theorem not_isFresh_named (hspec : spec.since = some (.named name)) (hfull : r.jjEvents = false)
    (hold : r.oldestAvailableTick ≤ r.cursorTick name) : ¬ IsFresh r spec := by
  rintro (hnone | ⟨-, hjj⟩ | ⟨t, ht, hlt⟩)
  · rw [sinceTick_named hspec] at hnone
    cases hnone
  · rw [hfull] at hjj
    cases hjj
  · have hsince := sinceTick_of_clockTick (Option.mem_def.mp ht)
    rw [sinceTick_named hspec] at hsince
    cases hsince
    omega

theorem root_run_named (hspec : spec.since = some (.named name)) :
    (run env spec r).2 = r.setCursor name r.clock.ticks := by
  unfold run
  rw [resolveNamedCursor_named hspec]

theorem mem_rows_iff {v : Value} : v ∈ rows env r spec ↔ ∃ p e shown, r.tree.get p = some e ∧
    Past (sinceTick r spec) e ∧ select env r spec p e = some shown ∧
    v = Field.renderRow env r.path shown e spec.fields r.clock := by
  unfold rows
  rw [List.mem_filterMap]
  constructor
  · rintro ⟨⟨p, e⟩, hmem, hrow⟩
    obtain ⟨hpast, hrow⟩ := Option.ite_none_right_eq_some.mp hrow
    obtain ⟨shown, hselect, rfl⟩ := Option.map_eq_some_iff.mp hrow
    exact ⟨p, e, shown, Tree.mem_entries_iff.mp hmem, hpast, hselect, rfl⟩
  · rintro ⟨p, e, shown, he, hpast, hselect, rfl⟩
    refine ⟨⟨p, e⟩, Tree.mem_entries_iff.mpr he, ?_⟩
    rw [if_pos hpast, row, hselect]
    rfl

end Second

/-- What the second of two consecutive queries through a cursor reports: `r₁` is the state the first
left behind, `ops` is what happened in between. -/
structure ReportsChanges (env : Env) (spec : QuerySpec) (r₁ : Root) (ops : List RootOp) : Prop where
  upserted : ∀ p, ¬ IsCookie p → Upserts p ops → ReportsFinal env spec (execAll env r₁ ops) p ops
  removed : ∀ p, ¬ IsCookie p → r₁.tree.Live p → Removes p ops →
    ReportsFinal env spec (execAll env r₁ ops) p ops
  touched : ∀ v ∈ (run env spec (execAll env r₁ ops)).1.files, ∃ p e,
    (execAll env r₁ ops).tree.get p = some e ∧ Touches p ops ∧
    v = Field.renderRow env (execAll env r₁ ops).path p e spec.fields (execAll env r₁ ops).clock

/-- The sweep in this state keeps every tombstone younger than some cursor. -/
def SweepKeepsYoung (r : Root) : Prop :=
  ∀ name t p e, r.cursors.lookup name = some t → r.tree.get p = some e → e.live = false →
    t < e.oclock → r.pruneTombstones.1.tree.get p = some e

theorem Following.start {name : String} {r : Root} (hfull : r.jjEvents = false)
    (hold : r.oldestAvailableTick ≤ r.clock.ticks) (p : RelPath) :
    Following name (r.setCursor name r.clock.ticks) p [] (r.setCursor name r.clock.ticks) where
  full := hfull
  ticks := le_rfl
  oldest := hold
  cursor := AList.lookup_insert r.cursors
  same _ _ he := he
  changed _ hlive := by cases hlive
  present hknown := by
    rcases hknown with ⟨e, he, -⟩ | ⟨c, hc, -⟩
    · rw [he]
      simp
    · cases hc

section Assembly

variable {env : Env} {name : String} {r₁ r : Root} {p : RelPath} {ops : List RootOp}
  {spec : QuerySpec}

theorem Following.cursorTick (h : Following name r₁ p (changesOf ops) r) :
    r.cursorTick name = r₁.clock.ticks := by
  unfold Root.cursorTick
  rw [h.cursor]
  rfl

theorem Following.reportsFinal (h : Following name r₁ p (changesOf ops) r)
    (hspec : AsksForAll spec ("n:" ++ name)) (hcookie : ¬ IsCookie p)
    (hknown : r₁.tree.Live p ∨ Upserts p ops) (htouched : Touches p ops) :
    ReportsFinal env spec r p ops := by
  have hnamed : spec.since = some (.named name) := by
    rw [hspec.since, ClockSpec.parse_named]
  obtain ⟨e, he⟩ := Option.ne_none_iff_exists'.mp (h.present hknown)
  obtain ⟨live, hlive⟩ := Option.ne_none_iff_exists'.mp (finalExists_of_touches htouched)
  obtain ⟨hyoung, rfl⟩ := h.changed live hlive e he
  have hold : r.oldestAvailableTick ≤ r.cursorTick name := by
    rw [h.cursorTick]
    exact h.oldest
  have hpast : Past (sinceTick r spec) e := by
    rw [sinceTick_named hnamed, h.cursorTick]
    exact past_some.mpr hyoung
  exact ⟨e, he, hlive, mem_files (not_isFresh_named hnamed h.full hold) he hpast
    (select_of_asksForAll (resolveScmSet_named hnamed) hspec hcookie e)⟩

theorem Following.touches (h : Following name r₁ p (changesOf ops) r)
    (hticked : ∀ p e, r₁.tree.get p = some e → e.oclock ≤ r₁.clock.ticks) {e : FileEntry}
    (he : r.tree.get p = some e) (hyoung : r₁.clock.ticks < e.oclock) : Touches p ops := by
  cases hlast : finalExists p ops with
  | none =>
    have hle := hticked p e (h.same hlast e he)
    omega
  | some live => exact touches_of_finalExists hlast

end Assembly

/-- **Cursors.** Take two consecutive queries for everything through one cursor of a full-index
root, with batches, sweeps, bumps and other queries in between. The second has a row, with its final
exists flag, for every path that was upserted in between and every path that was live at the first
and removed, cookies aside, and no row for a path that no batch touched. No sweep drops a tombstone
younger than a cursor. -/
theorem cursor_reports_changes (env : Env) (r₀ : Root) (hr : Reached env r₀)
    (hfull : r₀.jjEvents = false) (name : String) (first second : QuerySpec)
    (hfirst : AsksForAll first ("n:" ++ name)) (hsecond : AsksForAll second ("n:" ++ name))
    (ops : List RootOp) (hops : SparesCursor name ops) :
    ReportsChanges env second (run env first r₀).2 ops ∧ ∀ r, SweepKeepsYoung r := by
  have hnamed : ∀ spec, AsksForAll spec ("n:" ++ name) → spec.since = some (.named name) := by
    intro spec hspec
    rw [hspec.since, ClockSpec.parse_named]
  have hticked := hr.wellTicked
  rw [root_run_named (hnamed first hfirst)]
  have hfollow : ∀ p, Following name (r₀.setCursor name r₀.clock.ticks) p (changesOf ops)
      (execAll env (r₀.setCursor name r₀.clock.ticks) ops) := by
    intro p
    exact (Following.start hfull hticked.oldest_le p).execAll hops
  refine ⟨⟨?_, ?_, ?_⟩, ?_⟩
  · intro p hcookie hup
    obtain ⟨c, hc, hrel, -⟩ := id hup
    exact (hfollow p).reportsFinal hsecond hcookie (.inr hup) ⟨c, hc, hrel⟩
  · intro p hcookie hlive hremoved
    exact (hfollow p).reportsFinal hsecond hcookie (.inl hlive) ⟨_, hremoved, rfl⟩
  · intro v hv
    rw [files_run] at hv
    obtain ⟨p, e, shown, he, hpast, hselect, rfl⟩ : ∃ p e shown,
        (execAll env (r₀.setCursor name r₀.clock.ticks) ops).tree.get p = some e ∧
        Past (sinceTick _ second) e ∧ select env _ second p e = some shown ∧ v = _ := by
      split_ifs at hv
      · cases hv
      · exact mem_rows_iff.mp hv
    have hcookie : ¬ IsCookie p := by
      intro hcookie
      rw [select, if_pos hcookie] at hselect
      cases hselect
    rw [select_of_asksForAll (resolveScmSet_named (hnamed second hsecond)) hsecond hcookie] at hselect
    obtain rfl := Option.some.inj hselect
    rw [sinceTick_named (hnamed second hsecond), (hfollow p).cursorTick] at hpast
    refine ⟨p, e, he, (hfollow p).touches ?_ he (hpast _ rfl), rfl⟩
    exact fun p e he => (hticked.entries p e he).2.2
  · intro r name t p e hcursor he _ hlt
    exact get_sweep_of_cursor hcursor he hlt

/-- Everything since the cursor `x`. -/
def sinceCursor : QuerySpec := { everything with since := some (ClockSpec.parse "n:x") }

theorem asksForAll_sinceCursor : AsksForAll sinceCursor ("n:" ++ "x") :=
  ⟨rfl, rfl, rfl, rfl, rfl, rfl, by rw [show "n:" ++ "x" = "n:x" from rfl]; rfl⟩

/-- The file is deleted and a sweep runs between two queries through the cursor. -/
theorem cursor_reports_changes_oneFile :
    SparesCursor "x" [.batch 0 [.remove [[0x61]]], .sweep] ∧
    ReportsChanges emptyEnv sinceCursor (run emptyEnv sinceCursor oneFile).2
      [.batch 0 [.remove [[0x61]]], .sweep] ∧ ∀ r, SweepKeepsYoung r := by
  have hspares : SparesCursor "x" [.batch 0 [.remove [[0x61]]], .sweep] := by
    intro spec hmem
    simp at hmem
  exact ⟨hspares, cursor_reports_changes emptyEnv oneFile reached_oneFile rfl "x" sinceCursor
    sinceCursor asksForAll_sinceCursor asksForAll_sinceCursor _ hspares⟩

end Query

end Watchwoman
