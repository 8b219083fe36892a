import Watchwoman.Query.Stable

/-!
# Deletions and tombstone sweeps

A client that holds a clock of tick `t` learns of a later deletion through the tombstone of the
path, or through a fresh answer. Sweeps drop tombstones at or below the least cursor without
raising `oldestAvailableTick`, so a plain clock is answered as a delta that lacks the deletion
(`swept_deletion_lost`). As long as no sweep drops a tombstone younger than the clock, every
deletion is reported (`deletion_reported`).
-/

namespace Watchwoman.Query

open Root

/-! ## Runs of a full-index root -/

/-- The operations of a run. -/
inductive RootOp where
  | batch (arenaBytes : ℕ) (changes : List PathChange)
  | sweep
  | bump
  | query (spec : QuerySpec)

namespace RootOp

/-- The changes a batch brings; nothing else changes paths. -/
def changes : RootOp → List PathChange
  | .batch _ changes => changes
  | _ => []

def exec (env : Env) (r : Root) : RootOp → Root
  | .batch arenaBytes changes => (r.applyChanges arenaBytes changes).1
  | .sweep => r.pruneTombstones.1
  | .bump => r.bump
  | .query spec => (run env spec r).2

def execAll (env : Env) (r : Root) (ops : List RootOp) : Root := ops.foldl (exec env) r

end RootOp

open RootOp

/-- The query asks for every change since `c`: expression true, no generators, no narrowing. -/
structure AsksForAll (spec : QuerySpec) (c : String) : Prop where
  expression : spec.expression = .true
  suffix : spec.generators.suffix = none
  glob : spec.generators.glob = none
  paths : spec.generators.paths = none
  relativeRoot : spec.relativeRoot = none
  directories : spec.alwaysIncludeDirectories = true
  since : spec.since = some (ClockSpec.parse c)

/-- The answer is fresh, or has a row for `p` with `exists = false`. -/
def ReportsDeletion (env : Env) (spec : QuerySpec) (r : Root) (p : RelPath) : Prop :=
  (run env spec r).1.isFreshInstance = true ∨
    ∃ e, r.tree.get p = some e ∧ e.live = false ∧
      Field.renderRow env r.path p e spec.fields r.clock ∈ (run env spec r).1.files

/-- A batch of the run removes `p`, and no later change re-creates it. -/
def RemovedFor (p : RelPath) (ops : List RootOp) : Prop :=
  ∃ ops₁ arenaBytes before after ops₂,
    ops = ops₁ ++ .batch arenaBytes (before ++ .remove p :: after) :: ops₂ ∧
    (∀ c ∈ after, c.rel = p → c = .remove p) ∧
    ∀ op ∈ ops₂, ∀ c ∈ op.changes, c.rel = p → c = .remove p

/-- A sweep in this state leaves a tombstone of `p` that is younger than `t`. -/
def SweepSpares (p : RelPath) (t : ℕ) (r : Root) : Prop :=
  ∀ e, r.tree.get p = some e → e.live = false → t < e.oclock → r.watermark < e.oclock

/-- Every sweep of the run does. -/
def SweepsSpare (env : Env) (p : RelPath) (t : ℕ) : Root → List RootOp → Prop
  | _, [] => True
  | r, op :: ops =>
    (op = .sweep → SweepSpares p t r) ∧ SweepsSpare env p t (exec env r op) ops

/-! ## What a run keeps -/

/-- The path has an entry that is live or younger than `t`. -/
def Known (p : RelPath) (t : ℕ) (tree : Tree) : Prop :=
  ∃ e, tree.get p = some e ∧ (e.live = true ∨ t < e.oclock)

/-- The path is not live. -/
def Gone (p : RelPath) (tree : Tree) : Prop := ∀ e, tree.get p = some e → e.live = false

theorem Known.applyChange {p : RelPath} {t tick : ℕ} {tree : Tree} (h : Known p t tree)
    (ht : t < tick) (c : PathChange) : Known p t (applyChange false tick tree c) := by
  obtain ⟨e, he, hyoung⟩ := h
  by_cases hp : p = c.rel
  · subst hp
    obtain ⟨e', he', htick, -⟩ := @exists_get_applyChange false tick tree c
      (fun _ => .inr (by rw [he]; simp))
    exact ⟨e', he', .inr (ht.trans_eq htick.symm)⟩
  · exact ⟨e, by rw [get_applyChange_of_ne hp, he], hyoung⟩

theorem Gone.applyChange {p : RelPath} {tick : ℕ} {jj : Bool} {tree : Tree} (h : Gone p tree)
    {c : PathChange} (hc : c.rel = p → c = .remove p) : Gone p (applyChange jj tick tree c) := by
  intro e he
  by_cases hp : p = c.rel
  · subst hp
    exact (get_applyChange_rel he).2.mpr (hc rfl)
  · rw [get_applyChange_of_ne hp] at he
    exact h e he

theorem gone_remove {p : RelPath} {tick : ℕ} {jj : Bool} {tree : Tree} :
    Gone p (applyChange jj tick tree (.remove p)) := by
  intro e he
  exact (get_applyChange_rel (c := .remove p) he).2.mpr rfl

/-- A full index that has held on to `p` since the state `r₁` of the response. -/
structure Holding (r₁ : Root) (p : RelPath) (r : Root) : Prop where
  full : r.jjEvents = false
  clock : Clock.Same r₁.clock r.clock
  ticks : r₁.clock.ticks ≤ r.clock.ticks
  known : Known p r₁.clock.ticks r.tree

namespace Holding

variable {env : Env} {r₁ r : Root} {p : RelPath}

theorem bump (h : Holding r₁ p r) : Holding r₁ p r.bump where
  full := h.full
  clock := h.clock.bump
  ticks := Nat.le_succ_of_le h.ticks
  known := h.known

theorem writeChange (h : Holding r₁ p r) {tick : ℕ} (htick : r₁.clock.ticks < tick)
    (c : PathChange) : Holding r₁ p (writeChange tick r c) where
  full := h.full
  clock := h.clock
  ticks := h.ticks
  known := by
    unfold Root.writeChange
    rw [h.full]
    exact h.known.applyChange htick c

theorem writeChanges (h : Holding r₁ p r) {tick : ℕ} (htick : r₁.clock.ticks < tick)
    (changes : List PathChange) : Holding r₁ p (changes.foldl (Root.writeChange tick) r) := by
  induction changes generalizing r with
  | nil => exact h
  | cons c changes ih => exact ih (h.writeChange htick c)

theorem tick_lt (h : Holding r₁ p r) : r₁.clock.ticks < r.clock.bump.ticks :=
  Nat.lt_succ_of_le h.ticks

/-- Every operation holds on to the path, a sweep if it spares its tombstone. -/
theorem exec (h : Holding r₁ p r) {op : RootOp}
    (hsweep : op = .sweep → SweepSpares p r₁.clock.ticks r) : Holding r₁ p (op.exec env r) := by
  cases op with
  | batch arenaBytes changes =>
    change Holding r₁ p (changes.foldl (Root.writeChange _) (r.openBatch arenaBytes))
    rw [openBatch_of_full h.full]
    exact h.bump.writeChanges h.tick_lt changes
  | sweep =>
    obtain ⟨e, he, hyoung⟩ := h.known
    have hkept : Tree.Kept r.watermark e := by
      by_cases hlive : e.live = true
      · exact .inl hlive
      · exact .inr (hsweep rfl e he (by simpa using hlive) (hyoung.resolve_left hlive))
    have hget := (r.tree.get_prune r.watermark).2 he hkept
    change Holding r₁ p r.pruneTombstones.1
    rw [pruneTombstones_of_full h.full]
    exact ⟨h.full, h.clock, h.ticks, e, hget, hyoung⟩
  | bump => exact h.bump
  | query spec =>
    change Holding r₁ p (run env spec r).2
    unfold run
    simp only
    split
    · exact ⟨h.full, h.clock, h.ticks, h.known⟩
    · exact h

theorem execAll (h : Holding r₁ p r) {ops : List RootOp}
    (hsweeps : SweepsSpare env p r₁.clock.ticks r ops) : Holding r₁ p (execAll env r ops) := by
  induction ops generalizing r with
  | nil => exact h
  | cons op ops ih => exact ih (h.exec hsweeps.1) hsweeps.2

end Holding

theorem gone_writeChanges {p : RelPath} {tick : ℕ} {r : Root} {changes : List PathChange}
    (h : Gone p r.tree) (hc : ∀ c ∈ changes, c.rel = p → c = .remove p) :
    Gone p (changes.foldl (Root.writeChange tick) r).tree := by
  induction changes generalizing r with
  | nil => exact h
  | cons c changes ih =>
    obtain ⟨hc1, hc2⟩ := List.forall_mem_cons.mp hc
    exact ih (Gone.applyChange h hc1) hc2

theorem gone_exec {env : Env} {p : RelPath} {r : Root} {op : RootOp} (h : Gone p r.tree)
    (hc : ∀ c ∈ op.changes, c.rel = p → c = .remove p) : Gone p (op.exec env r).tree := by
  cases op with
  | batch arenaBytes changes =>
    refine gone_writeChanges ?_ hc
    unfold Root.openBatch
    split_ifs
    · intro e he
      simp at he
    · exact h
  | sweep =>
    intro e he
    change (r.pruneTombstones.1.tree).get p = some e at he
    unfold Root.pruneTombstones at he
    split_ifs at he
    · exact h e he
    · exact h e ((r.tree.get_prune r.watermark).1 he)
  | bump => exact h
  | query spec =>
    change Gone p (run env spec r).2.tree
    unfold run
    simp only
    split <;> exact h

theorem gone_execAll {env : Env} {p : RelPath} {r : Root} {ops : List RootOp}
    (h : Gone p r.tree) (hc : ∀ op ∈ ops, ∀ c ∈ op.changes, c.rel = p → c = .remove p) :
    Gone p (execAll env r ops).tree := by
  induction ops generalizing r with
  | nil => exact h
  | cons op ops ih =>
    obtain ⟨hc1, hc2⟩ := List.forall_mem_cons.mp hc
    exact ih (gone_exec h hc1) hc2

theorem gone_of_removedFor {env : Env} {p : RelPath} {r : Root} {ops : List RootOp}
    (h : RemovedFor p ops) : Gone p (execAll env r ops).tree := by
  obtain ⟨ops₁, arenaBytes, before, after, ops₂, rfl, hafter, hops₂⟩ := h
  rw [RootOp.execAll, List.foldl_append, List.foldl_cons]
  refine gone_execAll ?_ hops₂
  change Gone p ((before ++ .remove p :: after).foldl (Root.writeChange _) _).tree
  rw [List.foldl_append, List.foldl_cons]
  exact gone_writeChanges gone_remove hafter

/-! ## The query -/

section Answer

variable {env : Env} {r₁ r : Root} {p : RelPath} {spec : QuerySpec}

theorem sinceTick_of_asksForAll (h : Holding r₁ p r) (ht : r₁.clock.ticks < 2 ^ 64)
    (hspec : AsksForAll spec (responseClock r₁)) : sinceTick r spec = some r₁.clock.ticks :=
  sinceTick_encode ht hspec.since h.clock

theorem select_of_asksForAll {c : String} (hscm : resolveScmSet env spec = none)
    (hspec : AsksForAll spec c) (hcookie : ¬ IsCookie p) (e : FileEntry) :
    select env r spec p e = some p := by
  have haccept : spec.generators.accept p = true := by
    unfold Generators.accept
    rw [hspec.suffix, hspec.glob, hspec.paths]
    rfl
  unfold select displayRel
  rw [if_neg hcookie, if_neg (by simp [hspec.directories]), hspec.relativeRoot, hscm,
    hspec.expression]
  simp [haccept, Expr.eval]

end Answer

/-- **Deletions.** Let a response of a full-index root hand out its clock while `p` is live, and let
`p` be removed and not re-created in the run that follows. If no sweep of that run drops a tombstone
of `p` younger than the clock, a query for everything since the clock reports the deletion. -/
theorem deletion_reported (env : Env) (r₁ : Root) (hfull : r₁.jjEvents = false)
    (ht : r₁.clock.ticks < 2 ^ 64) (p : RelPath) (hlive : r₁.tree.Live p) (hcookie : ¬ IsCookie p)
    (ops : List RootOp) (hremoved : RemovedFor p ops)
    (hsweeps : SweepsSpare env p r₁.clock.ticks r₁ ops) (spec : QuerySpec)
    (hspec : AsksForAll spec (responseClock r₁)) :
    ReportsDeletion env spec (execAll env r₁ ops) p := by
  obtain ⟨e₁, he₁, hlive₁⟩ := hlive
  have hstart : Holding r₁ p r₁ := ⟨hfull, rfl, le_rfl, e₁, he₁, .inl hlive₁⟩
  have hend : Holding r₁ p (execAll env r₁ ops) := hstart.execAll hsweeps
  have hgone : Gone p (execAll env r₁ ops).tree := gone_of_removedFor hremoved
  obtain ⟨e, he, hyoung⟩ := hend.known
  have hdead := hgone e he
  have hpast : Past (sinceTick (execAll env r₁ ops) spec) e := by
    rw [sinceTick_of_asksForAll hend ht hspec]
    intro t htick
    cases htick
    exact hyoung.resolve_left (by simp [hdead])
  by_cases hfresh : IsFresh (execAll env r₁ ops) spec
  · exact .inl (by simpa using hfresh)
  · exact .inr ⟨e, he, hdead, mem_files hfresh he hpast
      (select_of_asksForAll (resolveScmSet_encode ht hspec.since) hspec hcookie e)⟩

def sinceOneFile : QuerySpec :=
  { everything with since := some (ClockSpec.parse (responseClock oneFile)) }

theorem asksForAll_sinceOneFile : AsksForAll sinceOneFile (responseClock oneFile) :=
  ⟨rfl, rfl, rfl, rfl, rfl, rfl, rfl⟩

theorem live_oneFile : oneFile.tree.Live [[0x61]] := ⟨_, rfl, rfl⟩

/-- A poll through a cursor, the deletion, and a sweep that stops at the cursor. -/
def sweptBehindCursor : List RootOp :=
  [.query { everything with since := some (.named "x") }, .batch 0 [.remove [[0x61]]], .sweep]

theorem removedFor_sweptBehindCursor : RemovedFor [[0x61]] sweptBehindCursor :=
  ⟨[.query _], 0, [], [], [.sweep], rfl, by simp, by simp [RootOp.changes]⟩

theorem sweepsSpare_sweptBehindCursor :
    SweepsSpare emptyEnv [[0x61]] oneFile.clock.ticks oneFile sweptBehindCursor := by
  refine ⟨by rintro ⟨⟩, by rintro ⟨⟩, fun _ e he _ _ => ?_, trivial⟩
  obtain ⟨tombstone, htombstone, hyoung⟩ : ∃ e₀,
      (execAll emptyEnv oneFile (sweptBehindCursor.take 2)).tree.get [[0x61]] = some e₀ ∧
        (execAll emptyEnv oneFile (sweptBehindCursor.take 2)).watermark < e₀.oclock :=
    ⟨_, rfl, by decide⟩
  obtain rfl := Option.some.inj (htombstone.symm.trans he)
  exact hyoung

theorem deletion_reported_oneFile :
    ReportsDeletion emptyEnv sinceOneFile (execAll emptyEnv oneFile sweptBehindCursor) [[0x61]] :=
  deletion_reported emptyEnv oneFile rfl (by decide) [[0x61]] live_oneFile (by decide)
    sweptBehindCursor removedFor_sweptBehindCursor sweepsSpare_sweptBehindCursor sinceOneFile
    asksForAll_sinceOneFile

theorem removedFor_remove_sweep : RemovedFor [[0x61]] [.batch 0 [.remove [[0x61]]], .sweep] :=
  ⟨[], 0, [], [], [.sweep], rfl, by simp, by simp [RootOp.changes]⟩

/-- After the deletion of the file and a sweep, the client that holds the clock from before is told
that nothing changed. -/
theorem swept_deletion_lost :
    Reached emptyEnv oneFile ∧ oneFile.jjEvents = false ∧ oneFile.tree.Live [[0x61]] ∧
    RemovedFor [[0x61]] [.batch 0 [.remove [[0x61]]], .sweep] ∧
    AsksForAll sinceOneFile (responseClock oneFile) ∧
    ¬ ReportsDeletion emptyEnv sinceOneFile
      (execAll emptyEnv oneFile [.batch 0 [.remove [[0x61]]], .sweep]) [[0x61]] := by
  refine ⟨reached_oneFile, rfl, live_oneFile, removedFor_remove_sweep, asksForAll_sinceOneFile, ?_⟩
  rintro (hfresh | ⟨e, he, -⟩)
  · exact absurd hfresh (by decide)
  · have hnone : (execAll emptyEnv oneFile [.batch 0 [.remove [[0x61]]], .sweep]).tree.get
        [[0x61]] = none := by decide
    rw [hnone] at he
    cases he

end Watchwoman.Query
