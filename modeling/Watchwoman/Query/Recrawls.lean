import Watchwoman.Daemon.JjEvents
import Watchwoman.Query.Deletions

/-!
# Deletions and recrawls

`debug-recrawl` of a full-index root puts a tree in place that has only what the scan found. A path
that is gone by then has no entry any more, and unlike `promote_to_full` and `invalidate_jj_events`,
which replace the tree too, `seed` does not raise `oldestAvailableTick`. So a client with an older
clock gets a delta without the deletion (`recrawled_deletion_lost`), unless its clock was too old
for the index before (`recrawl_reports_iff`).
-/

namespace Watchwoman.Query

open Root JjEvents

/-- The state change of `debug-recrawl`, with what its scan found. -/
def debugRecrawl (entries : List ScanEntry) (r : Root) : Root :=
  if r.jjEvents then r.invalidateJjEvents.1 else r.seed entries

/-- What happens to a registered root. -/
inductive ServedOp where
  | batch (arenaBytes : ℕ) (changes : List PathChange)
  | invalidate
  | promote (entries : List ScanEntry)
  | recrawl (entries : List ScanEntry)
  | sweep
  | bump
  | query (spec : QuerySpec)

namespace ServedOp

def exec (env : Env) (r : Root) : ServedOp → Root
  | .batch arenaBytes changes => (r.applyChanges arenaBytes changes).1
  | .invalidate => r.invalidateJjEvents.1
  | .promote entries => r.promoteToFull entries
  | .recrawl entries => debugRecrawl entries r
  | .sweep => r.pruneTombstones.1
  | .bump => r.bump
  | .query spec => (run env spec r).2

def execAll (env : Env) (r : Root) (ops : List ServedOp) : Root := ops.foldl (exec env) r

/-- The operation finds `p` on disk. -/
def Finds (p : RelPath) : ServedOp → Prop
  | .batch _ changes => ∃ c ∈ changes, c.rel = p ∧ c ≠ .remove p
  | .promote entries | .recrawl entries => ∃ x ∈ entries, x.1 = p
  | _ => False

variable {env : Env} {r r₁ : Root} {p : RelPath}

theorem served (op : ServedOp) : Served env r (op.exec env r) := by
  cases op with
  | batch arenaBytes changes => exact .batch arenaBytes changes r
  | invalidate => exact .invalidate r
  | promote entries => exact .promote entries r
  | recrawl entries =>
    show Served env r (debugRecrawl entries r)
    unfold debugRecrawl
    by_cases hjj : r.jjEvents = true
    · rw [if_pos hjj]
      exact .invalidate r
    · rw [if_neg hjj]
      exact .recrawl entries (by simpa using hjj)
  | sweep => exact .sweep r
  | bump => exact .bump r
  | query spec => exact .query spec r

theorem execAll_append (ops ops' : List ServedOp) :
    execAll env r (ops ++ ops') = execAll env (execAll env r ops) ops' := List.foldl_append

theorem same_execAll (ops : List ServedOp) (h : Clock.Same r₁.clock r.clock) :
    Clock.Same r₁.clock (execAll env r ops).clock := by
  induction ops generalizing r with
  | nil => exact h
  | cons op ops ih => exact ih (h.trans op.served.later.clock)

end ServedOp

open ServedOp

/-! ## A path the index has lost -/

theorem get_crawled_of_not_found {entries : List ScanEntry} {p : RelPath}
    (h : ¬ ∃ x ∈ entries, x.1 = p) (tick : ℕ) : (crawled entries tick).get p = none := by
  have hfold : ∀ (l : List ScanEntry) (t : Tree), (∀ x ∈ l, x.1 ≠ p) → t.get p = none →
      (l.foldl (fun t e => t.upsert e.1 e.2.1 e.2.2 tick false tick) t).get p = none := by
    intro l
    induction l with
    | nil => exact fun t _ ht => ht
    | cons x l ih =>
      intro t hl ht
      obtain ⟨hx, hl⟩ := List.forall_mem_cons.mp hl
      refine ih _ hl ?_
      rw [Tree.get_upsert, if_neg (Ne.symm hx), ht]
  refine hfold entries Tree.new ?_ rfl
  intro x hx hp
  exact h ⟨x, hx, hp⟩

/-- A full index that reaches back to `oldest` and has no entry for the path. -/
structure Lost (p : RelPath) (oldest : ℕ) (r : Root) : Prop where
  full : r.jjEvents = false
  oldest_eq : r.oldestAvailableTick = oldest
  absent : r.tree.get p = none

namespace Lost

variable {env : Env} {p : RelPath} {oldest : ℕ} {r : Root}

theorem bump (h : Lost p oldest r) : Lost p oldest r.bump := ⟨h.full, h.oldest_eq, h.absent⟩

theorem writeChange (h : Lost p oldest r) (tick : ℕ) {c : PathChange}
    (hc : c.rel = p → c = .remove p) : Lost p oldest (r.writeChange tick c) := by
  refine ⟨h.full, h.oldest_eq, ?_⟩
  show (applyChange r.jjEvents tick r.tree c).get p = none
  by_cases hp : p = c.rel
  · rw [hc hp.symm, h.full]
    show (r.tree.markGone p tick).get p = none
    rw [Tree.get_markGone, if_pos rfl, h.absent]
    rfl
  · rw [get_applyChange_of_ne hp]
    exact h.absent

theorem writeChanges (h : Lost p oldest r) (tick : ℕ) {changes : List PathChange}
    (hc : ∀ c ∈ changes, c.rel = p → c = .remove p) :
    Lost p oldest (changes.foldl (Root.writeChange tick) r) := by
  induction changes generalizing r with
  | nil => exact h
  | cons c changes ih =>
    obtain ⟨hc, hcs⟩ := List.forall_mem_cons.mp hc
    exact ih (h.writeChange tick hc) hcs

/-- A path that is lost stays lost until it is found on disk. -/
theorem exec (h : Lost p oldest r) {op : ServedOp} (hop : ¬ op.Finds p) :
    Lost p oldest (op.exec env r) := by
  cases op with
  | batch arenaBytes changes =>
    show Lost p oldest (changes.foldl _ (r.openBatch arenaBytes))
    rw [openBatch_of_full h.full]
    refine h.bump.writeChanges _ ?_
    intro c hc hrel
    by_contra hne
    exact hop ⟨c, hc, hrel, hne⟩
  | invalidate =>
    show Lost p oldest r.invalidateJjEvents.1
    unfold Root.invalidateJjEvents
    rw [if_neg (by simp [h.full])]
    exact h
  | promote entries =>
    show Lost p oldest (r.promoteToFull entries)
    unfold Root.promoteToFull
    rw [if_neg (by simp [h.full])]
    exact h
  | recrawl entries =>
    show Lost p oldest (debugRecrawl entries r)
    unfold debugRecrawl
    rw [if_neg (by simp [h.full])]
    exact ⟨h.full, h.oldest_eq, get_crawled_of_not_found hop _⟩
  | sweep =>
    show Lost p oldest r.pruneTombstones.1
    rw [pruneTombstones_of_full h.full]
    refine ⟨h.full, h.oldest_eq, ?_⟩
    rw [Option.eq_none_iff_forall_ne_some]
    intro e he
    have hget := (r.tree.get_prune r.watermark).1 he
    rw [h.absent] at hget
    cases hget
  | bump => exact h.bump
  | query spec =>
    show Lost p oldest (run env spec r).2
    rcases root_run env spec r with heq | ⟨name, heq⟩ <;> rw [heq]
    · exact h
    · exact ⟨h.full, h.oldest_eq, h.absent⟩

theorem execAll (h : Lost p oldest r) {ops : List ServedOp} (hops : ∀ op ∈ ops, ¬ op.Finds p) :
    Lost p oldest (execAll env r ops) := by
  induction ops generalizing r with
  | nil => exact h
  | cons op ops ih =>
    obtain ⟨hop, hops⟩ := List.forall_mem_cons.mp hops
    exact ih (h.exec hop) hops

theorem recrawl (hfull : r.jjEvents = false) {entries : List ScanEntry}
    (hscan : ¬ ∃ x ∈ entries, x.1 = p) :
    Lost p r.oldestAvailableTick (debugRecrawl entries r) := by
  unfold debugRecrawl
  rw [if_neg (by simp [hfull])]
  exact ⟨hfull, rfl, get_crawled_of_not_found hscan _⟩

end Lost

/-! ## The query -/

/-- A full index answers a clock of its own with a fresh instance only if it does not reach back to
it. -/
theorem isFresh_encode_iff {r : Root} {spec : QuerySpec} {c : Clock} {t : ℕ} (ht : t < 2 ^ 64)
    (hsince : spec.since = some (ClockSpec.parse (c.encode t))) (h : Clock.Same c r.clock)
    (hfull : r.jjEvents = false) : IsFresh r spec ↔ t < r.oldestAvailableTick := by
  constructor
  · intro hfresh
    by_contra hold
    exact not_isFresh_encode ht hsince h hfull (Nat.le_of_not_lt hold) hfresh
  · intro hlt
    exact .inr (.inr ⟨t, clockTick_encode ht hsince h, hlt⟩)

/-- **Recrawls.** A response of the root hands out its clock, in any state `r₁`; the root is served,
and crawled again in full mode by a scan that does not find `p`; after that `p` is not found
again. Whether `p` was live when the clock was handed out or was a tombstone when the crawl ran, a
query for everything since the clock reports its deletion if and only if the clock was already older
than the index reaches back when the crawl ran. -/
theorem recrawl_reports_iff (env : Env) (r₁ : Root) (ht : r₁.clock.ticks < 2 ^ 64)
    (ops₁ : List ServedOp) (hfull : (execAll env r₁ ops₁).jjEvents = false) (p : RelPath)
    (entries : List ScanEntry) (hscan : ¬ ∃ x ∈ entries, x.1 = p) (ops₂ : List ServedOp)
    (hgone : ∀ op ∈ ops₂, ¬ op.Finds p) (spec : QuerySpec)
    (hspec : AsksForAll spec (responseClock r₁)) :
    ReportsDeletion env spec (execAll env r₁ (ops₁ ++ .recrawl entries :: ops₂)) p ↔
      r₁.clock.ticks < (execAll env r₁ ops₁).oldestAvailableTick := by
  have hsame : Clock.Same r₁.clock (execAll env r₁ (ops₁ ++ .recrawl entries :: ops₂)).clock :=
    same_execAll _ (.refl _)
  have hlost : Lost p (execAll env r₁ ops₁).oldestAvailableTick
      (execAll env r₁ (ops₁ ++ .recrawl entries :: ops₂)) := by
    rw [execAll_append]
    exact (Lost.recrawl hfull hscan).execAll hgone
  rw [← hlost.oldest_eq, ← isFresh_encode_iff ht hspec.since hsame hlost.full]
  constructor
  · rintro (hfresh | ⟨e, he, -⟩)
    · simpa using hfresh
    · rw [hlost.absent] at he
      cases he
  · intro hfresh
    exact .inl (by simpa using hfresh)

/-- A root whose jj-events index was promoted after a response: the clock of that response is too old
for it, and a recrawl does not change that. -/
theorem recrawl_reports_promoted :
    ReportsDeletion emptyEnv sinceOneFile
      (execAll emptyEnv { oneFile with jjEvents := true } ([.promote []] ++ .recrawl [] :: []))
      [[0x61]] :=
  (recrawl_reports_iff emptyEnv { oneFile with jjEvents := true } (by decide) [.promote []] rfl
    [[0x61]] [] (by simp) [] (by simp) sinceOneFile asksForAll_sinceOneFile).mpr (by decide)

/-- The file is gone when the root is crawled again, with or without an event for it. Either way the
client that holds the clock from before is told that nothing changed. -/
theorem recrawled_deletion_lost :
    Reached emptyEnv oneFile ∧ oneFile.jjEvents = false ∧ oneFile.tree.Live [[0x61]] ∧
    AsksForAll sinceOneFile (responseClock oneFile) ∧
    ¬ ReportsDeletion emptyEnv sinceOneFile (execAll emptyEnv oneFile [.recrawl []]) [[0x61]] ∧
    (∃ e, (execAll emptyEnv oneFile [.batch 0 [.remove [[0x61]]]]).tree.get [[0x61]] = some e ∧
      e.live = false ∧ oneFile.clock.ticks < e.oclock) ∧
    ¬ ReportsDeletion emptyEnv sinceOneFile
      (execAll emptyEnv oneFile [.batch 0 [.remove [[0x61]]], .recrawl []]) [[0x61]] := by
  have hnone : ∀ r : Root, r.tree.get [[0x61]] = none → ¬ IsFresh r sinceOneFile →
      ¬ ReportsDeletion emptyEnv sinceOneFile r [[0x61]] := by
    rintro r hget hdelta (hfresh | ⟨e, he, -⟩)
    · exact hdelta (by simpa using hfresh)
    · rw [hget] at he
      cases he
  refine ⟨reached_oneFile, rfl, live_oneFile, asksForAll_sinceOneFile, hnone _ rfl (by decide),
    ⟨_, rfl, rfl, by decide⟩, hnone _ rfl (by decide)⟩

end Watchwoman.Query
