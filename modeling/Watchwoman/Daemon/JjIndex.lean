import Watchwoman.Query.Stable

/-!
# Queries against a changing event index

Any number of queries run against a jj-events root while batches, invalidations and at last a
promotion rewrite it. Writers hold the tree's write lock, queries its read lock; the clock and the
cursors are written without a lock. A batch takes the lock, bumps the clock and wipes an index at
its cap, writes one change after the other, and releases; a query takes the lock, reads the clock,
decides freshness, reads the rows, and releases.

`touched` records which path was touched by a batch of which tick; no step reads it.
-/

namespace Watchwoman.JjIndex

open Transition Query

/-- Who holds the write lock. -/
inductive Writer where
  | idle
  /-- A batch of `tick` with `rest` still to write. -/
  | batch (tick : ℕ) (rest : List PathChange)

/-- Where a query is. -/
inductive Phase where
  | idle
  | locked (spec : QuerySpec)
  | observed (spec : QuerySpec) (tick : ℕ)
  | judged (spec : QuerySpec) (tick : ℕ) (fresh : Bool)
  | answered (spec : QuerySpec) (result : QueryResult)

/-- The query holds the read lock. -/
def Phase.Reading : Phase → Prop
  | .idle => False
  | .answered _ _ => False
  | _ => True

structure State where
  root : Root
  writer : Writer
  queries : ℕ → Phase
  touched : List (ℕ × RelPath)

def Unlocked (σ : State) : Prop := σ.writer = .idle ∧ ∀ q, ¬ (σ.queries q).Reading

theorem Unlocked.not_writing {σ : State} (h : Unlocked σ) (tick : ℕ) (rest : List PathChange) :
    σ.writer ≠ .batch tick rest := by
  rw [h.1]
  rintro ⟨⟩

/-- One step of a query. A query through a named cursor is not among them; what it does to the
cursors is `Step.setCursor`. -/
inductive PhaseStep (env : Env) (σ : State) : Phase → Phase → Prop
  | lock (spec : QuerySpec) (hidle : σ.writer = .idle) (hcursor : NoCursor spec) :
    PhaseStep env σ .idle (.locked spec)
  | observe (spec : QuerySpec) :
    PhaseStep env σ (.locked spec) (.observed spec σ.root.clock.ticks)
  | judge (spec : QuerySpec) (tick : ℕ) :
    PhaseStep env σ (.observed spec tick) (.judged spec tick (decide (IsFresh σ.root spec)))
  | answer (spec : QuerySpec) (tick : ℕ) (fresh : Bool) :
    PhaseStep env σ (.judged spec tick fresh) (.answered spec
      ⟨if fresh = true ∧ spec.emptyOnFreshInstance = true then [] else rows env σ.root spec,
        σ.root.clock.encode tick, fresh⟩)

/-- One step of the system. Batches run while the root is in jj-events mode; a sweep does nothing
to such a root, and prunes a promoted one to some watermark. -/
inductive Step (env : Env) : State → State → Prop
  | openBatch (arenaBytes : ℕ) (changes : List PathChange) {σ : State} (hfree : Unlocked σ)
    (hjj : σ.root.jjEvents = true) :
    Step env σ { σ with
      root := σ.root.openBatch arenaBytes
      writer := .batch σ.root.clock.bump.ticks changes }
  | writeChange {σ : State} {tick : ℕ} {c : PathChange} {rest : List PathChange}
    (hw : σ.writer = .batch tick (c :: rest)) :
    Step env σ { σ with
      root := σ.root.writeChange tick c
      writer := .batch tick rest
      touched := (tick, c.rel) :: σ.touched }
  | release {σ : State} {tick : ℕ} (hw : σ.writer = .batch tick []) :
    Step env σ { σ with writer := .idle }
  | invalidate {σ : State} (hfree : Unlocked σ) :
    Step env σ { σ with root := σ.root.invalidateJjEvents.1 }
  | promote (entries : List ScanEntry) {σ : State} (hfree : Unlocked σ) :
    Step env σ { σ with root := σ.root.promoteToFull entries }
  | prune (watermark : ℕ) {σ : State} (hfree : Unlocked σ) (hfull : σ.root.jjEvents = false) :
    Step env σ { σ with
      root := { σ.root with tree := (σ.root.tree.pruneTombstonesBefore watermark).1 } }
  | bump {σ : State} : Step env σ { σ with root := σ.root.bump }
  | setCursor (name : String) (tick : ℕ) {σ : State} :
    Step env σ { σ with root := σ.root.setCursor name tick }
  | query {σ : State} (q : ℕ) {ph : Phase} (hq : PhaseStep env σ (σ.queries q) ph) :
    Step env σ { σ with queries := Function.update σ.queries q ph }

/-- A jj-events root as `register_root` leaves it. -/
def Start (σ : State) : Prop :=
  (∃ path ignores number start pid,
    σ.root = (Root.new path ignores true number start pid).seed []) ∧
  σ.writer = .idle ∧ (∀ q, σ.queries q = .idle) ∧ σ.touched = []

/-! ## What the index holds -/

/-- Every touch is older than the index reaches back, or the event index has an entry for the path
that is no older. -/
def Holds (touched : List (ℕ × RelPath)) (r : Root) : Prop :=
  ∀ x ∈ touched, x.1 < r.oldestAvailableTick ∨
    (r.jjEvents = true ∧ ∃ e, r.tree.get x.2 = some e ∧ x.1 ≤ e.oclock)

structure Inv (σ₀ σ : State) : Prop where
  clock : Clock.Same σ₀.root.clock σ.root.clock
  touched_le : ∀ x ∈ σ.touched, x.1 ≤ σ.root.clock.ticks
  holds : Holds σ.touched σ.root
  writing : ∀ tick rest, σ.writer = .batch tick rest →
    σ.root.jjEvents = true ∧ tick ≤ σ.root.clock.ticks ∧ ∀ x ∈ σ.touched, x.1 ≤ tick

theorem holds_of_dropped {touched : List (ℕ × RelPath)} {r : Root}
    (h : ∀ x ∈ touched, x.1 < r.oldestAvailableTick) : Holds touched r :=
  fun x hx => .inl (h x hx)

theorem Holds.sameIndex {touched : List (ℕ × RelPath)} {r r' : Root} (h : Holds touched r)
    (hs : Root.SameIndex r r') : Holds touched r' := by
  intro x hx
  rw [hs.oldest, hs.jjEvents, hs.tree]
  exact h x hx

theorem Holds.writeChange {touched : List (ℕ × RelPath)} {r : Root} {tick : ℕ}
    (h : Holds touched r) (hjj : r.jjEvents = true) (hle : ∀ x ∈ touched, x.1 ≤ tick)
    (c : PathChange) : Holds ((tick, c.rel) :: touched) (r.writeChange tick c) := by
  obtain ⟨e, he, htick, -⟩ := @Root.exists_get_applyChange r.jjEvents tick r.tree c
    (fun _ => .inl hjj)
  intro x hx
  rcases List.mem_cons.mp hx with rfl | hx
  · exact .inr ⟨hjj, e, he, htick.ge⟩
  · rcases h x hx with hold | ⟨-, e', he', hle'⟩
    · exact .inl hold
    · by_cases hp : x.2 = c.rel
      · refine .inr ⟨hjj, e, by rw [hp]; exact he, ?_⟩
        rw [htick]
        exact hle x hx
      · refine .inr ⟨hjj, e', ?_, hle'⟩
        exact (Root.get_applyChange_of_ne hp).trans he'

theorem Inv.step {env : Env} {σ₀ σ σ' : State} (h : Inv σ₀ σ) (hs : Step env σ σ') :
    Inv σ₀ σ' := by
  have hlt : ∀ x ∈ σ.touched, x.1 < σ.root.clock.bump.ticks :=
    fun x hx => Nat.lt_succ_of_le (h.touched_le x hx)
  cases hs with
  | openBatch arenaBytes changes hfree hjj =>
    refine ⟨?_, ?_, ?_, ?_⟩
    · rw [Root.clock_openBatch]
      exact h.clock.bump
    · intro x hx
      rw [Root.clock_openBatch]
      exact (hlt x hx).le
    · unfold Root.openBatch
      split_ifs
      · exact holds_of_dropped hlt
      · exact h.holds.sameIndex (.bump _)
    · rintro tick rest ⟨rfl, rfl⟩
      rw [Root.jjEvents_openBatch, Root.clock_openBatch]
      exact ⟨hjj, le_rfl, fun x hx => (hlt x hx).le⟩
  | @writeChange _ tick c rest hw =>
    obtain ⟨hjj, htick, hle⟩ := h.writing _ _ hw
    have hcons : ∀ n, tick ≤ n → (∀ x ∈ σ.touched, x.1 ≤ n) →
        ∀ x ∈ (tick, c.rel) :: σ.touched, x.1 ≤ n :=
      fun n h1 h2 => List.forall_mem_cons.mpr ⟨h1, h2⟩
    refine ⟨h.clock, hcons _ htick h.touched_le, h.holds.writeChange hjj hle c, ?_⟩
    rintro tick' rest' ⟨rfl, rfl⟩
    exact ⟨hjj, htick, hcons _ le_rfl hle⟩
  | release hw =>
    exact ⟨h.clock, h.touched_le, h.holds, by rintro tick rest ⟨⟩⟩
  | invalidate hfree =>
    unfold Root.invalidateJjEvents
    split_ifs
    · exact ⟨h.clock.bump, fun x hx => (hlt x hx).le, holds_of_dropped hlt,
        fun tick rest hw => absurd hw (hfree.not_writing tick rest)⟩
    · exact h
  | promote entries hfree =>
    unfold Root.promoteToFull
    split_ifs
    · exact ⟨h.clock.bump, fun x hx => (hlt x hx).le, holds_of_dropped hlt,
        fun tick rest hw => absurd hw (hfree.not_writing tick rest)⟩
    · exact h
  | prune watermark hfree hfull =>
    refine ⟨h.clock, h.touched_le, ?_, fun tick rest hw => absurd hw (hfree.not_writing tick rest)⟩
    intro x hx
    rcases h.holds x hx with hold | ⟨hjj, -⟩
    · exact .inl hold
    · rw [hfull] at hjj
      cases hjj
  | bump =>
    refine ⟨h.clock.bump, fun x hx => (hlt x hx).le, h.holds.sameIndex (.bump _), ?_⟩
    intro tick rest hw
    obtain ⟨hjj, htick, hle⟩ := h.writing tick rest hw
    exact ⟨hjj, Nat.le_succ_of_le htick, hle⟩
  | setCursor name tick =>
    exact ⟨h.clock, h.touched_le, h.holds.sameIndex (.setCursor _ _ _), h.writing⟩
  | query q hq => exact ⟨h.clock, h.touched_le, h.holds, h.writing⟩

theorem inv_of_run {env : Env} {σ₀ σ : State} (hstart : Start σ₀) (hrun : Run (Step env) σ₀ σ) :
    Inv σ₀ σ := by
  refine hrun.preserves (fun s s' hs hstep => hs.step hstep) ?_
  obtain ⟨-, hw, -, ht⟩ := hstart
  refine ⟨.refl _, by simp [ht], by simp [Holds, ht], ?_⟩
  intro tick rest h
  rw [hw] at h
  cases h

/-! ## The state an answer is of -/

/-- A query in state `σ` read the clock as `tick` in the earlier state `σ'`, and the index has not
changed since. -/
structure Observed (env : Env) (σ₀ σ' σ : State) (tick : ℕ) : Prop where
  before : Run (Step env) σ₀ σ'
  since : Run (Step env) σ' σ
  same : Root.SameIndex σ'.root σ.root
  tick_eq : tick = σ'.root.clock.ticks

/-- What holds of a query at each point. -/
def QueryInv (env : Env) (σ₀ σ : State) : Phase → Prop
  | .idle => True
  | .locked spec => σ.writer = .idle ∧ NoCursor spec
  | .observed spec tick =>
    σ.writer = .idle ∧ NoCursor spec ∧ ∃ σ', Observed env σ₀ σ' σ tick
  | .judged spec tick fresh =>
    σ.writer = .idle ∧ NoCursor spec ∧
      ∃ σ', Observed env σ₀ σ' σ tick ∧ fresh = decide (IsFresh σ'.root spec)
  | .answered spec result =>
    NoCursor spec ∧
      ∃ σ', Run (Step env) σ₀ σ' ∧ Run (Step env) σ' σ ∧ result = (run env spec σ'.root).1

theorem index_kept_while_reading {env : Env} {σ σ' : State} (hs : Step env σ σ') {q : ℕ}
    (hq : (σ.queries q).Reading) (hidle : σ.writer = .idle) :
    σ'.writer = .idle ∧ Root.SameIndex σ.root σ'.root := by
  cases hs with
  | openBatch arenaBytes changes hfree hjj => exact absurd hq (hfree.2 q)
  | writeChange hw => rw [hidle] at hw; cases hw
  | release hw => rw [hidle] at hw; cases hw
  | invalidate hfree => exact absurd hq (hfree.2 q)
  | promote entries hfree => exact absurd hq (hfree.2 q)
  | prune watermark hfree hfull => exact absurd hq (hfree.2 q)
  | bump => exact ⟨hidle, .bump _⟩
  | setCursor name tick => exact ⟨hidle, .setCursor _ _ _⟩
  | query q' hq' => exact ⟨hidle, .refl _⟩

theorem Observed.next {env : Env} {σ₀ σ₁ σ σ' : State} {tick : ℕ}
    (h : Observed env σ₀ σ₁ σ tick) (hs : Step env σ σ') (hsame : Root.SameIndex σ.root σ'.root) :
    Observed env σ₀ σ₁ σ' tick :=
  ⟨h.before, h.since.tail hs, h.same.trans hsame, h.tick_eq⟩

/-- A query that does not move keeps its invariant through every step. -/
theorem QueryInv.next {env : Env} {σ₀ σ σ' : State} {q : ℕ} (h : QueryInv env σ₀ σ (σ.queries q))
    (hs : Step env σ σ') : QueryInv env σ₀ σ' (σ.queries q) := by
  have hkept := @index_kept_while_reading env σ σ' hs q
  cases hph : σ.queries q with
  | idle => trivial
  | locked spec =>
    rw [hph] at h hkept
    exact ⟨(hkept trivial h.1).1, h.2⟩
  | observed spec tick =>
    rw [hph] at h hkept
    obtain ⟨hidle, hcursor, σ₁, hobs⟩ := h
    obtain ⟨hidle', hsame⟩ := hkept trivial hidle
    exact ⟨hidle', hcursor, σ₁, hobs.next hs hsame⟩
  | judged spec tick fresh =>
    rw [hph] at h hkept
    obtain ⟨hidle, hcursor, σ₁, hobs, hfresh⟩ := h
    obtain ⟨hidle', hsame⟩ := hkept trivial hidle
    exact ⟨hidle', hcursor, σ₁, hobs.next hs hsame, hfresh⟩
  | answered spec result =>
    rw [hph] at h
    obtain ⟨hcursor, σ₁, hbefore, hsince, hresult⟩ := h
    exact ⟨hcursor, σ₁, hbefore, hsince.tail hs, hresult⟩

theorem answer_eq {env : Env} {r r' : Root} {spec : QuerySpec} (hcursor : NoCursor spec)
    (hsame : Root.SameIndex r r') :
    (⟨if decide (IsFresh r spec) = true ∧ spec.emptyOnFreshInstance = true then []
        else rows env r' spec, r'.clock.encode r.clock.ticks, decide (IsFresh r spec)⟩ :
      QueryResult) = (run env spec r).1 := by
  unfold run
  rw [resolveNamedCursor_of_noCursor hcursor, rows_same hsame hcursor, hsame.clock.encode]
  simp only [decide_eq_true_eq]

/-- A step of the query itself establishes the invariant of its next phase. -/
theorem QueryInv.phaseStep {env : Env} {σ₀ σ σ' : State} {ph ph' : Phase}
    (hrun : Run (Step env) σ₀ σ) (h : QueryInv env σ₀ σ ph) (hp : PhaseStep env σ ph ph')
    (hs : Step env σ σ') (hroot : σ'.root = σ.root) (hwriter : σ'.writer = σ.writer) :
    QueryInv env σ₀ σ' ph' := by
  have hsame : Root.SameIndex σ.root σ'.root := by rw [hroot]; exact .refl _
  cases hp with
  | lock spec hidle hcursor => exact ⟨hwriter.trans hidle, hcursor⟩
  | observe spec =>
    exact ⟨hwriter.trans h.1, h.2, σ, hrun, .single hs, hsame, rfl⟩
  | judge spec tick =>
    obtain ⟨hidle, hcursor, σ₁, hobs⟩ := h
    refine ⟨hwriter.trans hidle, hcursor, σ₁, hobs.next hs hsame, ?_⟩
    rw [decide_eq_decide]
    exact isFresh_same hobs.same hcursor
  | answer spec tick fresh =>
    obtain ⟨hidle, hcursor, σ₁, hobs, rfl⟩ := h
    refine ⟨hcursor, σ₁, hobs.before, hobs.since.tail hs, ?_⟩
    rw [hobs.tick_eq]
    exact answer_eq hcursor hobs.same

theorem queryInv_of_run {env : Env} {σ₀ σ : State} (hstart : Start σ₀)
    (hrun : Run (Step env) σ₀ σ) (q : ℕ) : QueryInv env σ₀ σ (σ.queries q) := by
  induction hrun with
  | refl =>
    rw [hstart.2.2.1 q]
    trivial
  | @tail σ σ' hrun hs ih =>
    by_cases hmove : σ'.queries q = σ.queries q
    · rw [hmove]
      exact ih.next hs
    · have hs' := hs
      cases hs with
      | @query _ q' ph hq =>
        by_cases hqq : q = q'
        · subst hqq
          simp only [Function.update_self]
          exact ih.phaseStep hrun hq hs' rfl rfl
        · exact absurd (Function.update_of_ne hqq _ _) hmove
      | _ => exact absurd rfl hmove

/-! ## Answers of the event index -/

/-- A clock that the root handed out at tick `t` is fresh when the index does not reach back to
it. -/
theorem isFresh_of_lt_oldest {r : Root} {c : Clock} {spec : QuerySpec} {t : ℕ} (ht : t < 2 ^ 64)
    (hc : Clock.Same c r.clock) (hsince : spec.since = some (ClockSpec.parse (c.encode t)))
    (hlt : t < r.oldestAvailableTick) : IsFresh r spec :=
  .inr (.inr ⟨t, clockTick_encode ht hsince hc, hlt⟩)

/-- **Event index.** In every run of a jj-events root, promoted at last or not, each answered query
is the answer of one state of the run; if its clock was handed out by this root at tick `t`, it is
fresh, or the index of that state has an entry younger than `t` for every path that a batch of a
tick greater than `t` touched. -/
theorem answers_cover_touched (env : Env) (σ₀ σ : State) (hstart : Start σ₀)
    (hrun : Run (Step env) σ₀ σ) (q : ℕ) (spec : QuerySpec) (result : QueryResult)
    (hq : σ.queries q = .answered spec result) (t : ℕ) (ht : t < 2 ^ 64)
    (hsince : spec.since = some (ClockSpec.parse (σ₀.root.clock.encode t))) :
    ∃ σ', Run (Step env) σ₀ σ' ∧ Run (Step env) σ' σ ∧ result = (run env spec σ'.root).1 ∧
      (result.isFreshInstance = true ∨ ∀ k p, (k, p) ∈ σ'.touched → t < k →
        ∃ e, σ'.root.tree.get p = some e ∧ t < e.oclock) := by
  have hinv := queryInv_of_run hstart hrun q
  rw [hq] at hinv
  obtain ⟨-, σ', hbefore, hafter, rfl⟩ := hinv
  refine ⟨σ', hbefore, hafter, rfl, ?_⟩
  have hindex := inv_of_run hstart hbefore
  rw [isFreshInstance_run, decide_eq_true_iff]
  by_cases hlt : t < σ'.root.oldestAvailableTick
  · exact .inl (isFresh_of_lt_oldest ht hindex.clock hsince hlt)
  · refine .inr fun k p hmem hk => ?_
    rcases hindex.holds (k, p) hmem with hold | ⟨-, e, he, hle⟩
    · exact absurd hold (by simp only; omega)
    · exact ⟨e, he, lt_of_lt_of_le hk hle⟩

def emptyIndex : State :=
  ⟨(Root.new [] .default true 1 1700000000 42).seed [], .idle, fun _ => .idle, []⟩

def sinceEmptyIndex : QuerySpec :=
  { everything with since := some (ClockSpec.parse (emptyIndex.root.clock.encode 2)) }

theorem noCursor_sinceEmptyIndex : NoCursor sinceEmptyIndex :=
  @noCursor_encode sinceEmptyIndex emptyIndex.root.clock 2 (by norm_num) rfl

theorem answers_cover_touched_emptyIndex :
    ∃ σ result, Run (Step emptyEnv) emptyIndex σ ∧
      σ.queries 0 = .answered sinceEmptyIndex result ∧
      ∃ σ', Run (Step emptyEnv) emptyIndex σ' ∧ Run (Step emptyEnv) σ' σ ∧
        result = (run emptyEnv sinceEmptyIndex σ'.root).1 ∧
        (result.isFreshInstance = true ∨ ∀ k p, (k, p) ∈ σ'.touched → 2 < k →
          ∃ e, σ'.root.tree.get p = some e ∧ 2 < e.oclock) := by
  have hbatch : Run (Step emptyEnv) emptyIndex _ :=
    ((Relation.ReflTransGen.single (.openBatch 0 [.remove [[0x61]]] ⟨rfl, fun _ h => h⟩ rfl)).tail
      (.writeChange rfl)).tail (.release rfl)
  have hquery := (((hbatch.tail (.query 0 (.lock sinceEmptyIndex rfl noCursor_sinceEmptyIndex))).tail
    (.query 0 (.observe _))).tail (.query 0 (.judge _ _))).tail (.query 0 (.answer _ _ _))
  exact ⟨_, _, hquery, rfl, answers_cover_touched emptyEnv emptyIndex _
    ⟨⟨_, _, _, _, _, rfl⟩, rfl, fun _ => rfl, rfl⟩ hquery 0 sinceEmptyIndex _ rfl 2
    (by norm_num) rfl⟩

end Watchwoman.JjIndex
