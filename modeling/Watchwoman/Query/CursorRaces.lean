import Watchwoman.Query.Cursors

/-!
# Queries that share a cursor

`run.rs` reads the cursor before it takes the tree lock, reads the clock and scans under the read
lock, and stores the cursor before it releases the lock. The read lock is shared, so two queries may
both be between their read and their store: both then report what is past the tick they read, and
the one that stores last decides the cursor (`overlapping_queries_report_twice`). As long as no query
reads the cursor while another is between its read and its store, each change is reported once and
the cursor only advances (`cursor_advances`).
-/

namespace Watchwoman.CursorRaces

open Transition Query

/-- Where a query through the cursor is. -/
inductive Phase where
  | idle
  /-- The cursor was at `tick`. -/
  | resolved (env : Env) (spec : QuerySpec) (tick : ℕ)
  /-- The read lock is held, and the cursor is still to be stored. -/
  | scanned (answer : Answer)

structure State where
  root : Root
  /-- The batch that holds the write lock: its tick and what it has still to write. -/
  batch : Option (ℕ × List PathChange)
  queries : ℕ → Phase
  /-- The answers so far, the last first. -/
  answers : List Answer

/-- One step of a query through the cursor `name`, of a batch, of a sweep or of the clock command. -/
inductive Step (name : String) : State → State → Prop
  | resolve (q : ℕ) (env : Env) (spec : QuerySpec) {σ : State} (hq : σ.queries q = .idle)
    (hspec : spec.since = some (.named name)) :
    Step name σ { σ with
      queries := Function.update σ.queries q (.resolved env spec (σ.root.cursorTick name)) }
  | scan (q : ℕ) {σ : State} {env : Env} {spec : QuerySpec} {tick : ℕ}
    (hq : σ.queries q = .resolved env spec tick) (hidle : σ.batch = none) :
    Step name σ { σ with
      queries := Function.update σ.queries q
        (.scanned ⟨env, spec, σ.root.setCursor name tick⟩) }
  | store (q : ℕ) {σ : State} {a : Answer} (hq : σ.queries q = .scanned a) :
    Step name σ { σ with
      root := σ.root.setCursor name a.root.clock.ticks
      queries := Function.update σ.queries q .idle
      answers := a :: σ.answers }
  | openBatch (arenaBytes : ℕ) (changes : List PathChange) {σ : State} (hidle : σ.batch = none)
    (hunlocked : ∀ q a, σ.queries q ≠ .scanned a) :
    Step name σ { σ with
      root := σ.root.openBatch arenaBytes
      batch := some (σ.root.clock.bump.ticks, changes) }
  | writeChange {σ : State} {tick : ℕ} {c : PathChange} {rest : List PathChange}
    (hb : σ.batch = some (tick, c :: rest)) :
    Step name σ { σ with root := σ.root.writeChange tick c, batch := some (tick, rest) }
  | release {σ : State} {tick : ℕ} (hb : σ.batch = some (tick, [])) :
    Step name σ { σ with batch := none }
  | sweep {σ : State} (hidle : σ.batch = none) (hunlocked : ∀ q a, σ.queries q ≠ .scanned a) :
    Step name σ { σ with root := σ.root.pruneTombstones.1 }
  | bump {σ : State} : Step name σ { σ with root := σ.root.bump }

/-- A full-index root on which no query through the cursor has started. -/
structure Start (σ : State) : Prop where
  reached : ∃ env, Root.Reached env σ.root
  full : σ.root.jjEvents = false
  batch : σ.batch = none
  queries : ∀ q, σ.queries q = .idle
  answers : σ.answers = []

/-- No change is reported by two answers. -/
def ReportsOnce (σ : State) : Prop :=
  σ.answers.Pairwise fun a b => ∀ p o, ¬ (a.Reports p o ∧ b.Reports p o)

/-- The step lets no query read the cursor while another is between its read and its store. -/
def NoOverlap (σ σ' : State) : Prop :=
  ∀ q, σ.queries q = .idle → σ'.queries q ≠ .idle → ∀ q', σ.queries q' = .idle

/-! ## A query that is not interrupted -/

/-- To store the cursor where it is changes no answer. -/
theorem run_setCursor_cursorTick {name : String} (env : Env) {spec : QuerySpec}
    (hspec : spec.since = some (.named name)) (r : Root) :
    (run env spec (r.setCursor name (r.cursorTick name))).1 = (run env spec r).1 := by
  have hcursor : (r.setCursor name (r.cursorTick name)).cursorTick name = r.cursorTick name :=
    Root.cursorTick_setCursor r name _
  have hsince : sinceTick (r.setCursor name (r.cursorTick name)) spec = sinceTick r spec := by
    rw [sinceTick_named hspec, sinceTick_named hspec, hcursor]
  have hfresh : IsFresh (r.setCursor name (r.cursorTick name)) spec ↔ IsFresh r spec := by
    unfold IsFresh
    rw [hsince, clockTick_named hspec, clockTick_named hspec, hcursor]
    rfl
  have hrows : rows env (r.setCursor name (r.cursorTick name)) spec = rows env r spec := by
    unfold rows
    rw [hsince]
    rfl
  unfold run
  rw [resolveNamedCursor_named hspec, resolveNamedCursor_named hspec]
  simp only [hfresh, hrows]
  rfl

/-- The three steps of a query in a row are `Query.run`; in between the query is under way, and where
the other queries are does not change. -/
theorem steps_of_query {name : String} (q : ℕ) (env : Env) {spec : QuerySpec}
    (hspec : spec.since = some (.named name)) {σ : State} (hq : σ.queries q = .idle)
    (hidle : σ.batch = none) :
    ∃ a s₁ s₂, a.result = (run env spec σ.root).1 ∧ Step name σ s₁ ∧ Step name s₁ s₂ ∧
      Step name s₂ { σ with root := (run env spec σ.root).2, answers := a :: σ.answers } ∧
      (s₁.queries q ≠ .idle ∧ s₂.queries q ≠ .idle) ∧
      ∀ q', q' ≠ q → s₁.queries q' = σ.queries q' ∧ s₂.queries q' = σ.queries q' := by
  obtain ⟨root, batch, queries, answers⟩ := σ
  dsimp only at hq hidle
  have hback : Function.update queries q .idle = queries := by
    rw [← hq, Function.update_eq_self]
  have hscan : Step name
      ⟨root, batch, Function.update queries q (.resolved env spec (root.cursorTick name)), answers⟩
      ⟨root, batch, _, answers⟩ := .scan q (Function.update_self ..) hidle
  have hstore : Step name
      ⟨root, batch, Function.update queries q
        (.scanned ⟨env, spec, root.setCursor name (root.cursorTick name)⟩), answers⟩ _ :=
    .store q (Function.update_self ..)
  rw [Function.update_idem] at hscan
  simp only [Function.update_idem, hback] at hstore
  rw [root_run_named hspec]
  refine ⟨⟨env, spec, root.setCursor name (root.cursorTick name)⟩, _, _,
    run_setCursor_cursorTick env hspec root, .resolve q env spec hq hspec, hscan, hstore,
    ⟨?_, ?_⟩, fun q' hq' => ⟨Function.update_of_ne hq' .., Function.update_of_ne hq' ..⟩⟩
  · show Function.update queries q _ q ≠ _
    rw [Function.update_self]
    rintro ⟨⟩
  · show Function.update queries q _ q ≠ _
    rw [Function.update_self]
    rintro ⟨⟩

theorem run_uninterrupted {name : String} (q : ℕ) (env : Env) {spec : QuerySpec}
    (hspec : spec.since = some (.named name)) {σ : State} (hq : σ.queries q = .idle)
    (hidle : σ.batch = none) :
    ∃ a, a.result = (run env spec σ.root).1 ∧
      Run (Step name) σ { σ with root := (run env spec σ.root).2, answers := a :: σ.answers } := by
  obtain ⟨a, s₁, s₂, hresult, hresolve, hscan, hstore, -⟩ := steps_of_query q env hspec hq hidle
  exact ⟨a, hresult, .tail (.tail (.single hresolve) hscan) hstore⟩

theorem run_alone {name : String} (env : Env) {spec : QuerySpec}
    (hspec : spec.since = some (.named name)) {σ : State} (hqueries : ∀ q, σ.queries q = .idle)
    (hidle : σ.batch = none) :
    ∃ a, a.result = (run env spec σ.root).1 ∧
      Run (fun s s' => Step name s s' ∧ NoOverlap s s') σ
        { σ with root := (run env spec σ.root).2, answers := a :: σ.answers } := by
  obtain ⟨a, s₁, s₂, hresult, hresolve, hscan, hstore, ⟨hbusy₁, hbusy₂⟩, hothers⟩ :=
    steps_of_query 0 env hspec (hqueries 0) hidle
  refine ⟨a, hresult, .tail (.tail (.single ⟨hresolve, fun _ _ _ => hqueries⟩) ⟨hscan, ?_⟩)
    ⟨hstore, fun q _ hnew => absurd (hqueries q) hnew⟩⟩
  intro q hq hnew
  have hne : q ≠ 0 := by
    rintro rfl
    exact hbusy₁ hq
  rw [(hothers q hne).2, hqueries] at hnew
  exact absurd rfl hnew

/-! ## The invariant -/

/-- What the query at `q` may rely on: the cursor is still where it read it. -/
def Phase.Sound (name : String) (r : Root) : Phase → Prop
  | .idle => True
  | .resolved _ spec tick => spec.since = some (.named name) ∧ tick = r.cursorTick name
  | .scanned a => a.spec.since = some (.named name) ∧
    a.root.cursorTick name = r.cursorTick name ∧ r.cursorTick name ≤ a.root.clock.ticks ∧
    a.root.clock.ticks ≤ r.clock.ticks ∧
    ∀ p e, a.root.tree.get p = some e → e.oclock ≤ a.root.clock.ticks

structure Inv (name : String) (σ : State) : Prop where
  ticked : σ.root.WellTicked
  writing : ∀ tick rest, σ.batch = some (tick, rest) →
    1 ≤ tick ∧ σ.root.oldestAvailableTick ≤ tick ∧ tick ≤ σ.root.clock.ticks
  cursor_le : σ.root.cursorTick name ≤ σ.root.clock.ticks
  alone : ∀ q q', σ.queries q ≠ .idle → σ.queries q' ≠ .idle → q = q'
  sound : ∀ q, (σ.queries q).Sound name σ.root
  reported_le : ∀ a ∈ σ.answers, ∀ p o, a.Reports p o → o ≤ σ.root.cursorTick name
  once : ReportsOnce σ

section Steps

variable {name : String} {σ : State}

theorem Phase.Sound.mono {r r' : Root} {ph : Phase} (h : ph.Sound name r)
    (hcursors : r'.cursors = r.cursors) (hticks : r.clock.ticks ≤ r'.clock.ticks) :
    ph.Sound name r' := by
  have hcursor := congrFun (Root.cursorTick_of_cursors hcursors) name
  cases ph with
  | idle => trivial
  | resolved env spec tick => exact ⟨h.1, h.2.trans hcursor.symm⟩
  | scanned a =>
    obtain ⟨hspec, hsame, hle, hnow, hentries⟩ := h
    exact ⟨hspec, hsame.trans hcursor.symm, hcursor.trans_le hle, hnow.trans hticks, hentries⟩

theorem Inv.kept (h : Inv name σ) {r' : Root} {batch : Option (ℕ × List PathChange)}
    (hticked : r'.WellTicked) (hcursors : r'.cursors = σ.root.cursors)
    (hticks : σ.root.clock.ticks ≤ r'.clock.ticks)
    (hwriting : ∀ tick rest, batch = some (tick, rest) →
      1 ≤ tick ∧ r'.oldestAvailableTick ≤ tick ∧ tick ≤ r'.clock.ticks) :
    Inv name { σ with root := r', batch := batch } := by
  have hcursor := congrFun (Root.cursorTick_of_cursors hcursors) name
  refine ⟨hticked, hwriting, ?_, h.alone, fun q => (h.sound q).mono hcursors hticks, ?_, h.once⟩
  · exact hcursor.trans_le (h.cursor_le.trans hticks)
  · intro a ha p o hreports
    exact (h.reported_le a ha p o hreports).trans_eq hcursor.symm

theorem alone_update {q : ℕ} (hq : ∀ q', σ.queries q' ≠ .idle → q' = q) {ph : Phase} :
    ∀ q₁ q₂, Function.update σ.queries q ph q₁ ≠ .idle →
      Function.update σ.queries q ph q₂ ≠ .idle → q₁ = q₂ := by
  have hall : ∀ q', Function.update σ.queries q ph q' ≠ .idle → q' = q := by
    intro q' hne
    by_contra hq'
    rw [Function.update_of_ne hq'] at hne
    exact hq' (hq q' hne)
  intro q₁ q₂ h₁ h₂
  rw [hall q₁ h₁, hall q₂ h₂]

theorem Inv.resolve (h : Inv name σ) (q : ℕ) (env : Env) {spec : QuerySpec}
    (hspec : spec.since = some (.named name)) (hidle : ∀ q', σ.queries q' = .idle) :
    Inv name { σ with
      queries := Function.update σ.queries q (.resolved env spec (σ.root.cursorTick name)) } := by
  refine { h with
    alone := alone_update fun q' hne => absurd (hidle q') hne
    sound := ?_ }
  exact (Function.forall_update_iff σ.queries fun _ ph => ph.Sound name σ.root).mpr
    ⟨⟨hspec, rfl⟩, fun q' _ => h.sound q'⟩

theorem Inv.scan (h : Inv name σ) {q : ℕ} {env : Env} {spec : QuerySpec} {tick : ℕ}
    (hq : σ.queries q = .resolved env spec tick) :
    Inv name { σ with
      queries := Function.update σ.queries q
        (.scanned ⟨env, spec, σ.root.setCursor name tick⟩) } := by
  have hsound := h.sound q
  rw [hq] at hsound
  obtain ⟨hspec, rfl⟩ := hsound
  refine { h with
    alone := alone_update fun q' hne => h.alone q' q hne (by rw [hq]; rintro ⟨⟩)
    sound := ?_ }
  refine (Function.forall_update_iff σ.queries fun _ ph => ph.Sound name σ.root).mpr
    ⟨⟨hspec, Root.cursorTick_setCursor _ _ _, h.cursor_le, le_rfl, ?_⟩, fun q' _ => h.sound q'⟩
  exact fun p e he => (h.ticked.entries p e he).2.2

theorem Phase.Sound.reports_within {a : Answer} {r : Root} (h : (Phase.scanned a).Sound name r)
    {p : RelPath} {o : ℕ} (hreports : a.Reports p o) :
    r.cursorTick name < o ∧ o ≤ a.root.clock.ticks := by
  obtain ⟨hspec, hsame, -, -, hentries⟩ := h
  obtain ⟨e, shown, he, rfl, hpast, -⟩ := hreports
  rw [sinceTick_named hspec, hsame] at hpast
  exact ⟨hpast _ rfl, hentries p e he⟩

theorem Inv.store (h : Inv name σ) {q : ℕ} {a : Answer} (hq : σ.queries q = .scanned a) :
    Inv name { σ with
      root := σ.root.setCursor name a.root.clock.ticks
      queries := Function.update σ.queries q .idle
      answers := a :: σ.answers } ∧
    σ.root.cursorTick name ≤ a.root.clock.ticks := by
  have hsound := h.sound q
  rw [hq] at hsound
  have hle := hsound.2.2.1
  have hcursor := Root.cursorTick_setCursor σ.root name a.root.clock.ticks
  have hothers : ∀ q', σ.queries q' ≠ .idle → q' = q :=
    fun q' hne => h.alone q' q hne (by rw [hq]; rintro ⟨⟩)
  refine ⟨⟨⟨h.ticked.oldest_le, h.ticked.entries⟩, h.writing, ?_, alone_update hothers, ?_, ?_,
    ?_⟩, hle⟩
  · rw [hcursor]
    exact hsound.2.2.2.1
  · refine (Function.forall_update_iff σ.queries
      fun _ ph => ph.Sound name (σ.root.setCursor name a.root.clock.ticks)).mpr ⟨trivial, ?_⟩
    intro q' hne
    have hidle : σ.queries q' = .idle := by
      by_contra hbusy
      exact hne (hothers q' hbusy)
    rw [hidle]
    trivial
  · rw [hcursor]
    refine List.forall_mem_cons.mpr ⟨fun p o hreports => (hsound.reports_within hreports).2, ?_⟩
    exact fun b hb p o hreports => (h.reported_le b hb p o hreports).trans hle
  · refine List.pairwise_cons.mpr ⟨?_, h.once⟩
    rintro b hb p o ⟨hnew, hold⟩
    have hlt := (hsound.reports_within hnew).1
    have hge := h.reported_le b hb p o hold
    omega

/-- One step in which no two queries overlap keeps the invariant and does not move the cursor
back. -/
theorem Inv.step {σ' : State} (h : Inv name σ) (hs : Step name σ σ') (ho : NoOverlap σ σ') :
    Inv name σ' ∧ σ.root.cursorTick name ≤ σ'.root.cursorTick name := by
  cases hs with
  | resolve q env spec hq hspec =>
    refine ⟨h.resolve q env hspec (ho q hq ?_), le_rfl⟩
    show Function.update σ.queries q _ q ≠ .idle
    rw [Function.update_self]
    rintro ⟨⟩
  | scan q hq hidle => exact ⟨h.scan hq, le_rfl⟩
  | store q hq =>
    obtain ⟨hinv, hle⟩ := h.store hq
    refine ⟨hinv, ?_⟩
    rw [Root.cursorTick_setCursor]
    exact hle
  | openBatch arenaBytes changes hidle hunlocked =>
    have hticked := h.ticked.openBatch arenaBytes
    have hcursors := Root.cursors_openBatch arenaBytes σ.root
    have hclock := Root.clock_openBatch arenaBytes σ.root
    refine ⟨h.kept hticked hcursors ?_ ?_, ?_⟩
    · rw [hclock]
      exact Nat.le_succ _
    · rintro tick rest ⟨rfl, rfl⟩
      have hold := hticked.oldest_le
      rw [hclock] at hold ⊢
      exact ⟨Clock.one_le_bump _, hold, le_rfl⟩
    · rw [Root.cursorTick_of_cursors hcursors]
  | writeChange hb =>
    obtain ⟨h1, hold, hnow⟩ := h.writing _ _ hb
    refine ⟨h.kept (h.ticked.writeChange h1 hold hnow _) rfl le_rfl ?_, le_rfl⟩
    rintro tick rest ⟨rfl, rfl⟩
    exact ⟨h1, hold, hnow⟩
  | release hb => exact ⟨h.kept h.ticked rfl le_rfl (by rintro tick rest ⟨⟩), le_rfl⟩
  | sweep hidle hunlocked =>
    obtain ⟨hcursors, hclock⟩ := Root.cursors_pruneTombstones σ.root
    have hticked := h.ticked.step (Root.Step.sweep σ.root : Root.Step emptyEnv _ _)
    refine ⟨h.kept hticked hcursors (by rw [hclock]) ?_, ?_⟩
    · intro tick rest hb
      rw [hidle] at hb
      cases hb
    · rw [Root.cursorTick_of_cursors hcursors]
  | bump =>
    have hticked := h.ticked.step (Root.Step.bump σ.root : Root.Step emptyEnv _ _)
    refine ⟨h.kept hticked rfl (Nat.le_succ _) ?_, le_rfl⟩
    intro tick rest hb
    obtain ⟨h1, hold, hnow⟩ := h.writing tick rest hb
    exact ⟨h1, hold, Nat.le_succ_of_le hnow⟩

theorem Inv.start (h : Start σ) : Inv name σ := by
  obtain ⟨env, hreached⟩ := h.reached
  refine ⟨hreached.wellTicked, ?_, hreached.cursorTick_le name, ?_, ?_, ?_, ?_⟩
  · intro tick rest hb
    rw [h.batch] at hb
    cases hb
  · exact fun q q' hne => absurd (h.queries q) hne
  · intro q
    rw [h.queries q]
    trivial
  · rw [h.answers]
    simp
  · unfold ReportsOnce
    rw [h.answers]
    exact .nil

end Steps

/-- **Sharing a cursor.** In every run in which no query through the cursor reads it while another
is between its read and its store, the cursor never moves back and no change is reported by two of
the queries. -/
theorem cursor_advances (name : String) {σ₀ σ σ' : State} (hstart : Start σ₀)
    (hrun : Run (fun s s' => Step name s s' ∧ NoOverlap s s') σ₀ σ)
    (hrun' : Run (fun s s' => Step name s s' ∧ NoOverlap s s') σ σ') :
    σ.root.cursorTick name ≤ σ'.root.cursorTick name ∧ ReportsOnce σ' := by
  have hinv : Inv name σ := by
    refine hrun.preserves ?_ (Inv.start hstart)
    exact fun s s' h hs => (h.step hs.1 hs.2).1
  have hboth : Inv name σ' ∧ σ.root.cursorTick name ≤ σ'.root.cursorTick name := by
    have hstep : ∀ s s', Inv name s ∧ σ.root.cursorTick name ≤ s.root.cursorTick name →
        Step name s s' ∧ NoOverlap s s' →
        Inv name s' ∧ σ.root.cursorTick name ≤ s'.root.cursorTick name := by
      rintro s s' ⟨h, hle⟩ ⟨hs, ho⟩
      obtain ⟨h', hle'⟩ := h.step hs ho
      exact ⟨h', hle.trans hle'⟩
    exact hrun'.preserves hstep ⟨hinv, le_rfl⟩
  exact ⟨hboth.2, hboth.1.once⟩

/-! ## Two queries of one cursor -/

/-- A root with the one file `a` and no query under way. -/
def oneFileState : State := ⟨oneFile, none, fun _ => .idle, []⟩

theorem start_oneFileState : Start oneFileState :=
  ⟨⟨emptyEnv, reached_oneFile⟩, rfl, rfl, fun _ => rfl, rfl⟩

/-- The answer to a query that read the cursor before any was stored. -/
def fromZero : Answer := ⟨emptyEnv, sinceCursor, oneFile.setCursor "x" 0⟩

/-- The file is reported through the cursor, removed, and reported as gone. -/
theorem cursor_advances_oneFile :
    ∃ σ σ' : State, (σ.root.cursorTick "x" = 2 ∧ σ'.root.cursorTick "x" = 3 ∧ σ'.answers.length = 2) ∧
      σ.root.cursorTick "x" ≤ σ'.root.cursorTick "x" ∧ ReportsOnce σ' := by
  have hspec : sinceCursor.since = some (.named "x") := rfl
  obtain ⟨a, -, hfirst⟩ := run_alone emptyEnv hspec start_oneFileState.queries rfl
  have hquiet : ∀ s s' : State, s'.queries = s.queries → NoOverlap s s' := by
    intro s s' hsame q hq hnew
    exact absurd (hsame ▸ hq) hnew
  have h₀ : Run (fun s s' => Step "x" s s' ∧ NoOverlap s s')
      ⟨(run emptyEnv sinceCursor oneFile).2, none, fun _ => .idle, [a]⟩ _ := .refl
  have h₁ := h₀.tail ⟨.openBatch 0 [.remove [[0x61]]] rfl (by rintro q a ⟨⟩), hquiet _ _ rfl⟩
  have h₂ := h₁.tail ⟨.writeChange rfl, hquiet _ _ rfl⟩
  have h₃ := h₂.tail ⟨.release rfl, hquiet _ _ rfl⟩
  obtain ⟨b, -, hsecond⟩ := @run_alone "x" emptyEnv sinceCursor hspec
    ⟨_, none, fun _ => .idle, [a]⟩ (fun _ => rfl) rfl
  refine ⟨_, _, ⟨rfl, ?_, rfl⟩,
    cursor_advances "x" start_oneFileState hfirst (h₃.trans hsecond)⟩
  rw [root_run_named hspec, Root.cursorTick_setCursor]
  rfl

theorem fromZero_reports : fromZero.Reports [[0x61]] 2 := by
  obtain ⟨e, he, hoclock⟩ : ∃ e, fromZero.root.tree.get [[0x61]] = some e ∧ e.oclock = 2 :=
    ⟨_, rfl, rfl⟩
  have hpast : Past (sinceTick fromZero.root fromZero.spec) e := by
    intro t ht
    have hzero : sinceTick fromZero.root fromZero.spec = some 0 := by decide
    rw [hzero] at ht
    cases ht
    omega
  have hselect : select fromZero.env fromZero.root fromZero.spec [[0x61]] e = some [[0x61]] := rfl
  exact ⟨e, [[0x61]], he, hoclock, hpast, hselect, mem_files (by decide) he hpast hselect⟩

/-- Two queries read the cursor before either stores it, and both report the file. -/
theorem overlapping_queries_report_twice :
    Start oneFileState ∧ ∃ σ, Run (Step "x") oneFileState σ ∧ ¬ ReportsOnce σ := by
  have hrun : ∃ σ, Run (Step "x") oneFileState σ ∧ σ.answers = [fromZero, fromZero] :=
    ⟨_, .head (.resolve 0 emptyEnv sinceCursor rfl rfl)
      (.head (.resolve 1 emptyEnv sinceCursor rfl rfl)
        (.head (.scan 0 rfl rfl)
          (.head (.scan 1 rfl rfl)
            (.head (.store 0 rfl) (.single (.store 1 rfl)))))), rfl⟩
  obtain ⟨σ, hrun, hanswers⟩ := hrun
  refine ⟨start_oneFileState, σ, hrun, ?_⟩
  unfold ReportsOnce
  rw [hanswers, List.pairwise_pair]
  intro honce
  exact honce [[0x61]] 2 ⟨fromZero_reports, fromZero_reports⟩

end Watchwoman.CursorRaces
