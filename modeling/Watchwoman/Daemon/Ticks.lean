import Watchwoman.Daemon.RootRuns

/-!
# Ticks under interleaving

What takes the tree's write lock runs as a sequence of atomic actions: it bumps the clock, replaces
or writes the tree, stores `oldest_available_tick` and the mode. In between, other threads bump the
clock (the `clock` command) and store cursors (queries), neither of which waits for the lock.

The counters of `State` other than the root only record: how often the lock was taken, how often the
tree was replaced, and which tick the holder of which lock was handed.
-/

namespace Watchwoman.Ticks

open Transition

/-- What takes the tree's write lock. The watermark of a sweep is read off the clock and the cursors
before the lock is taken, and may be out of date by then: it is any number here. -/
inductive Op where
  | seed (entries : List ScanEntry)
  | batch (arenaBytes : ℕ) (changes : List PathChange)
  | invalidate
  | promote (entries : List ScanEntry)
  | sweep (watermark : ℕ)

/-- One atomic action of the holder of the lock. -/
inductive Act where
  /-- `*tree = …` -/
  | replace (tree : Tree)
  /-- `oldest_available_tick.store(tick)` -/
  | store
  /-- One round of the loop of `apply_changes`. -/
  | write (c : PathChange)
  /-- `jj_events.store(false)` -/
  | storeMode

/-- What an action of the holder of `tick` does to the root. -/
def Act.run (tick : ℕ) (r : Root) : Act → Root
  | .replace tree => { r with tree }
  | .store => { r with oldestAvailableTick := tick }
  | .write c => r.writeChange tick c
  | .storeMode => { r with jjEvents := false }

@[simp] theorem Act.clock_run (tick : ℕ) (r : Root) (a : Act) :
    (a.run tick r).clock = r.clock := by
  cases a <;> rfl

def Act.replaced : Act → ℕ
  | .replace _ => 1
  | _ => 0

/-- What is checked before the lock is taken: a promotion, which runs alone under `mode_transition`,
and a sweep ask for the mode, which only a promotion changes. -/
def Op.Ready (r : Root) : Op → Prop
  | .promote _ => r.jjEvents = true
  | .sweep _ => r.jjEvents = false
  | _ => True

/-- Under the lock, the operation goes on to bump the clock. -/
def Op.Stamps (r : Root) : Op → Prop
  | .invalidate => r.jjEvents = true
  | .sweep _ => False
  | _ => True

/-- What follows the bump. -/
def Op.script (tick : ℕ) (r : Root) : Op → List Act
  | .seed entries => [.replace (Root.crawled entries tick)]
  | .batch arenaBytes changes =>
    (if Root.IndexFull arenaBytes r then [.replace Tree.new, .store] else []) ++ changes.map .write
  | .invalidate => [.replace Tree.new, .store]
  | .promote entries => [.replace (Root.crawled entries tick), .store, .storeMode]
  | .sweep _ => []

/-- Who holds the write lock. -/
inductive Writer where
  | free
  | locked (op : Op)
  /-- The clock was bumped to `tick`, and `acts` are still to run. -/
  | stamped (tick : ℕ) (acts : List Act)

structure State where
  root : Root
  writer : Writer
  /-- How often the write lock was taken. -/
  locks : ℕ
  /-- How often the tree was replaced. -/
  replacements : ℕ
  /-- For each operation that bumped the clock under the lock: the number of its lock and its tick,
  the last one at the end. -/
  stamps : List (ℕ × ℕ)

/-- One step of the system. -/
inductive Step : State → State → Prop
  | lock (op : Op) {σ : State} (hfree : σ.writer = .free) (hready : op.Ready σ.root) :
    Step σ { σ with writer := .locked op, locks := σ.locks + 1 }
  | stamp {op : Op} {σ : State} (hw : σ.writer = .locked op) (hop : op.Stamps σ.root) :
    Step σ { σ with
      root := σ.root.bump
      writer := .stamped σ.root.bump.clock.ticks (op.script σ.root.bump.clock.ticks σ.root)
      stamps := σ.stamps ++ [(σ.locks, σ.root.bump.clock.ticks)] }
  | act {tick : ℕ} {a : Act} {acts : List Act} {σ : State}
    (hw : σ.writer = .stamped tick (a :: acts)) :
    Step σ { σ with
      root := a.run tick σ.root
      writer := .stamped tick acts
      replacements := σ.replacements + a.replaced }
  | sweep {watermark : ℕ} {σ : State} (hw : σ.writer = .locked (.sweep watermark)) :
    Step σ { σ with
      root := { σ.root with tree := (σ.root.tree.pruneTombstonesBefore watermark).1 }
      writer := .free }
  | decline {σ : State} (hw : σ.writer = .locked .invalidate) (hfull : σ.root.jjEvents = false) :
    Step σ { σ with writer := .free }
  | unlock {tick : ℕ} {σ : State} (hw : σ.writer = .stamped tick []) :
    Step σ { σ with writer := .free }
  | bump (σ : State) : Step σ { σ with root := σ.root.bump }
  | setCursor (name : String) (tick : ℕ) (σ : State) :
    Step σ { σ with root := σ.root.setCursor name tick }

/-- A new root with its lock free. -/
def Initial (σ : State) : Prop := ∃ r : Root, r.IsNew ∧ σ = ⟨r, .free, 0, 0, []⟩

def Reached : State → Prop := Reachable Initial Step

/-! ## The ticks of a tree -/

/-- The ticks of every entry are in order, lie in `[oldest, now]` and were handed out under the
lock. -/
def Dated (oldest now : ℕ) (used : List ℕ) (t : Tree) : Prop :=
  ∀ p e, t.get p = some e →
    oldest ≤ e.cclock ∧ e.cclock ≤ e.oclock ∧ e.oclock ≤ now ∧ e.cclock ∈ used ∧ e.oclock ∈ used

/-- Every entry was created and last changed at `tick`. -/
def Fresh (tick : ℕ) (t : Tree) : Prop :=
  ∀ p e, t.get p = some e → e.cclock = tick ∧ e.oclock = tick

theorem Dated.mono {oldest now now' : ℕ} {used used' : List ℕ} {t : Tree}
    (h : Dated oldest now used t) (hnow : now ≤ now') (hused : ∀ n ∈ used, n ∈ used') :
    Dated oldest now' used' t := by
  intro p e he
  obtain ⟨hold, hle, hnew, hc, ho⟩ := h p e he
  exact ⟨hold, hle, hnew.trans hnow, hused _ hc, hused _ ho⟩

theorem Fresh.dated {oldest tick : ℕ} {used : List ℕ} {t : Tree} (h : Fresh tick t)
    (hold : oldest ≤ tick) (hused : tick ∈ used) : Dated oldest tick used t := by
  intro p e he
  obtain ⟨hc, ho⟩ := h p e he
  rw [hc, ho]
  exact ⟨hold, le_rfl, le_rfl, hused, hused⟩

theorem Fresh.new (tick : ℕ) : Fresh tick Tree.new := by
  intro p e he
  simp at he

theorem Fresh.crawled (tick : ℕ) (entries : List ScanEntry) :
    Fresh tick (Root.crawled entries tick) := by
  have hfold : ∀ (l : List ScanEntry) (t : Tree), Fresh tick t →
      Fresh tick (l.foldl (fun t e => t.upsert e.1 e.2.1 e.2.2 tick false tick) t) := by
    intro l
    induction l with
    | nil => exact fun t ht => ht
    | cons x l ih =>
      intro t ht
      apply ih
      intro p e he
      rw [Tree.get_upsert] at he
      split_ifs at he
      · obtain rfl := Option.some.inj he
        exact ⟨rfl, rfl⟩
      · exact ht p e he
  exact hfold entries Tree.new (.new tick)

/-- A change of `tick` dates the entry of its path to `tick` and leaves the others alone. -/
theorem Dated.applyChange {oldest tick : ℕ} {used : List ℕ} {t : Tree} {jj : Bool}
    (h : Dated oldest tick used t) (hold : oldest ≤ tick) (hused : tick ∈ used) (c : PathChange) :
    Dated oldest tick used (Root.applyChange jj tick t c) := by
  intro p e he
  have hcclock := Root.cclock_applyChange he
  by_cases hp : p = c.rel
  · subst hp
    have hoclock := (Root.get_applyChange_rel he).1
    rw [hcclock, hoclock]
    cases hget : t.get c.rel with
    | none => exact ⟨hold, le_rfl, le_rfl, hused, hused⟩
    | some e' =>
      obtain ⟨hold', hle, hnew, hc, -⟩ := h _ _ hget
      exact ⟨hold', hle.trans hnew, le_rfl, hc, hused⟩
  · rw [Root.get_applyChange_of_ne hp] at he
    exact h p e he

/-! ## What holds at every moment -/

/-- What the holder of `tick` may still have to do: it stores the tick over a new tree only. -/
inductive Script (tick : ℕ) : List Act → Prop
  | nil : Script tick []
  | write (c : PathChange) {acts : List Act} (h : Script tick acts) :
    Script tick (.write c :: acts)
  | storeMode {acts : List Act} (h : Script tick acts) : Script tick (.storeMode :: acts)
  | replace {tree : Tree} {acts : List Act} (hfresh : Fresh tick tree) (h : Script tick acts) :
    Script tick (.replace tree :: acts)
  | reset {tree : Tree} {acts : List Act} (hfresh : Fresh tick tree) (h : Script tick acts) :
    Script tick (.replace tree :: .store :: acts)

theorem Script.writes (tick : ℕ) (changes : List PathChange) :
    Script tick (changes.map .write) := by
  induction changes with
  | nil => exact .nil
  | cons c changes ih => exact .write c ih

theorem Op.script_ok (tick : ℕ) (r : Root) (op : Op) : Script tick (op.script tick r) := by
  cases op with
  | seed entries => exact .replace (.crawled tick entries) .nil
  | batch arenaBytes changes =>
    simp only [Op.script]
    split_ifs
    · exact .reset (.new tick) (.writes tick changes)
    · exact .writes tick changes
  | invalidate => exact .reset (.new tick) .nil
  | promote entries => exact .reset (.crawled tick entries) (.storeMode .nil)
  | sweep watermark => exact .nil

def State.used (σ : State) : List ℕ := σ.stamps.map Prod.snd

/-- The holder of the lock has `tick` and `acts` still to run. -/
structure Holds (σ : State) (tick : ℕ) (acts : List Act) : Prop where
  oldest_le : σ.root.oldestAvailableTick ≤ tick
  le_now : tick ≤ σ.root.clock.ticks
  used : tick ∈ σ.used
  oldest_used : σ.root.oldestAvailableTick ∈ 0 :: σ.used
  -- no entry is newer than the holder's tick, whatever the clock says by now
  dated : Dated σ.root.oldestAvailableTick tick σ.used σ.root.tree
  script : Script tick acts ∨
    ∃ rest, acts = .store :: rest ∧ Script tick rest ∧ Fresh tick σ.root.tree

/-- What is known of the holder of the lock. -/
def WriterOk (σ : State) : Prop :=
  match σ.writer with
  | .free => True
  | .locked _ => ∀ a ∈ σ.stamps, a.1 < σ.locks
  | .stamped tick acts => Holds σ tick acts

/-- An operation that takes the lock later is handed a later tick. -/
def Ordered (stamps : List (ℕ × ℕ)) : Prop :=
  stamps.Pairwise fun a b => a.1 < b.1 ∧ a.2 < b.2

structure Inv (σ : State) : Prop where
  oldest_le : σ.root.oldestAvailableTick ≤ σ.root.clock.ticks
  oldest_used : σ.root.oldestAvailableTick ∈ 0 :: σ.used
  dated : Dated σ.root.oldestAvailableTick σ.root.clock.ticks σ.used σ.root.tree
  stamps_le : ∀ a ∈ σ.stamps, a.1 ≤ σ.locks ∧ a.2 ≤ σ.root.clock.ticks
  ordered : Ordered σ.stamps
  writer : WriterOk σ

theorem Inv.holds {σ : State} {tick : ℕ} {acts : List Act} (h : Inv σ)
    (hw : σ.writer = .stamped tick acts) : Holds σ tick acts := by
  have hwriter := h.writer
  unfold WriterOk at hwriter
  rw [hw] at hwriter
  exact hwriter

theorem Holds.inv {σ : State} {tick : ℕ} {acts : List Act} (h : Holds σ tick acts)
    (hw : σ.writer = .stamped tick acts)
    (hstamps : ∀ a ∈ σ.stamps, a.1 ≤ σ.locks ∧ a.2 ≤ σ.root.clock.ticks)
    (hordered : Ordered σ.stamps) : Inv σ where
  oldest_le := h.oldest_le.trans h.le_now
  oldest_used := h.oldest_used
  dated := h.dated.mono h.le_now fun _ hn => hn
  stamps_le := hstamps
  ordered := hordered
  writer := by
    unfold WriterOk
    rw [hw]
    exact h

theorem Holds.act {σ : State} {tick n : ℕ} {a : Act} {acts : List Act}
    (h : Holds σ tick (a :: acts)) :
    Holds { σ with
      root := a.run tick σ.root
      writer := .stamped tick acts
      replacements := n } tick acts := by
  obtain ⟨hold, hnow, hused, hreset, hdated, hscript⟩ := h
  rcases hscript with hscript | ⟨rest, hacts, hrest, hfresh⟩
  · cases hscript with
    | write c hrest => exact ⟨hold, hnow, hused, hreset, hdated.applyChange hold hused c, .inl hrest⟩
    | storeMode hrest => exact ⟨hold, hnow, hused, hreset, hdated, .inl hrest⟩
    | replace hfresh hrest =>
      exact ⟨hold, hnow, hused, hreset, hfresh.dated hold hused, .inl hrest⟩
    | reset hfresh hrest =>
      exact ⟨hold, hnow, hused, hreset, hfresh.dated hold hused, .inr ⟨_, rfl, hrest, hfresh⟩⟩
  · obtain ⟨rfl, rfl⟩ := List.cons.inj hacts
    -- the tick is stored over a tree that has no other
    exact ⟨le_rfl, hnow, hused, List.mem_cons_of_mem 0 hused, hfresh.dated le_rfl hused, .inl hrest⟩

/-- The bump under the lock: the new tick is later than every one before it. -/
theorem Inv.stamp {σ : State} {op : Op} (h : Inv σ) (hw : σ.writer = .locked op) :
    Inv { σ with
      root := σ.root.bump
      writer := .stamped σ.root.bump.clock.ticks (op.script σ.root.bump.clock.ticks σ.root)
      stamps := σ.stamps ++ [(σ.locks, σ.root.bump.clock.ticks)] } := by
  have hlocks : ∀ a ∈ σ.stamps, a.1 < σ.locks := by
    have hwriter := h.writer
    unfold WriterOk at hwriter
    rw [hw] at hwriter
    exact hwriter
  have htick : σ.root.clock.ticks < σ.root.bump.clock.ticks := Nat.lt_succ_self _
  have hused : ∀ n ∈ σ.used, n ∈ (σ.stamps ++ [(σ.locks, σ.root.bump.clock.ticks)]).map Prod.snd := by
    intro n hn
    rw [List.map_append]
    exact List.mem_append_left _ hn
  refine @Holds.inv _ σ.root.bump.clock.ticks (op.script σ.root.bump.clock.ticks σ.root)
    ⟨h.oldest_le.trans htick.le, le_rfl, ?_, ?_, h.dated.mono htick.le hused,
      .inl (op.script_ok _ _)⟩ rfl ?_ ?_
  · simp [State.used]
  · rcases List.mem_cons.mp h.oldest_used with hzero | hmem
    · exact List.mem_cons.mpr (.inl hzero)
    · exact List.mem_cons_of_mem 0 (hused _ hmem)
  · intro a ha
    rcases List.mem_append.mp ha with ha | ha
    · exact ⟨(h.stamps_le a ha).1, (h.stamps_le a ha).2.trans htick.le⟩
    · obtain rfl := List.mem_singleton.mp ha
      exact ⟨le_rfl, le_rfl⟩
  · refine List.pairwise_append.mpr ⟨h.ordered, List.pairwise_singleton _ _, fun a ha b hb => ?_⟩
    obtain rfl := List.mem_singleton.mp hb
    exact ⟨hlocks a ha, (h.stamps_le a ha).2.trans_lt htick⟩

/-- What other threads do beside the holder of the lock: the tree and `oldest_available_tick` stay,
and the clock does not go back. -/
theorem Inv.beside {σ : State} {r : Root} (h : Inv σ) (htree : r.tree = σ.root.tree)
    (hold : r.oldestAvailableTick = σ.root.oldestAvailableTick)
    (hnow : σ.root.clock.ticks ≤ r.clock.ticks) : Inv { σ with root := r } where
  oldest_le := hold ▸ h.oldest_le.trans hnow
  oldest_used := hold ▸ h.oldest_used
  dated := by
    rw [hold, htree]
    exact h.dated.mono hnow fun _ hn => hn
  stamps_le a ha := ⟨(h.stamps_le a ha).1, (h.stamps_le a ha).2.trans hnow⟩
  ordered := h.ordered
  writer := by
    have hwriter := h.writer
    unfold WriterOk at hwriter ⊢
    cases hw : σ.writer with
    | free => trivial
    | locked op =>
      rw [hw] at hwriter
      exact hwriter
    | stamped tick acts =>
      rw [hw] at hwriter
      obtain ⟨hle, hbefore, hused, hreset, hdated, hscript⟩ := hwriter
      rw [← hold] at hle hreset hdated
      rw [← htree] at hdated hscript
      exact ⟨hle, hbefore.trans hnow, hused, hreset, hdated, hscript⟩

theorem Inv.step {σ σ' : State} (h : Inv σ) (hs : Step σ σ') : Inv σ' := by
  cases hs with
  | lock op hfree hready =>
    refine ⟨h.oldest_le, h.oldest_used, h.dated, fun a ha => ?_, h.ordered, fun a ha => ?_⟩
    · exact ⟨(h.stamps_le a ha).1.trans (Nat.le_succ _), (h.stamps_le a ha).2⟩
    · exact Nat.lt_succ_of_le (h.stamps_le a ha).1
  | stamp hw hop => exact h.stamp hw
  | act hw =>
    refine (h.holds hw).act.inv rfl (fun x hx => ?_) h.ordered
    simp only [Act.clock_run]
    exact h.stamps_le x hx
  | sweep hw =>
    refine ⟨h.oldest_le, h.oldest_used, fun p e he => ?_, h.stamps_le, h.ordered, trivial⟩
    exact h.dated p e ((Tree.get_prune _ _).1 he)
  | decline hw hfull => exact { h with writer := trivial }
  | unlock hw => exact { h with writer := trivial }
  | bump => exact h.beside rfl rfl (Nat.le_succ _)
  | setCursor name tick => exact h.beside rfl rfl le_rfl

theorem Reached.inv {σ : State} (h : Reached σ) : Inv σ := by
  refine Reachable.invariant ?_ (fun _ _ hinv hs => hinv.step hs) h
  rintro _ ⟨_, ⟨path, ignores, jj, number, start, pid, rfl⟩, rfl⟩
  exact ⟨Nat.zero_le _, List.mem_cons_self, fun p e he => by simp [Root.new] at he, by simp, .nil,
    trivial⟩

/-! ## From one state to a later one -/

/-- A step does not set `oldest_available_tick` back. -/
theorem Inv.oldest_le_step {σ σ' : State} (h : Inv σ) (hs : Step σ σ') :
    σ.root.oldestAvailableTick ≤ σ'.root.oldestAvailableTick := by
  cases hs with
  | @act tick a acts _ hw =>
    cases a with
    | store => exact (h.holds hw).oldest_le
    | replace tree => exact le_rfl
    | write c => exact le_rfl
    | storeMode => exact le_rfl
  | lock op hfree hready => exact le_rfl
  | stamp hw hop => exact le_rfl
  | sweep hw => exact le_rfl
  | decline hw hfull => exact le_rfl
  | unlock hw => exact le_rfl
  | bump => exact le_rfl
  | setCursor name tick => exact le_rfl

/-- A step that leaves the tree in place, with an entry for `p` behind it. -/
def Keeps (p : RelPath) (σ σ' : State) : Prop :=
  Step σ σ' ∧ σ'.replacements = σ.replacements ∧ σ'.root.tree.get p ≠ none

/-- The entry of a path keeps the tick it was created at. -/
theorem Keeps.cclock_eq {p : RelPath} {σ σ' : State} {e : FileEntry} (h : Keeps p σ σ')
    (he : σ.root.tree.get p = some e) :
    ∃ e', σ'.root.tree.get p = some e' ∧ e'.cclock = e.cclock := by
  obtain ⟨hs, hsame, hstays⟩ := h
  obtain ⟨e', he'⟩ := Option.ne_none_iff_exists'.mp hstays
  refine ⟨e', he', ?_⟩
  suffices hclock : e'.cclock = e.cclock ∨ e' = e by
    rcases hclock with hclock | rfl
    · exact hclock
    · rfl
  cases hs with
  | @act tick a acts _ hw =>
    cases a with
    | replace tree =>
      simp only [Act.replaced] at hsame
      omega
    | write c =>
      have hcclock := Root.cclock_applyChange he'
      rw [he] at hcclock
      exact .inl hcclock
    | store => exact .inr (Option.some.inj (he'.symm.trans he))
    | storeMode => exact .inr (Option.some.inj (he'.symm.trans he))
  | sweep hw =>
    have hbefore := (Tree.get_prune _ _).1 he'
    exact .inr (Option.some.inj (hbefore.symm.trans he))
  | lock op hfree hready => exact .inr (Option.some.inj (he'.symm.trans he))
  | stamp hw hop => exact .inr (Option.some.inj (he'.symm.trans he))
  | decline hw hfull => exact .inr (Option.some.inj (he'.symm.trans he))
  | unlock hw => exact .inr (Option.some.inj (he'.symm.trans he))
  | bump => exact .inr (Option.some.inj (he'.symm.trans he))
  | setCursor name tick => exact .inr (Option.some.inj (he'.symm.trans he))

/-! ## The operations in one piece -/

theorem run_acts (tick : ℕ) (acts : List Act) (r : Root) (locks replacements : ℕ)
    (stamps : List (ℕ × ℕ)) :
    ∃ replacements', Run Step ⟨r, .stamped tick acts, locks, replacements, stamps⟩
      ⟨acts.foldl (Act.run tick) r, .free, locks, replacements', stamps⟩ := by
  induction acts generalizing r replacements with
  | nil => exact ⟨replacements, .single (.unlock rfl)⟩
  | cons a acts ih =>
    obtain ⟨replacements', hrun⟩ := ih (a.run tick r) (replacements + a.replaced)
    exact ⟨replacements', .head (.act rfl) hrun⟩

theorem run_op {op : Op} {σ : State} (hfree : σ.writer = .free) (hready : op.Ready σ.root)
    (hop : op.Stamps σ.root) :
    ∃ σ', Run Step σ σ' ∧ σ'.writer = .free ∧
      σ'.root = (op.script σ.root.bump.clock.ticks σ.root).foldl
        (Act.run σ.root.bump.clock.ticks) σ.root.bump := by
  obtain ⟨n, hrun⟩ := run_acts σ.root.bump.clock.ticks
    (op.script σ.root.bump.clock.ticks σ.root) σ.root.bump (σ.locks + 1) σ.replacements
    (σ.stamps ++ [(σ.locks + 1, σ.root.bump.clock.ticks)])
  exact ⟨_, .head (.lock op hfree hready) (.head (.stamp rfl hop) hrun), rfl, rfl⟩

theorem foldl_writes (tick : ℕ) (changes : List PathChange) (r : Root) :
    (changes.map Act.write).foldl (Act.run tick) r = changes.foldl (Root.writeChange tick) r := by
  rw [List.foldl_map]
  rfl

/-- Each operation on a root is a run of the actions. -/
theorem run_of_rootStep {env : Env} {σ : State} {r' : Root} (hfree : σ.writer = .free)
    (hs : Root.Step env σ.root r') : ∃ σ', Run Step σ σ' ∧ σ'.writer = .free ∧ σ'.root = r' := by
  cases hs with
  | seed entries => exact @run_op (.seed entries) σ hfree trivial trivial
  | batch arenaBytes changes =>
    obtain ⟨σ', hrun, hw, hroot⟩ := @run_op (.batch arenaBytes changes) σ hfree trivial trivial
    refine ⟨σ', hrun, hw, hroot.trans ?_⟩
    simp only [Op.script, Root.applyChanges, Root.openBatch]
    split_ifs
    · exact foldl_writes _ changes _
    · exact foldl_writes _ changes _
  | invalidate =>
    unfold Root.invalidateJjEvents
    split_ifs with hjj
    · exact @run_op .invalidate σ hfree trivial hjj
    · have hfull : σ.root.jjEvents = false := by simpa using hjj
      exact ⟨_, .head (.lock .invalidate hfree trivial) (.single (.decline rfl hfull)), rfl, rfl⟩
  | promote entries =>
    unfold Root.promoteToFull
    split_ifs with hjj
    · exact @run_op (.promote entries) σ hfree hjj trivial
    · exact ⟨σ, .refl, hfree, rfl⟩
  | sweep =>
    unfold Root.pruneTombstones
    split_ifs with hjj
    · exact ⟨σ, .refl, hfree, rfl⟩
    · have hfull : σ.root.jjEvents = false := by simpa using hjj
      exact ⟨_, .head (.lock (.sweep σ.root.watermark) hfree hfull) (.single (.sweep rfl)), rfl, rfl⟩
  | bump => exact ⟨_, .single (.bump σ), hfree, rfl⟩
  | query spec =>
    unfold Query.run
    simp only
    split
    · exact ⟨_, .single (.setCursor _ _ σ), hfree, rfl⟩
    · exact ⟨σ, .refl, hfree, rfl⟩

theorem exists_reached {env : Env} {r : Root} (h : Root.Reached env r) :
    ∃ σ, Reached σ ∧ σ.writer = .free ∧ σ.root = r := by
  obtain ⟨r₀, hnew, hrun⟩ := h
  induction hrun with
  | refl => exact ⟨_, ⟨_, ⟨r₀, hnew, rfl⟩, .refl⟩, rfl, rfl⟩
  | tail _ hs ih =>
    obtain ⟨σ, ⟨σ₀, hinit, hrun⟩, hfree, rfl⟩ := ih
    obtain ⟨σ', hrun', hfree', hroot⟩ := run_of_rootStep hfree hs
    exact ⟨σ', ⟨σ₀, hinit, hrun.trans hrun'⟩, hfree', hroot⟩

/-- **Ticks are consistent.** Whatever runs beside whatever, every entry was created no earlier than
the index reaches back, changed no earlier than it was created and no later than now; these ticks,
and the one the index reaches back to, were handed out under the lock, later ones to later holders; the
index never reaches further back again; and a path keeps the tick it was created at for as long as
the tree is not replaced and its entry stays. -/
theorem ticks_consistent {σ : State} (h : Reached σ) :
    (∀ p e, σ.root.tree.get p = some e →
      σ.root.oldestAvailableTick ≤ e.cclock ∧ e.cclock ≤ e.oclock ∧
        e.oclock ≤ σ.root.clock.ticks ∧ e.cclock ∈ σ.used ∧ e.oclock ∈ σ.used) ∧
    σ.root.oldestAvailableTick ∈ 0 :: σ.used ∧
    Ordered σ.stamps ∧
    (∀ σ', Run Step σ σ' → σ.root.oldestAvailableTick ≤ σ'.root.oldestAvailableTick) ∧
    ∀ p e σ', σ.root.tree.get p = some e → Run (Keeps p) σ σ' →
      ∃ e', σ'.root.tree.get p = some e' ∧ e'.cclock = e.cclock := by
  have hinv := h.inv
  refine ⟨hinv.dated, hinv.oldest_used, hinv.ordered, fun σ' hrun => ?_, fun p e σ' he hrun => ?_⟩
  · induction hrun with
    | refl => exact le_rfl
    | tail hrun hs ih =>
      have hmid := Run.preserves (fun _ _ hinv hs => hinv.step hs) hrun hinv
      exact ih.trans (hmid.oldest_le_step hs)
  · induction hrun with
    | refl => exact ⟨e, he, rfl⟩
    | tail _ hk ih =>
      obtain ⟨e₁, he₁, hclock₁⟩ := ih
      obtain ⟨e₂, he₂, hclock₂⟩ := hk.cclock_eq he₁
      exact ⟨e₂, he₂, hclock₂.trans hclock₁⟩

/-- An event root has removed `a` in a batch that was handed tick 3: the `clock` command got tick 2
between its lock and its bump. -/
def besideBump : State where
  root := ((Root.new [] .default true 1 0 0).bump.bump).writeChange 3 (.remove [[0x61]])
  writer := .stamped 3 []
  locks := 1
  replacements := 0
  stamps := [(1, 3)]

theorem reached_besideBump : Reached besideBump := by
  refine ⟨⟨Root.new [] .default true 1 0 0, .free, 0, 0, []⟩,
    ⟨_, ⟨[], .default, true, 1, 0, 0, rfl⟩, rfl⟩, ?_⟩
  refine .head (.lock (.batch 0 [.remove [[0x61]]]) rfl trivial) ?_
  refine .head (.bump _) ?_
  refine .head (.stamp rfl trivial) ?_
  exact .single (@Step.act 3 (.write (.remove [[0x61]])) [] _ rfl)

theorem ticks_consistent_besideBump :
    besideBump.root.tree.get [[0x61]] = some (.missing 3) ∧
    (∀ p e, besideBump.root.tree.get p = some e →
      besideBump.root.oldestAvailableTick ≤ e.cclock ∧ e.cclock ≤ e.oclock ∧
        e.oclock ≤ besideBump.root.clock.ticks ∧ e.cclock ∈ besideBump.used ∧
        e.oclock ∈ besideBump.used) ∧
    Ordered besideBump.stamps :=
  have h := ticks_consistent reached_besideBump
  ⟨by decide, h.1, h.2.2.1⟩

end Watchwoman.Ticks
