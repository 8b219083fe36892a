import Watchwoman.Daemon.Watcher

/-!
# The tree converges to the disk

For each path the batch at work and the events on the way are a sequence of writes. The invariant
says of every path that no event on the way is about that the tree, once the batch is applied, is
right about it; and of every path whose last event is a removal that it is gone.
-/

namespace Watchwoman.Watcher

open Transition LastWrite

/-! ## What is live after a crawl and after a batch -/

/-- The tree has a live entry for the path. -/
def liveAt (t : Tree) (p : RelPath) : Bool := (t.get p).any (·.live)

theorem live_iff {t : Tree} {p : RelPath} : t.Live p ↔ liveAt t p = true := by
  unfold Tree.Live liveAt
  rw [Option.any_eq_true]

/-- What a change writes to the liveness of a path. -/
def verdict (p : RelPath) (c : PathChange) : Option Bool :=
  if c.rel = p then some (decide (c ≠ .remove p)) else none

theorem liveAt_applyChange (tick : ℕ) (p : RelPath) (t : Tree) (c : PathChange) :
    liveAt (Root.applyChange false tick t c) p = (verdict p c).getD (liveAt t p) := by
  unfold verdict
  by_cases hp : c.rel = p
  · subst hp
    rw [if_pos rfl, Option.getD_some, liveAt]
    cases hget : (Root.applyChange false tick t c).get c.rel with
    | none =>
      have hremove : c = .remove c.rel := by
        by_contra hc
        obtain ⟨e, he, -⟩ := @Root.exists_get_applyChange false tick t c (fun h => absurd h hc)
        rw [he] at hget
        cases hget
      simp [← hremove]
    | some e =>
      have hlive := (Root.get_applyChange_rel hget).2
      by_cases hremove : c = .remove c.rel
      · simp [hlive.mpr hremove, ← hremove]
      · simpa [hremove] using hlive.not.mpr hremove
  · rw [if_neg hp, Option.getD_none, liveAt, liveAt, Root.get_applyChange_of_ne (Ne.symm hp)]

theorem tree_foldl_writeChange (tick : ℕ) (changes : List PathChange) (r : Root) :
    (changes.foldl (Root.writeChange tick) r).tree =
      changes.foldl (Root.applyChange r.jjEvents tick) r.tree := by
  induction changes generalizing r with
  | nil => rfl
  | cons c changes ih => exact ih _

theorem liveAt_applyChanges {r : Root} (hfull : r.jjEvents = false) (arenaBytes : ℕ)
    (changes : List PathChange) (p : RelPath) :
    liveAt (r.applyChanges arenaBytes changes).1.tree p =
      (lastSome? (verdict p) changes).getD (liveAt r.tree p) := by
  unfold Root.applyChanges
  rw [tree_foldl_writeChange, Root.jjEvents_openBatch, hfull, Root.openBatch_of_full hfull]
  exact getD_foldl (liveAt · p) (liveAt_applyChange _ p) changes r.tree

/-- After a crawl the paths it found are live. -/
theorem liveAt_crawled (entries : List ScanEntry) (tick : ℕ) (p : RelPath) :
    liveAt (Root.crawled entries tick) p = true ↔ ∃ x ∈ entries, x.1 = p := by
  have hstep : ∀ (t : Tree) (x : ScanEntry), liveAt (t.upsert x.1 x.2.1 x.2.2 tick false tick) p =
      (if x.1 = p then some true else none).getD (liveAt t p) := by
    intro t x
    unfold liveAt
    rw [Tree.get_upsert]
    by_cases hp : x.1 = p
    · rw [if_pos hp.symm, if_pos hp]
      rfl
    · rw [if_neg (Ne.symm hp), if_neg hp]
      rfl
  unfold Root.crawled
  rw [getD_foldl (liveAt · p) hstep entries Tree.new]
  constructor
  · intro h
    cases hlast : lastSome? (fun x : ScanEntry => if x.1 = p then some true else none) entries with
    | none =>
      rw [hlast] at h
      cases h
    | some b =>
      obtain ⟨x, hx, hb⟩ := exists_of_lastSome? hlast
      split_ifs at hb with hp
      exact ⟨x, hx, hp⟩
  · rintro ⟨x, hx, hp⟩
    cases hlast : lastSome? (fun x : ScanEntry => if x.1 = p then some true else none) entries with
    | none =>
      have hnone := lastSome?_eq_none_iff.mp hlast x hx
      rw [if_pos hp] at hnone
      cases hnone
    | some b =>
      obtain ⟨y, -, hb⟩ := exists_of_lastSome? hlast
      split_ifs at hb
      exact (Option.some.inj hb).symm

/-! ## The invariant -/

/-- `collect_event` drops what full-index events say of the path. -/
def Dropped (r : Root) (p : RelPath) : Prop := p = [] ∨ shouldIgnore p r.ignores = true

/-- What the tree will say of a path once the batch at work is applied. -/
def foresee (σ : State) (p : RelPath) : Bool :=
  (lastSome? (verdict p) σ.loop.batch).getD (liveAt σ.root.tree p)

/-- The tree is to have the path. -/
def Wanted (σ : State) (p : RelPath) : Prop :=
  σ.disk.OnDisk p ∧ shouldIgnore p σ.root.ignores = false

/-- The tree is a full index. -/
structure Indexed (σ : State) : Prop where
  full : σ.root.jjEvents = false
  crawl : σ.crawl = none
  stage : σ.stage = .seeded ∨ σ.stage = .attached

structure Inv (σ : State) : Prop where
  unwatched : σ.stage ≠ .attached → σ.queue = [] ∧ σ.loop = .waiting []
  removed : ∀ p, lastNote σ.root.path p σ.coming = some .remove → ¬ σ.disk.OnDisk p
  locked : ∀ jj events batch, σ.loop = .collecting jj events batch →
    jj = σ.root.jjEvents ∧ σ.crawl = none
  crawling : ∀ cr, σ.crawl = some cr →
    ((σ.stage = .scanning ∧ σ.root.jjEvents = false) ∨
      (σ.stage = .attached ∧ σ.root.jjEvents = true)) ∧
    cr.Inv σ.root.ignores σ.disk (Quiet σ)
  settled : Indexed σ → ∀ p, Dropped σ.root p ∨ Quiet σ p → (foresee σ p = true ↔ Wanted σ p)

theorem not_dropped {r : Root} {p : RelPath} (hne : p ≠ [])
    (hvisible : shouldIgnore p r.ignores = false) : ¬ Dropped r p := by
  rintro (hnil | hignored)
  · exact hne hnil
  · rw [hvisible] at hignored
    cases hignored

theorem not_wanted_of_dropped {σ : State} {p : RelPath} (h : Dropped σ.root p) : ¬ Wanted σ p := by
  rintro ⟨hon, hvisible⟩
  exact not_dropped hon.ne_nil hvisible h

theorem Inv.coming_eq_nil {σ : State} (h : Inv σ) (hstage : σ.stage ≠ .attached) :
    σ.coming = [] := by
  obtain ⟨hq, hl⟩ := h.unwatched hstage
  rw [State.coming, hq, hl]
  rfl

theorem Inv.quiet_of_unwatched {σ : State} (h : Inv σ) (hstage : σ.stage ≠ .attached)
    (p : RelPath) : Quiet σ p := by
  rw [Quiet, h.coming_eq_nil hstage]
  rfl

theorem lastNote_append (root : List Name) (p : RelPath) (l l' : List Notice) :
    lastNote root p (l ++ l') = (lastNote root p l').or (lastNote root p l) := by
  unfold lastNote notes
  rw [List.flatMap_append, lastSome?_append]

/-! ## Changes of the disk -/

section Disk

variable {σ : State} {d' : Disk} {events : List Notice}

/-- A change that nothing reports is harmless if it is in front of the crawl, or comes before it. -/
theorem Inv.mutate (h : Inv σ) (hstage : σ.stage ≠ .attached)
    (hbehind : NoChangeBehindCrawl σ { σ with disk := d' }) : Inv { σ with disk := d' } := by
  refine ⟨h.unwatched, ?_, h.locked, ?_, ?_⟩
  · intro p hnote
    have hquiet := h.quiet_of_unwatched hstage p
    exact absurd (hquiet.symm.trans hnote) (by simp)
  · intro cr hcr
    obtain ⟨hmode, hinv⟩ := h.crawling cr hcr
    refine ⟨hmode, hinv.mutate (fun _ => id) ?_⟩
    intro p _ hvisible hseen
    rcases hmode with ⟨hs, hfull⟩ | ⟨hs, -⟩
    · refine hbehind ⟨.inl hs, hfull⟩ p hvisible ?_
      intro cr' hcr'
      obtain rfl := Option.some.inj (hcr.symm.trans hcr')
      exact hseen
    · exact absurd hs hstage
  · intro hi p hp
    have hs : σ.stage = .seeded := hi.stage.resolve_right hstage
    have hsettled := h.settled ⟨hi.full, hi.crawl, hi.stage⟩ p hp
    refine hsettled.trans (and_congr_left fun hvisible => ?_)
    refine (hbehind ⟨.inr hs, hi.full⟩ p hvisible ?_).symm
    intro cr hcr
    have hnone : σ.crawl = none := hi.crawl
    rw [hnone] at hcr
    cases hcr

variable (σ d' events) in
theorem lastNote_watched (p : RelPath) : lastNote σ.root.path p
    (State.coming { σ with disk := d', queue := σ.queue ++ events }) =
    (lastNote σ.root.path p events).or (lastNote σ.root.path p σ.coming) := by
  rw [← lastNote_append]
  simp [State.coming]

theorem quiet_watched (hreports : Reports σ.root.path σ.disk d' events) {p : RelPath}
    (hq : Quiet { σ with disk := d', queue := σ.queue ++ events } p) :
    Quiet σ p ∧ (d'.OnDisk p ↔ σ.disk.OnDisk p) := by
  rw [Quiet, lastNote_watched σ d' events, Option.or_eq_none_iff] at hq
  exact ⟨hq.2, (hreports.named p hq.1).1⟩

/-- A change that the watcher reports leaves alone what no event is about. -/
theorem Inv.mutateWatched (h : Inv σ) (hstage : σ.stage = .attached)
    (hreports : Reports σ.root.path σ.disk d' events) :
    Inv { σ with disk := d', queue := σ.queue ++ events } := by
  have hquiet : ∀ p, Quiet { σ with disk := d', queue := σ.queue ++ events } p →
      Quiet σ p ∧ (d'.OnDisk p ↔ σ.disk.OnDisk p) := fun p => quiet_watched hreports
  refine ⟨fun hs => absurd hstage hs, ?_, h.locked, ?_, ?_⟩
  · intro p hnote
    rw [lastNote_watched σ d' events] at hnote
    cases hnew : lastNote σ.root.path p events with
    | none =>
      rw [hnew, Option.none_or] at hnote
      exact fun hon => h.removed p hnote ((hreports.named p hnew).1.mp hon)
    | some kind =>
      rw [hnew, Option.some_or] at hnote
      exact hreports.removed p (hnew.trans hnote)
  · intro cr hcr
    obtain ⟨hmode, hinv⟩ := h.crawling cr hcr
    exact ⟨hmode, hinv.mutate (fun p hq => (hquiet p hq).1) fun p hq _ _ => (hquiet p hq).2⟩
  · intro hi p hp
    have hsettled := h.settled ⟨hi.full, hi.crawl, hi.stage⟩ p
    rcases hp with hdropped | hq
    · refine (hsettled (.inl hdropped)).trans ?_
      exact iff_of_false (not_wanted_of_dropped hdropped) (not_wanted_of_dropped hdropped)
    · obtain ⟨hq', hsame⟩ := hquiet p hq
      exact (hsettled (.inr hq')).trans (and_congr_left' hsame.symm)

end Disk

/-! ## Changes of the root -/

/-- The roots have the same path, rules and mode. -/
structure SameSite (r r' : Root) : Prop where
  path : r'.path = r.path
  ignores : r'.ignores = r.ignores
  jjEvents : r'.jjEvents = r.jjEvents

theorem SameSite.refl (r : Root) : SameSite r r := ⟨rfl, rfl, rfl⟩

theorem SameSite.invalidate (r : Root) : SameSite r r.invalidateJjEvents.1 := by
  unfold Root.invalidateJjEvents
  split_ifs <;> exact ⟨rfl, rfl, rfl⟩

theorem SameSite.sweep (r : Root) : SameSite r r.pruneTombstones.1 := by
  unfold Root.pruneTombstones
  split_ifs <;> exact ⟨rfl, rfl, rfl⟩

theorem SameSite.batch (r : Root) (arenaBytes : ℕ) (changes : List PathChange) :
    SameSite r (r.applyChanges arenaBytes changes).1 := by
  have hopen : SameSite r (r.openBatch arenaBytes) := by
    unfold Root.openBatch
    split_ifs <;> exact ⟨rfl, rfl, rfl⟩
  have hwrite : ∀ (l : List PathChange) (s : Root) (tick : ℕ), SameSite r s →
      SameSite r (l.foldl (Root.writeChange tick) s) := by
    intro l
    induction l with
    | nil => exact fun s _ hs => hs
    | cons c l ih => exact fun s tick hs => ih _ tick ⟨hs.path, hs.ignores, hs.jjEvents⟩
  exact hwrite changes _ _ hopen

theorem liveAt_sweep {r : Root} (hfull : r.jjEvents = false) (p : RelPath) :
    liveAt r.pruneTombstones.1.tree p = liveAt r.tree p := by
  rw [Root.pruneTombstones_of_full hfull, Bool.eq_iff_iff, ← live_iff, ← live_iff]
  constructor
  · rintro ⟨e, he, hlive⟩
    exact ⟨e, (r.tree.get_prune r.watermark).1 he, hlive⟩
  · rintro ⟨e, he, hlive⟩
    exact ⟨e, (r.tree.get_prune r.watermark).2 he (.inl hlive), hlive⟩

section Root

variable {σ : State} {r' : Root}

/-- A change of the root and the loop together that changes nothing about what is to come. -/
theorem Inv.withRoot (h : Inv σ) (hsite : SameSite σ.root r') {loop : Loop}
    (hloop : ∀ p, lastNote σ.root.path p (loop.events ++ σ.queue) = some .remove →
      lastNote σ.root.path p σ.coming = some .remove)
    (hwaiting : σ.loop = .waiting [] → loop = .waiting [])
    (hlocked : ∀ jj events batch, loop = .collecting jj events batch →
      jj = σ.root.jjEvents ∧ σ.crawl = none)
    (hcrawl : σ.crawl ≠ none → loop = σ.loop)
    (hsettled : Indexed σ → ∀ p,
      Dropped σ.root p ∨ lastNote σ.root.path p (loop.events ++ σ.queue) = none →
      ((lastSome? (verdict p) loop.batch).getD (liveAt r'.tree p) = true ↔ Wanted σ p)) :
    Inv { σ with root := r', loop := loop } := by
  obtain ⟨hpath, hignores, hjj⟩ := hsite
  refine ⟨?_, ?_, ?_, ?_, ?_⟩
  · intro hs
    obtain ⟨hq, hl⟩ := h.unwatched hs
    exact ⟨hq, hwaiting hl⟩
  · intro p hnote
    change lastNote r'.path p (loop.events ++ σ.queue) = _ at hnote
    rw [hpath] at hnote
    exact h.removed p (hloop p hnote)
  · intro jj events batch hl
    obtain ⟨h1, h2⟩ := hlocked jj events batch hl
    exact ⟨h1.trans hjj.symm, h2⟩
  · intro cr hcr
    obtain ⟨hmode, hinv⟩ := h.crawling cr hcr
    have hl : loop = σ.loop := hcrawl (by rw [hcr]; simp)
    have hquiet : Quiet { σ with root := r', loop := loop } = Quiet σ := by
      funext p
      unfold Quiet State.coming
      rw [hpath, hl]
    rw [hquiet]
    change (_ ∨ _) ∧ Crawl.Inv r'.ignores σ.disk (Quiet σ) cr
    rw [hignores, hjj]
    exact ⟨hmode, hinv⟩
  · intro hi p hp
    have hindexed : Indexed σ := ⟨hjj.symm.trans hi.full, hi.crawl, hi.stage⟩
    unfold Wanted
    rw [hignores]
    refine hsettled hindexed p ?_
    rcases hp with hdropped | hq
    · left
      unfold Dropped at hdropped ⊢
      rwa [hignores] at hdropped
    · right
      change lastNote r'.path p (loop.events ++ σ.queue) = none at hq
      rwa [hpath] at hq

theorem Inv.sameRoot (h : Inv σ) (hsite : SameSite σ.root r')
    (hlive : σ.root.jjEvents = false → ∀ p, liveAt r'.tree p = liveAt σ.root.tree p) :
    Inv { σ with root := r' } := by
  refine h.withRoot hsite (fun p hn => hn) id h.locked (fun _ => rfl) ?_
  intro hi p hp
  rw [hlive hi.full]
  exact h.settled hi p hp

end Root

/-! ## Registration and promotion -/

section Scan

variable {σ : State} {out : List ScanEntry}

theorem Inv.scan (h : Inv σ) (hstage : σ.stage = .new) (hfull : σ.root.jjEvents = false) :
    Inv { σ with stage := .scanning, crawl := some Crawl.start } := by
  have hnew : σ.stage ≠ .attached := by rw [hstage]; simp
  refine ⟨fun _ => h.unwatched hnew, h.removed, ?_, ?_, ?_⟩
  · intro jj events batch hl
    rw [(h.unwatched hnew).2] at hl
    cases hl
  · rintro cr ⟨rfl⟩
    exact ⟨.inl ⟨rfl, hfull⟩, .start⟩
  · intro hi
    cases hi.crawl

theorem Inv.seedEmpty (h : Inv σ) (hstage : σ.stage = .new) (hjj : σ.root.jjEvents = true) :
    Inv { σ with stage := .seeded, root := σ.root.seed [] } := by
  have hnew : σ.stage ≠ .attached := by rw [hstage]; simp
  refine ⟨fun _ => h.unwatched hnew, h.removed, h.locked, ?_, ?_⟩
  · intro cr hcr
    rcases (h.crawling cr hcr).1 with ⟨hs, -⟩ | ⟨hs, -⟩ <;> rw [hstage] at hs <;> cases hs
  · intro hi
    exact absurd hi.full (by simp [Root.seed, hjj])

theorem Inv.attach (h : Inv σ) (hstage : σ.stage = .seeded) :
    Inv { σ with stage := .attached } := by
  refine ⟨fun hs => absurd rfl hs, h.removed, h.locked, ?_, ?_⟩
  · intro cr hcr
    rcases (h.crawling cr hcr).1 with ⟨hs, -⟩ | ⟨hs, -⟩ <;> rw [hstage] at hs <;> cases hs
  · intro hi
    exact h.settled ⟨hi.full, hi.crawl, .inl hstage⟩

theorem Inv.crawl (h : Inv σ) {cr cr' : Crawl} {look : Option RelPath}
    (hcrawl : σ.crawl = some cr) (hstep : Crawl.Step σ.root.ignores σ.disk look cr cr')
    (hdirect : ∀ p ∈ look, Quiet { σ with crawl := some cr' } p → σ.disk.lstat p ≠ none →
      σ.disk.Direct p) : Inv { σ with crawl := some cr' } := by
  obtain ⟨hmode, hinv⟩ := h.crawling cr hcrawl
  refine ⟨h.unwatched, h.removed, ?_, ?_, ?_⟩
  · intro jj events batch hl
    have hnone := (h.locked jj events batch hl).2
    rw [hcrawl] at hnone
    cases hnone
  · rintro cr'' ⟨rfl⟩
    exact ⟨hmode, hinv.step hstep hdirect⟩
  · intro hi
    cases hi.crawl

theorem wanted_of_finished {r : Root} {d : Disk} {quiet : RelPath → Prop} {tick : ℕ}
    (h : Crawl.Inv r.ignores d quiet ⟨[], out⟩) {p : RelPath}
    (hp : Dropped r p ∨ quiet p) :
    liveAt (Root.crawled out tick) p = true ↔ d.OnDisk p ∧ shouldIgnore p r.ignores = false := by
  rw [liveAt_crawled]
  rcases hp with hdropped | hq
  · constructor
    · rintro ⟨x, hx, rfl⟩
      obtain ⟨hne, hvisible, -⟩ := h.sound x hx
      exact absurd hdropped (not_dropped hne hvisible)
    · rintro ⟨hon, hvisible⟩
      exact absurd hdropped (not_dropped hon.ne_nil hvisible)
  · exact h.finished rfl hq

theorem Inv.seed (h : Inv σ) (hstage : σ.stage = .scanning)
    (hcrawl : σ.crawl = some ⟨[], out⟩) :
    Inv { σ with stage := .seeded, crawl := none, root := σ.root.seed out } := by
  have hscan : σ.stage ≠ .attached := by rw [hstage]; simp
  obtain ⟨hq, hl⟩ := h.unwatched hscan
  obtain ⟨-, hinv⟩ := h.crawling _ hcrawl
  refine ⟨fun _ => ⟨hq, hl⟩, h.removed, ?_, by rintro cr ⟨⟩, ?_⟩
  · intro jj events batch hl'
    rw [hl] at hl'
    cases hl'
  · intro hi p hp
    have hbatch : foresee { σ with stage := .seeded, crawl := none, root := σ.root.seed out } p =
        liveAt (Root.crawled out σ.root.clock.bump.ticks) p := by
      unfold foresee
      rw [hl]
      rfl
    rw [hbatch]
    exact wanted_of_finished hinv hp

theorem Inv.beginPromotion (h : Inv σ) {events : List Notice} (hstage : σ.stage = .attached)
    (hjj : σ.root.jjEvents = true) (hloop : σ.loop = .waiting events) :
    Inv { σ with crawl := some Crawl.start } := by
  refine ⟨h.unwatched, h.removed, ?_, ?_, ?_⟩
  · intro jj events' batch hl
    rw [hloop] at hl
    cases hl
  · rintro cr ⟨rfl⟩
    exact ⟨.inr ⟨hstage, hjj⟩, .start⟩
  · intro hi
    cases hi.crawl

theorem Inv.promote (h : Inv σ) (hstage : σ.stage = .attached)
    (hcrawl : σ.crawl = some ⟨[], out⟩) :
    Inv { σ with crawl := none, root := σ.root.promoteToFull out } := by
  obtain ⟨hmode, hinv⟩ := h.crawling _ hcrawl
  have hjj : σ.root.jjEvents = true := by
    rcases hmode with ⟨hs, -⟩ | ⟨-, hjj⟩
    · rw [hstage] at hs
      cases hs
    · exact hjj
  -- the mode lock is with the promotion, so the loop has no batch
  obtain ⟨events, hloop⟩ : ∃ events, σ.loop = .waiting events := by
    cases hl : σ.loop with
    | waiting events => exact ⟨events, rfl⟩
    | collecting jj events batch =>
      have hnone := (h.locked jj events batch hl).2
      rw [hcrawl] at hnone
      cases hnone
  have hroot : σ.root.promoteToFull out = { σ.root with
      clock := σ.root.clock.bump
      tree := Root.crawled out σ.root.clock.bump.ticks
      oldestAvailableTick := σ.root.clock.bump.ticks
      jjEvents := false } := if_pos hjj
  rw [hroot]
  refine ⟨fun hs => absurd hstage hs, h.removed, ?_, by rintro cr ⟨⟩, ?_⟩
  · intro jj events' batch hl
    rw [hloop] at hl
    cases hl
  · intro hi p hp
    unfold foresee
    rw [hloop]
    exact wanted_of_finished hinv hp

end Scan

/-! ## The event loop -/

section Loop

variable {σ : State} {events : List Notice}

theorem Inv.receive (h : Inv σ) {queue : List Notice} {notice : Notice}
    (hloop : σ.loop = .waiting events) (hqueue : σ.queue = notice :: queue) :
    Inv { σ with loop := .waiting (events ++ [notice]), queue := queue } := by
  have hcoming : State.coming { σ with loop := .waiting (events ++ [notice]), queue := queue } =
      σ.coming := by
    simp [State.coming, hloop, hqueue, Loop.events]
  have hquiet : Quiet { σ with loop := .waiting (events ++ [notice]), queue := queue } =
      Quiet σ := by
    funext p
    unfold Quiet
    rw [hcoming]
  refine ⟨?_, ?_, by rintro jj events' batch ⟨⟩, ?_, ?_⟩
  · intro hs
    have hempty := (h.unwatched hs).1
    rw [hqueue] at hempty
    cases hempty
  · rw [hcoming]
    exact h.removed
  · rw [hquiet]
    exact h.crawling
  · intro hi
    rw [hquiet]
    have hsettled := h.settled ⟨hi.full, hi.crawl, hi.stage⟩
    unfold foresee at hsettled ⊢
    rw [hloop] at hsettled
    exact hsettled

theorem Inv.lock (h : Inv σ) (hloop : σ.loop = .waiting events) (hne : events ≠ [])
    (hcrawl : σ.crawl = none) :
    Inv { σ with loop := .collecting σ.root.jjEvents events [] } := by
  have hcoming : events ++ σ.queue = σ.coming := (State.coming_of_loop hloop).symm
  refine h.withRoot (.refl σ.root) ?_ ?_ ?_ (fun hc => absurd hcrawl hc) ?_
  · intro p hn
    exact hcoming ▸ hn
  · intro hl
    rw [hloop] at hl
    cases hl
    exact absurd rfl hne
  · rintro jj events' batch ⟨rfl, rfl, rfl⟩
    exact ⟨rfl, hcrawl⟩
  · intro hi p hp
    have hsettled := h.settled hi p
    unfold foresee Quiet at hsettled
    rw [← hcoming, hloop] at hsettled
    exact hsettled hp

theorem Inv.apply (h : Inv σ) {jj : Bool} {batch : List PathChange} (arenaBytes : ℕ)
    (hloop : σ.loop = .collecting jj [] batch) :
    Inv { σ with
      root := if batch = [] then σ.root else (σ.root.applyChanges arenaBytes batch).1
      loop := .waiting [] } := by
  have hcoming : σ.coming = σ.queue := State.coming_of_loop hloop
  refine h.withRoot ?_ ?_ (fun _ => rfl) (by rintro jj' events' batch' ⟨⟩) ?_ ?_
  · split_ifs
    · exact .refl _
    · exact .batch _ _ _
  · intro p hn
    rw [hcoming]
    exact hn
  · intro hc
    exact absurd (h.locked _ _ _ hloop).2 hc
  · intro hi p hp
    have hsettled := h.settled hi p
    unfold foresee Quiet at hsettled
    rw [hcoming, hloop] at hsettled
    refine Iff.trans ?_ (hsettled hp)
    change liveAt (ite _ _ _ : Root).tree p = true ↔ (lastSome? (verdict p) batch).getD _ = true
    split_ifs with hb
    · rw [hb]
      rfl
    · rw [liveAt_applyChanges hi.full]

/-! ### Interpreting an event -/

theorem relevant_eq_some {r : Root} {abs : List Name} {p : RelPath} :
    relevant r abs = some p ↔ abs = r.path ++ p ∧ ¬ Dropped r p := by
  unfold relevant Dropped
  rw [Option.filter_eq_some_iff, List.dropPrefix?_eq_some_iff]
  simp

theorem collectPath_full (d : Disk) (matched : RelPath → RelPath → Option Bool)
    (target : Option String) (kind : EventKind) (abs : List Name) (r : Root)
    (out : List PathChange) :
    collectPath d matched target false kind abs r out =
      (r, out ++ ((relevant r abs).map fun rel => changeOf d kind rel target).toList) := by
  unfold collectPath relevant
  cases abs.dropPrefix? r.path with
  | none => simp
  | some rel =>
    by_cases hnil : rel = []
    · simp [hnil]
    · by_cases hignored : shouldIgnore rel r.ignores = true
      · simp [hnil, hignored]
      · simp [hnil, hignored, Option.filter]

theorem collectPath_site (d : Disk) (matched : RelPath → RelPath → Option Bool)
    (target : Option String) (jj : Bool) (kind : EventKind) (abs : List Name) (r : Root)
    (out : List PathChange) : SameSite r (collectPath d matched target jj kind abs r out).1 := by
  unfold collectPath
  split
  · exact .refl r
  · dsimp only
    split
    · exact .refl r
    · split
      · exact .refl r
      · split
        · exact .refl r
        · split
          · exact .invalidate r
          · exact .refl r

theorem collect_site (d : Disk) (matched : RelPath → RelPath → Option Bool)
    (target : Option String) (jj : Bool) (r : Root) (out : List PathChange)
    (events : List Notice) : SameSite r (collect d matched target jj r out events).1 := by
  unfold collect
  split
  · exact .refl r
  · split
    · exact .invalidate r
    · exact .refl r
  · split
    · exact .invalidate r
    · split
      · exact .refl r
      · split
        · exact .refl r
        · exact collectPath_site ..

/-- Interpreting takes what the events say from the front. -/
theorem notes_collect (d : Disk) (matched : RelPath → RelPath → Option Bool)
    (target : Option String) (jj : Bool) (r : Root) (out : List PathChange)
    (events : List Notice) :
    ∃ pre, notes events = pre ++ notes (collect d matched target jj r out events).2.2 := by
  have htail : ∀ (n : Notice) (rest : List Notice), notes (n :: rest) = notes [n] ++ notes rest := by
    intro n rest
    simp [notes]
  unfold collect
  split
  · exact ⟨[], rfl⟩
  · rename_i rest
    split <;> exact ⟨_, htail .error rest⟩
  · rename_i ev rest
    split
    · exact ⟨_, htail (.event ev) rest⟩
    · split
      · exact ⟨_, htail (.event ev) rest⟩
      · rename_i hread
        split
        · exact ⟨_, htail (.event ev) rest⟩
        · rename_i abs paths hpaths
          have hread' : ¬ Event.IsRead { ev with paths } := hread
          refine ⟨[(ev.kind, abs)], ?_⟩
          simp [notes, hread, hread', hpaths]

/-- A step of the loop in full mode drops an event that says nothing, or interprets one path. -/
theorem collect_full {r : Root} (hfull : r.jjEvents = false) (d : Disk)
    (matched : RelPath → RelPath → Option Bool) (target : Option String) (out : List PathChange)
    (events : List Notice) : ∃ events',
      (collect d matched target false r out events = (r, out, events') ∧
        notes events = notes events') ∨
      ∃ kind abs, collect d matched target false r out events =
          (r, out ++ ((relevant r abs).map fun rel => changeOf d kind rel target).toList,
            events') ∧
        notes events = (kind, abs) :: notes events' ∧
        (kind ≠ .remove → statted r events = relevant r abs) := by
  cases events with
  | nil => exact ⟨[], .inl ⟨rfl, rfl⟩⟩
  | cons notice rest =>
    cases notice with
    | error =>
      refine ⟨rest, .inl ⟨?_, by simp [notes]⟩⟩
      simp [collect, hfull]
    | event ev =>
      obtain ⟨kind, paths, rescan⟩ := ev
      by_cases hread : kind = .access false
      · refine ⟨rest, .inl ⟨?_, by simp [notes, Event.IsRead, hread]⟩⟩
        simp [collect, hfull, Event.IsRead, hread]
      · cases paths with
        | nil =>
          refine ⟨rest, .inl ⟨?_, by simp [notes]⟩⟩
          simp [collect, hfull, Event.IsRead, hread]
        | cons abs paths =>
          refine ⟨.event ⟨kind, paths, rescan⟩ :: rest, .inr ⟨kind, abs, ?_, ?_, ?_⟩⟩
          · simp [collect, hfull, Event.IsRead, hread, collectPath_full]
          · simp [notes, Event.IsRead, hread]
          · intro hkind
            simp [statted, hkind, hread]

theorem lastNote_congr {l l' : List Notice} (h : notes l = notes l') (root : List Name) (p : RelPath) :
    lastNote root p l = lastNote root p l' := by
  unfold lastNote
  rw [h]

theorem lastNote_cons {root : List Name} {p : RelPath} {kind : EventKind} {abs : List Name}
    {l l' : List Notice} (h : notes l = (kind, abs) :: notes l') :
    lastNote root p l =
      (lastNote root p l').or (if abs = root ++ p then some kind else none) := by
  unfold lastNote
  rw [h, lastSome?_cons]

theorem lastNote_of_suffix {root : List Name} {p : RelPath} {kind : EventKind} {l l' : List Notice}
    {pre : List (EventKind × List Name)} (h : notes l = pre ++ notes l')
    (hlast : lastNote root p l' = some kind) : lastNote root p l = some kind := by
  unfold lastNote at hlast ⊢
  rw [h, lastSome?_append, hlast]
  rfl

theorem verdict_changeOf (d : Disk) (kind : EventKind) (rel p : RelPath) (target : Option String) :
    verdict p (changeOf d kind rel target) =
      if rel = p then some (decide (kind ≠ .remove ∧ d.lstat p ≠ none)) else none := by
  have hrel : (changeOf d kind rel target).rel = rel := by
    unfold changeOf
    split_ifs
    · rfl
    · split <;> rfl
  unfold verdict
  rw [hrel]
  by_cases hp : rel = p
  · subst hp
    rw [if_pos rfl, if_pos rfl]
    unfold changeOf
    by_cases hkind : kind = .remove
    · simp [hkind]
    · cases hmd : d.lstat rel <;> simp [hkind]
  · rw [if_neg hp, if_neg hp]

theorem lastSome?_verdict_look (d : Disk) (kind : EventKind) (target : Option String) (r : Root)
    (abs : List Name) (batch : List PathChange) (p : RelPath) :
    lastSome? (verdict p)
        (batch ++ ((relevant r abs).map fun rel => changeOf d kind rel target).toList) =
      if relevant r abs = some p then some (decide (kind ≠ .remove ∧ d.lstat p ≠ none))
      else lastSome? (verdict p) batch := by
  cases hrel : relevant r abs with
  | none => simp
  | some rel =>
    simp only [Option.map_some, Option.toList_some]
    rw [lastSome?_append, lastSome?_singleton, verdict_changeOf]
    by_cases hp : rel = p
    · rw [if_pos hp, if_pos (by rw [hp])]
      rfl
    · rw [if_neg hp, if_neg (by simpa using hp)]
      rfl

theorem look_iff {σ : State} {p : RelPath} {kind : EventKind} (hp : ¬ Dropped σ.root p)
    (hremoved : kind = .remove → ¬ σ.disk.OnDisk p)
    (hdirect : kind ≠ .remove → σ.disk.lstat p ≠ none → σ.disk.Direct p) :
    decide (kind ≠ .remove ∧ σ.disk.lstat p ≠ none) = true ↔ Wanted σ p := by
  have hne : p ≠ [] := fun h => hp (.inl h)
  have hvisible : shouldIgnore p σ.root.ignores = false := by
    rw [← Bool.not_eq_true]
    exact fun h => hp (.inr h)
  rw [decide_eq_true_eq]
  constructor
  · rintro ⟨hkind, hfound⟩
    exact ⟨Disk.onDisk_of_direct (hdirect hkind hfound) hne hfound, hvisible⟩
  · rintro ⟨hon, -⟩
    exact ⟨fun hkind => hremoved hkind hon, hon.found⟩

/-- The state after one step of interpreting the events. -/
def collected (σ : State) (matched : RelPath → RelPath → Option Bool) (target : Option String)
    (jj : Bool) (events : List Notice) (batch : List PathChange) : State :=
  { σ with
    root := (collect σ.disk matched target jj σ.root batch events).1
    loop := .collecting jj (collect σ.disk matched target jj σ.root batch events).2.2
      (collect σ.disk matched target jj σ.root batch events).2.1 }

/-- A full index and the batch are to be right about every path of which nothing more is told, also
after one more step of interpreting the events. -/
theorem Inv.settled_collect (h : Inv σ) (matched : RelPath → RelPath → Option Bool)
    (target : Option String) {batch : List PathChange}
    (hloop : σ.loop = .collecting false events batch)
    (hdirect : ∀ p ∈ statted σ.root events,
      Quiet (collected σ matched target false events batch) p → σ.disk.lstat p ≠ none →
      σ.disk.Direct p)
    (hi : Indexed σ) (p : RelPath)
    (hp : Dropped σ.root p ∨ lastNote σ.root.path p
      ((collect σ.disk matched target false σ.root batch events).2.2 ++ σ.queue) = none) :
    (lastSome? (verdict p) (collect σ.disk matched target false σ.root batch events).2.1).getD
      (liveAt (collect σ.disk matched target false σ.root batch events).1.tree p) = true ↔
        Wanted σ p := by
  have hcoming : σ.coming = events ++ σ.queue := State.coming_of_loop hloop
  have hsettled := h.settled hi p
  unfold foresee Quiet at hsettled
  rw [hcoming, hloop] at hsettled
  obtain ⟨events', ⟨heq, hnotes⟩ | ⟨kind, abs, heq, hnotes, hlook⟩⟩ :=
    collect_full hi.full σ.disk matched target batch events
  · -- the dropped event said nothing
    rw [heq] at hp ⊢
    refine hsettled (hp.imp_right fun hq => ?_)
    rw [lastNote_append] at hq ⊢
    rw [lastNote_congr hnotes]
    exact hq
  · rw [heq] at hp ⊢
    simp only at hp ⊢
    rw [lastSome?_verdict_look]
    have hcons := @lastNote_cons σ.root.path p kind abs events events' hnotes
    by_cases habs : relevant σ.root abs = some p
    · -- this path was looked at, and no event about it is left
      obtain ⟨rfl, hkept⟩ := relevant_eq_some.mp habs
      have hq := hp.resolve_left hkept
      rw [lastNote_append, Option.or_eq_none_iff] at hq
      have hlast : lastNote σ.root.path p σ.coming = some kind := by
        rw [hcoming, lastNote_append, hcons, hq.1, hq.2, if_pos rfl]
        rfl
      rw [if_pos habs]
      refine look_iff hkept (fun hkind => h.removed p (hkind ▸ hlast)) (fun hkind hfound => ?_)
      refine hdirect p (by rw [hlook hkind, habs]; rfl) ?_ hfound
      unfold Quiet collected State.coming
      rw [heq, lastNote_append, Option.or_eq_none_iff]
      exact hq
    · -- another path was looked at, or none
      rw [if_neg habs]
      refine hsettled ?_
      by_cases hdropped : Dropped σ.root p
      · exact .inl hdropped
      · have hq := hp.resolve_left hdropped
        have hne : abs ≠ σ.root.path ++ p := fun heq' =>
          habs (relevant_eq_some.mpr ⟨heq', hdropped⟩)
        right
        rw [lastNote_append] at hq ⊢
        rw [hcons, if_neg hne, Option.or_none]
        exact hq

theorem Inv.collect (h : Inv σ) (matched : RelPath → RelPath → Option Bool)
    (target : Option String) {jj : Bool} {batch : List PathChange}
    (hloop : σ.loop = .collecting jj events batch)
    (hdirect : ∀ p ∈ (if jj then none else statted σ.root events),
      Quiet (collected σ matched target jj events batch) p → σ.disk.lstat p ≠ none →
      σ.disk.Direct p) :
    Inv (collected σ matched target jj events batch) := by
  obtain ⟨hjj, hcrawl⟩ := h.locked _ _ _ hloop
  refine h.withRoot (collect_site ..) ?_ ?_ ?_ (fun hc => absurd hcrawl hc) ?_
  · intro p hn
    obtain ⟨pre, hpre⟩ := notes_collect σ.disk matched target jj σ.root batch events
    rw [lastNote_append] at hn
    rw [State.coming_of_loop hloop, lastNote_append]
    rcases Option.or_eq_some_iff.mp hn with hq | ⟨hq, hl⟩
    · rw [hq]
      rfl
    · rw [hq]
      exact lastNote_of_suffix hpre hl
  · intro hl
    rw [hloop] at hl
    cases hl
  · rintro jj' events' batch' ⟨rfl, rfl, rfl⟩
    exact ⟨hjj, hcrawl⟩
  · intro hi p hp
    rw [hi.full] at hjj
    subst hjj
    exact h.settled_collect matched target hloop hdirect hi p hp

end Loop

/-! ## Whole runs -/

section Runs

variable {σ σ' : State}

theorem Inv.start (h : Start σ) : Inv σ := by
  have hcoming : σ.coming = [] := by
    rw [State.coming, h.queue, h.loop]
    rfl
  refine ⟨fun _ => ⟨h.queue, h.loop⟩, ?_, ?_, ?_, ?_⟩
  · intro p hnote
    rw [hcoming] at hnote
    cases hnote
  · intro jj events batch hl
    rw [h.loop] at hl
    cases hl
  · intro cr hcr
    rw [h.crawl] at hcr
    cases hcr
  · intro hi
    rcases hi.stage with hs | hs <;> rw [h.stage] at hs <;> cases hs

/-- The invariant through one step that finds nothing through a link, and changes nothing behind the
crawl of a registration. -/
theorem Inv.step (h : Inv σ) (hs : DirectStep σ σ') (hbehind : NoChangeBehindCrawl σ σ') :
    Inv σ' := by
  obtain ⟨look, hs, hdirect⟩ := hs
  cases hs with
  | mutate d' hstage => exact h.mutate hstage hbehind
  | mutateWatched d' events hstage hreports => exact h.mutateWatched hstage hreports
  | scan hstage hfull => exact h.scan hstage hfull
  | seed hstage hcrawl => exact h.seed hstage hcrawl
  | seedEmpty hstage hjj => exact h.seedEmpty hstage hjj
  | attach hstage => exact h.attach hstage
  | crawl hcrawl hstep => exact h.crawl hcrawl hstep hdirect
  | receive hloop hqueue hmax => exact h.receive hloop hqueue
  | lock hloop hne hcrawl => exact h.lock hloop hne hcrawl
  | collect matched target hloop hne => exact h.collect matched target hloop hdirect
  | apply arenaBytes hloop => exact h.apply arenaBytes hloop
  | beginPromotion hstage hjj hcrawl hloop => exact h.beginPromotion hstage hjj hloop
  | promote hstage hcrawl => exact h.promote hstage hcrawl
  | bump => exact h.sameRoot ⟨rfl, rfl, rfl⟩ fun _ _ => rfl
  | sweep hcrawl => exact h.sameRoot (.sweep _) liveAt_sweep

/-- A root stays attached, and changes its mode only by a promotion, once it is attached. -/
theorem Step.mode {look : Option RelPath} (hs : Step look σ σ') :
    (σ.stage = .attached → σ'.stage = .attached) ∧
      (σ'.root.jjEvents = σ.root.jjEvents ∨
        (σ'.stage = .attached ∧ σ'.root.jjEvents = false)) := by
  have hstay : ∀ {s : Stage}, σ.stage = s → s ≠ .attached → ∀ {s' : Stage},
      σ.stage = .attached → s' = .attached := fun h hne _ h' => absurd (h.symm.trans h') hne
  cases hs with
  | mutate d' hstage => exact ⟨id, .inl rfl⟩
  | mutateWatched d' events hstage hreports => exact ⟨id, .inl rfl⟩
  | scan hstage hfull => exact ⟨hstay hstage (by simp), .inl rfl⟩
  | seed hstage hcrawl => exact ⟨hstay hstage (by simp), .inl rfl⟩
  | seedEmpty hstage hjj => exact ⟨hstay hstage (by simp), .inl rfl⟩
  | attach hstage => exact ⟨fun _ => rfl, .inl rfl⟩
  | crawl hcrawl hstep => exact ⟨id, .inl rfl⟩
  | receive hloop hqueue hmax => exact ⟨id, .inl rfl⟩
  | lock hloop hne hcrawl => exact ⟨id, .inl rfl⟩
  | collect matched target hloop hne => exact ⟨id, .inl (collect_site ..).jjEvents⟩
  | @apply arenaBytes _ jj batch hloop =>
    refine ⟨id, .inl ?_⟩
    change (ite _ _ _ : Root).jjEvents = _
    split_ifs
    · rfl
    · exact (SameSite.batch _ _ _).jjEvents
  | beginPromotion hstage hjj hcrawl hloop => exact ⟨id, .inl rfl⟩
  | @promote _ out hstage hcrawl =>
    refine ⟨id, .inr ⟨hstage, ?_⟩⟩
    change (σ.root.promoteToFull out).jjEvents = false
    unfold Root.promoteToFull
    split_ifs with hjj
    · rfl
    · simpa using hjj
  | bump => exact ⟨id, .inl rfl⟩
  | sweep hcrawl => exact ⟨id, .inl (SameSite.sweep _).jjEvents⟩

/-- With nothing on the way the tree of a full index is right. -/
theorem Inv.converged (h : Inv σ) (hstage : σ.stage = .attached) (hfull : σ.root.jjEvents = false)
    (hdrained : Drained σ) : Converged σ := by
  obtain ⟨hq, hl⟩ := hdrained
  have hcrawl : σ.crawl = none := by
    cases hcr : σ.crawl with
    | none => rfl
    | some cr =>
      rcases (h.crawling cr hcr).1 with ⟨hs, -⟩ | ⟨-, hjj⟩
      · rw [hstage] at hs
        cases hs
      · rw [hfull] at hjj
        cases hjj
  intro p
  have hquiet : Quiet σ p := by
    rw [Quiet, State.coming, hq, hl]
    rfl
  have hsettled := h.settled ⟨hfull, hcrawl, .inr hstage⟩ p (.inr hquiet)
  unfold foresee at hsettled
  rw [hl] at hsettled
  exact live_iff.trans hsettled

end Runs

end Watchwoman.Watcher
