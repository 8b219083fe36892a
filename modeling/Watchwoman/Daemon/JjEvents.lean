import Watchwoman.Daemon.JjIndex
import Watchwoman.Query.JjFsmonitor

/-!
# Batches of a jj-events root

In jj-events mode `collect_event` turns each event into changes by looking at the ignore rules: a path
inside an ignored directory becomes a signal on the ignore file of that directory, a changed ignore
file, an error and a rescan drop the whole index and what the batch had collected. The disk, the
ignore rules and the cache of them may be different at each look, and other threads bump the clock,
answer queries and drop the index meanwhile.

Whatever the mix, jj learns of every path that an event named: its next query is fresh, or shows the
path or the ignore file of a directory on it (`events_reported`).
-/

namespace Watchwoman.JjEvents

open Transition Query Watcher

/-! ## A registered root -/

/-- What happens to a root once it is registered. It is crawled again in full mode only. -/
inductive Served (env : Env) : Root → Root → Prop
  | batch (arenaBytes : ℕ) (changes : List PathChange) (r : Root) :
    Served env r (r.applyChanges arenaBytes changes).1
  | invalidate (r : Root) : Served env r r.invalidateJjEvents.1
  | promote (entries : List ScanEntry) (r : Root) : Served env r (r.promoteToFull entries)
  | recrawl (entries : List ScanEntry) {r : Root} (hfull : r.jjEvents = false) :
    Served env r (r.seed entries)
  | sweep (r : Root) : Served env r r.pruneTombstones.1
  | bump (r : Root) : Served env r r.bump
  | query (spec : QuerySpec) (r : Root) : Served env r (run env spec r).2

/-- The index does not reach back to `t`, or has an entry for the path that is younger. -/
def Kept (t : ℕ) (q : RelPath) (r : Root) : Prop :=
  t < r.oldestAvailableTick ∨
    (r.jjEvents = true ∧ ∃ e, r.tree.get q = some e ∧ t < e.oclock)

/-- `r'` is `r` at a later time; what its index does not reach back to any more, it dropped now. -/
structure Later (r r' : Root) : Prop where
  path : r'.path = r.path
  clock : Clock.Same r.clock r'.clock
  ticks_le : r.clock.ticks ≤ r'.clock.ticks
  oldest : r'.oldestAvailableTick = r.oldestAvailableTick ∨
    r.clock.ticks < r'.oldestAvailableTick

section Root

variable {env : Env} {r r' : Root} {t tick : ℕ} {q : RelPath}

theorem Later.refl (r : Root) : Later r r := ⟨rfl, .refl _, le_rfl, .inl rfl⟩

theorem Later.lt_oldest (h : Later r r') (ht : t ≤ r.clock.ticks) (hlt : t < r.oldestAvailableTick) :
    t < r'.oldestAvailableTick := by
  rcases h.oldest with heq | hnew
  · rw [heq]
    exact hlt
  · exact ht.trans_lt hnew

theorem later_invalidate (r : Root) : Later r r.invalidateJjEvents.1 := by
  unfold Root.invalidateJjEvents
  split_ifs
  · exact ⟨rfl, (Clock.Same.refl _).bump, Nat.le_succ _, .inr (Nat.lt_succ_self _)⟩
  · exact .refl r

theorem later_applyChanges (arenaBytes : ℕ) (changes : List PathChange) (r : Root) :
    Later r (r.applyChanges arenaBytes changes).1 := by
  obtain ⟨tree, h⟩ := Root.writeChanges_eq r.clock.bump.ticks changes (r.openBatch arenaBytes)
  show Later r (changes.foldl _ (r.openBatch arenaBytes))
  rw [h]
  unfold Root.openBatch
  split_ifs
  · exact ⟨rfl, (Clock.Same.refl _).bump, Nat.le_succ _, .inr (Nat.lt_succ_self _)⟩
  · exact ⟨rfl, (Clock.Same.refl _).bump, Nat.le_succ _, .inl rfl⟩

theorem Served.later (hs : Served env r r') : Later r r' := by
  cases hs with
  | batch arenaBytes changes => exact later_applyChanges arenaBytes changes r
  | invalidate => exact later_invalidate r
  | promote entries =>
    unfold Root.promoteToFull
    split_ifs
    · exact ⟨rfl, (Clock.Same.refl _).bump, Nat.le_succ _, .inr (Nat.lt_succ_self _)⟩
    · exact .refl r
  | recrawl entries hfull => exact ⟨rfl, (Clock.Same.refl _).bump, Nat.le_succ _, .inl rfl⟩
  | sweep =>
    unfold Root.pruneTombstones
    split_ifs
    · exact .refl r
    · exact ⟨rfl, .refl _, le_rfl, .inl rfl⟩
  | bump => exact ⟨rfl, (Clock.Same.refl _).bump, Nat.le_succ _, .inl rfl⟩
  | query spec =>
    rcases root_run env spec r with h | ⟨name, h⟩ <;> rw [h]
    · exact .refl r
    · exact ⟨rfl, .refl _, le_rfl, .inl rfl⟩

/-! ## What the index keeps -/

theorem lt_oldest_invalidate (hjj : r.jjEvents = true) (ht : t ≤ r.clock.ticks) :
    t < r.invalidateJjEvents.1.oldestAvailableTick := by
  unfold Root.invalidateJjEvents
  rw [if_pos hjj]
  exact Nat.lt_succ_of_le ht

theorem Kept.writeChange (h : Kept t q r) (ht : t < tick) (c : PathChange) :
    Kept t q (r.writeChange tick c) := by
  rcases h with hold | ⟨hjj, e, he, hlt⟩
  · exact .inl hold
  · by_cases hq : q = c.rel
    · obtain ⟨e', he', htick, -⟩ := @Root.exists_get_applyChange r.jjEvents tick r.tree c
        (fun _ => .inl hjj)
      exact .inr ⟨hjj, e', by rw [hq]; exact he', ht.trans_eq htick.symm⟩
    · exact .inr ⟨hjj, e, (Root.get_applyChange_of_ne hq).trans he, hlt⟩

theorem kept_writeChanges (hjj : r.jjEvents = true) (ht : t < tick) {changes : List PathChange}
    (h : Kept t q r ∨ ∃ c ∈ changes, c.rel = q) :
    Kept t q (changes.foldl (Root.writeChange tick) r) := by
  induction changes generalizing r with
  | nil =>
    obtain h | ⟨c, hc, -⟩ := h
    · exact h
    · cases hc
  | cons c changes ih =>
    refine ih hjj ?_
    obtain h | ⟨c', hc', rfl⟩ := h
    · exact .inl (h.writeChange ht c)
    · rcases List.mem_cons.mp hc' with rfl | hc'
      · obtain ⟨e, he, htick, -⟩ := @Root.exists_get_applyChange r.jjEvents tick r.tree c'
          (fun _ => .inl hjj)
        exact .inl (.inr ⟨hjj, e, he, ht.trans_eq htick.symm⟩)
      · exact .inr ⟨c', hc', rfl⟩

theorem kept_applyChanges (hjj : r.jjEvents = true) (ht : t ≤ r.clock.ticks) (arenaBytes : ℕ)
    {changes : List PathChange} (h : Kept t q r ∨ ∃ c ∈ changes, c.rel = q) :
    Kept t q (r.applyChanges arenaBytes changes).1 := by
  have htick : t < r.clock.bump.ticks := Nat.lt_succ_of_le ht
  refine kept_writeChanges ((Root.jjEvents_openBatch arenaBytes r).trans hjj) htick ?_
  refine h.imp_left fun hkept => ?_
  unfold Root.openBatch
  split_ifs
  · exact .inl htick
  · exact hkept

theorem Kept.served (h : Kept t q r) (ht : t ≤ r.clock.ticks) (hs : Served env r r') :
    Kept t q r' := by
  rcases h with hold | ⟨hjj, e, he, hlt⟩
  · exact .inl (hs.later.lt_oldest ht hold)
  · have hkept : Kept t q r := .inr ⟨hjj, e, he, hlt⟩
    cases hs with
    | batch arenaBytes changes => exact kept_applyChanges hjj ht arenaBytes (.inl hkept)
    | invalidate => exact .inl (lt_oldest_invalidate hjj ht)
    | promote entries =>
      refine .inl ?_
      unfold Root.promoteToFull
      rw [if_pos hjj]
      exact Nat.lt_succ_of_le ht
    | recrawl entries hfull =>
      rw [hjj] at hfull
      cases hfull
    | sweep =>
      unfold Root.pruneTombstones
      rw [if_pos hjj]
      exact hkept
    | bump => exact hkept
    | query spec =>
      rcases root_run env spec r with h | ⟨name, h⟩ <;> rw [h]
      · exact hkept
      · exact hkept

end Root

/-! ## Collecting a batch -/

/-- The root, the changes and the events of a batch at work. -/
structure Batch where
  root : Root
  out : List PathChange
  events : List Notice

/-- One step of the loop over the events, or of another thread. The mode lock keeps the root in
jj-events mode. -/
inductive Collects : Batch → Batch → Prop
  | event (d : Disk) (matched : RelPath → RelPath → Option Bool) (target : Option String)
    {b : Batch} (hne : b.events ≠ []) :
    Collects b
      ⟨(collect d matched target true b.root b.out b.events).1,
        (collect d matched target true b.root b.out b.events).2.1,
        (collect d matched target true b.root b.out b.events).2.2⟩
  | other (env : Env) {b : Batch} {r : Root} (hs : Served env b.root r)
    (hjj : r.jjEvents = true) :
    Collects b { b with root := r }

def Batch.applied (arenaBytes : ℕ) (b : Batch) : Root :=
  if b.out = [] then b.root else (b.root.applyChanges arenaBytes b.out).1

/-- An event other than a read names the path. -/
def Names (events : List Notice) (abs : List Name) : Prop :=
  ∃ ev, .event ev ∈ events ∧ ¬ ev.IsRead ∧ abs ∈ ev.paths

/-- An error, or an event that asks for a rescan. -/
def Fails : Notice → Prop
  | .error => True
  | .event ev => ev.needRescan = true

/-- The path is the other one or the ignore file of a directory on it. -/
def Covers (q p : RelPath) : Prop := q = p ∨ ∃ d, d ≠ [] ∧ d <+: p ∧ q = d ++ [gitignore]

/-- A path below the root that jj wants to know about. -/
def Wanted (p : RelPath) : Prop := p ≠ [] ∧ isJjInternal p = false

/-- The index was dropped, or a collected change covers the path. -/
def Collected (t : ℕ) (p : RelPath) (b : Batch) : Prop :=
  t < b.root.oldestAvailableTick ∨ ∃ c ∈ b.out, Covers c.rel p

section Collect

variable {d : Disk} {matched : RelPath → RelPath → Option Bool} {target : Option String}
  {kind : EventKind} {abs : List Name} {root : Root} {out : List PathChange} {p : RelPath} {t : ℕ}

theorem ignoredBelow_prefix {isDir : Bool} {ancestors : List RelPath} {above : RelPath}
    {rest : List Name} {ignored : RelPath}
    (h : ignoredBelow matched isDir ancestors above rest = some ignored) :
    ∃ n more, ignored = above ++ n :: more ∧ n :: more <+: rest := by
  induction rest generalizing ancestors above with
  | nil => cases h
  | cons n rest ih =>
    unfold ignoredBelow at h
    split_ifs at h
    · obtain rfl := Option.some.inj h
      exact ⟨n, [], rfl, List.prefix_cons_inj n |>.mpr List.nil_prefix⟩
    · obtain ⟨m, more, rfl, hpre⟩ := ih h
      refine ⟨n, m :: more, ?_, (List.prefix_cons_inj n).mpr hpre⟩
      rw [List.append_assoc]
      rfl

theorem ignoredDirectory_prefix {isDir : Bool} {ignored : RelPath}
    (h : ignoredDirectory matched p isDir = some ignored) : ignored ≠ [] ∧ ignored <+: p := by
  obtain ⟨n, more, rfl, hpre⟩ := ignoredBelow_prefix h
  exact ⟨by simp, hpre⟩

theorem rel_changeOf (d : Disk) (kind : EventKind) (p : RelPath) (target : Option String) :
    (changeOf d kind p target).rel = p := by
  unfold changeOf
  split_ifs
  · rfl
  · split <;> rfl

theorem dropPrefix_iff {path : List Name} :
    abs.dropPrefix? path = some p ↔ abs = path ++ p := by
  rw [List.dropPrefix?_eq_some_iff]
  simp

/-- One path of an event: it is not below the root, or nothing jj wants, or the index is dropped, or
a change that covers it is added. -/
theorem collectPath_cases :
    (collectPath d matched target true kind abs root out = (root, out) ∧
      ∀ p, abs = root.path ++ p → ¬ Wanted p) ∨
    collectPath d matched target true kind abs root out = (root.invalidateJjEvents.1, []) ∨
    ∃ p more, collectPath d matched target true kind abs root out = (root, out ++ more) ∧
      abs = root.path ++ p ∧ ∃ c ∈ more, Covers c.rel p := by
  unfold collectPath
  cases habs : abs.dropPrefix? root.path with
  | none =>
    refine .inl ⟨rfl, fun p hp => ?_⟩
    have hsome := dropPrefix_iff.mpr hp
    rw [habs] at hsome
    cases hsome
  | some p =>
    obtain rfl := dropPrefix_iff.mp habs
    have hother : ∀ p', root.path ++ p = root.path ++ p' → p' = p :=
      fun p' h => (List.append_cancel_left h).symm
    dsimp only
    by_cases hnil : p = []
    · rw [if_pos hnil]
      exact .inl ⟨rfl, fun p' hp' hwanted => hwanted.1 ((hother p' hp').trans hnil)⟩
    · rw [if_neg hnil]
      by_cases hinternal : isJjInternal p = true
      · rw [if_pos (.inl ⟨rfl, hinternal⟩)]
        refine .inl ⟨rfl, fun p' hp' hwanted => ?_⟩
        obtain rfl := hother p' hp'
        have := hwanted.2
        rw [hinternal] at this
        cases this
      · rw [if_neg (by simp [hinternal])]
        simp only [if_true]
        split
        · rename_i ignored hignored
          obtain ⟨hne, hpre⟩ := ignoredDirectory_prefix hignored
          refine .inr (.inr ⟨p, _, Prod.ext rfl (List.append_assoc _ _ _), rfl,
            .signal (ignored ++ [gitignore]), ?_, .inr ⟨ignored, hne, hpre, rfl⟩⟩)
          simp
        · split_ifs
          · exact .inr (.inl rfl)
          · refine .inr (.inr ⟨p, _, rfl, rfl, _, List.mem_singleton_self _, .inl ?_⟩)
            exact rel_changeOf d kind p target

end Collect

/-- What holds of a batch at work: the paths that its events named are still to come or collected,
and a failure is still to come or has dropped the index. -/
structure Inv (t : ℕ) (b₀ b : Batch) : Prop where
  jj : b.root.jjEvents = true
  path : b.root.path = b₀.root.path
  clock : Clock.Same b₀.root.clock b.root.clock
  le_ticks : t ≤ b.root.clock.ticks
  named : ∀ p, Wanted p → Names b₀.events (b₀.root.path ++ p) →
    Names b.events (b₀.root.path ++ p) ∨ Collected t p b
  fails : (∃ n ∈ b₀.events, Fails n) →
    (∃ n ∈ b.events, Fails n) ∨ t < b.root.oldestAvailableTick

section Steps

variable {t : ℕ} {b₀ b : Batch}

/-- The root moves on; what was to come and is not any more has been dealt with. -/
theorem Inv.next (h : Inv t b₀ b) {b' : Batch} (hjj : b'.root.jjEvents = true)
    (hlater : Later b.root b'.root)
    (hnamed : ∀ p, Wanted p → Names b.events (b.root.path ++ p) →
      Names b'.events (b.root.path ++ p) ∨ Collected t p b')
    (hkept : ∀ p, Collected t p b → Collected t p b')
    (hfails : (∃ n ∈ b.events, Fails n) →
      (∃ n ∈ b'.events, Fails n) ∨ t < b'.root.oldestAvailableTick) : Inv t b₀ b' where
  jj := hjj
  path := hlater.path.trans h.path
  clock := h.clock.trans hlater.clock
  le_ticks := h.le_ticks.trans hlater.ticks_le
  named p hp hnames := by
    rcases h.named p hp hnames with hcoming | hcollected
    · rw [← h.path] at hcoming ⊢
      exact hnamed p hp hcoming
    · exact .inr (hkept p hcollected)
  fails hexists := by
    rcases h.fails hexists with hcoming | hlt
    · exact hfails hcoming
    · exact .inr (hlater.lt_oldest h.le_ticks hlt)

theorem Inv.drop (h : Inv t b₀ b) (out : List PathChange) (events : List Notice) :
    Inv t b₀ ⟨b.root.invalidateJjEvents.1, out, events⟩ := by
  have hlt := lt_oldest_invalidate h.jj h.le_ticks
  refine h.next ?_ (later_invalidate b.root) (fun _ _ _ => .inr (.inl hlt))
    (fun _ _ => .inl hlt) fun _ => .inr hlt
  unfold Root.invalidateJjEvents
  rw [if_pos h.jj]
  exact h.jj

theorem names_cons {n : Notice} {rest : List Notice} {abs : List Name} :
    Names (n :: rest) abs ↔
      (∃ ev, n = .event ev ∧ ¬ ev.IsRead ∧ abs ∈ ev.paths) ∨ Names rest abs := by
  unfold Names
  constructor
  · rintro ⟨ev, hmem, hread, hpath⟩
    rcases List.mem_cons.mp hmem with rfl | hmem
    · exact .inl ⟨ev, rfl, hread, hpath⟩
    · exact .inr ⟨ev, hmem, hread, hpath⟩
  · rintro (⟨ev, rfl, hread, hpath⟩ | ⟨ev, hmem, hread, hpath⟩)
    · exact ⟨ev, List.mem_cons_self, hread, hpath⟩
    · exact ⟨ev, List.mem_cons_of_mem _ hmem, hread, hpath⟩

theorem Inv.skip {root : Root} {out : List PathChange} {ev : Event} {rest : List Notice}
    (h : Inv t b₀ ⟨root, out, .event ev :: rest⟩) (hrescan : ev.needRescan ≠ true)
    (hsilent : ∀ abs, ev.IsRead ∨ abs ∉ ev.paths) : Inv t b₀ ⟨root, out, rest⟩ := by
  refine h.next h.jj (.refl root) ?_ (fun _ => id) ?_
  · intro p _ hnames
    rcases names_cons.mp hnames with ⟨ev', heq, hread, hpath⟩ | hrest
    · obtain rfl := Notice.event.inj heq
      rcases hsilent (root.path ++ p) with hread' | hpath'
      · exact absurd hread' hread
      · exact absurd hpath hpath'
    · exact .inl hrest
  · rintro ⟨n, hn, hfails⟩
    rcases List.mem_cons.mp hn with rfl | hn
    · exact absurd hfails hrescan
    · exact .inl ⟨n, hn, hfails⟩

/-- One path of an event is dealt with. -/
theorem Inv.onePath {root : Root} {out : List PathChange} {ev : Event} {abs : List Name}
    {paths : List (List Name)} {rest : List Notice}
    (h : Inv t b₀ ⟨root, out, .event ev :: rest⟩) (hpaths : ev.paths = abs :: paths)
    {more : List PathChange}
    (hmore : ∀ p, Wanted p → abs = root.path ++ p → ∃ c ∈ more, Covers c.rel p) :
    Inv t b₀ ⟨root, out ++ more, .event { ev with paths } :: rest⟩ := by
  refine h.next h.jj (.refl root) ?_ ?_ ?_
  · intro p hp hnames
    rcases names_cons.mp hnames with ⟨ev', heq, hread, hpath⟩ | hrest
    · obtain rfl := Notice.event.inj heq
      rw [hpaths] at hpath
      rcases List.mem_cons.mp hpath with hhere | hlater
      · obtain ⟨c, hc, hcovers⟩ := hmore p hp hhere.symm
        exact .inr (.inr ⟨c, List.mem_append_right _ hc, hcovers⟩)
      · exact .inl (names_cons.mpr (.inl ⟨_, rfl, hread, hlater⟩))
    · exact .inl (names_cons.mpr (.inr hrest))
  · rintro p (hlt | ⟨c, hc, hcovers⟩)
    · exact .inl hlt
    · exact .inr ⟨c, List.mem_append_left _ hc, hcovers⟩
  · rintro ⟨n, hn, hfails⟩
    rcases List.mem_cons.mp hn with rfl | hn
    · exact .inl ⟨_, List.mem_cons_self, hfails⟩
    · exact .inl ⟨n, List.mem_cons_of_mem _ hn, hfails⟩

/-- One step of the loop over the events. -/
theorem Inv.collect {root : Root} {out : List PathChange} {events : List Notice}
    (h : Inv t b₀ ⟨root, out, events⟩) (d : Disk) (matched : RelPath → RelPath → Option Bool)
    (target : Option String) :
    Inv t b₀ ⟨(collect d matched target true root out events).1,
      (collect d matched target true root out events).2.1,
      (collect d matched target true root out events).2.2⟩ := by
  have hjj : root.jjEvents = true := h.jj
  cases events with
  | nil => exact h
  | cons n rest =>
    cases n with
    | error =>
      simp only [Watcher.collect, hjj, if_true]
      exact h.drop [] rest
    | event ev =>
      simp only [Watcher.collect, hjj, and_true]
      by_cases hrescan : ev.needRescan = true
      · rw [if_pos hrescan]
        exact h.drop [] rest
      · rw [if_neg hrescan]
        by_cases hread : ev.IsRead
        · rw [if_pos hread]
          exact h.skip hrescan fun _ => .inl hread
        · rw [if_neg hread]
          cases hpaths : ev.paths with
          | nil =>
            refine h.skip hrescan fun abs => .inr ?_
            rw [hpaths]
            exact List.not_mem_nil
          | cons abs paths =>
            rcases @collectPath_cases d matched target ev.kind abs root out with
              ⟨heq, hunwanted⟩ | heq | ⟨p, more, heq, rfl, hcovers⟩
            · simp only [heq]
              rw [← List.append_nil out]
              exact h.onePath hpaths fun p hp habs => absurd hp (hunwanted p habs)
            · simp only [heq]
              exact h.drop [] _
            · simp only [heq]
              refine h.onePath hpaths fun p' _ habs => ?_
              rw [← List.append_cancel_left habs]
              exact hcovers

theorem Inv.step {b' : Batch} (h : Inv t b₀ b) (hs : Collects b b') : Inv t b₀ b' := by
  cases hs with
  | event d matched target hne => exact h.collect d matched target
  | other env hs hjj =>
    refine h.next hjj hs.later (fun _ _ => .inl) ?_ .inl
    rintro p (hlt | hcovered)
    · exact .inl (hs.later.lt_oldest h.le_ticks hlt)
    · exact .inr hcovered

theorem Inv.init {b : Batch} (hjj : b.root.jjEvents = true) (ht : t ≤ b.root.clock.ticks) :
    Inv t b b :=
  ⟨hjj, rfl, .refl _, ht, fun _ _ => .inl, .inl⟩

end Steps

/-! ## What jj's next query says -/

def Shows (env : Env) (spec : QuerySpec) (r : Root) (q : RelPath) : Prop :=
  ∃ e, r.tree.get q = some e ∧
    Field.renderRow env r.path q e spec.fields r.clock ∈ (run env spec r).1.files

/-- The answer is fresh, or shows the path or the ignore file of a directory on it. -/
def Reported (env : Env) (spec : QuerySpec) (r : Root) (p : RelPath) : Prop :=
  (run env spec r).1.isFreshInstance = true ∨ ∃ q, Covers q p ∧ Shows env spec r q

/-- Nothing in jj's query hides the path. -/
structure Visible (p : RelPath) : Prop where
  noSlash : p.NoSlash
  internal : isJjInternal p = false
  cookie : ¬ IsCookie p

section Answer

variable {env : Env} {spec : QuerySpec} {r : Root} {c : Clock} {t : ℕ} {p q : RelPath}

theorem Visible.covers (h : Visible p) (hq : Covers q p) : Visible q := by
  obtain rfl | ⟨d, hne, hpre, rfl⟩ := hq
  · exact h
  · refine ⟨?_, ?_, ?_⟩
    · refine List.forall_mem_append.mpr ⟨fun n hn => h.noSlash n (hpre.subset hn), ?_⟩
      decide
    · obtain ⟨n, d, rfl⟩ := List.exists_cons_of_ne_nil hne
      obtain ⟨rest, rfl⟩ := hpre
      exact h.internal
    · rintro ⟨name, hname, hstarts⟩
      rw [RelPath.fileName, List.getLast?_concat] at hname
      obtain rfl := Option.some.inj hname
      exact absurd hstarts (by decide)

theorem shows_of_kept (env : Env) (hspec : AsksForJj spec (c.encode t)) (ht : t < 2 ^ 64)
    (hclock : Clock.Same c r.clock) (hvisible : Visible q) (hkept : Kept t q r) :
    (run env spec r).1.isFreshInstance = true ∨ Shows env spec r q := by
  by_cases hfresh : IsFresh r spec
  · left
    rw [isFreshInstance_run]
    exact decide_eq_true hfresh
  · rcases hkept with hold | ⟨-, e, he, hlt⟩
    · exact absurd (JjIndex.isFresh_of_lt_oldest ht hclock hspec.since hold) hfresh
    · refine .inr ⟨e, he, ?_⟩
      refine mem_files hfresh he ?_ ?_
      · rw [sinceTick_encode ht hspec.since hclock]
        rintro _ ⟨⟩
        exact hlt
      · exact select_of_asksForJj hspec (resolveScmSet_encode ht hspec.since) hvisible.noSlash
          hvisible.internal hvisible.cookie e

theorem kept_of_run {r' : Root} (hrun : Run (fun s s' => ∃ env, Served env s s') r r')
    (ht : t ≤ r.clock.ticks) : t ≤ r'.clock.ticks ∧ Clock.Same r.clock r'.clock ∧
      (∀ q, Kept t q r → Kept t q r') ∧
      (t < r.oldestAvailableTick → t < r'.oldestAvailableTick) := by
  induction hrun with
  | refl => exact ⟨ht, .refl _, fun _ => id, id⟩
  | tail _ hs ih =>
    obtain ⟨hle, hclock, hkept, hold⟩ := ih
    obtain ⟨env, hs⟩ := hs
    refine ⟨hle.trans hs.later.ticks_le, hclock.trans hs.later.clock, ?_, ?_⟩
    · exact fun q hq => (hkept q hq).served hle hs
    · exact fun hlt => hs.later.lt_oldest hle (hold hlt)

theorem kept_applied {b : Batch} (arenaBytes : ℕ) (hjj : b.root.jjEvents = true)
    (ht : t ≤ b.root.clock.ticks) (h : Collected t p b) :
    ∃ q, Covers q p ∧ Kept t q (b.applied arenaBytes) := by
  unfold Batch.applied
  rcases h with hlt | ⟨change, hmem, hcovers⟩
  · refine ⟨p, .inl rfl, .inl ?_⟩
    split_ifs
    · exact hlt
    · exact (later_applyChanges arenaBytes b.out b.root).lt_oldest ht hlt
  · refine ⟨change.rel, hcovers, ?_⟩
    rw [if_neg (List.ne_nil_of_mem hmem)]
    exact kept_applyChanges hjj ht arenaBytes (.inr ⟨change, hmem, rfl⟩)

theorem later_applied {b : Batch} (arenaBytes : ℕ) : Later b.root (b.applied arenaBytes) := by
  unfold Batch.applied
  split_ifs
  · exact .refl _
  · exact later_applyChanges arenaBytes b.out b.root

end Answer

/-- **jj events.** Let a batch of events be collected and applied on a jj-events root, and let jj ask
for what changed since a clock that the root handed out before the batch. For every path below the
root that an event other than a read named, outside of `.git` and `.jj` and no cookie, the answer is
fresh, or shows the path or the ignore file of a directory on it. If the batch had an error or asked
for a rescan, the answer is fresh. -/
theorem events_reported (env : Env) (arenaBytes : ℕ) {b₀ b : Batch} {r : Root}
    (hjj : b₀.root.jjEvents = true) (hticks : b₀.root.clock.ticks < 2 ^ 64)
    (hrun : Run Collects b₀ b) (hdone : b.events = [])
    (hlater : Run (fun s s' => ∃ env, Served env s s') (b.applied arenaBytes) r)
    {t : ℕ} (ht : t ≤ b₀.root.clock.ticks) {spec : QuerySpec}
    (hspec : AsksForJj spec (b₀.root.clock.encode t)) :
    (∀ p, Names b₀.events (b₀.root.path ++ p) → p ≠ [] → Visible p → Reported env spec r p) ∧
      ((∃ n ∈ b₀.events, Fails n) → (run env spec r).1.isFreshInstance = true) := by
  have hinv : Inv t b₀ b := hrun.preserves (fun s s' h hs => h.step hs) (.init hjj ht)
  have happlied := later_applied (b := b) arenaBytes
  obtain ⟨-, hclock, hkept, hold⟩ := kept_of_run hlater (hinv.le_ticks.trans happlied.ticks_le)
  have hsame : Clock.Same b₀.root.clock r.clock :=
    (hinv.clock.trans happlied.clock).trans hclock
  have ht64 : t < 2 ^ 64 := ht.trans_lt hticks
  refine ⟨fun p hnames hne hvisible => ?_, fun hfails => ?_⟩
  · rcases hinv.named p ⟨hne, hvisible.internal⟩ hnames with ⟨ev, hev, -⟩ | hcollected
    · rw [hdone] at hev
      cases hev
    · obtain ⟨q, hcovers, hq⟩ := kept_applied arenaBytes hinv.jj hinv.le_ticks hcollected
      have hshows := shows_of_kept env hspec ht64 hsame (hvisible.covers hcovers) (hkept q hq)
      exact hshows.imp_right fun hrow => ⟨q, hcovers, hrow⟩
  · rcases hinv.fails hfails with ⟨n, hn, -⟩ | hlt
    · rw [hdone] at hn
      cases hn
    · rw [isFreshInstance_run]
      refine decide_eq_true (JjIndex.isFresh_of_lt_oldest ht64 hsame hspec.since ?_)
      exact hold (happlied.lt_oldest hinv.le_ticks hlt)

/-! ## A file in an ignored directory -/

/-- jj's query since the clock of an empty event index. -/
def jjQuery : QuerySpec :=
  { everything with
    expression := .not (.anyOf [.dirname ".git" true, .dirname ".jj" true,
      .name [".git", ".jj"] .wholename true])
    since := some (ClockSpec.parse (JjIndex.emptyIndex.root.clock.encode 2)) }

theorem asksForJj_jjQuery : AsksForJj jjQuery (JjIndex.emptyIndex.root.clock.encode 2) := by
  refine ⟨by decide, ?_, rfl, rfl, rfl, rfl, rfl, rfl, rfl⟩
  rintro excludes ⟨⟩
  simp [Expr.isCaseSensitive]

/-- An event about the file `b/c`, gone by the time it is looked at. -/
def changedInB : Batch :=
  ⟨JjIndex.emptyIndex.root, [], [.event ⟨.modify, [[[0x62], [0x63]]], false⟩]⟩

def noDisk : Disk := ⟨fun _ => none, fun _ _ h => absurd rfl h⟩

/-- The ignore file of the root has `b`. -/
def ignoresB (_ dir : RelPath) : Option Bool := if dir = [[0x62]] then some true else none

/-- The event becomes a signal on the ignore file of `b`, which jj's query shows. -/
theorem events_reported_changedInB : ∃ b, Run Collects changedInB b ∧ b.events = [] ∧
    b.out.map PathChange.rel = [[[0x62], gitignore]] ∧
    Reported emptyEnv jjQuery (b.applied 0) [[0x62], [0x63]] := by
  have hrun : ∃ b, Run Collects changedInB b ∧ b.events = [] ∧
      b.out.map PathChange.rel = [[[0x62], gitignore]] :=
    ⟨_, .head (.event noDisk ignoresB none (by decide))
      (.single (.event noDisk ignoresB none (by decide))), rfl, rfl⟩
  obtain ⟨b, hrun, hdone, hout⟩ := hrun
  have hvisible : Visible [[0x62], [0x63]] := ⟨by decide, by decide, by decide⟩
  refine ⟨b, hrun, hdone, hout, ?_⟩
  refine (events_reported emptyEnv 0 rfl (by decide) hrun hdone .refl (by decide)
    asksForJj_jjQuery).1 _ ?_ (by decide) hvisible
  exact ⟨_, List.mem_singleton_self _, by decide, List.mem_singleton_self _⟩

end Watchwoman.JjEvents
