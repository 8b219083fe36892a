import Watchwoman.Daemon.Promotion

/-!
# A recrawl under a running event loop

`debug-recrawl` scans the disk of a full-index root without a lock and then replaces the tree by what
it found. The event loop goes on meanwhile: a change behind the scan whose batch is applied before
the scan is seeded is in neither (`recrawl_drops_change`).

As long as no batch that is applied under a scan has a path about which the scan is wrong, unless an
event about that path is still on the way, and nothing is found through a link, the tree converges
to the disk (`recrawl_converges`).
-/

namespace Watchwoman.Recrawl

open Transition LastWrite Watcher

/-- The watcher of a root, with the scan of each `debug-recrawl` under way. -/
structure State where
  watcher : Watcher.State
  scans : ℕ → Option Crawl

/-- One step of the watcher or of a recrawl, with the path that is statted in it. The scan takes no
lock, and `seed` only that of the tree. -/
inductive Step : Option RelPath → State → State → Prop
  | watcher {look : Option RelPath} {σ : State} {w : Watcher.State}
    (h : Watcher.Step look σ.watcher w) : Step look σ { σ with watcher := w }
  | beginScan (i : ℕ) {σ : State} (hattached : σ.watcher.stage = .attached)
    (hfull : σ.watcher.root.jjEvents = false) (hidle : σ.scans i = none) :
    Step none σ { σ with scans := Function.update σ.scans i (some Crawl.start) }
  | scan (i : ℕ) {look : Option RelPath} {σ : State} {cr cr' : Crawl} (hscan : σ.scans i = some cr)
    (h : Crawl.Step σ.watcher.root.ignores σ.watcher.disk look cr cr') :
    Step look σ { σ with scans := Function.update σ.scans i (some cr') }
  | seed (i : ℕ) {σ : State} {entries : List ScanEntry} (hscan : σ.scans i = some ⟨[], entries⟩) :
    Step none σ { σ with
      watcher := { σ.watcher with root := σ.watcher.root.seed entries }
      scans := Function.update σ.scans i none }

/-- A registered full-index root that agrees with the disk, and no recrawl. -/
structure Start (σ : State) : Prop where
  attached : σ.watcher.stage = .attached
  full : σ.watcher.root.jjEvents = false
  crawl : σ.watcher.crawl = none
  drained : Drained σ.watcher
  converged : Converged σ.watcher
  scans : ∀ i, σ.scans i = none

/-- A step that finds no path through a link, unless an event about that path is on the way. -/
def DirectStep (σ σ' : State) : Prop :=
  ∃ look, Step look σ σ' ∧
    ∀ p ∈ look, Quiet σ'.watcher p → σ.watcher.disk.lstat p ≠ none → σ.watcher.disk.Direct p

/-- The scan has listed the path only if it is there, and has it listed or in front of it if it is
there. -/
def RightAbout (d : Disk) (p : RelPath) (cr : Crawl) : Prop :=
  ((∃ x ∈ cr.out, x.1 = p) → d.OnDisk p) ∧
    (d.OnDisk p → (∃ x ∈ cr.out, x.1 = p) ∨ ∃ f ∈ cr.stack, Crawl.Leads p f)

/-- The batch at work has a change of the path. -/
def InBatch (w : Watcher.State) (p : RelPath) : Prop := lastSome? (verdict p) w.loop.batch ≠ none

/-- Under a scan, the step applies no change of a visible path about which the scan is wrong, unless
an event about that path is still on the way. -/
def AppliesInTime (σ σ' : State) : Prop :=
  ∀ i cr p, σ.scans i = some cr → shouldIgnore p σ.watcher.root.ignores = false →
    InBatch σ.watcher p → ¬ InBatch σ'.watcher p → Quiet σ'.watcher p →
    RightAbout σ.watcher.disk p cr

/-! ## The invariant -/

/-- A path that the watcher looks at and that nothing on the way or in the batch is about. -/
structure Clean (w : Watcher.State) (p : RelPath) : Prop where
  kept : ¬ Dropped w.root p
  quiet : Quiet w p
  batch : ¬ InBatch w p

structure Inv (σ : State) : Prop where
  watcher : Watcher.Inv σ.watcher
  attached : σ.watcher.stage = .attached
  full : σ.watcher.root.jjEvents = false
  scans : ∀ i cr, σ.scans i = some cr →
    cr.Inv σ.watcher.root.ignores σ.watcher.disk (Clean σ.watcher)

theorem Inv.crawl_eq_none {σ : State} (h : Inv σ) : σ.watcher.crawl = none := by
  cases hcr : σ.watcher.crawl with
  | none => rfl
  | some cr =>
    rcases (h.watcher.crawling cr hcr).1 with ⟨hs, -⟩ | ⟨-, hjj⟩
    · rw [h.attached] at hs
      cases hs
    · rw [h.full] at hjj
      cases hjj

/-- A root that agrees with the disk has nothing on the way. -/
theorem Inv.start {σ : State} (h : Start σ) : Inv σ := by
  obtain ⟨hqueue, hloop⟩ := h.drained
  have hcoming : σ.watcher.coming = [] := by
    rw [State.coming, hqueue, hloop]
    rfl
  refine ⟨⟨fun hs => absurd h.attached hs, ?_, ?_, ?_, ?_⟩, h.attached, h.full, ?_⟩
  · intro p hnote
    rw [hcoming] at hnote
    cases hnote
  · intro jj events batch hl
    rw [hloop] at hl
    cases hl
  · intro cr hcr
    rw [h.crawl] at hcr
    cases hcr
  · intro _ p _
    have hforesee : foresee σ.watcher p = liveAt σ.watcher.root.tree p := by
      unfold foresee
      rw [hloop]
      rfl
    rw [hforesee, ← live_iff]
    exact h.converged p
  · intro i cr hcr
    rw [h.scans i] at hcr
    cases hcr

/-! ## Steps of the watcher -/

section Watcher

variable {w w' : Watcher.State}

theorem scan_extend {ig : WatchIgnores} {d : Disk} {clean clean' : RelPath → Prop} {cr : Crawl}
    (h : cr.Inv ig d clean)
    (hclean : ∀ p, clean' p → shouldIgnore p ig = false → clean p ∨ RightAbout d p cr) :
    cr.Inv ig d clean' := by
  refine ⟨h.frames, ?_, ?_⟩
  · intro x hx
    obtain ⟨hne, hvisible, hon⟩ := h.sound x hx
    refine ⟨hne, hvisible, fun hc => ?_⟩
    rcases hclean x.1 hc hvisible with hc' | hright
    · exact hon hc'
    · exact hright.1 ⟨x, hx, rfl⟩
  · intro p hc hon hvisible
    rcases hclean p hc hvisible with hc' | hright
    · exact h.covers p hc' hon hvisible
    · exact hright.2 hon

theorem Clean.of_eq {p : RelPath} (h : Clean w' p) (hroot : SameSite w.root w'.root)
    (hcoming : lastNote w.root.path p w'.coming = none → lastNote w.root.path p w.coming = none)
    (hbatch : InBatch w p → InBatch w' p) : Clean w p := by
  refine ⟨?_, ?_, fun hin => h.batch (hbatch hin)⟩
  · have hkept := h.kept
    unfold Dropped at hkept ⊢
    rwa [hroot.ignores] at hkept
  · have hquiet := h.quiet
    unfold Quiet at hquiet ⊢
    rw [hroot.path] at hquiet
    exact hcoming hquiet

/-- A path that is clean once an event is interpreted was clean before: what the event says of a path
that is not filtered out is in the batch. -/
theorem Clean.collect {matched : RelPath → RelPath → Option Bool} {target : Option String}
    {events : List Notice} {batch : List PathChange} (hfull : w.root.jjEvents = false)
    (hloop : w.loop = .collecting false events batch) {p : RelPath}
    (h : Clean (collected w matched target false events batch) p) : Clean w p := by
  have hcoming : w.coming = events ++ w.queue := State.coming_of_loop hloop
  have hin : InBatch w p ↔ lastSome? (verdict p) batch ≠ none := by
    unfold InBatch
    rw [hloop]
    rfl
  obtain ⟨events', ⟨heq, hnotes⟩ | ⟨kind, abs, heq, hnotes, -⟩⟩ :=
    collect_full hfull w.disk matched target batch events
  · refine h.of_eq (collect_site ..) ?_ ?_
    · unfold collected
      rw [hcoming, heq]
      show lastNote w.root.path p (events' ++ w.queue) = none → _
      rw [lastNote_append, lastNote_append, lastNote_congr hnotes]
      exact id
    · unfold InBatch collected
      rw [heq, hloop]
      exact id
  · have hkept : ¬ Dropped w.root p := by
      have hsite := collect_site w.disk matched target false w.root batch events
      have hkept := h.kept
      unfold Dropped at hkept ⊢
      rw [← hsite.ignores]
      exact hkept
    have hnone : lastSome? (verdict p)
        (batch ++ ((relevant w.root abs).map fun rel => changeOf w.disk kind rel target).toList) =
        none := by
      have hbatch := not_not.mp h.batch
      unfold collected at hbatch
      rwa [heq] at hbatch
    rw [lastSome?_verdict_look] at hnone
    have hother : relevant w.root abs ≠ some p := by
      intro habs
      rw [if_pos habs] at hnone
      cases hnone
    rw [if_neg hother] at hnone
    have hne : abs ≠ w.root.path ++ p := fun habs => hother (relevant_eq_some.mpr ⟨habs, hkept⟩)
    refine ⟨hkept, ?_, fun hbatch => hin.mp hbatch hnone⟩
    have hquiet := h.quiet
    unfold Quiet collected at hquiet
    rw [heq] at hquiet
    change lastNote w.root.path p (events' ++ w.queue) = none at hquiet
    unfold Quiet
    rw [hcoming, lastNote_append, lastNote_cons hnotes, if_neg hne, Option.or_none,
      ← lastNote_append]
    exact hquiet

end Watcher

section Steps

variable {σ σ' : State}

/-- A batch is applied under the scans: a path it has a change of is one they are right about. -/
theorem Inv.scans_apply (h : Inv σ) (arenaBytes : ℕ) {jj : Bool} {batch : List PathChange}
    (hloop : σ.watcher.loop = .collecting jj [] batch) {w : Watcher.State}
    (hw : w = { σ.watcher with
      root := if batch = [] then σ.watcher.root
        else (σ.watcher.root.applyChanges arenaBytes batch).1
      loop := .waiting [] })
    (htime : AppliesInTime σ { σ with watcher := w }) {i : ℕ} {cr : Crawl}
    (hcr : σ.scans i = some cr) : cr.Inv w.root.ignores w.disk (Clean w) := by
  have hsite : SameSite σ.watcher.root w.root := by
    rw [hw]
    dsimp only
    split_ifs
    · exact .refl _
    · exact .batch _ _ _
  have hdisk : w.disk = σ.watcher.disk := by rw [hw]
  rw [hsite.ignores, hdisk]
  refine scan_extend (h.scans i cr hcr) fun p hp hvisible => ?_
  by_cases hin : InBatch σ.watcher p
  · exact .inr (htime i cr p hcr hvisible hin hp.batch hp.quiet)
  · refine .inl (hp.of_eq hsite ?_ fun hin' => absurd hin' hin)
    rw [hw]
    simp [State.coming, hloop, Loop.events]

/-- What a step of the watcher leaves of the scans under way. -/
theorem Inv.scans_watcher (h : Inv σ) {look : Option RelPath} {w : Watcher.State}
    (hs : Watcher.Step look σ.watcher w) (htime : AppliesInTime σ { σ with watcher := w })
    {i : ℕ} {cr : Crawl} (hcr : σ.scans i = some cr) :
    cr.Inv w.root.ignores w.disk (Clean w) := by
  have hscan := h.scans i cr hcr
  have hunattached : ∀ {s : Stage}, σ.watcher.stage = s → s ≠ .attached → False :=
    fun hstage hne => hne (hstage.symm.trans h.attached)
  have hnocrawl : ∀ {c : Crawl}, σ.watcher.crawl ≠ some c := by
    intro c hc
    rw [h.crawl_eq_none] at hc
    cases hc
  cases hs with
  | mutate d' hstage => exact absurd h.attached hstage
  | mutateWatched d' events hstage hreports =>
    refine hscan.mutate (fun p hp => ?_) fun p hp _ _ => (quiet_watched hreports hp.quiet).2
    exact ⟨hp.kept, (quiet_watched hreports hp.quiet).1, hp.batch⟩
  | scan hstage hfull => exact (hunattached hstage (by simp)).elim
  | seed hstage hcrawl => exact (hunattached hstage (by simp)).elim
  | seedEmpty hstage hjj => exact (hunattached hstage (by simp)).elim
  | attach hstage => exact (hunattached hstage (by simp)).elim
  | crawl hcrawl hstep => exact absurd hcrawl hnocrawl
  | receive hloop hqueue hmax =>
    refine scan_extend hscan fun p hp _ => .inl (hp.of_eq (.refl _) ?_ ?_)
    · simp [State.coming, hloop, hqueue, Loop.events]
    · unfold InBatch
      rw [hloop]
      exact id
  | lock hloop hne hcrawl =>
    refine scan_extend hscan fun p hp _ => .inl (hp.of_eq (.refl _) ?_ ?_)
    · simp [State.coming, hloop, Loop.events]
    · unfold InBatch
      rw [hloop]
      exact id
  | @collect matched target _ jj events batch hloop hne =>
    have hjj : jj = false := (h.watcher.locked _ _ _ hloop).1.trans h.full
    subst hjj
    have hsite := collect_site σ.watcher.disk matched target false σ.watcher.root batch events
    show Crawl.Inv (collect ..).1.ignores σ.watcher.disk (Clean (collected σ.watcher ..)) cr
    rw [hsite.ignores]
    exact scan_extend hscan fun p hp _ => .inl (hp.collect h.full hloop)
  | apply arenaBytes hloop => exact h.scans_apply arenaBytes hloop rfl htime hcr
  | beginPromotion hstage hjj hcrawl hloop =>
    rw [h.full] at hjj
    cases hjj
  | promote hstage hcrawl => exact absurd hcrawl hnocrawl
  | bump =>
    exact scan_extend hscan fun p hp _ => .inl (hp.of_eq ⟨rfl, rfl, rfl⟩ id id)
  | sweep hcrawl =>
    have hsite := SameSite.sweep σ.watcher.root
    show Crawl.Inv σ.watcher.root.pruneTombstones.1.ignores σ.watcher.disk _ cr
    rw [hsite.ignores]
    exact scan_extend hscan fun p hp _ => .inl (hp.of_eq hsite id id)

theorem Inv.watcherStep (h : Inv σ) {look : Option RelPath} {w : Watcher.State}
    (hs : Watcher.Step look σ.watcher w)
    (hdirect : ∀ p ∈ look, Quiet w p → σ.watcher.disk.lstat p ≠ none → σ.watcher.disk.Direct p)
    (htime : AppliesInTime σ { σ with watcher := w }) : Inv { σ with watcher := w } := by
  have hbehind : NoChangeBehindCrawl σ.watcher w := by
    rintro ⟨hstage, -⟩
    rcases hstage with hstage | hstage <;> rw [h.attached] at hstage <;> cases hstage
  refine ⟨h.watcher.step ⟨look, hs, hdirect⟩ hbehind, hs.mode.1 h.attached, ?_, ?_⟩
  · rcases hs.mode.2 with hsame | ⟨-, hfull⟩
    · exact hsame.trans h.full
    · exact hfull
  · exact fun i cr hcr => h.scans_watcher hs htime hcr

theorem Inv.setScan (h : Inv σ) {i : ℕ} {scan : Option Crawl}
    (hscan : ∀ cr, scan = some cr →
      cr.Inv σ.watcher.root.ignores σ.watcher.disk (Clean σ.watcher)) :
    Inv { σ with scans := Function.update σ.scans i scan } := by
  refine ⟨h.watcher, h.attached, h.full, fun j cr hcr => ?_⟩
  change Function.update σ.scans i scan j = some cr at hcr
  by_cases hj : j = i
  · rw [hj, Function.update_self] at hcr
    exact hscan cr hcr
  · rw [Function.update_of_ne hj] at hcr
    exact h.scans j cr hcr

/-- The tree is replaced by what a finished scan has found: the scan is right about a path that
nothing is about, and the batch is right about a path it has a change of. -/
theorem Inv.seed (h : Inv σ) {i : ℕ} {entries : List ScanEntry}
    (hscan : σ.scans i = some ⟨[], entries⟩) :
    Inv { σ with watcher := { σ.watcher with root := σ.watcher.root.seed entries } } := by
  have hfound := h.scans i _ hscan
  have hsite : SameSite σ.watcher.root (σ.watcher.root.seed entries) := ⟨rfl, rfl, rfl⟩
  refine ⟨?_, h.attached, h.full, fun j cr hcr => ?_⟩
  swap
  · exact scan_extend (h.scans j cr hcr) fun p hp _ => .inl (hp.of_eq hsite id id)
  refine h.watcher.withRoot hsite (fun p hn => hn) id h.watcher.locked (fun _ => rfl) ?_
  intro hi p hp
  have hsettled := h.watcher.settled hi p hp
  unfold foresee at hsettled
  cases hbatch : lastSome? (verdict p) σ.watcher.loop.batch with
  | some live =>
    rw [hbatch] at hsettled
    exact hsettled
  | none =>
    refine wanted_of_finished hfound ?_
    by_cases hdropped : Dropped σ.watcher.root p
    · exact .inl hdropped
    · exact .inr ⟨hdropped, hp.resolve_left hdropped, not_not.mpr hbatch⟩

theorem Inv.step (h : Inv σ) (hs : DirectStep σ σ') (htime : AppliesInTime σ σ') : Inv σ' := by
  obtain ⟨look, hs, hdirect⟩ := hs
  cases hs with
  | watcher hw => exact h.watcherStep hw hdirect htime
  | beginScan i hattached hfull hidle =>
    refine h.setScan ?_
    rintro cr ⟨rfl⟩
    exact .start
  | scan i hscan hstep =>
    refine h.setScan ?_
    rintro cr ⟨rfl⟩
    exact (h.scans i _ hscan).step hstep fun p hp hclean => hdirect p hp hclean.quiet
  | seed i hscan => exact (h.seed hscan).setScan (by rintro cr ⟨⟩)

end Steps

/-- **Recrawl.** In every run of a registered full-index root with any recrawls, in which no path is
found through a link unless an event about it is on the way, and no change of a visible path is
applied under a scan that is wrong about the path, unless an event about it is on the way, the live
entries are the visible paths of the disk whenever every event was applied. -/
theorem recrawl_converges {σ₀ σ : State} (hstart : Start σ₀)
    (hrun : Run (fun s s' => DirectStep s s' ∧ AppliesInTime s s') σ₀ σ)
    (hdrained : Drained σ.watcher) : Converged σ.watcher := by
  have hinv : Inv σ := hrun.preserves (fun s s' h hs => h.step hs.1 hs.2) (Inv.start hstart)
  exact hinv.watcher.converged hinv.attached hinv.full hdrained

/-! ## A directory created behind the scan -/

def emptyRoot : Root := (Root.new [[0x72]] .default false 1 1700000000 42).seed []

def registeredEmpty : State :=
  ⟨⟨emptyDisk, .attached, emptyRoot, none, [], .waiting []⟩, fun _ => none⟩

theorem start_registeredEmpty : Start registeredEmpty := by
  refine ⟨rfl, rfl, rfl, ⟨rfl, rfl⟩, fun p => iff_of_false ?_ ?_, fun _ => rfl⟩
  · rintro ⟨e, ⟨⟩, -⟩
  · exact fun h => not_onDisk_emptyDisk p h.1

def scanned (i : ℕ) : Option Crawl := if i = 0 then some ⟨[], []⟩ else none

theorem update_scanned : Function.update scanned 0 none = fun _ => none := by
  funext i
  rw [Function.update_apply]
  split_ifs with hi
  · rfl
  · exact if_neg hi

/-- The scan of the empty root is over, and then `x` is created. -/
theorem run_scanned : Run (fun s s' => DirectStep s s' ∧ AppliesInTime s s') registeredEmpty
    ⟨⟨dirDisk, .attached, emptyRoot, none, [about [0x78] .create], .waiting []⟩, scanned⟩ := by
  have hreports : Reports [[0x72]] emptyDisk dirDisk [about [0x78] .create] :=
    reports_about (by simp) (fun p hon => absurd hon (not_onDisk_emptyDisk p))
      (fun _ => eq_of_onDisk_pair) (by simp)
  have hscans : Function.update (Function.update (Function.update (fun _ => none) 0
      (some Crawl.start)) 0 (some ⟨[.listing [] false []], []⟩)) 0 (some ⟨[], []⟩) = scanned := by
    rw [Function.update_idem, Function.update_idem]
    funext i
    exact Function.update_apply ..
  rw [← hscans]
  have hwaiting : ∀ {σ σ' : State}, σ.watcher.loop = .waiting [] → AppliesInTime σ σ' := by
    intro σ σ' hloop i cr p _ _ hin
    unfold InBatch at hin
    rw [hloop] at hin
    exact absurd rfl hin
  exact .tail (.tail (.tail (.single
    ⟨⟨_, .beginScan 0 rfl rfl rfl, by simp⟩, hwaiting rfl⟩)
    ⟨⟨_, .scan 0 rfl (.readDir [] lstat_emptyDisk), by simp⟩, hwaiting rfl⟩)
    ⟨⟨_, .scan 0 rfl .done, by simp⟩, hwaiting rfl⟩)
    ⟨⟨_, .watcher (.mutateWatched dirDisk [about [0x78] .create] rfl hreports), by simp⟩, hwaiting rfl⟩

def created : List PathChange := [.upsert [[0x78]] (someKind .dir) none]

/-- The event loop hears of `x` and applies its batch. -/
theorem run_applied {r : Root} (hfull : r.jjEvents = false) (hpath : r.path = [[0x72]])
    (hignores : r.ignores = .default) {scans : ℕ → Option Crawl} {step : State → State → Prop}
    (hstep : ∀ s s', s.scans = scans → DirectStep s s' → step s s') :
    Run step
      ⟨⟨dirDisk, .attached, r, none, [about [0x78] .create], .waiting []⟩, scans⟩
      ⟨⟨dirDisk, .attached, (r.applyChanges 0 created).1, none, [], .waiting []⟩, scans⟩ := by
  have hrelevant : relevant r [[0x72], [0x78]] = some [[0x78]] := by
    refine relevant_eq_some.mpr ⟨by rw [hpath]; rfl, ?_⟩
    refine not_dropped (by simp) ?_
    rw [hignores]
    decide
  have hcollect : collect dirDisk (fun _ _ => none) none false r [] [about [0x78] .create] =
      (r, created, [.event ⟨.create, [], false⟩]) := by
    simp [collect, about, Event.IsRead, collectPath_full, hrelevant, created, changeOf, dirDisk,
      diskOf, List.lookup_cons, Crawl.linkTarget, someKind]
  have hrest : collect dirDisk (fun _ _ => none) none false r created
      [.event ⟨.create, [], false⟩] = (r, created, []) := by
    simp [collect, Event.IsRead]
  have hround : ∀ {events events' : List Notice} {batch batch' : List PathChange}, events ≠ [] →
      collect dirDisk (fun _ _ => none) none false r batch events = (r, batch', events') →
      (∀ p ∈ statted r events, p = [[0x78]]) →
      step ⟨⟨dirDisk, .attached, r, none, [], .collecting false events batch⟩, scans⟩
        ⟨⟨dirDisk, .attached, r, none, [], .collecting false events' batch'⟩, scans⟩ := by
    intro events events' batch batch' hne heq hlook
    have hcollected := @Watcher.Step.collect (fun _ _ => none) none
      ⟨dirDisk, .attached, r, none, [], .collecting false events batch⟩ _ _ _ rfl hne
    simp only [heq] at hcollected
    refine hstep _ _ rfl ⟨_, .watcher hcollected, fun p hp _ _ => ?_⟩
    rw [hlook p hp]
    exact direct_name ⟨_, rfl, rfl⟩ _
  have hlock := @Watcher.Step.lock
    ⟨dirDisk, .attached, r, none, [], .waiting [about [0x78] .create]⟩ _ rfl (by simp) rfl
  rw [hfull] at hlock
  have happly := @Watcher.Step.apply 0
    ⟨dirDisk, .attached, r, none, [], .collecting false [] created⟩ _ _ rfl
  rw [if_neg (by simp [created])] at happly
  refine .tail (.tail (.tail (.tail (.single
    (hstep _ _ rfl ⟨_, .watcher (.receive rfl rfl (by decide)), by simp⟩))
    (hstep _ _ rfl ⟨_, .watcher hlock, by simp⟩))
    (hround (by simp) hcollect ?_))
    (hround (by simp) hrest (by simp [statted])))
    (hstep _ _ rfl ⟨_, .watcher happly, by simp⟩)
  intro p hp
  have hstatted : statted r [about [0x78] .create] = some [[0x78]] := by
    simp [statted, about, hrelevant]
  rw [hstatted] at hp
  exact (Option.some.inj hp).symm

/-- The scan is seeded before the batch is applied. -/
theorem recrawl_converges_created : ∃ σ : State, σ.scans = (fun _ => none) ∧
    σ.watcher.root.tree.Live [[0x78]] ∧ Drained σ.watcher ∧ Converged σ.watcher := by
  have hseeded := run_scanned.tail (c := ⟨⟨dirDisk, .attached, emptyRoot.seed [], none,
      [about [0x78] .create], .waiting []⟩, fun _ => none⟩)
    ⟨⟨none, update_scanned ▸ .seed 0 rfl, by simp⟩, by
      rintro i cr p - - hin
      exact absurd rfl hin⟩
  have happlied : ∀ s s' : State, s.scans = (fun _ => none) → DirectStep s s' →
      DirectStep s s' ∧ AppliesInTime s s' := by
    refine fun s s' hs h => ⟨h, fun i cr p hcr => ?_⟩
    rw [hs] at hcr
    cases hcr
  have hrun := hseeded.trans (run_applied rfl rfl rfl happlied)
  have hlive : liveAt ((emptyRoot.seed []).applyChanges 0 created).1.tree [[0x78]] = true := by
    decide
  exact ⟨_, rfl, live_iff.mpr hlive, ⟨rfl, rfl⟩,
    recrawl_converges start_registeredEmpty hrun ⟨rfl, rfl⟩⟩

/-- The batch is applied first, and the scan replaces the tree by what it had found. -/
theorem recrawl_drops_change :
    Start registeredEmpty ∧ ∃ σ, Run DirectStep registeredEmpty σ ∧
      (∀ i, σ.scans i = none) ∧ Drained σ.watcher ∧ ¬ Converged σ.watcher := by
  have hrun := (run_scanned.weaken fun _ _ h => h.1).trans
    (run_applied rfl rfl rfl fun _ _ _ h => h)
  refine ⟨start_registeredEmpty, _, hrun.tail ⟨_, .seed 0 rfl, by simp⟩, ?_, ⟨rfl, rfl⟩, ?_⟩
  · exact congrFun update_scanned
  · intro h
    have hon : dirDisk.OnDisk [[0x78]] :=
      Disk.onDisk_of_direct (direct_name ⟨_, rfl, rfl⟩ _) (by simp) (by decide)
    obtain ⟨e, he, -⟩ := (h [[0x78]]).mpr ⟨hon, by decide⟩
    cases he

end Watchwoman.Recrawl
