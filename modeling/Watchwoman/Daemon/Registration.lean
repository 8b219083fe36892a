import Watchwoman.Daemon.Convergence

/-!
# Registering a full-index root

`register_root` crawls, seeds the tree and attaches the watch last, so a change between the crawl
and the watch is in neither; `promote_to_full` crawls under a watch that is attached.
-/

namespace Watchwoman.Watcher

open Transition LastWrite

/-- **Registration.** In every run of a full-index root in which no visible path is created or
removed behind its crawl before the watch is attached, and no path is found through a link unless an
event about it is on the way, the live entries are the visible paths of the disk whenever the root
is registered and every event was applied. -/
theorem registration_converges {σ₀ σ : State} (hstart : Start σ₀)
    (hfull : σ₀.root.jjEvents = false)
    (hrun : Run (fun s s' => DirectStep s s' ∧ NoChangeBehindCrawl s s') σ₀ σ)
    (hattached : σ.stage = .attached) (hdrained : Drained σ) : Converged σ := by
  have hpreserved : ∀ s s', Inv s ∧ s.root.jjEvents = false →
      DirectStep s s' ∧ NoChangeBehindCrawl s s' → Inv s' ∧ s'.root.jjEvents = false := by
    rintro s s' ⟨h, hf⟩ ⟨hs, hbehind⟩
    refine ⟨h.step hs hbehind, ?_⟩
    obtain ⟨look, hstep, -⟩ := hs
    rcases hstep.mode.2 with hsame | ⟨-, hf'⟩
    · exact hsame.trans hf
    · exact hf'
  obtain ⟨hinv, hf⟩ := hrun.preserves hpreserved ⟨Inv.start hstart, hfull⟩
  exact hinv.converged hattached hf hdrained

/-! ## Small disks -/

/-- The disk with these entries. -/
def diskOf (entries : List (RelPath × Metadata))
    (h : ∀ e ∈ entries, e.1 ≠ [] → ∃ md ∈ entries.lookup e.1.dropLast,
      md.kind = .dir ∨ md.kind = .symlink) : Disk where
  lstat p := entries.lookup p
  above p n hp := by
    obtain ⟨md, hmd⟩ := Option.ne_none_iff_exists'.mp hp
    obtain ⟨l₁, l₂, hl, -⟩ := List.lookup_eq_some_iff.mp hmd
    obtain ⟨md', hmd', hkind⟩ := h (p ++ [n], md) (by simp [hl]) (by simp)
    rw [List.dropLast_concat] at hmd'
    exact ⟨md', hmd', hkind⟩

def someKind (kind : FileKind) : Metadata := ⟨kind, 0, 0, 0, 0, 0, 0, 1, none, none⟩

def emptyDisk : Disk := diskOf [([], someKind .dir)] (by decide)

/-- A root with the file `a`. -/
def fileDisk : Disk := diskOf [([], someKind .dir), ([[0x61]], someKind .file)] (by decide)

theorem direct_name {d : Disk} (hroot : d.IsDir []) (n : Name) : d.Direct [n] := by
  refine @Crawl.direct_of_isDir d [] ?_ n
  intro q hq
  rw [List.prefix_nil.mp hq]
  exact hroot

theorem lstat_emptyDisk (n : Name) : n ∈ ([] : List Name) ↔ emptyDisk.lstat [n] ≠ none := by
  simp [emptyDisk, diskOf, List.lookup_cons]

theorem lstat_pair {n : Name} {kind : FileKind} (m : Name) :
    m ∈ [n] ↔ List.lookup [m] [([], someKind .dir), ([n], someKind kind)] ≠ none := by
  by_cases hm : m = n
  · simp [List.lookup_cons, hm]
  · simp [List.lookup_cons, hm, beq_eq_false_iff_ne.mpr hm]

theorem mem_of_onDisk {entries : List (RelPath × Metadata)}
    {h : ∀ e ∈ entries, e.1 ≠ [] → ∃ md ∈ entries.lookup e.1.dropLast,
      md.kind = .dir ∨ md.kind = .symlink} {p : RelPath} (hon : (diskOf entries h).OnDisk p) :
    p ≠ [] ∧ p ∈ entries.map Prod.fst := by
  refine ⟨hon.ne_nil, ?_⟩
  obtain ⟨md, hmd⟩ := Option.ne_none_iff_exists'.mp hon.found
  obtain ⟨l₁, l₂, hl, -⟩ := List.lookup_eq_some_iff.mp hmd
  exact List.mem_map.mpr ⟨(p, md), by simp [hl], rfl⟩

theorem not_onDisk_emptyDisk (p : RelPath) : ¬ emptyDisk.OnDisk p := by
  intro h
  obtain ⟨hne, hmem⟩ := mem_of_onDisk h
  exact hne (List.mem_singleton.mp hmem)

theorem eq_of_onDisk_pair {n : Name} {kind : FileKind} {h} {p : RelPath}
    (hon : (diskOf [([], someKind .dir), ([n], someKind kind)] h).OnDisk p) : p = [n] := by
  obtain ⟨hne, hmem⟩ := mem_of_onDisk hon
  simp only [List.map_cons, List.map_nil, List.mem_cons, List.not_mem_nil, or_false] at hmem
  exact hmem.resolve_left hne

def about (n : Name) (kind : EventKind) : Notice := .event ⟨kind, [[[0x72], n]], false⟩

/-- Changes of the name alone are reported by an event about it. -/
theorem reports_about {n : Name} {kind : EventKind} {d d' : Disk} (hkind : kind ≠ .access false)
    (h : ∀ p, d.OnDisk p → p = [n]) (h' : ∀ p, d'.OnDisk p → p = [n])
    (hremoved : kind = .remove → ¬ d'.OnDisk [n]) :
    Reports [[0x72]] d d' [about n kind] := by
  have hlast : ∀ p, lastNote [[0x72]] p [about n kind] =
      if p = [n] then some kind else none := by
    intro p
    have hnotes : notes [about n kind] = [(kind, [[0x72], n])] := by
      simp [notes, about, Event.IsRead, hkind]
    rw [lastNote, hnotes, lastSome?_singleton]
    by_cases hp : p = [n] <;> simp [hp, eq_comm]
  constructor
  · intro p hp
    have hne : p ≠ [n] := by
      intro heq
      rw [hlast, if_pos heq] at hp
      cases hp
    exact ⟨iff_of_false (fun hon => hne (h' p hon)) (fun hon => hne (h p hon)),
      fun hon => absurd (h p hon) hne⟩
  · intro p hp
    rw [hlast] at hp
    split_ifs at hp with heq
    rw [heq]
    exact hremoved (Option.some.inj hp)

theorem step_collect {d : Disk} {r : Root} {events events' : List Notice}
    {batch batch' : List PathChange} (hne : events ≠ [])
    (heq : collect d (fun _ _ => none) none false r batch events = (r, batch', events')) :
    Step (statted r events) ⟨d, .attached, r, none, [], .collecting false events batch⟩
      ⟨d, .attached, r, none, [], .collecting false events' batch'⟩ := by
  have hstep := @Step.collect (fun _ _ => none) none
    ⟨d, .attached, r, none, [], .collecting false events batch⟩ _ _ _ rfl hne
  simp only [heq] at hstep
  exact hstep

/-- A root `/r` that is about to be registered. -/
def unregistered (jj : Bool) (d : Disk) : State :=
  ⟨d, .new, Root.new [[0x72]] .default jj 1 1700000000 42, none, [], .waiting []⟩

theorem start_unregistered (jj : Bool) (d : Disk) : Start (unregistered jj d) :=
  ⟨⟨_, _, _, _, _, _, rfl⟩, rfl, rfl, rfl, rfl⟩

def fileFound : List ScanEntry := [([[0x61]], someKind .file, none)]

/-- The root with the one file once it is registered. -/
def registered : State :=
  ⟨fileDisk, .attached, (Root.new [[0x72]] .default false 1 1700000000 42).seed fileFound, none, [],
    .waiting []⟩

theorem noChangeBehindCrawl_start {σ : State} (hcrawl : σ.crawl = some Crawl.start) (d' : Disk) :
    NoChangeBehindCrawl σ { σ with disk := d' } := by
  intro _ p _ hseen
  cases p with
  | nil => exact iff_of_false (fun h => h.ne_nil rfl) (fun h => h.ne_nil rfl)
  | cons n s =>
    refine absurd ⟨⟨_, List.mem_singleton.mpr rfl, n, s, rfl⟩, ?_⟩ (hseen _ hcrawl)
    intro x hx
    cases hx

/-- The file is created just before the crawl opens the root. -/
theorem registration_converges_registered : registered.stage = .attached ∧ Converged registered := by
  have hdirect : ∀ p ∈ some [[0x61]], fileDisk.Direct p := by
    rintro p ⟨rfl⟩
    exact direct_name ⟨_, rfl, rfl⟩ _
  refine ⟨rfl, registration_converges (start_unregistered false emptyDisk) rfl ?_ rfl ⟨rfl, rfl⟩⟩
  exact .tail (.tail (.tail (.tail (.tail (.tail (.single
    ⟨⟨_, .scan rfl rfl, by simp⟩, fun _ _ _ _ => Iff.rfl⟩)
    ⟨⟨_, .mutate fileDisk (by simp), by simp⟩, noChangeBehindCrawl_start rfl fileDisk⟩)
    ⟨⟨_, .crawl rfl (.readDir _ lstat_pair), by simp⟩, fun _ _ _ _ => Iff.rfl⟩)
    ⟨⟨_, .crawl rfl (.entry none (by decide) rfl), fun p hp _ _ => hdirect p hp⟩,
      fun _ _ _ _ => Iff.rfl⟩)
    ⟨⟨_, .crawl rfl .done, by simp⟩, fun _ _ _ _ => Iff.rfl⟩)
    ⟨⟨_, .seed rfl rfl, by simp⟩, fun _ _ _ _ => Iff.rfl⟩)
    ⟨⟨_, .attach rfl, by simp⟩, fun _ _ _ _ => Iff.rfl⟩

/-- The file is created after the crawl of the empty root and before the watch is attached. -/
theorem early_change_lost :
    Start (unregistered false emptyDisk) ∧ ∃ σ, Run DirectStep (unregistered false emptyDisk) σ ∧
      σ.stage = .attached ∧ Drained σ ∧ ¬ Converged σ := by
  refine ⟨start_unregistered _ _, _, .tail (.tail (.tail (.tail (.tail (.single
    ⟨_, .scan rfl rfl, by simp⟩)
    ⟨_, .crawl rfl (.readDir _ lstat_emptyDisk), by simp⟩)
    ⟨_, .crawl rfl .done, by simp⟩)
    ⟨_, .seed rfl rfl, by simp⟩)
    ⟨_, .mutate fileDisk (by simp), by simp⟩)
    ⟨_, .attach rfl, by simp⟩, rfl, ⟨rfl, rfl⟩, ?_⟩
  intro h
  have hon : fileDisk.OnDisk [[0x61]] :=
    Disk.onDisk_of_direct (direct_name ⟨_, rfl, rfl⟩ _) (by simp) (by decide)
  obtain ⟨e, he, -⟩ := (h [[0x61]]).mpr ⟨hon, by decide⟩
  cases he

end Watchwoman.Watcher
