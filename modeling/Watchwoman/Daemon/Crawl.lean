import Mathlib.Data.List.Induction
import Watchwoman.Daemon.Root
import Watchwoman.Lib.Transition

/-!
# Crawling a directory

`initial_scan` and `walk` of `watcher.rs`, while other processes change the disk. A directory is
opened, its names come one after the other, each is statted, and a real directory is walked before
the next name; the disk may change between any two of these. The walk is a machine with one frame
per directory on the way down.

`symlink_metadata` and `read_dir` follow the links on the way to a path. What the crawl is to list
are the paths of the directory tree itself, `OnDisk`; a path that exists only through a link is not
one of them, and is listed if a directory becomes a link between its `symlink_metadata` and its
`read_dir`.
-/

namespace Watchwoman

open Transition

/-! ## The disk -/

/-- What `symlink_metadata` reports for each path below the root, the root itself included. A path
exists only in a directory, or in what a link points to. -/
structure Disk where
  lstat : RelPath → Option Metadata
  above : ∀ p n, lstat (p ++ [n]) ≠ none →
    ∃ md, lstat p = some md ∧ (md.kind = .dir ∨ md.kind = .symlink)

namespace Disk

/-- The path is a directory and not a link to one. -/
def IsDir (d : Disk) (p : RelPath) : Prop := ∃ md, d.lstat p = some md ∧ md.kind = .dir

/-- A path of the directory tree: it exists, and no link is on the way to it. -/
structure OnDisk (d : Disk) (p : RelPath) : Prop where
  ne_nil : p ≠ []
  found : d.lstat p ≠ none
  above : ∀ q, q <+: p → q ≠ p → d.IsDir q

/-- No link is on the way to the path. -/
def Direct (d : Disk) (p : RelPath) : Prop :=
  ∀ q md, q <+: p → q ≠ p → d.lstat q = some md → md.kind ≠ .symlink

theorem OnDisk.name {d : Disk} {q s : RelPath} {n : Name} (h : d.OnDisk (q ++ n :: s)) :
    d.lstat (q ++ [n]) ≠ none ∧ (s ≠ [] → d.IsDir (q ++ [n])) := by
  have hsplit : q ++ n :: s = (q ++ [n]) ++ s := by simp
  by_cases hs : s = []
  · subst hs
    exact ⟨h.found, fun hne => absurd rfl hne⟩
  · have hdir : d.IsDir (q ++ [n]) := by
      refine h.above _ ⟨s, hsplit.symm⟩ ?_
      intro heq
      rw [hsplit] at heq
      exact hs (List.self_eq_append_right.mp heq)
    obtain ⟨md, hmd, hkind⟩ := hdir
    exact ⟨by simp [hmd], fun _ => ⟨md, hmd, hkind⟩⟩

/-- What is found without a link on the way is in the tree. -/
theorem onDisk_of_direct {d : Disk} {p : RelPath} (hdirect : d.Direct p) (hne : p ≠ [])
    (hp : d.lstat p ≠ none) : d.OnDisk p := by
  induction p using List.reverseRecOn with
  | nil => exact absurd rfl hne
  | append_singleton q n ih =>
    obtain ⟨md, hmd, hkind⟩ := d.above q n hp
    have hq : q <+: q ++ [n] := List.prefix_append q [n]
    have hdir : d.IsDir q := by
      refine ⟨md, hmd, hkind.resolve_right (hdirect q md hq (by simp) hmd)⟩
    have hdirect' : d.Direct q := by
      intro q' md' hpre hne'
      refine hdirect q' md' (hpre.trans hq) ?_
      intro heq
      have hlen := hpre.length_le
      rw [heq] at hlen
      simp at hlen
    refine ⟨hne, hp, ?_⟩
    intro q' hpre hne'
    rcases List.prefix_concat_iff.mp hpre with heq | hpre
    · exact absurd heq hne'
    · by_cases heq : q' = q
      · rw [heq]
        exact hdir
      · have hqne : q ≠ [] := by
          rintro rfl
          exact heq (List.prefix_nil.mp hpre)
        exact (ih hdirect' hqne (by simp [hmd])).above q' hpre heq

end Disk

/-! ## Ignored names -/

namespace WatchIgnores

/-- The name is one of `ignore_dirs`. -/
def Skips (ig : WatchIgnores) (n : Name) : Prop := Utf8.lossy n ∈ ig.dirs

/-- The name is one of `ignore_vcs`. -/
def IsVcs (ig : WatchIgnores) (n : Name) : Prop := Utf8.lossy n ∈ ig.vcs

instance (ig : WatchIgnores) (n : Name) : Decidable (ig.Skips n) :=
  inferInstanceAs (Decidable (_ ∈ _))

instance (ig : WatchIgnores) (n : Name) : Decidable (ig.IsVcs n) :=
  inferInstanceAs (Decidable (_ ∈ _))

end WatchIgnores

/-- `should_ignore` -/
def shouldIgnore (rel : RelPath) (ig : WatchIgnores) : Bool :=
  if rel.any fun n => decide (ig.Skips n) then true
  else
    match rel.findIdx? fun n => decide (ig.IsVcs n) with
    | some i => decide (i + 2 < rel.length)
    | none => false

/-- The index of the first version control directory leaves two names behind it. -/
theorem findIdx?_vcs (ig : WatchIgnores) (rel : RelPath) :
    (match rel.findIdx? fun n => decide (ig.IsVcs n) with
      | some i => decide (i + 2 < rel.length)
      | none => false) = true ↔
    ∃ q v s, rel = q ++ v :: s ∧ (∀ n ∈ q, ¬ ig.IsVcs n) ∧ ig.IsVcs v ∧ 2 ≤ s.length := by
  induction rel with
  | nil => simp
  | cons n rel ih =>
    rw [List.findIdx?_cons]
    by_cases hn : ig.IsVcs n
    · simp only [hn, decide_true, if_true, List.length_cons, decide_eq_true_eq]
      constructor
      · intro h
        exact ⟨[], n, rel, rfl, by simp, hn, by omega⟩
      · rintro ⟨q, v, s, heq, hq, -, hs⟩
        cases q with
        | nil =>
          obtain ⟨-, rfl⟩ := List.cons.inj heq
          omega
        | cons n' q =>
          obtain ⟨rfl, -⟩ := List.cons.inj heq
          exact absurd hn (hq n List.mem_cons_self)
    · have hstep : (match (rel.findIdx? fun n => decide (ig.IsVcs n)).map (· + 1) with
          | some i => decide (i + 2 < (n :: rel).length)
          | none => false) = (match rel.findIdx? fun n => decide (ig.IsVcs n) with
          | some i => decide (i + 2 < rel.length)
          | none => false) := by
        cases rel.findIdx? fun n => decide (ig.IsVcs n) with
        | none => rfl
        | some i =>
          simp only [Option.map_some, List.length_cons, decide_eq_decide]
          omega
      simp only [hn, decide_false, Bool.false_eq_true, if_false]
      rw [hstep, ih]
      constructor
      · rintro ⟨q, v, s, rfl, hq, hv, hs⟩
        exact ⟨n :: q, v, s, rfl, List.forall_mem_cons.mpr ⟨hn, hq⟩, hv, hs⟩
      · rintro ⟨q, v, s, heq, hq, hv, hs⟩
        cases q with
        | nil =>
          obtain ⟨rfl, -⟩ := List.cons.inj heq
          exact absurd hv hn
        | cons n' q =>
          obtain ⟨rfl, rfl⟩ := List.cons.inj heq
          exact ⟨q, v, s, rfl, (List.forall_mem_cons.mp hq).2, hv, hs⟩

/-- A path is ignored if it has a skipped name, or lies two names below the first version control
directory on its way. -/
theorem shouldIgnore_iff {rel : RelPath} {ig : WatchIgnores} :
    shouldIgnore rel ig = true ↔ (∃ n ∈ rel, ig.Skips n) ∨
      ∃ q v s, rel = q ++ v :: s ∧ (∀ n ∈ q, ¬ ig.IsVcs n) ∧ ig.IsVcs v ∧ 2 ≤ s.length := by
  rw [← findIdx?_vcs]
  unfold shouldIgnore
  by_cases h : rel.any (fun n => decide (ig.Skips n)) = true
  · rw [if_pos h]
    simpa using Or.inl (by simpa using h)
  · rw [if_neg h]
    have hnone : ¬ ∃ n ∈ rel, ig.Skips n := by simpa using h
    simp only [hnone, false_or]

/-! ## The walk -/

/-- `walk` is about to open a directory, or has these names of it still to look at. `shallow` is
true in a version control directory. -/
inductive Frame where
  | opening (dir : RelPath) (shallow : Bool)
  | listing (dir : RelPath) (shallow : Bool) (names : List Name)
  deriving DecidableEq, Repr

/-- A crawl under way: the directories on the way down, innermost first, and what was found. -/
structure Crawl where
  stack : List Frame
  out : List ScanEntry

namespace Crawl

/-- `initial_scan` as it is called. -/
def start : Crawl := ⟨[.opening [] false], []⟩

/-- The target `walk` records for a path, if `read_link` returns `target`. -/
def linkTarget (md : Metadata) (target : Option String) : Option String :=
  if md.kind = .symlink then target else none

/-- The frame of a real directory that is walked next. -/
def descend (ig : WatchIgnores) (dir : RelPath) (shallow : Bool) (n : Name) (md : Metadata) :
    List Frame :=
  if md.kind = .dir ∧ shallow = false then [.opening (dir ++ [n]) (decide (ig.IsVcs n))] else []

/-- One step of the crawl on the disk of the moment, and the path it stats. The names of an open
directory come in any order; one that appears meanwhile may come too, and one that vanishes does
not come or is not found. -/
inductive Step (ig : WatchIgnores) (d : Disk) : Option RelPath → Crawl → Crawl → Prop
  | readDir {dir : RelPath} {shallow : Bool} {fs : List Frame} {out : List ScanEntry}
    (names : List Name) (hnames : ∀ n, n ∈ names ↔ d.lstat (dir ++ [n]) ≠ none) :
    Step ig d none ⟨.opening dir shallow :: fs, out⟩ ⟨.listing dir shallow names :: fs, out⟩
  | appear {dir : RelPath} {shallow : Bool} {names : List Name} {fs : List Frame}
    {out : List ScanEntry} (n : Name) (hn : d.lstat (dir ++ [n]) ≠ none) :
    Step ig d none ⟨.listing dir shallow names :: fs, out⟩
      ⟨.listing dir shallow (n :: names) :: fs, out⟩
  | vanish {dir : RelPath} {shallow : Bool} {names : List Name} {fs : List Frame}
    {out : List ScanEntry} (n : Name) (hn : d.lstat (dir ++ [n]) = none) :
    Step ig d none ⟨.listing dir shallow names :: fs, out⟩
      ⟨.listing dir shallow (names.erase n) :: fs, out⟩
  | skip {dir : RelPath} {shallow : Bool} {n : Name} {names : List Name} {fs : List Frame}
    {out : List ScanEntry} (hn : ig.Skips n) :
    Step ig d none ⟨.listing dir shallow (n :: names) :: fs, out⟩
      ⟨.listing dir shallow names :: fs, out⟩
  | entry {dir : RelPath} {shallow : Bool} {n : Name} {names : List Name} {fs : List Frame}
    {out : List ScanEntry} {md : Metadata} (target : Option String) (hn : ¬ ig.Skips n)
    (hmd : d.lstat (dir ++ [n]) = some md) :
    Step ig d (some (dir ++ [n])) ⟨.listing dir shallow (n :: names) :: fs, out⟩
      ⟨descend ig dir shallow n md ++ .listing dir shallow names :: fs,
        out ++ [(dir ++ [n], md, linkTarget md target)]⟩
  | done {dir : RelPath} {shallow : Bool} {fs : List Frame} {out : List ScanEntry} :
    Step ig d none ⟨.listing dir shallow [] :: fs, out⟩ ⟨fs, out⟩

/-! ## Directories the walk enters -/

/-- What holds of a directory that `walk` is called for. -/
structure Entered (ig : WatchIgnores) (dir : RelPath) (shallow : Bool) : Prop where
  kept : ∀ n ∈ dir, ¬ ig.Skips n
  plain : shallow = false → ∀ n ∈ dir, ¬ ig.IsVcs n
  vcs : shallow = true → ∃ q v, dir = q ++ [v] ∧ ig.IsVcs v ∧ ∀ n ∈ q, ¬ ig.IsVcs n

section

variable {ig : WatchIgnores} {dir : RelPath} {shallow : Bool} {n : Name}

theorem Entered.root (ig : WatchIgnores) : Entered ig [] false :=
  ⟨by simp, by simp, by simp⟩

/-- The names of an entered directory are not ignored, unless they are skipped. -/
theorem Entered.visible (h : Entered ig dir shallow) (hn : ¬ ig.Skips n) :
    shouldIgnore (dir ++ [n]) ig = false := by
  rw [← Bool.not_eq_true, shouldIgnore_iff]
  rintro (⟨m, hm, hskips⟩ | ⟨q, v, s, heq, hq, hv, hs⟩)
  · rcases List.mem_append.mp hm with hm | hm
    · exact h.kept m hm hskips
    · rw [List.mem_singleton.mp hm] at hskips
      exact hn hskips
  · -- the version control directory is above the name, so it is the entered directory or above it
    rcases s.eq_nil_or_concat with rfl | ⟨s', m, rfl⟩
    · simp at hs
    · have heq' : dir ++ [n] = (q ++ v :: s') ++ [m] := by simpa using heq
      have hdir : dir = q ++ v :: s' := (List.append_inj' heq' rfl).1
      cases shallow with
      | false => exact h.plain rfl v (by simp [hdir]) hv
      | true =>
        obtain ⟨q', v', hq', -, hplain⟩ := h.vcs rfl
        rcases s'.eq_nil_or_concat with rfl | ⟨s'', m', rfl⟩
        · simp at hs
        · have hvcs : q' ++ [v'] = (q ++ v :: s'') ++ [m'] := by
            rw [← hq', hdir]
            simp
          refine hplain v ?_ hv
          rw [(List.append_inj' hvcs rfl).1]
          simp

theorem Entered.descend (h : Entered ig dir false) (hn : ¬ ig.Skips n) :
    Entered ig (dir ++ [n]) (decide (ig.IsVcs n)) := by
  refine ⟨?_, ?_, ?_⟩
  · intro m hm
    rcases List.mem_append.mp hm with hm | hm
    · exact h.kept m hm
    · rw [List.mem_singleton.mp hm]
      exact hn
  · intro hvcs m hm
    rcases List.mem_append.mp hm with hm | hm
    · exact h.plain rfl m hm
    · rw [List.mem_singleton.mp hm]
      simpa using hvcs
  · intro hvcs
    exact ⟨dir, n, rfl, by simpa using hvcs, h.plain rfl⟩

theorem Entered.shallow_ignored (h : Entered ig dir true) {s : RelPath} (hs : s ≠ []) :
    shouldIgnore (dir ++ n :: s) ig = true := by
  obtain ⟨q, v, rfl, hv, hq⟩ := h.vcs rfl
  refine shouldIgnore_iff.mpr (.inr ⟨q, v, n :: s, by simp, hq, hv, ?_⟩)
  have := List.length_pos_of_ne_nil hs
  simp only [List.length_cons]
  omega

theorem shouldIgnore_of_skips {s : RelPath} (hn : ig.Skips n) :
    shouldIgnore (dir ++ n :: s) ig = true :=
  shouldIgnore_iff.mpr (.inl ⟨n, by simp, hn⟩)

end

/-! ## What a crawl finds -/

/-- The directory of the frame is one that `walk` enters. -/
def Ok (ig : WatchIgnores) : Frame → Prop
  | .opening dir shallow => Entered ig dir shallow
  | .listing dir shallow _ => Entered ig dir shallow

def Leads (p : RelPath) : Frame → Prop
  | .opening dir _ => ∃ n s, p = dir ++ n :: s
  | .listing dir _ names => ∃ n s, n ∈ names ∧ p = dir ++ n :: s

/-- The crawl has not found the path and still gets to where it is, or may be. -/
def Unseen (p : RelPath) (cr : Crawl) : Prop :=
  (∃ f ∈ cr.stack, Leads p f) ∧ ∀ x ∈ cr.out, x.1 ≠ p

/-- A crawl on a changing disk that is to be right about the `clean` paths: those of them that it
has found are in the tree, and those that it is to find it has found or still gets to. -/
structure Inv (ig : WatchIgnores) (d : Disk) (clean : RelPath → Prop) (cr : Crawl) : Prop where
  frames : ∀ f ∈ cr.stack, Ok ig f
  sound : ∀ x ∈ cr.out, x.1 ≠ [] ∧ shouldIgnore x.1 ig = false ∧ (clean x.1 → d.OnDisk x.1)
  covers : ∀ p, clean p → d.OnDisk p → shouldIgnore p ig = false →
    (∃ x ∈ cr.out, x.1 = p) ∨ ∃ f ∈ cr.stack, Leads p f

section

variable {ig : WatchIgnores} {d d' : Disk} {clean clean' : RelPath → Prop} {cr cr' : Crawl}

theorem Inv.start : Inv ig d clean start := by
  refine ⟨?_, by simp [Crawl.start], ?_⟩
  · intro f hf
    rw [List.mem_singleton.mp hf]
    exact Entered.root ig
  · intro p _ hp _
    obtain ⟨n, s, rfl⟩ := List.exists_cons_of_ne_nil hp.ne_nil
    exact .inr ⟨_, List.mem_singleton.mpr rfl, n, s, rfl⟩

/-- The crawl keeps its promise for the paths that a change of the disk leaves alone, and for those
it has not come to yet. -/
theorem Inv.mutate (h : Inv ig d clean cr) (hclean : ∀ p, clean' p → clean p)
    (hsame : ∀ p, clean' p → shouldIgnore p ig = false → ¬ Unseen p cr →
      (d'.OnDisk p ↔ d.OnDisk p)) : Inv ig d' clean' cr := by
  refine ⟨h.frames, ?_, ?_⟩
  · intro x hx
    obtain ⟨hne, hvisible, hon⟩ := h.sound x hx
    have hseen : ¬ Unseen x.1 cr := fun hunseen => hunseen.2 x hx rfl
    exact ⟨hne, hvisible, fun hc => (hsame x.1 hc hvisible hseen).mpr (hon (hclean x.1 hc))⟩
  · intro p hc hp hvisible
    by_cases hunseen : Unseen p cr
    · exact .inr hunseen.1
    · exact h.covers p (hclean p hc) ((hsame p hc hvisible hunseen).mp hp) hvisible

/-- Replacing the innermost frame by frames that lead to what it leads to. -/
theorem Inv.replace {f : Frame} {fs gs : List Frame} {out out' : List ScanEntry}
    (h : Inv ig d clean ⟨f :: fs, out⟩) (hok : ∀ g ∈ gs, Ok ig g) (hsub : out ⊆ out')
    (hnew : ∀ x ∈ out', x ∈ out ∨
      (x.1 ≠ [] ∧ shouldIgnore x.1 ig = false ∧ (clean x.1 → d.OnDisk x.1)))
    (hleads : ∀ p, d.OnDisk p → shouldIgnore p ig = false → Leads p f →
      (∃ x ∈ out', x.1 = p) ∨ ∃ g ∈ gs, Leads p g) : Inv ig d clean ⟨gs ++ fs, out'⟩ := by
  refine ⟨?_, ?_, ?_⟩
  · intro g hg
    rcases List.mem_append.mp hg with hg | hg
    · exact hok g hg
    · exact h.frames g (List.mem_cons_of_mem _ hg)
  · intro x hx
    rcases hnew x hx with hx | hx
    · exact h.sound x hx
    · exact hx
  · intro p hc hp hvisible
    rcases h.covers p hc hp hvisible with ⟨x, hx, hxp⟩ | ⟨g, hg, hlead⟩
    · exact .inl ⟨x, hsub hx, hxp⟩
    · rcases List.mem_cons.mp hg with rfl | hg
      · rcases hleads p hp hvisible hlead with hx | ⟨g', hg', hlead'⟩
        · exact .inl hx
        · exact .inr ⟨g', List.mem_append_left _ hg', hlead'⟩
      · exact .inr ⟨g, List.mem_append_right _ hg, hlead⟩

/-- The name of a directory is looked at: it is found, and if it is a directory that is to be
walked, the walk enters it. -/
theorem Inv.entry {dir : RelPath} {shallow : Bool} {n : Name} {names : List Name}
    {fs : List Frame} {out : List ScanEntry} {md : Metadata} {target : Option String}
    (h : Inv ig d clean ⟨.listing dir shallow (n :: names) :: fs, out⟩) (hn : ¬ ig.Skips n)
    (hmd : d.lstat (dir ++ [n]) = some md)
    (hdirect : clean (dir ++ [n]) → d.Direct (dir ++ [n])) :
    Inv ig d clean ⟨descend ig dir shallow n md ++ .listing dir shallow names :: fs,
      out ++ [(dir ++ [n], md, linkTarget md target)]⟩ := by
  have hentered : Entered ig dir shallow := h.frames _ List.mem_cons_self
  have hgs : descend ig dir shallow n md ++ .listing dir shallow names :: fs =
      (descend ig dir shallow n md ++ [.listing dir shallow names]) ++ fs := by simp
  rw [hgs]
  refine h.replace ?_ (List.subset_append_left _ _) ?_ ?_
  · intro g hg
    rcases List.mem_append.mp hg with hg | hg
    · unfold descend at hg
      split_ifs at hg with hdir
      · rw [List.mem_singleton.mp hg]
        exact (hdir.2 ▸ hentered).descend hn
      · cases hg
    · rw [List.mem_singleton.mp hg]
      exact hentered
  · intro x hx
    rcases List.mem_append.mp hx with hx | hx
    · exact .inl hx
    · rw [List.mem_singleton.mp hx]
      exact .inr ⟨by simp, hentered.visible hn,
        fun hc => Disk.onDisk_of_direct (hdirect hc) (by simp) (by simp [hmd])⟩
  · rintro p hp hvisible ⟨m, s, hm, rfl⟩
    rcases List.mem_cons.mp hm with rfl | hm
    · by_cases hs : s = []
      · subst hs
        exact .inl ⟨_, List.mem_append_right _ (List.mem_singleton.mpr rfl), rfl⟩
      · -- the path goes on below the name, which is a directory then
        obtain ⟨md', hmd', hkind⟩ := hp.name.2 hs
        rw [hmd] at hmd'
        obtain rfl := Option.some.inj hmd'
        cases shallow with
        | true => rw [hentered.shallow_ignored hs] at hvisible; cases hvisible
        | false =>
          obtain ⟨n', s', rfl⟩ := List.exists_cons_of_ne_nil hs
          refine .inr ⟨.opening (dir ++ [m]) (decide (ig.IsVcs m)), ?_, n', s', by simp⟩
          refine List.mem_append_left _ ?_
          rw [descend, if_pos ⟨hkind, rfl⟩]
          exact List.mem_singleton.mpr rfl
    · refine .inr ⟨_, List.mem_append_right _ (List.mem_singleton.mpr rfl), ?_⟩
      exact ⟨m, s, hm, rfl⟩

theorem Inv.relist {f : Frame} {dir : RelPath} {shallow : Bool} {names : List Name}
    {fs : List Frame} {out : List ScanEntry} (h : Inv ig d clean ⟨f :: fs, out⟩)
    (hok : Ok ig f → Entered ig dir shallow)
    (hleads : ∀ p, d.OnDisk p → shouldIgnore p ig = false → Leads p f →
      Leads p (.listing dir shallow names)) :
    Inv ig d clean ⟨.listing dir shallow names :: fs, out⟩ := by
  refine @Inv.replace _ _ _ f fs [.listing dir shallow names] out out h ?_ (List.Subset.refl _)
    (fun x hx => .inl hx) ?_
  · intro g hg
    rw [List.mem_singleton.mp hg]
    exact hok (h.frames f List.mem_cons_self)
  · intro p hp hvisible hlead
    exact .inr ⟨_, List.mem_singleton.mpr rfl, hleads p hp hvisible hlead⟩

/-- One step of the crawl, if it finds no clean path through a link. -/
theorem Inv.step (h : Inv ig d clean cr) {look : Option RelPath} (hs : Step ig d look cr cr')
    (hdirect : ∀ p ∈ look, clean p → d.lstat p ≠ none → d.Direct p) : Inv ig d clean cr' := by
  cases hs with
  | readDir names hnames =>
    refine h.relist id ?_
    rintro p hp - ⟨n, s, rfl⟩
    exact ⟨n, s, (hnames n).mpr hp.name.1, rfl⟩
  | appear n hn =>
    refine h.relist id ?_
    rintro p - - ⟨m, s, hm, rfl⟩
    exact ⟨m, s, List.mem_cons_of_mem _ hm, rfl⟩
  | vanish n hn =>
    refine h.relist id ?_
    rintro p hp - ⟨m, s, hm, rfl⟩
    refine ⟨m, s, (List.mem_erase_of_ne ?_).mpr hm, rfl⟩
    rintro rfl
    exact hp.name.1 hn
  | skip hn =>
    refine h.relist id ?_
    rintro p - hvisible ⟨m, s, hm, rfl⟩
    rcases List.mem_cons.mp hm with rfl | hm
    · rw [shouldIgnore_of_skips hn] at hvisible
      cases hvisible
    · exact ⟨m, s, hm, rfl⟩
  | entry target hn hmd => exact h.entry hn hmd fun hc => hdirect _ rfl hc (by simp [hmd])
  | done =>
    refine @Inv.replace _ _ _ _ _ [] _ _ h (by simp) (List.Subset.refl _)
      (fun x hx => .inl hx) ?_
    rintro p - - ⟨m, s, hm, rfl⟩
    cases hm

theorem Inv.finished (h : Inv ig d clean cr) (hdone : cr.stack = []) {p : RelPath}
    (hclean : clean p) :
    (∃ x ∈ cr.out, x.1 = p) ↔ d.OnDisk p ∧ shouldIgnore p ig = false := by
  constructor
  · rintro ⟨x, hx, rfl⟩
    obtain ⟨-, hvisible, hon⟩ := h.sound x hx
    exact ⟨hon hclean, hvisible⟩
  · rintro ⟨hp, hvisible⟩
    rcases h.covers p hclean hp hvisible with hx | ⟨f, hf, -⟩
    · exact hx
    · rw [hdone] at hf
      cases hf

end

/-! ## A crawl that nothing disturbs -/

/-- What the loop of `walk` adds for one name, if `below` is what the recursive call adds. -/
def visit (d : Disk) (ig : WatchIgnores) (readLink : RelPath → Option String)
    (below : RelPath → Bool → List ScanEntry) (dir : RelPath) (shallow : Bool) (n : Name) :
    List ScanEntry :=
  if ig.Skips n then []
  else
    match d.lstat (dir ++ [n]) with
    | none => []
    | some md =>
      (dir ++ [n], md, linkTarget md (readLink (dir ++ [n]))) ::
        if md.kind = .dir ∧ shallow = false then below (dir ++ [n]) (decide (ig.IsVcs n)) else []

/-- The recursion of `walk` on a disk that does not change, to the depth `fuel`. `readDir` are the
names of each directory in the order they come, `readLink` the targets of the links. -/
def walk (d : Disk) (ig : WatchIgnores) (readDir : RelPath → List Name)
    (readLink : RelPath → Option String) : ℕ → RelPath → Bool → List ScanEntry
  | 0, _, _ => []
  | fuel + 1, dir, shallow =>
    (readDir dir).flatMap (visit d ig readLink (walk d ig readDir readLink fuel) dir shallow)

def DirectStep (ig : WatchIgnores) (d : Disk) (cr cr' : Crawl) : Prop :=
  ∃ look, Step ig d look cr cr' ∧ ∀ p ∈ look, d.Direct p

section

variable {d : Disk} {ig : WatchIgnores} {readDir : RelPath → List Name}

theorem direct_of_isDir {dir : RelPath} (hreal : ∀ q, q <+: dir → d.IsDir q) (n : Name) :
    d.Direct (dir ++ [n]) := by
  intro q md hpre hne hmd
  rcases List.prefix_concat_iff.mp hpre with heq | hpre
  · exact absurd heq hne
  · obtain ⟨md', hmd', hkind⟩ := hreal q hpre
    rw [hmd] at hmd'
    obtain rfl := Option.some.inj hmd'
    simp [hkind]

/-- The names of a directory that are left, if the machine does below each what `below` says. -/
theorem run_listing (readLink : RelPath → Option String)
    (hnames : ∀ q n, n ∈ readDir q ↔ d.lstat (q ++ [n]) ≠ none) {dir : RelPath} {shallow : Bool}
    (hreal : ∀ q, q <+: dir → d.IsDir q) {below : RelPath → Bool → List ScanEntry}
    (hbelow : ∀ n fs out, d.IsDir (dir ++ [n]) →
      Run (DirectStep ig d) ⟨.opening (dir ++ [n]) (decide (ig.IsVcs n)) :: fs, out⟩
        ⟨fs, out ++ below (dir ++ [n]) (decide (ig.IsVcs n))⟩)
    (fs : List Frame) {names : List Name} (hsub : names ⊆ readDir dir) (out : List ScanEntry) :
    Run (DirectStep ig d) ⟨.listing dir shallow names :: fs, out⟩
      ⟨fs, out ++ names.flatMap (visit d ig readLink below dir shallow)⟩ := by
  induction names generalizing out with
  | nil =>
    have hdone : DirectStep ig d ⟨.listing dir shallow [] :: fs, out⟩ ⟨fs, out⟩ :=
      ⟨none, .done, by simp⟩
    simpa using Relation.ReflTransGen.single hdone
  | cons n names ih =>
    obtain ⟨hn, hsub'⟩ := List.cons_subset.mp hsub
    rw [List.flatMap_cons, ← List.append_assoc]
    by_cases hskip : ig.Skips n
    · refine .head ⟨none, .skip hskip, by simp⟩ ?_
      rw [visit, if_pos hskip, List.append_nil]
      exact ih hsub' out
    · obtain ⟨md, hmd⟩ := Option.ne_none_iff_exists'.mp ((hnames dir n).mp hn)
      have hdirect := direct_of_isDir hreal n
      refine .head ⟨_, .entry (readLink (dir ++ [n])) hskip hmd, by simpa using hdirect⟩ ?_
      rw [visit, if_neg hskip, hmd, descend]
      dsimp only
      by_cases hdir : md.kind = .dir ∧ shallow = false
      · rw [if_pos hdir, if_pos hdir, List.append_cons out _ (below _ _)]
        exact (hbelow n (.listing dir shallow names :: fs) _ ⟨md, hmd, hdir.1⟩).trans (ih hsub' _)
      · rw [if_neg hdir, if_neg hdir]
        exact ih hsub' _

/-- On a disk that does not change the machine does what the recursion does, if no directory is
deeper than `fuel` below the directory. -/
theorem run_walk (readLink : RelPath → Option String)
    (hnames : ∀ q n, n ∈ readDir q ↔ d.lstat (q ++ [n]) ≠ none) (fuel : ℕ) :
    ∀ (dir : RelPath) (shallow : Bool) (fs : List Frame) (out : List ScanEntry),
      (∀ q, (∀ q', q' <+: q → d.IsDir q') → fuel + dir.length ≤ q.length → readDir q = []) →
      (∀ q, q <+: dir → d.IsDir q) →
      Run (DirectStep ig d) ⟨.opening dir shallow :: fs, out⟩
        ⟨fs, out ++ walk d ig readDir readLink fuel dir shallow⟩ := by
  induction fuel with
  | zero =>
    intro dir shallow fs out hdeep hreal
    have hempty : readDir dir = [] := hdeep dir hreal (by simp)
    have hread : DirectStep ig d ⟨.opening dir shallow :: fs, out⟩
        ⟨.listing dir shallow [] :: fs, out⟩ :=
      ⟨none, .readDir [] (hempty ▸ hnames dir), by simp⟩
    have hdone : DirectStep ig d ⟨.listing dir shallow [] :: fs, out⟩ ⟨fs, out⟩ :=
      ⟨none, .done, by simp⟩
    simpa [walk] using Relation.ReflTransGen.tail (.single hread) hdone
  | succ fuel ih =>
    intro dir shallow fs out hdeep hreal
    have hread : DirectStep ig d ⟨.opening dir shallow :: fs, out⟩
        ⟨.listing dir shallow (readDir dir) :: fs, out⟩ := ⟨none, .readDir _ (hnames dir), by simp⟩
    refine .head hread (run_listing readLink hnames hreal ?_ fs (List.Subset.refl _) out)
    intro n fs' out' hdir
    refine ih (dir ++ [n]) _ fs' out' ?_ ?_
    · intro q hq' hq
      refine hdeep q hq' ?_
      simp only [List.length_append, List.length_singleton] at hq
      omega
    · intro q hpre
      rcases List.prefix_concat_iff.mp hpre with rfl | hpre
      · exact hdir
      · exact hreal q hpre

theorem mem_walk_iff (readLink : RelPath → Option String)
    (hnames : ∀ q n, n ∈ readDir q ↔ d.lstat (q ++ [n]) ≠ none) {fuel : ℕ}
    (hdeep : ∀ q, (∀ q', q' <+: q → d.IsDir q') → fuel ≤ q.length → readDir q = [])
    (hroot : d.IsDir []) {p : RelPath} :
    (∃ x ∈ walk d ig readDir readLink fuel [] false, x.1 = p) ↔
      d.OnDisk p ∧ shouldIgnore p ig = false := by
  have hreal : ∀ q, q <+: ([] : RelPath) → d.IsDir q := by
    intro q hq
    rw [List.prefix_nil.mp hq]
    exact hroot
  have hrun : Run (DirectStep ig d) start ⟨[], walk d ig readDir readLink fuel [] false⟩ :=
    run_walk readLink hnames fuel [] false [] [] (by simpa using hdeep) hreal
  have hinv : Inv ig d (fun _ => True) ⟨[], walk d ig readDir readLink fuel [] false⟩ :=
    hrun.preserves (fun c c' h ⟨_, hs, hdirect⟩ => h.step hs fun p hp _ _ => hdirect p hp) Inv.start
  exact hinv.finished rfl trivial

end

end Crawl

end Watchwoman
