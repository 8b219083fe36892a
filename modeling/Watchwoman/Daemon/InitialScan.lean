import Watchwoman.Daemon.Registration

/-!
# The scan and the event filter

`initial_scan` prunes directories on its way down, with a flag for version control directories;
`should_ignore` looks at the names of one path. On a tree that does not change the two agree: the
scan lists a path of the tree, once, exactly when an event for it is not filtered out.
-/

namespace Watchwoman

/-- A directory tree at rest. `readDir` are the names of a directory in the order `read_dir` has
them, `readLink` the targets of the links. Links may lead anywhere, also back up; the tree of real
directories is finite. -/
structure FileTree where
  disk : Disk
  readDir : RelPath → List Name
  readLink : RelPath → Option String
  root : disk.IsDir []
  mem_readDir : ∀ q n, n ∈ readDir q ↔ disk.lstat (q ++ [n]) ≠ none
  nodup : ∀ q, (readDir q).Nodup
  depth : ℕ
  deep : ∀ q, (∀ q', q' <+: q → disk.IsDir q') → depth ≤ q.length → readDir q = []

/-- `initial_scan` -/
def initialScan (t : FileTree) (ig : WatchIgnores) : List ScanEntry :=
  Crawl.walk t.disk ig t.readDir t.readLink t.depth [] false

def scannedPaths (t : FileTree) (ig : WatchIgnores) : List RelPath :=
  (initialScan t ig).map Prod.fst

namespace Crawl

variable {d : Disk} {ig : WatchIgnores} {readDir : RelPath → List Name}
  {readLink : RelPath → Option String} {dir : RelPath} {shallow : Bool} {n : Name}
  {below : RelPath → Bool → List ScanEntry}

/-- What the loop lists for a name is at or below it. -/
theorem mem_visit (hbelow : ∀ q sh, ∀ x ∈ below q sh, ∃ m s, x.1 = q ++ m :: s)
    {x : ScanEntry} (hx : x ∈ visit d ig readLink below dir shallow n) :
    ∃ s, x.1 = dir ++ n :: s := by
  unfold visit at hx
  by_cases hskip : ig.Skips n
  · rw [if_pos hskip] at hx
    exact absurd hx List.not_mem_nil
  · rw [if_neg hskip] at hx
    cases hmd : d.lstat (dir ++ [n]) with
    | none =>
      rw [hmd] at hx
      exact absurd hx List.not_mem_nil
    | some md =>
      rw [hmd] at hx
      rcases List.mem_cons.mp hx with rfl | hx
      · exact ⟨[], rfl⟩
      · by_cases hdir : md.kind = .dir ∧ shallow = false
        · rw [if_pos hdir] at hx
          obtain ⟨m, s, heq⟩ := hbelow _ _ x hx
          exact ⟨m :: s, by rw [heq, List.append_assoc]; rfl⟩
        · rw [if_neg hdir] at hx
          exact absurd hx List.not_mem_nil

theorem mem_walk {fuel : ℕ} {x : ScanEntry}
    (hx : x ∈ walk d ig readDir readLink fuel dir shallow) :
    ∃ m s, x.1 = dir ++ m :: s := by
  induction fuel generalizing dir shallow x with
  | zero => exact absurd hx List.not_mem_nil
  | succ fuel ih =>
    obtain ⟨m, -, hx⟩ := List.mem_flatMap.mp hx
    obtain ⟨s, heq⟩ := mem_visit (fun _ _ _ h => ih h) hx
    exact ⟨m, s, heq⟩

/-- No path is listed twice for a name, if none is below it. -/
theorem nodup_visit (hbelow : ∀ q sh, ∀ x ∈ below q sh, ∃ m s, x.1 = q ++ m :: s)
    (hnodup : ∀ q sh, ((below q sh).map Prod.fst).Nodup) :
    ((visit d ig readLink below dir shallow n).map Prod.fst).Nodup := by
  unfold visit
  by_cases hskip : ig.Skips n
  · rw [if_pos hskip]
    exact List.nodup_nil
  · rw [if_neg hskip]
    cases d.lstat (dir ++ [n]) with
    | none => exact List.nodup_nil
    | some md =>
      refine List.nodup_cons.mpr ⟨?_, ?_⟩
      · intro hmem
        obtain ⟨x, hx, heq⟩ := List.mem_map.mp hmem
        split_ifs at hx with hdir
        · obtain ⟨m, s, hx⟩ := hbelow _ _ x hx
          rw [hx] at heq
          exact absurd (List.append_right_eq_self.mp heq) (List.cons_ne_nil m s)
        · exact List.not_mem_nil hx
      · split_ifs
        · exact hnodup _ _
        · exact List.nodup_nil

/-- The walk lists no path twice: names of a directory differ, and what is listed for two of them
starts with the one and with the other. -/
theorem nodup_walk (hnodup : ∀ q, (readDir q).Nodup) (fuel : ℕ) (dir : RelPath) (shallow : Bool) :
    ((walk d ig readDir readLink fuel dir shallow).map Prod.fst).Nodup := by
  induction fuel generalizing dir shallow with
  | zero => exact List.nodup_nil
  | succ fuel ih =>
    show (((readDir dir).flatMap _).map Prod.fst).Nodup
    rw [List.map_flatMap, List.nodup_flatMap]
    refine ⟨fun n _ => nodup_visit (fun _ _ _ h => mem_walk h) ih, (hnodup dir).imp ?_⟩
    intro n m hne p hn hm
    obtain ⟨x, hx, rfl⟩ := List.mem_map.mp hn
    obtain ⟨y, hy, heq⟩ := List.mem_map.mp hm
    obtain ⟨s, hs⟩ := mem_visit (fun _ _ _ h => mem_walk h) hx
    obtain ⟨s', hs'⟩ := mem_visit (fun _ _ _ h => mem_walk h) hy
    rw [hs, hs'] at heq
    exact hne (List.cons.inj (List.append_cancel_left heq)).1.symm

/-- The recursion stops by itself: to look deeper than the directories go changes nothing. -/
theorem walk_add_fuel (fuel k : ℕ) {dir : RelPath} {shallow : Bool}
    (hdeep : ∀ q, (∀ q', q' <+: q → d.IsDir q') → fuel + dir.length ≤ q.length → readDir q = [])
    (hreal : ∀ q, q <+: dir → d.IsDir q) :
    walk d ig readDir readLink (fuel + k) dir shallow =
      walk d ig readDir readLink fuel dir shallow := by
  induction fuel generalizing dir shallow with
  | zero =>
    cases k with
    | zero => rfl
    | succ k =>
      show (readDir dir).flatMap _ = []
      rw [hdeep dir hreal (by simp)]
      rfl
  | succ fuel ih =>
    rw [Nat.add_right_comm]
    show (readDir dir).flatMap _ = (readDir dir).flatMap _
    congr 1
    funext n
    unfold visit
    by_cases hskip : ig.Skips n
    · rw [if_pos hskip, if_pos hskip]
    · rw [if_neg hskip, if_neg hskip]
      cases hmd : d.lstat (dir ++ [n]) with
      | none => rfl
      | some md =>
        by_cases hdir : md.kind = .dir ∧ shallow = false
        · dsimp only
          rw [if_pos hdir, if_pos hdir, ih]
          · intro q hq hlen
            refine hdeep q hq ?_
            rw [List.length_append, List.length_singleton] at hlen
            omega
          · intro q hpre
            rcases List.prefix_concat_iff.mp hpre with rfl | hpre
            · exact ⟨md, hmd, hdir.1⟩
            · exact hreal q hpre
        · dsimp only
          rw [if_neg hdir, if_neg hdir]

end Crawl

/-- `initial_scan` is the recursion to any depth that is enough. -/
theorem initialScan_eq_walk (t : FileTree) (ig : WatchIgnores) {fuel : ℕ} (h : t.depth ≤ fuel) :
    Crawl.walk t.disk ig t.readDir t.readLink fuel [] false = initialScan t ig := by
  obtain ⟨k, rfl⟩ := Nat.exists_eq_add_of_le h
  refine Crawl.walk_add_fuel t.depth k (fun q hq hlen => t.deep q hq (by simpa using hlen)) ?_
  intro q hq
  rw [List.prefix_nil.mp hq]
  exact t.root

theorem mem_scannedPaths_iff (t : FileTree) (ig : WatchIgnores) (p : RelPath) :
    p ∈ scannedPaths t ig ↔ t.disk.OnDisk p ∧ shouldIgnore p ig = false := by
  rw [← Crawl.mem_walk_iff t.readLink t.mem_readDir t.deep t.root]
  exact List.mem_map

/-- An event for a path of the tree that is not a removal adds the path to the batch if and only if
the scan lists it. -/
theorem collectPath_eq_scanned (t : FileTree) (r : Root)
    (matched : RelPath → RelPath → Option Bool) (target : Option String)
    {kind : Watcher.EventKind} (hkind : kind ≠ .remove) (out : List PathChange) {p : RelPath}
    {md : Metadata} (hdisk : t.disk.OnDisk p) (hmd : t.disk.lstat p = some md) :
    Watcher.collectPath t.disk matched target false kind (r.path ++ p) r out =
      (r, if p ∈ scannedPaths t r.ignores
        then out ++ [.upsert p md (Crawl.linkTarget md target)] else out) := by
  rw [Watcher.collectPath_full]
  have hchange : Watcher.changeOf t.disk kind p target =
      .upsert p md (Crawl.linkTarget md target) := by
    unfold Watcher.changeOf
    rw [if_neg hkind, hmd]
  by_cases hp : p ∈ scannedPaths t r.ignores
  · have hvisible := ((mem_scannedPaths_iff t r.ignores p).mp hp).2
    have hrel : Watcher.relevant r (r.path ++ p) = some p := by
      refine Watcher.relevant_eq_some.mpr ⟨rfl, ?_⟩
      rintro (hnil | hignored)
      · exact hdisk.ne_nil hnil
      · exact Bool.false_ne_true (hvisible.symm.trans hignored)
    rw [if_pos hp, hrel, Option.map_some, Option.toList_some, hchange]
  · have hignored : shouldIgnore p r.ignores = true := by
      rw [mem_scannedPaths_iff] at hp
      simpa [hdisk] using hp
    have hrel : Watcher.relevant r (r.path ++ p) = none := by
      rw [Option.eq_none_iff_forall_ne_some]
      intro q hq
      obtain ⟨heq, hnot⟩ := Watcher.relevant_eq_some.mp hq
      obtain rfl := List.append_cancel_left heq
      exact hnot (.inr hignored)
    rw [if_neg hp, hrel, Option.map_none, Option.toList_none, List.append_nil]

/-- The scan of a tree lists each path at most once, and lists a path of the tree if and only if it
is not ignored; so an event for a path that is there adds it to the tree exactly when a scan would
list it. -/
theorem scan_agrees_with_filter (t : FileTree) (ig : WatchIgnores) :
    (scannedPaths t ig).Nodup ∧
    (∀ p ∈ scannedPaths t ig, t.disk.OnDisk p) ∧
    (∀ p, t.disk.OnDisk p → (p ∈ scannedPaths t ig ↔ shouldIgnore p ig = false)) ∧
    (∀ (r : Root) (matched : RelPath → RelPath → Option Bool) (target : Option String)
      (kind : Watcher.EventKind) (out : List PathChange) (p : RelPath) (md : Metadata),
      r.ignores = ig → kind ≠ .remove → t.disk.OnDisk p → t.disk.lstat p = some md →
      Watcher.collectPath t.disk matched target false kind (r.path ++ p) r out =
        (r, if p ∈ scannedPaths t ig
          then out ++ [.upsert p md (Crawl.linkTarget md target)] else out)) := by
  refine ⟨Crawl.nodup_walk t.nodup t.depth [] false, ?_, ?_, ?_⟩
  · intro p hp
    exact ((mem_scannedPaths_iff t ig p).mp hp).1
  · intro p hdisk
    rw [mem_scannedPaths_iff]
    exact ⟨And.right, fun h => ⟨hdisk, h⟩⟩
  · rintro r matched target kind out p md rfl hkind hdisk hmd
    exact collectPath_eq_scanned t r matched target hkind out hdisk hmd

/-- A root with the file `a`, as a tree. -/
def fileTree : FileTree where
  disk := Watcher.fileDisk
  readDir q := if q = [] then [[0x61]] else []
  readLink _ := none
  root := ⟨Watcher.someKind .dir, rfl, rfl⟩
  mem_readDir q n := by
    by_cases hq : q = []
    · rw [hq, if_pos rfl]
      exact Watcher.lstat_pair n
    · rw [if_neg hq]
      have hfile : (q ++ [n] == [[0x61]]) = false := by
        refine beq_eq_false_iff_ne.mpr ?_
        intro heq
        have hlen := congrArg List.length heq
        rw [List.length_append] at hlen
        exact hq (List.length_eq_zero_iff.mp (Nat.add_right_cancel hlen))
      have hroot : (q ++ [n] == []) = false := by simp
      simp only [Watcher.fileDisk, Watcher.diskOf, List.lookup_cons, hfile, hroot, List.lookup_nil,
        List.not_mem_nil, ne_eq, not_true_eq_false]
  nodup q := by split_ifs <;> simp
  depth := 1
  deep q _ hlen := if_neg (List.length_pos_iff.mp hlen)

/-- The scan lists the file, unless its name is ignored; an event for it is kept in the first case
and dropped in the second. -/
theorem scan_agrees_file :
    [[0x61]] ∈ scannedPaths fileTree .default ∧
    (∀ r : Root, r.ignores = .default →
      Watcher.collectPath fileTree.disk (fun _ _ => none) none false .create (r.path ++ [[0x61]]) r
        [] = (r, [.upsert [[0x61]] (Watcher.someKind .file) none])) ∧
    [[0x61]] ∉ scannedPaths fileTree ⟨["a"], []⟩ := by
  have hdisk : fileTree.disk.OnDisk [[0x61]] := by
    refine Disk.onDisk_of_direct ?_ (by simp) (by decide)
    exact Watcher.direct_name fileTree.root [0x61]
  have hlisted : [[0x61]] ∈ scannedPaths fileTree .default :=
    ((scan_agrees_with_filter fileTree .default).2.2.1 _ hdisk).mpr (by decide)
  refine ⟨hlisted, ?_, ?_⟩
  · intro r hr
    rw [(scan_agrees_with_filter fileTree .default).2.2.2 r _ none .create [] _ _ hr (by decide)
      hdisk rfl, if_pos hlisted]
    rfl
  · intro hmem
    have := ((scan_agrees_with_filter fileTree ⟨["a"], []⟩).2.2.1 _ hdisk).mp hmem
    exact absurd this (by decide)

end Watchwoman
