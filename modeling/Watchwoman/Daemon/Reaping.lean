import Watchwoman.Daemon.State

/-!
# Which roots the garbage collector reaps

A sweep visits every registered root. A root whose directory is missing for the second sweep in a
row is dead; one whose directory is there, that nobody subscribes to or triggers on and that no
command has used for long enough, is stale. The count of misses is carried from sweep to sweep in the
root; between sweeps commands register roots, remove them and change everything else about them.

Over any such run, a sweep reaps a root exactly for these reasons and logs it once, and nothing else
in the daemon bears on it (`reap_policy`).
-/

namespace Watchwoman

open Subscriptions (ReapReason deadTickThreshold)

namespace DaemonState

variable {File : Type}

/-! ## One sweep -/

/-- The root as a sweep leaves it, if it does. -/
def survivor (s : SweepEnv) (path : List Name) (w : Watch) : Option Watch :=
  match examine s path w with
  | (w, none) => some w
  | (_, some _) => none

def reapEvent (s : SweepEnv) (path : List Name) (w : Watch) : Option ReapEvent :=
  (examine s path w).2.map fun reason => ⟨path, reason, s.unixNow⟩

/-- The newest events, as many as the log holds. -/
def newest (log : List ReapEvent) : List ReapEvent := log.drop (log.length - reapLogCapacity)

theorem newest_of_le {log : List ReapEvent} (h : log.length ≤ reapLogCapacity) :
    newest log = log := by
  rw [newest, Nat.sub_eq_zero_of_le h, List.drop_zero]

theorem newest_append (log events : List ReapEvent) :
    newest (newest log ++ events) = newest (log ++ events) := by
  have hlen : log.length - reapLogCapacity + ((newest log ++ events).length - reapLogCapacity) =
      (log ++ events).length - reapLogCapacity := by
    rw [newest, List.length_append, List.length_drop, List.length_append]
    omega
  have hfront : newest log ++ events = (log ++ events).drop (log.length - reapLogCapacity) :=
    (List.drop_append_of_le_length (Nat.sub_le _ _)).symm
  calc newest (newest log ++ events)
      = ((log ++ events).drop (log.length - reapLogCapacity)).drop
          ((newest log ++ events).length - reapLogCapacity) := by rw [newest, hfront]
    _ = newest (log ++ events) := by rw [List.drop_drop, hlen, newest]

theorem reapLog_logReap {σ : DaemonState File} (h : σ.reapLog.length ≤ reapLogCapacity)
    (event : ReapEvent) : (σ.logReap event).reapLog = newest (σ.reapLog ++ [event]) := by
  unfold logReap newest
  dsimp only
  rw [List.length_append, List.length_singleton]
  split_ifs with hfull
  · rw [hfull, Nat.add_sub_cancel_left, List.drop_append_of_le_length (by rw [hfull]; decide),
      List.drop_one]
  · rw [Nat.sub_eq_zero_of_le (by omega), List.drop_zero]

theorem length_newest (log : List ReapEvent) : (newest log).length ≤ reapLogCapacity := by
  unfold newest
  rw [List.length_drop]
  omega

/-- One round of the sweep: it settles its own root, and logs it if it is reaped. -/
theorem sweepPath_spec {s : SweepEnv} {σ : DaemonState File} {path : List Name}
    (hlog : σ.reapLog.length ≤ reapLogCapacity) :
    (∀ p, (sweepPath s σ path).roots.lookup p =
      if p = path then (σ.roots.lookup path).bind (survivor s path) else σ.roots.lookup p) ∧
    (sweepPath s σ path).reapLog =
      newest (σ.reapLog ++ ((σ.roots.lookup path).bind (reapEvent s path)).toList) := by
  unfold sweepPath survivor reapEvent
  cases hw : σ.roots.lookup path with
  | none =>
    refine ⟨fun p => ?_, ?_⟩
    · split_ifs with hp
      · rw [hp, hw]
        rfl
      · rfl
    · show σ.reapLog = newest (σ.reapLog ++ [])
      rw [List.append_nil, newest_of_le hlog]
  | some w =>
    dsimp only [Option.bind_some]
    generalize examine s path w = x
    obtain ⟨w', _ | reason⟩ := x
    · refine ⟨fun p => HashMap.lookup_insert_eq _ _ _ _, ?_⟩
      show σ.reapLog = newest (σ.reapLog ++ [])
      rw [List.append_nil, newest_of_le hlog]
    · have hfound : ((σ.setRoot path w').roots.lookup path).isSome = true := by
        show ((σ.roots.insert path w').lookup path).isSome = true
        rw [AList.lookup_insert]
        rfl
      have hreap : reap s (σ.setRoot path w') path reason =
          logReap { σ.setRoot path w' with roots := (σ.setRoot path w').roots.erase path }
            ⟨path, reason, s.unixNow⟩ := by
        unfold reap unregisterRoot
        rw [hfound]
      dsimp only
      rw [hreap]
      refine ⟨fun p => ?_, reapLog_logReap hlog _⟩
      show ((σ.roots.insert path w').erase path).lookup p = _
      rw [HashMap.lookup_erase_eq, HashMap.lookup_insert_eq]
      split_ifs <;> rfl

/-- A sweep of some paths, none twice: each of their roots is settled by itself. -/
theorem foldl_sweepPath_spec {s : SweepEnv} (paths : List (List Name)) (hnodup : paths.Nodup) :
    ∀ σ : DaemonState File, σ.reapLog.length ≤ reapLogCapacity →
      (∀ p, (paths.foldl (sweepPath s) σ).roots.lookup p =
        if p ∈ paths then (σ.roots.lookup p).bind (survivor s p) else σ.roots.lookup p) ∧
      (paths.foldl (sweepPath s) σ).reapLog =
        newest (σ.reapLog ++ paths.filterMap fun p => (σ.roots.lookup p).bind (reapEvent s p)) := by
  induction paths with
  | nil =>
    intro σ hlog
    refine ⟨fun p => (if_neg List.not_mem_nil).symm, ?_⟩
    show σ.reapLog = newest (σ.reapLog ++ [])
    rw [List.append_nil, newest_of_le hlog]
  | cons path paths ih =>
    intro σ hlog
    obtain ⟨hpath, hnodup⟩ := List.nodup_cons.mp hnodup
    obtain ⟨hroots, hlog'⟩ := @sweepPath_spec File s σ path hlog
    obtain ⟨ihroots, ihlog⟩ := ih hnodup (sweepPath s σ path) (hlog' ▸ length_newest _)
    have hother : ∀ p ∈ paths, (sweepPath s σ path).roots.lookup p = σ.roots.lookup p := by
      intro p hp
      rw [hroots, if_neg]
      rintro rfl
      exact hpath hp
    rw [List.foldl_cons]
    refine ⟨fun p => ?_, ?_⟩
    · rw [ihroots]
      by_cases hp : p ∈ paths
      · rw [if_pos hp, if_pos (List.mem_cons_of_mem _ hp), hother p hp]
      · rw [if_neg hp, hroots]
        by_cases heq : p = path
        · rw [if_pos heq, if_pos (heq ▸ List.mem_cons_self), heq]
        · rw [if_neg heq, if_neg (by simp [heq, hp])]
    · rw [ihlog, hlog', newest_append, List.append_assoc]
      congr 2
      rw [List.filterMap_cons, List.filterMap_congr fun p hp => by rw [hother p hp]]
      cases (σ.roots.lookup path).bind (reapEvent s path) <;> rfl

def sweepEvents (s : SweepEnv) (σ : DaemonState File) : List ReapEvent :=
  σ.roots.keys.filterMap fun p => (σ.roots.lookup p).bind (reapEvent s p)

theorem lookup_sweep (s : SweepEnv) {σ : DaemonState File}
    (hlog : σ.reapLog.length ≤ reapLogCapacity) (p : List Name) :
    (sweep s σ).roots.lookup p = (σ.roots.lookup p).bind (survivor s p) := by
  unfold sweep
  rw [(foldl_sweepPath_spec σ.roots.keys σ.roots.keys_nodup σ hlog).1]
  split_ifs with hp
  · rfl
  · rw [AList.lookup_eq_none.mpr hp]
    rfl

theorem reapLog_sweep (s : SweepEnv) {σ : DaemonState File}
    (hlog : σ.reapLog.length ≤ reapLogCapacity) :
    (sweep s σ).reapLog = newest (σ.reapLog ++ sweepEvents s σ) :=
  (foldl_sweepPath_spec σ.roots.keys σ.roots.keys_nodup σ hlog).2

theorem filter_filterMap_path {f : List Name → Option ReapEvent}
    (hf : ∀ p e, f p = some e → e.path = p) {paths : List (List Name)} (hnodup : paths.Nodup)
    (p : List Name) :
    (paths.filterMap f).filter (fun e => decide (e.path = p)) =
      if p ∈ paths then (f p).toList else [] := by
  induction paths with
  | nil => rfl
  | cons q paths ih =>
    obtain ⟨hq, hnodup⟩ := List.nodup_cons.mp hnodup
    have ih := ih hnodup
    have hown : ((f q).toList.filter fun e => decide (e.path = p)) =
        if p = q then (f p).toList else [] := by
      cases hfq : f q with
      | none =>
        split_ifs with hp
        · rw [hp, hfq]
          rfl
        · rfl
      | some e =>
        have hpath := hf q e hfq
        split_ifs with hp
        · rw [hp, hfq]
          simp [hpath]
        · simp [hpath, Ne.symm hp]
    have hsplit : (q :: paths).filterMap f = (f q).toList ++ paths.filterMap f := by
      rw [List.filterMap_cons]
      cases f q <;> rfl
    rw [hsplit, List.filter_append, hown, ih]
    by_cases hp : p = q
    · rw [if_pos hp, if_neg (hp ▸ hq), if_pos (hp ▸ List.mem_cons_self), List.append_nil]
    · rw [if_neg hp, List.nil_append]
      by_cases hmem : p ∈ paths
      · rw [if_pos hmem, if_pos (List.mem_cons_of_mem _ hmem)]
      · rw [if_neg hmem, if_neg (by simp [hp, hmem])]

theorem filter_sweepEvents (s : SweepEnv) (σ : DaemonState File) (p : List Name) :
    (sweepEvents s σ).filter (fun e => decide (e.path = p)) =
      ((σ.roots.lookup p).bind (reapEvent s p)).toList := by
  unfold sweepEvents
  rw [filter_filterMap_path _ σ.roots.keys_nodup]
  · split_ifs with hp
    · rfl
    · rw [AList.lookup_eq_none.mpr hp]
      rfl
  · intro q e he
    obtain ⟨w, -, hw⟩ := Option.bind_eq_some_iff.mp he
    obtain ⟨reason, -, rfl⟩ := Option.map_eq_some_iff.mp hw
    rfl

/-! ## Runs -/

inductive ReapOp where
  | sweep (s : SweepEnv)
  | register (path : List Name)
  | unregister (path : List Name)
  | serve

/-- A sweep, or what commands do between two of them: they put a new root where there is none,
remove one, or change anything but the counts of misses and the log. -/
inductive ReapStep : DaemonState File → ReapOp → DaemonState File → Prop
  | sweep (s : SweepEnv) (σ : DaemonState File) : ReapStep σ (.sweep s) (σ.sweep s)
  | register {σ σ' : DaemonState File} {path : List Name} {w : Watch}
    (hnew : σ.roots.lookup path = none) (hw : w.missingTicks = 0)
    (hroots : σ'.roots = σ.roots.insert path w) (hlog : σ'.reapLog = σ.reapLog) :
    ReapStep σ (.register path) σ'
  | unregister {σ σ' : DaemonState File} {path : List Name}
    (hroots : σ'.roots = σ.roots.erase path) (hlog : σ'.reapLog = σ.reapLog) :
    ReapStep σ (.unregister path) σ'
  | serve {σ σ' : DaemonState File}
    (hroots : ∀ p, (σ'.roots.lookup p).map Watch.missingTicks =
      (σ.roots.lookup p).map Watch.missingTicks) (hlog : σ'.reapLog = σ.reapLog) :
    ReapStep σ .serve σ'

/-- The operations lead from one daemon to the other. -/
inductive ReapRun (σ₀ : DaemonState File) : List ReapOp → DaemonState File → Prop
  | start : ReapRun σ₀ [] σ₀
  | step {ops : List ReapOp} {op : ReapOp} {σ σ' : DaemonState File} (hrun : ReapRun σ₀ ops σ)
    (hs : ReapStep σ op σ') : ReapRun σ₀ (ops ++ [op]) σ'

/-- No sweep has run yet. -/
structure Unswept (σ : DaemonState File) : Prop where
  missing : ∀ p w, σ.roots.lookup p = some w → w.missingTicks = 0
  log : σ.reapLog = []

/-- The last sweep that looked at the root at `path`, as of one more operation. -/
def noteOp (path : List Name) (last : Option SweepEnv) : ReapOp → Option SweepEnv
  | .sweep s => some s
  | .register p | .unregister p => if p = path then none else last
  | .serve => last

/-- The last sweep of the run since the root at `path` was registered. -/
def previousSweep (path : List Name) (ops : List ReapOp) : Option SweepEnv :=
  ops.foldl (noteOp path) none

/-- That sweep did not find the directory. -/
def MissedBefore (path : List Name) (ops : List ReapOp) : Prop :=
  ∃ s ∈ previousSweep path ops, s.isDir path = false

theorem previousSweep_append (path : List Name) (ops : List ReapOp) (op : ReapOp) :
    previousSweep path (ops ++ [op]) = noteOp path (previousSweep path ops) op := by
  unfold previousSweep
  rw [List.foldl_append]
  rfl

/-- A registered root counts one miss if the last sweep missed it, and none otherwise. -/
structure Tallied (ops : List ReapOp) (σ : DaemonState File) : Prop where
  log : σ.reapLog.length ≤ reapLogCapacity
  missed : ∀ p w, σ.roots.lookup p = some w → MissedBefore p ops → w.missingTicks = 1
  seen : ∀ p w, σ.roots.lookup p = some w → ¬ MissedBefore p ops → w.missingTicks = 0

section Examine

variable {s : SweepEnv} {path : List Name} {w : Watch}

theorem examine_missing (hdir : s.isDir path = false) (hw : w.missingTicks = 0) :
    examine s path w = (w.markMissing, none) := by
  have hcount : w.markMissing.missingTicks = 0 + 1 := congrArg (· + 1) hw
  unfold examine
  rw [if_neg (by simp [hdir]), if_neg (by rw [hcount]; decide)]

theorem examine_dead (hdir : s.isDir path = false) (hw : w.missingTicks = 1) :
    examine s path w = (w.markMissing, some .dead) := by
  have hcount : w.markMissing.missingTicks = 1 + 1 := congrArg (· + 1) hw
  unfold examine
  rw [if_neg (by simp [hdir]), if_pos (by rw [hcount]; decide)]

theorem stale_markPresent : Stale s w.markPresent ↔ Stale s w := Iff.rfl

theorem examine_stale (hdir : s.isDir path = true) (hstale : Stale s w) :
    examine s path w = (w.markPresent, some .stale) := by
  unfold examine
  rw [if_pos hdir, if_pos (stale_markPresent.mpr hstale)]

theorem examine_kept (hdir : s.isDir path = true) (hstale : ¬ Stale s w) :
    examine s path w = ({ w.markPresent with root := w.root.pruneTombstones.1 }, none) := by
  unfold examine
  rw [if_pos hdir, if_neg (mt stale_markPresent.mp hstale)]

/-- A root that survives a sweep counts one miss if the sweep missed it, and none otherwise. -/
theorem missingTicks_survivor {w' : Watch} (hw : w.missingTicks = 0 ∨ w.missingTicks = 1)
    (h : survivor s path w = some w') :
    (s.isDir path = false → w'.missingTicks = 1) ∧ (s.isDir path = true → w'.missingTicks = 0) := by
  unfold survivor at h
  cases hdir : s.isDir path with
  | false =>
    rcases hw with hw | hw
    · rw [examine_missing hdir hw] at h
      obtain rfl := Option.some.inj h
      refine ⟨fun _ => ?_, fun habs => absurd habs Bool.false_ne_true⟩
      show w.missingTicks + 1 = 1
      rw [hw]
      rfl
    · rw [examine_dead hdir hw] at h
      cases h
  | true =>
    by_cases hstale : Stale s w
    · rw [examine_stale hdir hstale] at h
      cases h
    · rw [examine_kept hdir hstale] at h
      obtain rfl := Option.some.inj h
      exact ⟨fun habs => absurd habs.symm Bool.false_ne_true, fun _ => rfl⟩

end Examine

namespace Tallied

variable {ops : List ReapOp} {σ σ' : DaemonState File}

theorem start (h : Unswept σ) : Tallied [] σ where
  log := by
    rw [h.log]
    exact Nat.zero_le _
  missed := by
    rintro p w - ⟨s, hs, -⟩
    cases hs
  seen p w hw _ := h.missing p w hw

theorem zero_or_one (h : Tallied ops σ) {p : List Name} {w : Watch}
    (hw : σ.roots.lookup p = some w) : w.missingTicks = 0 ∨ w.missingTicks = 1 := by
  by_cases hmissed : MissedBefore p ops
  · exact .inr (h.missed p w hw hmissed)
  · exact .inl (h.seen p w hw hmissed)

/-- The miss count of a root that an operation leaves alone is right afterwards. -/
theorem of_same (h : Tallied ops σ) {op : ReapOp} (hlog : σ'.reapLog = σ.reapLog)
    (hroots : ∀ p w', σ'.roots.lookup p = some w' →
      (noteOp p (previousSweep p ops) op = none ∧ w'.missingTicks = 0) ∨
      (noteOp p (previousSweep p ops) op = previousSweep p ops ∧
        ∃ w, σ.roots.lookup p = some w ∧ w'.missingTicks = w.missingTicks)) :
    Tallied (ops ++ [op]) σ' where
  log := hlog ▸ h.log
  missed := by
    rintro p w' hw' ⟨s, hs, hdir⟩
    rw [previousSweep_append] at hs
    rcases hroots p w' hw' with ⟨hnone, -⟩ | ⟨hsame, w, hw, hticks⟩
    · rw [hnone] at hs
      cases hs
    · rw [hsame] at hs
      rw [hticks]
      exact h.missed p w hw ⟨s, hs, hdir⟩
  seen := by
    intro p w' hw' hseen
    rcases hroots p w' hw' with ⟨-, hzero⟩ | ⟨hsame, w, hw, hticks⟩
    · exact hzero
    · rw [hticks]
      refine h.seen p w hw ?_
      rintro ⟨s, hs, hdir⟩
      refine hseen ⟨s, ?_, hdir⟩
      rw [previousSweep_append, hsame]
      exact hs

theorem sweep (h : Tallied ops σ) (s : SweepEnv) : Tallied (ops ++ [.sweep s]) (σ.sweep s) := by
  have hprev : ∀ p, previousSweep p (ops ++ [.sweep s]) = some s :=
    fun p => previousSweep_append p ops _
  have hcount : ∀ p w', (σ.sweep s).roots.lookup p = some w' →
      (s.isDir p = false → w'.missingTicks = 1) ∧ (s.isDir p = true → w'.missingTicks = 0) := by
    intro p w' hw'
    rw [lookup_sweep s h.log] at hw'
    obtain ⟨w, hw, hsurvivor⟩ := Option.bind_eq_some_iff.mp hw'
    exact missingTicks_survivor (h.zero_or_one hw) hsurvivor
  constructor
  · rw [reapLog_sweep s h.log]
    exact length_newest _
  · rintro p w' hw' ⟨s', hs', hdir⟩
    rw [hprev p] at hs'
    obtain rfl := Option.some.inj hs'
    exact (hcount p w' hw').1 hdir
  · intro p w' hw' hseen
    refine (hcount p w' hw').2 ?_
    by_contra hdir
    exact hseen ⟨s, hprev p, by simpa using hdir⟩

theorem step (h : Tallied ops σ) {op : ReapOp} (hs : ReapStep σ op σ') :
    Tallied (ops ++ [op]) σ' := by
  cases hs with
  | sweep s => exact h.sweep s
  | @register _ _ path w hnew hw hroots hlog =>
    refine h.of_same hlog fun p w' hw' => ?_
    rw [hroots, HashMap.lookup_insert_eq] at hw'
    by_cases hp : p = path
    · rw [if_pos hp] at hw'
      obtain rfl := Option.some.inj hw'
      exact .inl ⟨if_pos hp.symm, hw⟩
    · rw [if_neg hp] at hw'
      exact .inr ⟨if_neg (Ne.symm hp), w', hw', rfl⟩
  | @unregister _ _ path hroots hlog =>
    refine h.of_same hlog fun p w' hw' => ?_
    rw [hroots, HashMap.lookup_erase_eq] at hw'
    by_cases hp : p = path
    · rw [if_pos hp] at hw'
      cases hw'
    · rw [if_neg hp] at hw'
      exact .inr ⟨if_neg (Ne.symm hp), w', hw', rfl⟩
  | serve hroots hlog =>
    refine h.of_same hlog fun p w' hw' => ?_
    have hsame := hroots p
    rw [hw'] at hsame
    obtain ⟨w, hw, hticks⟩ := Option.map_eq_some_iff.mp hsame.symm
    exact .inr ⟨rfl, w, hw, hticks.symm⟩

theorem run {σ₀ : DaemonState File} (hstart : Unswept σ₀) (hrun : ReapRun σ₀ ops σ) :
    Tallied ops σ := by
  induction hrun with
  | start => exact .start hstart
  | step _ hs ih => exact ih.step hs

end Tallied

/-! ## The policy -/

/-- The directory is missing, as it was at the last sweep. -/
def DeadAt (s : SweepEnv) (path : List Name) (ops : List ReapOp) : Prop :=
  s.isDir path = false ∧ MissedBefore path ops

/-- The directory is there and the root is stale. -/
def StaleAt (s : SweepEnv) (path : List Name) (w : Watch) : Prop :=
  s.isDir path = true ∧ Stale s w

/-- The reason a sweep has for a root. -/
theorem Tallied.reason {ops : List ReapOp} {σ : DaemonState File} (h : Tallied ops σ)
    (s : SweepEnv) {path : List Name} {w : Watch} (hw : σ.roots.lookup path = some w) :
    ((examine s path w).2 = some .dead ∧ DeadAt s path ops ∧ ¬ StaleAt s path w) ∨
    ((examine s path w).2 = some .stale ∧ ¬ DeadAt s path ops ∧ StaleAt s path w) ∨
    ((examine s path w).2 = none ∧ ¬ DeadAt s path ops ∧ ¬ StaleAt s path w) := by
  unfold DeadAt StaleAt
  cases hdir : s.isDir path with
  | false =>
    by_cases hmissed : MissedBefore path ops
    · rw [examine_dead hdir (h.missed path w hw hmissed)]
      exact .inl ⟨rfl, ⟨rfl, hmissed⟩, by simp⟩
    · rw [examine_missing hdir (h.seen path w hw hmissed)]
      exact .inr (.inr ⟨rfl, by simp [hmissed], by simp⟩)
  | true =>
    by_cases hstale : Stale s w
    · rw [examine_stale hdir hstale]
      exact .inr (.inl ⟨rfl, by simp, ⟨rfl, hstale⟩⟩)
    · rw [examine_kept hdir hstale]
      exact .inr (.inr ⟨rfl, by simp, by simp [hstale]⟩)

theorem lookup_sweep_eq_none_iff {s : SweepEnv} {σ : DaemonState File} {path : List Name} {w : Watch}
    (hlog : σ.reapLog.length ≤ reapLogCapacity) (hw : σ.roots.lookup path = some w) :
    (σ.sweep s).roots.lookup path = none ↔ (examine s path w).2 ≠ none := by
  rw [lookup_sweep s hlog, hw, Option.bind_some, survivor]
  generalize examine s path w = x
  obtain ⟨w', _ | reason⟩ := x <;> simp

theorem lookup_sweep_run {σ₀ σ : DaemonState File} (hstart : Unswept σ₀) {ops : List ReapOp}
    (hrun : ReapRun σ₀ ops σ) (s : SweepEnv) {path : List Name} {w : Watch}
    (hreg : σ.roots.lookup path = some w) :
    (σ.sweep s).roots.lookup path = none ↔ DeadAt s path ops ∨ StaleAt s path w := by
  have htallied := Tallied.run hstart hrun
  rw [lookup_sweep_eq_none_iff htallied.log hreg]
  rcases htallied.reason s hreg with ⟨hr, hd, -⟩ | ⟨hr, -, hs⟩ | ⟨hr, hd, hs⟩
  · rw [hr]
    exact iff_of_true (Option.some_ne_none _) (.inl hd)
  · rw [hr]
    exact iff_of_true (Option.some_ne_none _) (.inr hs)
  · rw [hr]
    exact iff_of_false (fun h => h rfl) (not_or.mpr ⟨hd, hs⟩)

/-- **Reaping.** Over any run of sweeps and commands, a sweep removes a registered root if and only
if its directory is missing and was missing at the sweep before, which it was registered for, or its
directory is there and the root is stale. The sweep then logs exactly one event for the root, with
that reason, and otherwise none; the log keeps the newest events. In another daemon with another run
the root meets the same fate if its own history is the same. -/
theorem reap_policy {σ₀ σ : DaemonState File} (hstart : Unswept σ₀) {ops : List ReapOp}
    (hrun : ReapRun σ₀ ops σ) (s : SweepEnv) (path : List Name) (w : Watch)
    (hreg : σ.roots.lookup path = some w) :
    ((σ.sweep s).roots.lookup path = none ↔ DeadAt s path ops ∨ StaleAt s path w) ∧
    (DeadAt s path ops →
      (sweepEvents s σ).filter (fun e => decide (e.path = path)) = [⟨path, .dead, s.unixNow⟩]) ∧
    (StaleAt s path w →
      (sweepEvents s σ).filter (fun e => decide (e.path = path)) = [⟨path, .stale, s.unixNow⟩]) ∧
    (¬ DeadAt s path ops → ¬ StaleAt s path w →
      (sweepEvents s σ).filter (fun e => decide (e.path = path)) = []) ∧
    (σ.sweep s).reapLog = newest (σ.reapLog ++ sweepEvents s σ) ∧
    (∀ {σ₁ σ' : DaemonState File} {ops' : List ReapOp} {w' : Watch}, Unswept σ₁ →
      ReapRun σ₁ ops' σ' → σ'.roots.lookup path = some w' →
      (MissedBefore path ops' ↔ MissedBefore path ops) → (Stale s w' ↔ Stale s w) →
      ((σ'.sweep s).roots.lookup path = none ↔ (σ.sweep s).roots.lookup path = none)) := by
  have htallied := Tallied.run hstart hrun
  have hevents : (sweepEvents s σ).filter (fun e => decide (e.path = path)) =
      ((examine s path w).2.map fun reason => ⟨path, reason, s.unixNow⟩).toList := by
    rw [filter_sweepEvents, hreg]
    rfl
  refine ⟨lookup_sweep_run hstart hrun s hreg, ?_, ?_, ?_, reapLog_sweep s htallied.log, ?_⟩
  · intro hdead
    rcases htallied.reason s hreg with ⟨hr, -⟩ | ⟨-, hd, -⟩ | ⟨-, hd, -⟩
    · rw [hevents, hr]
      rfl
    · exact absurd hdead hd
    · exact absurd hdead hd
  · intro hstale
    rcases htallied.reason s hreg with ⟨-, -, hs⟩ | ⟨hr, -⟩ | ⟨-, -, hs⟩
    · exact absurd hstale hs
    · rw [hevents, hr]
      rfl
    · exact absurd hstale hs
  · intro hdead hstale
    rcases htallied.reason s hreg with ⟨-, hd, -⟩ | ⟨-, -, hs⟩ | ⟨hr, -⟩
    · exact absurd hd hdead
    · exact absurd hs hstale
    · rw [hevents, hr]
      rfl
  · intro σ₁ σ' ops' w' hstart' hrun' hreg' hmissed hstale
    rw [lookup_sweep_run hstart' hrun' s hreg', lookup_sweep_run hstart hrun s hreg]
    unfold DeadAt StaleAt
    rw [hmissed, hstale]

/-- A root `/a` in a daemon that has just started. -/
def oneWatch : Watch := .new (Root.new [[0x61]] .default false 1 1700000000 42) 1700000000

def oneRoot : DaemonState Unit where
  roots := AList.singleton [[0x61]] oneWatch
  rootCounter := 1
  reapLog := []
  shuttingDown := false
  files := fun _ => none

theorem unswept_oneRoot : Unswept oneRoot where
  missing := by
    intro p w hw
    cases List.mem_singleton.mp (HashMap.mem_entries_iff.mpr hw)
    rfl
  log := rfl

/-- The directory is gone, a minute after the root was registered. -/
def goneSweep : SweepEnv := ⟨3600, 1700000060, fun _ => false⟩

/-- The second sweep that does not find `/a` reaps it. -/
theorem reap_policy_dead :
    ((oneRoot.sweep goneSweep).sweep goneSweep).roots.lookup [[0x61]] = none ∧
    (sweepEvents goneSweep (oneRoot.sweep goneSweep)).filter
      (fun e => decide (e.path = [[0x61]])) = [⟨[[0x61]], .dead, 1700000060⟩] := by
  have hrun : ReapRun oneRoot [.sweep goneSweep] (oneRoot.sweep goneSweep) :=
    .step .start (.sweep goneSweep oneRoot)
  have hdead : DeadAt goneSweep [[0x61]] [.sweep goneSweep] := ⟨rfl, goneSweep, rfl, rfl⟩
  have hpolicy := reap_policy unswept_oneRoot hrun goneSweep [[0x61]] oneWatch.markMissing rfl
  exact ⟨hpolicy.1.mpr (.inl hdead), hpolicy.2.1 hdead⟩

end DaemonState

end Watchwoman
