import Watchwoman.Commands.Failures
import Watchwoman.Daemon.Reaping

/-!
# The health of a root and the garbage collector

`status` calls a root stale or dead to say what the next sweep will do to it. For a stale root it
does, as long as the seconds fit an `i64`. For a dead one it never does: it waits for a second miss to
be counted, but the sweep that counts the second miss reaps the root, so a registered root has at
most one and is called missing until it is gone.
-/

namespace Watchwoman.Info

open Subscriptions (ReapReason)
open DaemonState

variable {File : Type}

/-- The `health` of a root in the status report. -/
def reportedHealth (env : CommandEnv) (path : List Name) (w : Watch) : Option Value :=
  (rootStatus env path w).asObject.bind (List.lookup "health")

theorem reportedHealth_eq (env : CommandEnv) (path : List Name) (w : Watch) :
    reportedHealth env path w =
      some (.string (classifyHealth env (env.sweepEnv.isDir path) w)) := rfl

/-- A sweep removes the root and logs it with the reason. -/
def Reaps (s : SweepEnv) (σ : DaemonState File) (path : List Name) (reason : ReapReason) : Prop :=
  (σ.sweep s).roots.lookup path = none ∧ ⟨path, reason, s.unixNow⟩ ∈ sweepEvents s σ

theorem reaps_iff {s : SweepEnv} {σ : DaemonState File} {path : List Name} {w : Watch}
    (hlog : σ.reapLog.length ≤ reapLogCapacity) (hreg : σ.roots.lookup path = some w)
    (reason : ReapReason) : Reaps s σ path reason ↔ (examine s path w).2 = some reason := by
  have hevents := filter_sweepEvents s σ path
  rw [hreg, Option.bind_some] at hevents
  have hmem : ⟨path, reason, s.unixNow⟩ ∈ sweepEvents s σ ↔
      (examine s path w).2 = some reason := by
    have hfilter : ⟨path, reason, s.unixNow⟩ ∈ sweepEvents s σ ↔ ⟨path, reason, s.unixNow⟩ ∈
        (sweepEvents s σ).filter fun e => decide (e.path = path) := by simp
    rw [hfilter, hevents, reapEvent]
    cases (examine s path w).2 <;> simp [eq_comm]
  unfold Reaps
  rw [lookup_sweep_eq_none_iff hlog hreg, hmem]
  constructor
  · exact And.right
  · intro h
    exact ⟨by simp [h], h⟩

/-! ## Stale roots -/

/-- A threshold and the idle seconds compare in an `i64` as they do unless the seconds are too many
for it. -/
theorem int64_threshold_iff {t idle : ℕ} (ht : t < 2 ^ 64) (hidle : idle < 2 ^ 64) :
    (0 < Int64.ofNat t ∧ Int64.ofNat t ≤ Int64.ofNat idle) ↔ 0 < t ∧ t ≤ idle ∧ idle < 2 ^ 63 := by
  have hcast : ∀ n < 2 ^ 64,
      (Int64.ofNat n).toInt = if n < 2 ^ 63 then (n : ℤ) else n - 2 ^ 64 := by
    intro n hn
    have hsize : (Int64.size : ℤ) = 2 ^ 64 := rfl
    rw [Int64.toInt_ofNat', Int.bmod_def, hsize]
    split_ifs <;> omega
  rw [Int64.lt_iff_toInt_lt, Int64.le_iff_toInt_le, hcast t ht, hcast idle hidle, Int64.toInt_zero]
  split_ifs <;> omega

section Classify

variable {env : CommandEnv} {w : Watch}

theorem classifyHealth_missing : classifyHealth env false w =
    if 2 ≤ w.missingTicks.toNat then "dead" else "missing" := rfl

theorem classifyHealth_found : classifyHealth env true w =
    if 0 < w.subscriptionCount ∨ 0 < w.triggerCount then "active"
    else if 0 < Int64.ofNat env.staleIdleSecs ∧
      Int64.ofNat env.staleIdleSecs ≤ Int64.ofNat (w.idleSeconds env.unixNow) then "stale"
    else "idle" := rfl

theorem classifyHealth_ne_dead (hticks : w.missingTicks = 0 ∨ w.missingTicks = 1) (found : Bool) :
    classifyHealth env found w ≠ "dead" := by
  cases found with
  | false =>
    rw [classifyHealth_missing, if_neg]
    · decide
    · rcases hticks with h | h <;> rw [h] <;> decide
  | true =>
    rw [classifyHealth_found]
    split_ifs <;> decide

/-- The status calls a root stale if a sweep does, unless the idle seconds are too many. -/
theorem classifyHealth_eq_stale (hnow : env.unixNow < 2 ^ 64) (hsecs : env.staleIdleSecs < 2 ^ 64)
    (found : Bool) : classifyHealth env found w = "stale" ↔
      found = true ∧ Stale env.sweepEnv w ∧ w.idleSeconds env.unixNow < 2 ^ 63 := by
  have hidle : w.idleSeconds env.unixNow < 2 ^ 64 := lt_of_le_of_lt (Nat.sub_le _ _) hnow
  have hcompare := int64_threshold_iff hsecs hidle
  cases found with
  | false =>
    rw [classifyHealth_missing]
    refine iff_of_false ?_ (fun h => Bool.false_ne_true h.1)
    split_ifs <;> decide
  | true =>
    rw [classifyHealth_found]
    simp only [hcompare]
    split_ifs with hused hstale
    · refine iff_of_false (by decide) ?_
      rintro ⟨-, ⟨-, hsubs, htriggers, -⟩, -⟩
      omega
    · refine iff_of_true rfl ⟨trivial, ⟨hstale.1, ?_, ?_, hstale.2.1⟩, hstale.2.2⟩ <;> omega
    · refine iff_of_false (by decide) ?_
      rintro ⟨-, ⟨hpos, -, -, hle⟩, hfits⟩
      exact hstale ⟨hpos, hle, hfits⟩

end Classify

/-! ## Over a run -/

/-- **Health.** In every state that sweeps and commands lead to, the status calls a root stale
exactly when a sweep at that moment reaps it as stale, if the idle seconds fit an `i64` or the root is
not stale; and it calls a root dead exactly when a sweep reaps it as dead if and only if the sweep
does not, because the directory is there or the last sweep of the root, if any, found it. -/
theorem health_mirrors_sweep_iff {σ₀ σ : DaemonState File} (env : CommandEnv)
    (hnow : env.unixNow < 2 ^ 64) (hsecs : env.staleIdleSecs < 2 ^ 64) (hstart : Unswept σ₀)
    {ops : List ReapOp} (hrun : ReapRun σ₀ ops σ) {path : List Name} {w : Watch}
    (hreg : σ.roots.lookup path = some w) :
    ((reportedHealth env path w = some (.string "stale") ↔ Reaps env.sweepEnv σ path .stale) ↔
      w.idleSeconds env.unixNow < 2 ^ 63 ∨ ¬ StaleAt env.sweepEnv path w) ∧
    ((reportedHealth env path w = some (.string "dead") ↔ Reaps env.sweepEnv σ path .dead) ↔
      ¬ DeadAt env.sweepEnv path ops) := by
  have htallied := Tallied.run hstart hrun
  have hticks := htallied.zero_or_one hreg
  have hreaps := reaps_iff (s := env.sweepEnv) htallied.log hreg
  have hreason := htallied.reason env.sweepEnv hreg
  rw [reportedHealth_eq, Option.some_inj, Option.some_inj, Value.string.injEq, Value.string.injEq,
    hreaps, hreaps, classifyHealth_eq_stale hnow hsecs]
  have hnever : classifyHealth env (env.sweepEnv.isDir path) w ≠ "dead" :=
    classifyHealth_ne_dead hticks _
  have hstale : (env.sweepEnv.isDir path = true ∧ Stale env.sweepEnv w ∧
      w.idleSeconds env.unixNow < 2 ^ 63) ↔
        StaleAt env.sweepEnv path w ∧ w.idleSeconds env.unixNow < 2 ^ 63 := and_assoc.symm
  rw [hstale]
  rcases hreason with ⟨hr, hd, hs⟩ | ⟨hr, hd, hs⟩ | ⟨hr, hd, hs⟩ <;> rw [hr] <;> simp [hnever, hd, hs]

/-- Nobody has used `/a` for an hour. -/
theorem health_mirrors_sweep_iff_oneHour :
    let env := { Dispatch.noWatches with unixNow := 1700003600 }
    (reportedHealth env [[0x61]] oneWatch = some (.string "stale") ↔
      Reaps env.sweepEnv oneRoot [[0x61]] .stale) ∧
    (reportedHealth env [[0x61]] oneWatch = some (.string "dead") ↔
      Reaps env.sweepEnv oneRoot [[0x61]] .dead) := by
  have hreg : oneRoot.roots.lookup [[0x61]] = some oneWatch := rfl
  have h := health_mirrors_sweep_iff { Dispatch.noWatches with unixNow := 1700003600 } (by decide)
    (by decide) unswept_oneRoot .start hreg
  refine ⟨h.1.mpr (.inl (by decide)), h.2.mpr ?_⟩
  rintro ⟨hdir, -⟩
  cases hdir

/-- The directory of `/a` is gone and one sweep has missed it: the status calls the root missing, and
the next sweep reaps it as dead. -/
theorem missing_root_reaped :
    ∃ (σ₀ σ : DaemonState Unit) (ops : List ReapOp) (w : Watch) (env : CommandEnv),
      Unswept σ₀ ∧ ReapRun σ₀ ops σ ∧ σ.roots.lookup [[0x61]] = some w ∧
      reportedHealth env [[0x61]] w = some (.string "missing") ∧
      ¬ (reportedHealth env [[0x61]] w = some (.string "dead") ↔
        Reaps env.sweepEnv σ [[0x61]] .dead) := by
  have hrun : ReapRun oneRoot [.sweep goneSweep] (oneRoot.sweep goneSweep) :=
    .step .start (.sweep goneSweep oneRoot)
  refine ⟨oneRoot, _, _, oneWatch.markMissing,
    { Dispatch.noWatches with metadata := fun _ => .error "No such file or directory (os error 2)" },
    unswept_oneRoot, hrun, rfl, rfl, ?_⟩
  intro h
  have hreg : (oneRoot.sweep goneSweep).roots.lookup [[0x61]] = some oneWatch.markMissing := rfl
  have hdead := h.mpr ((reaps_iff (Nat.zero_le _) hreg .dead).mpr rfl)
  have hhealth : "missing" = "dead" := Value.string.inj (Option.some.inj hdead)
  exact absurd hhealth (by decide)

end Watchwoman.Info
