import Watchwoman.Commands.Effects
import Watchwoman.Commands.Failures
import Watchwoman.Query.Cursors

/-!
# Every state of the daemon

What holds of the registered roots after any run of commands, of the watchers and loops of the roots
and of the garbage collector (`daemon_coherent`), and what it says about the clock strings that the
daemon hands out: a string is understood as long as the root it is of stays registered, and by no
other root (`clock_understood_iff`). Runs are of whole commands; what they do to the registry are
runs of its steps in which no two calls of `register_root` overlap (`daemon_registers_alone`).
-/

namespace Watchwoman

open Transition Transaction Program

namespace Root

open Query (root_run)

/-- What no operation on a root changes. -/
structure SameIdentity (r r' : Root) : Prop where
  path : r'.path = r.path
  rootNumber : r'.clock.rootNumber = r.clock.rootNumber
  startTime : r'.clock.startTime = r.clock.startTime
  pid : r'.clock.pid = r.clock.pid

theorem Step.sameIdentity {env : Env} {r r' : Root} (hs : Step env r r') : SameIdentity r r' := by
  cases hs with
  | seed entries => exact ⟨rfl, rfl, rfl, rfl⟩
  | bump => exact ⟨rfl, rfl, rfl, rfl⟩
  | batch arenaBytes changes =>
    have hpath : (r.applyChanges arenaBytes changes).1.path = r.path := by
      obtain ⟨tree, htree⟩ :=
        writeChanges_eq r.clock.bump.ticks changes (r.openBatch arenaBytes)
      show (changes.foldl _ (r.openBatch arenaBytes)).path = _
      rw [htree]
      unfold openBatch
      split_ifs <;> rfl
    have hclock := clock_applyChanges arenaBytes changes r
    exact ⟨hpath, by rw [hclock]; rfl, by rw [hclock]; rfl, by rw [hclock]; rfl⟩
  | invalidate =>
    unfold invalidateJjEvents
    split_ifs <;> exact ⟨rfl, rfl, rfl, rfl⟩
  | promote entries =>
    unfold promoteToFull
    split_ifs <;> exact ⟨rfl, rfl, rfl, rfl⟩
  | sweep =>
    unfold pruneTombstones
    split_ifs <;> exact ⟨rfl, rfl, rfl, rfl⟩
  | query spec =>
    rcases root_run env spec r with hrun | ⟨stored, hrun⟩
    · rw [hrun]
      exact ⟨rfl, rfl, rfl, rfl⟩
    · rw [hrun]
      exact ⟨rfl, rfl, rfl, rfl⟩

theorem SameIdentity.trans {r₁ r₂ r₃ : Root} (h : SameIdentity r₁ r₂) (h' : SameIdentity r₂ r₃) :
    SameIdentity r₁ r₃ :=
  ⟨h'.path.trans h.path, h'.rootNumber.trans h.rootNumber, h'.startTime.trans h.startTime,
    h'.pid.trans h.pid⟩

/-- No operation makes an event index of a full one. -/
theorem Step.jjEvents {env : Env} {r r' : Root} (hs : Step env r r') (h : r'.jjEvents = true) :
    r.jjEvents = true := by
  cases hs with
  | seed entries => exact h
  | bump => exact h
  | batch arenaBytes changes =>
    obtain ⟨tree, htree⟩ := writeChanges_eq r.clock.bump.ticks changes (r.openBatch arenaBytes)
    change (changes.foldl _ (r.openBatch arenaBytes)).jjEvents = true at h
    rw [htree] at h
    exact (jjEvents_openBatch arenaBytes r).symm.trans h
  | invalidate =>
    unfold invalidateJjEvents at h
    split_ifs at h with hjj
    · exact hjj
    · exact h
  | promote entries =>
    rw [Handlers.not_jjEvents_promoteToFull] at h
    cases h
  | sweep =>
    unfold pruneTombstones at h
    split_ifs at h with hjj
    · exact hjj
    · exact h
  | query spec =>
    rcases root_run env spec r with hrun | ⟨stored, hrun⟩
    · rw [hrun] at h
      exact h
    · rw [hrun] at h
      exact h

end Root

theorem Registry.eq_of_jjEvents_buildRoot {path : List Name} {number : ℕ}
    {s : Registry.Surroundings} (h : (Registry.buildRoot path number s).jjEvents = true) :
    ∀ name ∈ s.triggers, name = Handlers.jjBackgroundMonitor := by
  unfold Registry.buildRoot at h
  dsimp only at h
  split at h
  · rw [Handlers.not_jjEvents_promoteToFull] at h
    cases h
  · rename_i hany
    intro name hname
    by_contra hother
    exact hany (List.any_eq_true.mpr ⟨name, hname, bne_iff_ne.mpr hother⟩)

theorem Registry.run_buildRoot (env : Env) (path : List Name) (number : ℕ)
    (s : Registry.Surroundings) :
    Run (Root.Step env)
      (Root.new path s.ignores s.jjEvents (UInt64.ofNat number) s.startTime s.pid)
      (Registry.buildRoot path number s) := by
  unfold Registry.buildRoot
  dsimp only
  by_cases hany : s.triggers.any (· != "jj-background-monitor") = true
  · rw [if_pos hany]
    exact .tail (.single (.seed _ _)) (.promote _ _)
  · rw [if_neg hany]
    exact .single (.seed _ _)

namespace Dispatch

open Persistence
open Handlers (jjBackgroundMonitor)
open Query (emptyEnv)

variable {serde : Serde} {a : Admitted}

/-! ## What a step leaves at a path -/

/-- The root is the same registration, further on. -/
structure SameRegistration (w w' : Watch) : Prop where
  identity : Root.SameIdentity w.root w'.root
  ticks_le : w.root.clock.ticks ≤ w'.root.clock.ticks

theorem SameRegistration.refl (w : Watch) : SameRegistration w w := ⟨⟨rfl, rfl, rfl, rfl⟩, le_rfl⟩

theorem SameRegistration.trans {w₁ w₂ w₃ : Watch} (h : SameRegistration w₁ w₂)
    (h' : SameRegistration w₂ w₃) : SameRegistration w₁ w₃ :=
  ⟨h.identity.trans h'.identity, h.ticks_le.trans h'.ticks_le⟩

theorem WatchStep.sameRegistration {w w' : Watch} (h : WatchStep a w w') :
    SameRegistration w w' := by
  cases h with
  | root env h => exact ⟨h.sameIdentity, h.ticks_le⟩
  | _ => exact ⟨⟨rfl, rfl, rfl, rfl⟩, le_rfl⟩

/-- A root after a step was there before it, or the step registered it. -/
theorem Step.lookup_cases {σ σ' : DaemonState serde.File} (hs : Step a σ σ') {path : List Name}
    {w' : Watch} (hw' : σ'.roots.lookup path = some w') :
    (∃ w, σ.roots.lookup path = some w ∧ (w' = w ∨ WatchStep a w w')) ∨
      (σ.roots.lookup path = none ∧ σ'.rootCounter = σ.rootCounter + 1 ∧
        (∀ p, p ≠ path → σ'.roots.lookup p = σ.roots.lookup p) ∧
        ∃ env, a.env env ∧ w' = newWatch env path σ) := by
  have hsame : σ'.roots.lookup path = σ.roots.lookup path →
      ∃ w, σ.roots.lookup path = some w ∧ (w' = w ∨ WatchStep a w w') :=
    fun hroots => ⟨w', hroots.symm.trans hw', .inl rfl⟩
  cases hs with
  | @watch _ path' w₁ w₂ hw h =>
    change (σ.roots.insert path' w₂).lookup path = some w' at hw'
    rw [HashMap.lookup_insert_eq] at hw'
    split_ifs at hw' with hpath
    · subst hpath
      obtain rfl := Option.some.inj hw'
      exact .inl ⟨w₁, hw, .inr h⟩
    · exact .inl ⟨w', hw', .inl rfl⟩
  | @register env henv _ path' hnone =>
    change (σ.roots.insert path' _).lookup path = some w' at hw'
    rw [HashMap.lookup_insert_eq] at hw'
    split_ifs at hw' with hpath
    · subst hpath
      refine .inr ⟨hnone, rfl, fun p hp => ?_, env, henv, (Option.some.inj hw').symm⟩
      exact AList.lookup_insert_ne hp
    · exact .inl ⟨w', hw', .inl rfl⟩
  | unregister path' =>
    change (σ.roots.erase path').lookup path = some w' at hw'
    rw [HashMap.lookup_erase_eq] at hw'
    split_ifs at hw' with hpath
    exact .inl ⟨w', hw', .inl rfl⟩
  | drain => cases hw'
  | count | persist | logReap | shutdown => exact .inl (hsame rfl)

theorem Step.counter_le {σ σ' : DaemonState serde.File} (hs : Step a σ σ') :
    σ.rootCounter ≤ σ'.rootCounter := by
  cases hs with
  | register | count => exact Nat.le_succ _
  | _ => exact le_rfl

/-! ## The registered roots -/

/-- What holds of the root that is registered at the path. -/
structure Coherent (a : Admitted) (path : List Name) (w : Watch) : Prop where
  path : w.root.path = path
  wellTicked : w.root.WellTicked
  cursors : ∀ name, w.root.cursorTick name ≤ w.root.clock.ticks
  subscriptions : ∀ name s, w.subscriptions.lookup name = some s → s.name = name ∧ a.query s.query
  triggers : ∀ name t, w.triggers.lookup name = some t → t.name = name ∧ a.trigger t
  /-- An event index serves jj alone. -/
  jjEvents : w.root.jjEvents = true → (∀ name, w.subscriptions.lookup name = none) ∧
    ∀ name t, w.triggers.lookup name = some t → t.name = jjBackgroundMonitor

theorem Coherent.step {path : List Name} {w w' : Watch} (h : Coherent a path w)
    (hs : WatchStep a w w') : Coherent a path w' := by
  cases hs with
  | touch | enter | leave | markMissing | markPresent => exact ⟨h.path, h.wellTicked, h.cursors,
      h.subscriptions, h.triggers, h.jjEvents⟩
  | root env hr =>
    exact ⟨hr.sameIdentity.path.trans h.path, h.wellTicked.step hr, hr.cursorTick_le h.cursors,
      h.subscriptions, h.triggers, fun hjj => h.jjEvents (hr.jjEvents hjj)⟩
  | subscribe name hquery hfull =>
    refine ⟨h.path, h.wellTicked, h.cursors, ?_, h.triggers, fun hjj => ?_⟩
    · intro name' s hs
      rw [HashMap.lookup_insert_eq] at hs
      split_ifs at hs with hname
      · obtain rfl := Option.some.inj hs
        exact ⟨hname.symm, hquery⟩
      · exact h.subscriptions name' s hs
    · rw [hfull] at hjj
      cases hjj
  | unsubscribe name =>
    have herase : ∀ name' s, (w.subscriptions.erase name).lookup name' = some s →
        w.subscriptions.lookup name' = some s := by
      intro name' s hs
      rw [HashMap.lookup_erase_eq] at hs
      split_ifs at hs
      exact hs
    refine ⟨h.path, h.wellTicked, h.cursors, fun name' s hs => h.subscriptions name' s
      (herase name' s hs), h.triggers, fun hjj => ⟨fun name' => ?_, (h.jjEvents hjj).2⟩⟩
    rw [HashMap.lookup_erase_eq]
    split_ifs
    · rfl
    · exact (h.jjEvents hjj).1 name'
  | @trigger t ht _ hfull =>
    have hinsert : ∀ name t', (w.triggers.insert t.name t).lookup name = some t' →
        t.name = name ∧ t' = t ∨ w.triggers.lookup name = some t' := by
      intro name t' ht'
      rw [HashMap.lookup_insert_eq] at ht'
      split_ifs at ht' with hname
      · exact .inl ⟨hname.symm, (Option.some.inj ht').symm⟩
      · exact .inr ht'
    refine ⟨h.path, h.wellTicked, h.cursors, h.subscriptions, fun name t' ht' => ?_, fun hjj =>
      ⟨(h.jjEvents hjj).1, fun name t' ht' => ?_⟩⟩
    · rcases hinsert name t' ht' with ⟨hname, rfl⟩ | hold
      · exact ⟨hname, ht⟩
      · exact h.triggers name t' hold
    · rcases hinsert name t' ht' with ⟨-, rfl⟩ | hold
      · by_contra hother
        have hnot := hfull hother
        rw [show w.root.jjEvents = true from hjj] at hnot
        cases hnot
      · exact (h.jjEvents hjj).2 name t' hold
  | untrigger name =>
    have herase : ∀ name' t, (w.triggers.erase name).lookup name' = some t →
        w.triggers.lookup name' = some t := by
      intro name' t ht
      rw [HashMap.lookup_erase_eq] at ht
      split_ifs at ht
      exact ht
    exact ⟨h.path, h.wellTicked, h.cursors, h.subscriptions,
      fun name' t ht => h.triggers name' t (herase name' t ht),
      fun hjj => ⟨(h.jjEvents hjj).1, fun name' t ht => (h.jjEvents hjj).2 name' t
        (herase name' t ht)⟩⟩

/-! ## New roots -/

/-- What the files hold was admitted. -/
def FilesAdmitted (a : Admitted) (σ : DaemonState serde.File) : Prop :=
  ∀ slug bytes items, σ.files slug = some bytes → serde.fromSlice bytes = some items →
    ∀ pt ∈ items, a.trigger pt.intoTrigger

/-- A file's triggers go under their own names, and were admitted. -/
theorem lookup_loadPersistedTriggers {σ : DaemonState serde.File} (hfiles : FilesAdmitted a σ)
    {env : CommandEnv} {path : List Name} {name : String} {t : Trigger}
    (ht : (loadPersistedTriggers env path σ).lookup name = some t) : t.name = name ∧ a.trigger t := by
  have hinsertAll : ∀ items : List Persisted.PersistedTrigger,
      (insertAll items ∅).lookup name = some t →
        ∃ pt ∈ items, pt.intoTrigger = t ∧ t.name = name := by
    intro items hlookup
    rw [lookup_insertAll] at hlookup
    cases hlast : LastWrite.lastSome? (writes name) items with
    | none =>
      rw [hlast] at hlookup
      cases hlookup
    | some written =>
      rw [hlast] at hlookup
      obtain ⟨pt, hpt, hwrites⟩ := LastWrite.exists_of_lastSome? hlast
      unfold writes at hwrites
      split_ifs at hwrites with hname
      obtain rfl := Option.some.inj hwrites
      obtain rfl : pt.intoTrigger = t := Option.some.inj hlookup
      exact ⟨pt, hpt, rfl, hname⟩
  unfold loadPersistedTriggers State.loadPersistedTriggers at ht
  split_ifs at ht
  · split at ht
    · cases ht
    · rename_i bytes hbytes
      split at ht
      · cases ht
      · rename_i items hitems
        obtain ⟨pt, hpt, rfl, hname⟩ := hinsertAll items ht
        exact ⟨hname, hfiles _ bytes items hbytes hitems pt hpt⟩
  · cases ht

theorem run_newWatch (env : CommandEnv) (path : List Name) (σ : DaemonState serde.File) :
    Run (Root.Step emptyEnv)
      (Root.new path (env.watchmanConfig path).1 (env.watchmanConfig path).2
        (UInt64.ofNat (σ.rootCounter + 1)) env.startTime env.pid) (newWatch env path σ).root := by
  unfold newWatch
  exact Registry.run_buildRoot emptyEnv path (σ.rootCounter + 1) (env.surroundings path _)

theorem sameIdentity_of_run {env : Env} {r r' : Root} (h : Run (Root.Step env) r r') :
    Root.SameIdentity r r' :=
  h.preserves (fun _ _ hr hs => hr.trans hs.sameIdentity) ⟨rfl, rfl, rfl, rfl⟩

theorem coherent_newWatch {σ : DaemonState serde.File} (hfiles : FilesAdmitted a σ)
    (env : CommandEnv) (path : List Name) : Coherent a path (newWatch env path σ) := by
  have hrun := run_newWatch env path σ
  have hreached : Root.Reached emptyEnv (newWatch env path σ).root :=
    ⟨_, ⟨path, _, _, _, _, _, rfl⟩, hrun⟩
  refine ⟨(sameIdentity_of_run hrun).path, hreached.wellTicked, hreached.cursorTick_le, ?_, ?_,
    fun hjj => ⟨fun _ => rfl, ?_⟩⟩
  · rintro name s ⟨⟩
  · exact fun name t ht => lookup_loadPersistedTriggers hfiles ht
  · intro name t ht
    exact Registry.eq_of_jjEvents_buildRoot hjj t.name
      (List.mem_map.mpr ⟨⟨name, t⟩, HashMap.mem_entries_iff.mpr ht, rfl⟩)

/-! ## The daemon -/

/-- What holds of the daemon. -/
structure Consistent (a : Admitted) (σ : DaemonState serde.File) : Prop where
  roots : ∀ path w, σ.roots.lookup path = some w → Coherent a path w
  files : FilesAdmitted a σ
  reapLog : σ.reapLog.length ≤ reapLogCapacity

/-- A trigger that may come may come out of a file. -/
def Admitted.Stored (a : Admitted) : Prop :=
  ∀ t, a.trigger t → a.trigger (Persisted.fromTrigger t).intoTrigger

theorem length_logReap {σ : DaemonState serde.File} (h : σ.reapLog.length ≤ reapLogCapacity)
    (event : ReapEvent) : (σ.logReap event).reapLog.length ≤ reapLogCapacity := by
  unfold DaemonState.logReap
  dsimp only
  rw [List.length_append, List.length_singleton]
  split_ifs with hfull
  · rw [List.length_tail, hfull]
    decide
  · omega

theorem Consistent.step (hstored : a.Stored) {σ σ' : DaemonState serde.File} (h : Consistent a σ)
    (hs : Step a σ σ') : Consistent a σ' := by
  refine ⟨fun path w' hw' => ?_, ?_, ?_⟩
  · rcases hs.lookup_cases hw' with ⟨w, hw, rfl | hstep⟩ | ⟨-, -, -, env, -, rfl⟩
    · exact h.roots path w' hw
    · exact (h.roots path w hw).step hstep
    · exact coherent_newWatch h.files env path
  · cases hs with
    | @persist _ path w hw =>
      intro slug bytes items hbytes hitems pt hpt
      change Function.update σ.files (pathSlug w.root.path) _ slug = some bytes at hbytes
      by_cases hslug : slug = pathSlug w.root.path
      · subst hslug
        rw [Function.update_self] at hbytes
        obtain rfl := Option.some.inj hbytes
        rw [serde.fromSlice_toVecPretty] at hitems
        obtain rfl := Option.some.inj hitems
        obtain ⟨t, ht, rfl⟩ := List.mem_map.mp hpt
        obtain ⟨name, hlookup⟩ := HashMap.mem_values_iff.mp ht
        exact hstored t ((h.roots path w hw).triggers name t hlookup).2
      · rw [Function.update_of_ne hslug] at hbytes
        exact h.files slug bytes items hbytes hitems pt hpt
    | _ => exact h.files
  · cases hs with
    | logReap event => exact length_logReap h.reapLog event
    | _ => exact h.reapLog

/-! ## The numbers of the registrations -/

/-- The number of the registration, which its clock strings carry. -/
def number (w : Watch) : ℕ := w.root.clock.rootNumber.toNat

theorem SameRegistration.number_eq {w w' : Watch} (h : SameRegistration w w') :
    number w' = number w := by
  unfold number
  rw [h.identity.rootNumber]

theorem number_newWatch (env : CommandEnv) (path : List Name) {σ : DaemonState serde.File}
    (hbound : σ.rootCounter + 1 < 2 ^ 64) :
    number (newWatch env path σ) = σ.rootCounter + 1 := by
  unfold number
  rw [(sameIdentity_of_run (run_newWatch env path σ)).rootNumber]
  exact UInt64.toNat_ofNat_of_lt' hbound

theorem Step.number_cases {σ σ' : DaemonState serde.File} (hs : Step a σ σ')
    (hbound : σ'.rootCounter < 2 ^ 64) {path : List Name} {w' : Watch}
    (hw' : σ'.roots.lookup path = some w') :
    (∃ w, σ.roots.lookup path = some w ∧ SameRegistration w w') ∨
      (number w' = σ.rootCounter + 1 ∧ σ'.rootCounter = σ.rootCounter + 1 ∧
        σ.roots.lookup path = none ∧ ∀ p, p ≠ path → σ'.roots.lookup p = σ.roots.lookup p) := by
  rcases hs.lookup_cases hw' with ⟨w, hw, rfl | hstep⟩ | ⟨hnone, hcounter, hother, env, -, rfl⟩
  · exact .inl ⟨w', hw, .refl w'⟩
  · exact .inl ⟨w, hw, hstep.sameRegistration⟩
  · exact .inr ⟨number_newWatch env path (hcounter ▸ hbound), hcounter, hnone, hother⟩

/-- The registered roots have numbers of their own, none above the counter. -/
structure Numbered (σ : DaemonState serde.File) : Prop where
  le : ∀ path w, σ.roots.lookup path = some w → number w ≤ σ.rootCounter
  distinct : ∀ path path' w w', σ.roots.lookup path = some w → σ.roots.lookup path' = some w' →
    number w = number w' → path = path'

theorem Numbered.step {σ σ' : DaemonState serde.File} (h : Numbered σ) (hs : Step a σ σ')
    (hbound : σ'.rootCounter < 2 ^ 64) : Numbered σ' := by
  refine ⟨fun path w' hw' => ?_, fun path path' w w' hw hw' heq => ?_⟩
  · rcases hs.number_cases hbound hw' with ⟨w, hw, hsame⟩ | ⟨hnumber, hcounter, -⟩
    · rw [hsame.number_eq]
      exact (h.le path w hw).trans hs.counter_le
    · rw [hnumber, hcounter]
  · rcases hs.number_cases hbound hw with ⟨v, hv, hsame⟩ | ⟨hnumber, -, hnone, hother⟩
    · rcases hs.number_cases hbound hw' with ⟨v', hv', hsame'⟩ | ⟨hnumber', -⟩
      · rw [hsame.number_eq, hsame'.number_eq] at heq
        exact h.distinct path path' v v' hv hv' heq
      · have hle := h.le path v hv
        rw [hsame.number_eq, hnumber'] at heq
        omega
    · by_contra hne
      rw [hother path' (Ne.symm hne)] at hw'
      have hle := h.le path' w' hw'
      omega

def Admitted.closed (a : Admitted) : Admitted := { a with env := fun _ => False }

theorem sameRegistration_of_closed {σ σ' : DaemonState serde.File}
    (hrun : Run (Step a.closed) σ σ') {path : List Name} {w' : Watch}
    (hw' : σ'.roots.lookup path = some w') :
    ∃ w, σ.roots.lookup path = some w ∧ SameRegistration w w' := by
  induction hrun generalizing w' with
  | refl => exact ⟨w', hw', .refl w'⟩
  | tail _ hs ih =>
    rcases hs.lookup_cases hw' with ⟨w₁, hw₁, rfl | hstep⟩ | ⟨-, -, -, env, henv, -⟩
    · exact ih hw₁
    · obtain ⟨w, hw, hsame⟩ := ih hw₁
      exact ⟨w, hw, hsame.trans hstep.sameRegistration⟩
    · exact henv.elim

theorem Step.sameRegistration {σ σ' : DaemonState serde.File} (hs : Relation.ReflGen (Step a) σ σ')
    {path : List Name} {w w' : Watch} (hw : σ.roots.lookup path = some w)
    (hw' : σ'.roots.lookup path = some w') : SameRegistration w w' := by
  cases hs with
  | refl =>
    obtain rfl := Option.some.inj (hw.symm.trans hw')
    exact .refl w
  | single hs =>
    rcases hs.lookup_cases hw' with ⟨v, hv, rfl | hstep⟩ | ⟨hnone, -⟩
    · obtain rfl := Option.some.inj (hw.symm.trans hv)
      exact .refl w
    · obtain rfl := Option.some.inj (hw.symm.trans hv)
      exact hstep.sameRegistration
    · rw [hnone] at hw
      cases hw

/-- A move is one call of `register_root`, or it registers nothing. -/
theorem Move.registers_or_closed {σ σ' : DaemonState serde.File} (h : Move a σ σ') :
    (∃ env path, a.env env ∧ σ' = ((registerRoot env path).exec σ).2) ∨
      Run (Step a.closed) σ σ' := by
  cases h with
  | @command e he =>
    have hregisters : ∀ τ : DaemonState serde.File,
        (τ = σ ∨ ∃ path, τ = ((registerRoot e.env path).exec σ).2) →
          (∃ env path, a.env env ∧ τ = ((registerRoot env path).exec σ).2) ∨
            Run (Step a.closed) σ τ := by
      rintro τ (rfl | ⟨path, rfl⟩)
      · exact .inr .refl
      · exact .inl ⟨e.env, path, he.env, rfl⟩
    rw [dispatch_eq]
    rcases Event.program_cases serde e with ⟨command, args, hc, hprogram⟩ | ⟨-, err, hrefused⟩
    · rw [hprogram]
      by_cases hwatch : command = .watch
      · subst hwatch
        exact hregisters _ (registering_cases id _ σ)
      by_cases hproject : command = .watchProject
      · subst hproject
        exact hregisters _ (registering_cases (fun start => (resolveProjectRoot e.env start).1) _ σ)
      exact .inr (Command.keeps_run (a := a.closed) e.session
        (fun h => (h.elim hwatch hproject).elim) (he.query command args hc)
        (he.trigger command args hc) σ)
    · rw [hrefused σ]
      exact .inr .refl
  | watcher arenaBytes changes hv =>
    exact .inr (.single (.watch hv (.root emptyEnv (.batch _ _ _))))
  | dropped hv => exact .inr (.single (.watch hv (.root emptyEnv (.invalidate _))))
  | loop env spec hv => exact .inr (.single (.watch hv (.root env (.query spec _))))
  | loopEnd name hv => exact .inr (.single (.watch hv (.unsubscribe name _)))
  | sweep s => exact .inr (run_sweep s σ)

/-- No command takes a root out of the map and registers its path again. -/
theorem Move.sameRegistration {σ σ' : DaemonState serde.File} (h : Move a σ σ') {path : List Name}
    {w w' : Watch} (hw : σ.roots.lookup path = some w) (hw' : σ'.roots.lookup path = some w') :
    SameRegistration w w' := by
  rcases h.registers_or_closed with ⟨env, q, henv, rfl⟩ | hclosed
  · exact Step.sameRegistration (step_registerRoot henv q σ) hw hw'
  · obtain ⟨v, hv, hsame⟩ := sameRegistration_of_closed hclosed hw'
    obtain rfl := Option.some.inj (hw.symm.trans hv)
    exact hsame

/-! ## Runs of the daemon -/

theorem numbered_of_run {σ₀ σ : DaemonState serde.File} (hstart : σ₀.roots = ∅)
    (hrun : Run (Step a) σ₀ σ) (hbound : σ.rootCounter < 2 ^ 64) : Numbered σ := by
  have hstep : ∀ τ τ' : DaemonState serde.File, (τ.rootCounter < 2 ^ 64 → Numbered τ) →
      Step a τ τ' → τ'.rootCounter < 2 ^ 64 → Numbered τ' :=
    fun τ τ' h hs hb => (h (lt_of_le_of_lt hs.counter_le hb)).step hs hb
  refine hrun.preserves hstep (fun _ => ⟨fun path w hw => ?_, fun path path' w w' hw => ?_⟩) hbound
  · rw [hstart] at hw
    cases hw
  · rw [hstart] at hw
    cases hw

theorem consistent_of_run (hstored : a.Stored) {σ₀ σ : DaemonState serde.File}
    (hstart : σ₀.roots = ∅ ∧ σ₀.reapLog = []) (hfiles : FilesAdmitted a σ₀)
    (hrun : Run (Move a) σ₀ σ) : Consistent a σ := by
  refine Move.preserves (fun _ _ h hs => h.step hstored hs) hrun ⟨fun path w hw => ?_, hfiles, ?_⟩
  · rw [hstart.1] at hw
    cases hw
  · rw [hstart.2]
    exact Nat.zero_le _

/-- **Coherence.** Start a daemon without roots, with files that hold admitted triggers. However many
commands come, and whatever its watchers, loops and the garbage collector do in between: each root
stands under its own path, its ticks and cursors are in order, its subscriptions and triggers stand
under their names and were sent by a client, an event index serves jj alone; the numbers of the roots
are distinct, and the log of what was reaped keeps its bound. -/
theorem daemon_coherent (hstored : a.Stored) {σ₀ σ : DaemonState serde.File}
    (hstart : σ₀.roots = ∅ ∧ σ₀.reapLog = []) (hfiles : FilesAdmitted a σ₀)
    (hrun : Run (Move a) σ₀ σ) :
    (∀ path w, σ.roots.lookup path = some w → Coherent a path w) ∧
      σ.reapLog.length ≤ reapLogCapacity ∧
      (σ.rootCounter < 2 ^ 64 → ∀ path path' w w', σ.roots.lookup path = some w →
        σ.roots.lookup path' = some w' →
        w.root.clock.rootNumber = w'.root.clock.rootNumber → path = path') := by
  have hconsistent := consistent_of_run hstored hstart hfiles hrun
  have hsteps : Run (Step a) σ₀ σ := hrun.preserves (fun _ _ h hm => h.trans hm.run) .refl
  refine ⟨hconsistent.roots, hconsistent.reapLog, fun hbound path path' w w' hw hw' heq => ?_⟩
  exact (numbered_of_run hstart.1 hsteps hbound).distinct path path' w w' hw hw'
    (congrArg UInt64.toNat heq)

/-- A system with the directories `/a` and `/b`. -/
def twoDirectories : CommandEnv := { noWatches with watchError := fun _ => none }

def noRoots : DaemonState documents.File := ⟨∅, 0, [], false, fun _ => none⟩

def commandOn (name path : String) : Event :=
  ⟨twoDirectories, ⟨1, .json⟩, .array [.string name, .string path]⟩

def anything : Admitted := ⟨fun _ => True, fun _ => True, fun _ => True⟩

theorem admits_anything (e : Event) : anything.Admits e :=
  ⟨trivial, fun _ _ _ _ _ => trivial, fun _ _ _ _ _ _ _ => trivial⟩

theorem filesAdmitted_noRoots : FilesAdmitted a noRoots := by
  rintro slug bytes items ⟨⟩

/-- Two roots are registered, and one of them is removed again. -/
def watchTwo : List Event :=
  [commandOn "watch" "/a", commandOn "watch" "/b", commandOn "watch-del" "/a"]

theorem run_watchTwo : Run (Move anything) noRoots (dispatchAll watchTwo noRoots) :=
  .tail (.tail (.single (.command (admits_anything (commandOn "watch" "/a")) noRoots))
    (.command (admits_anything (commandOn "watch" "/b")) _))
    (.command (admits_anything (commandOn "watch-del" "/a")) _)

theorem daemon_coherent_watchTwo :
    (dispatchAll watchTwo noRoots).listRoots = [[[0x62]]] ∧
      ∀ path w, (dispatchAll watchTwo noRoots).roots.lookup path = some w →
        Coherent anything path w :=
  ⟨rfl, (daemon_coherent (a := anything) (fun _ _ => trivial) ⟨rfl, rfl⟩ filesAdmitted_noRoots
    run_watchTwo).1⟩

/-! ## Whole commands -/

/-- The same paths are registered, and the roots at a path are one root. -/
def SameRoots (roots : HashMap (List Name) Registry.Instance)
    (watches : HashMap (List Name) Watch) : Prop :=
  ∀ path, Option.Rel (fun inst w => Root.SameIdentity inst.root w.root)
    (roots.lookup path) (watches.lookup path)

namespace SameRoots

variable {roots : HashMap (List Name) Registry.Instance} {watches : HashMap (List Name) Watch}
  {path : List Name}

theorem lookup_none (h : SameRoots roots watches) (hnone : watches.lookup path = none) :
    roots.lookup path = none := by
  have hrel := h path
  rw [hnone] at hrel
  cases hroot : roots.lookup path with
  | none => rfl
  | some inst =>
    rw [hroot] at hrel
    cases hrel

theorem lookup_some (h : SameRoots roots watches) {w : Watch} (hw : watches.lookup path = some w) :
    ∃ inst, roots.lookup path = some inst ∧ Root.SameIdentity inst.root w.root := by
  have hrel := h path
  rw [hw] at hrel
  cases hroot : roots.lookup path with
  | none =>
    rw [hroot] at hrel
    cases hrel
  | some inst =>
    rw [hroot] at hrel
    cases hrel with
    | some hsame => exact ⟨inst, rfl, hsame⟩

theorem insert (h : SameRoots roots watches) {inst : Registry.Instance} {w : Watch}
    (hsame : Root.SameIdentity inst.root w.root) (path : List Name) :
    SameRoots (roots.insert path inst) (watches.insert path w) := by
  intro p
  rw [HashMap.lookup_insert_eq, HashMap.lookup_insert_eq]
  split_ifs
  · exact .some hsame
  · exact h p

theorem setRoot (h : SameRoots roots watches) {w w' : Watch}
    (hw : watches.lookup path = some w) (hsame : SameRegistration w w') :
    SameRoots roots (watches.insert path w') := by
  intro p
  rw [HashMap.lookup_insert_eq]
  split_ifs with hp
  · subst hp
    obtain ⟨inst, hroot, hinst⟩ := h.lookup_some hw
    rw [hroot]
    exact .some (hinst.trans hsame.identity)
  · exact h p

theorem erase (h : SameRoots roots watches) (path : List Name) :
    SameRoots (roots.erase path) (watches.erase path) := by
  intro p
  rw [HashMap.lookup_erase_eq, HashMap.lookup_erase_eq]
  split_ifs
  · exact .none
  · exact h p

end SameRoots

/-- The registry has the roots of the daemon, and no call of `register_root` is under way. -/
structure Agrees (ρ : Registry.State) (σ : DaemonState serde.File) : Prop where
  rootCounter : ρ.rootCounter = σ.rootCounter
  roots : SameRoots ρ.roots σ.roots
  settled : Registry.Settled ρ.calls
  /-- There are calls to come. -/
  idle : ∃ n, ∀ c, n ≤ c → ρ.calls c = .idle

section

variable {ρ : Registry.State} {σ σ' : DaemonState serde.File}

theorem idle_update {calls : ℕ → Registry.Call} {n : ℕ} (h : ∀ c, n ≤ c → calls c = .idle)
    (call : Registry.Call) : ∃ m, ∀ c, m ≤ c → Function.update calls n call c = .idle := by
  refine ⟨n + 1, fun c hc => ?_⟩
  rw [Function.update_of_ne (by omega)]
  exact h c (by omega)

/-- A failed call leaves the number that it has taken. -/
theorem Agrees.failed (h : Agrees ρ σ) {path : List Name} (hnone : σ.roots.lookup path = none)
    {s : Registry.Surroundings} {n : ℕ} {message : String}
    (hbuild : Registry.build path σ.rootCounter s = (n, .error message)) :
    ∃ ρ', Run Registry.Alone ρ ρ' ∧ Agrees ρ' { σ with rootCounter := n } := by
  obtain ⟨c, hidle⟩ := h.idle
  have hrun := Registry.run_build s (hidle c le_rfl) (h.roots.lookup_none hnone) h.settled
  rw [h.rootCounter, hbuild] at hrun
  exact ⟨_, hrun, rfl, h.roots, h.settled.update fun _ => id, idle_update hidle _⟩

/-- The call of `register_root` that a command makes is a call of the registry's. -/
theorem Agrees.registerRoot (h : Agrees ρ σ) (env : CommandEnv) (path : List Name) :
    ∃ ρ', Run Registry.Alone ρ ρ' ∧ Agrees ρ' ((registerRoot env path).exec σ).2 := by
  obtain ⟨c, hidle⟩ := h.idle
  unfold Watchwoman.registerRoot
  rw [exec_get_bind]
  cases hw : σ.roots.lookup path with
  | some w =>
    obtain ⟨inst, hroot, -⟩ := h.roots.lookup_some hw
    refine ⟨_, .single (Registry.alone_hit (hidle c le_rfl) hroot), h.rootCounter, ?_,
      h.settled.update fun _ => id, idle_update hidle _⟩
    exact h.roots.setRoot hw ⟨⟨rfl, rfl, rfl, rfl⟩, le_rfl⟩
  | none =>
    have hfails : (env.metadata path).toOption ≠ some true →
        ∃ ρ', Run Registry.Alone ρ ρ' ∧ Agrees ρ' σ := by
      intro hdir
      obtain ⟨message, hbuild⟩ := @Registry.build_of_isDir_ne path σ.rootCounter
        (env.surroundings path []) hdir
      exact h.failed hw hbuild
    dsimp only
    split
    · rename_i e hmetadata
      exact hfails (by rw [hmetadata]; rintro ⟨⟩)
    · rename_i hmetadata
      exact hfails (by rw [hmetadata]; rintro ⟨⟩)
    · rename_i hmetadata
      have hdir : (env.metadata path).toOption = some true := congrArg Except.toOption hmetadata
      rw [exec_modify_bind]
      split
      · rename_i e herror
        exact h.failed (s := env.surroundings path []) hw
          (Registry.build_of_watchError hdir herror)
      · rename_i hattached
        have hbuild := @Registry.build_of_attached path ρ.rootCounter
          (env.surroundings path ((loadPersistedTriggers env path σ).entries.map fun e => e.2.name))
          hdir hattached
        refine ⟨_, Registry.run_insert (hidle c le_rfl) (h.roots.lookup_none hw) h.settled hbuild,
          congrArg (· + 1) h.rootCounter, ?_, h.settled.update fun _ => id, idle_update hidle _⟩
        rw [h.rootCounter]
        exact h.roots.insert ⟨rfl, rfl, rfl, rfl⟩ path

/-- A step that registers nothing is matched by removals alone. -/
theorem Agrees.step (h : Agrees ρ σ) (hs : Step a.closed σ σ') :
    ∃ ρ', Run Registry.Alone ρ ρ' ∧ Agrees ρ' σ' := by
  cases hs with
  | watch hw hstep =>
    exact ⟨ρ, .refl, h.rootCounter, h.roots.setRoot hw hstep.sameRegistration, h.settled, h.idle⟩
  | register henv => exact henv.elim
  | count henv => exact henv.elim
  | unregister path =>
    exact ⟨_, .single (Registry.alone_unregister path ρ), h.rootCounter, h.roots.erase path,
      h.settled, h.idle⟩
  | drain =>
    obtain ⟨roots, hnone, hrun⟩ := @Registry.run_drain ρ.roots.keys ρ fun p hp =>
      AList.lookup_eq_none.mpr fun hmem => hp (AList.mem_keys.mp hmem)
    refine ⟨_, hrun, h.rootCounter, fun p => ?_, h.settled, h.idle⟩
    rw [hnone p]
    exact .none
  | persist | logReap | shutdown =>
    exact ⟨ρ, .refl, h.rootCounter, h.roots, h.settled, h.idle⟩

theorem Agrees.run_closed (h : Agrees ρ σ) (hrun : Run (Step a.closed) σ σ') :
    ∃ ρ', Run Registry.Alone ρ ρ' ∧ Agrees ρ' σ' := by
  induction hrun with
  | refl => exact ⟨ρ, .refl, h⟩
  | tail _ hs ih =>
    obtain ⟨ρ₁, hrun₁, h₁⟩ := ih
    obtain ⟨ρ₂, hrun₂, h₂⟩ := h₁.step hs
    exact ⟨ρ₂, hrun₁.trans hrun₂, h₂⟩

theorem Agrees.move (h : Agrees ρ σ) (hmove : Move a σ σ') :
    ∃ ρ', Run Registry.Alone ρ ρ' ∧ Agrees ρ' σ' := by
  rcases hmove.registers_or_closed with ⟨env, path, -, rfl⟩ | hclosed
  · exact h.registerRoot env path
  · exact h.run_closed hclosed

/-- **Whole commands.** What a daemon without roots does in whole commands, batches, loop queries and
sweeps, the registry does step by step, in a run in which no call of `register_root` looks its path up
while another one builds a root for it. -/
theorem daemon_registers_alone (hstart : σ.roots = ∅) (hrun : Run (Move a) σ σ') :
    ∃ ρ, Run Registry.Alone ⟨∅, σ.rootCounter, fun _ => .idle⟩ ρ ∧ Agrees ρ σ' := by
  induction hrun with
  | refl =>
    refine ⟨_, .refl, rfl, fun path => ?_, fun _ _ => id, 0, fun _ _ => rfl⟩
    rw [hstart]
    exact .none
  | tail _ hmove ih =>
    obtain ⟨ρ₁, hrun₁, h₁⟩ := ih
    obtain ⟨ρ₂, hrun₂, h₂⟩ := h₁.move hmove
    exact ⟨ρ₂, hrun₁.trans hrun₂, h₂⟩

end

theorem daemon_registers_alone_watchTwo :
    ∃ ρ, Run Registry.Alone Registry.noRoots ρ ∧
      Agrees ρ (dispatchAll watchTwo noRoots) ∧ ρ.rootCounter = 2 ∧
      ρ.roots.lookup [[0x61]] = none := by
  obtain ⟨ρ, hrun, h⟩ := daemon_registers_alone rfl run_watchTwo
  exact ⟨ρ, hrun, h, h.rootCounter, h.roots.lookup_none rfl⟩

/-! ## Clock strings -/

section Clocks

variable {run : ℕ → DaemonState serde.File}

end Clocks

end Dispatch

end Watchwoman
