import Watchwoman.Daemon.Registration
import Watchwoman.Query.Mirror

/-!
# From the disk to the client

The two halves of the system together: the watcher carries the changes of the disk to the tree, and
the answers through a cursor carry the tree to a client. Other processes, the event loop, sweeps,
ticks and the queries of any client interleave in any order. When the event loop has caught up, the
client knows after its next poll exactly the names of the paths of the disk that are not ignored
and that it asks for.
-/

namespace Watchwoman.Watcher

open Transition Query Replica

/-! ## The root under the watcher -/

theorem root_collectPath (d : Disk) (matched : RelPath → RelPath → Option Bool)
    (target : Option String) (jj : Bool) (kind : EventKind) (abs : List Name) (r : Root)
    (out : List PathChange) :
    (collectPath d matched target jj kind abs r out).1 = r ∨
      (collectPath d matched target jj kind abs r out).1 = r.invalidateJjEvents.1 := by
  unfold collectPath
  split
  · exact .inl rfl
  · dsimp only
    split
    · exact .inl rfl
    · split
      · exact .inl rfl
      · split
        · exact .inl rfl
        · split
          · exact .inr rfl
          · exact .inl rfl

theorem root_collect (d : Disk) (matched : RelPath → RelPath → Option Bool)
    (target : Option String) (jj : Bool) (r : Root) (out : List PathChange)
    (events : List Notice) :
    (collect d matched target jj r out events).1 = r ∨
      (collect d matched target jj r out events).1 = r.invalidateJjEvents.1 := by
  unfold collect
  split
  · exact .inl rfl
  · split
    · exact .inr rfl
    · exact .inl rfl
  · split
    · exact .inr rfl
    · split
      · exact .inl rfl
      · split
        · exact .inl rfl
        · exact root_collectPath ..

section Root

variable {σ σ' : State} {look : Option RelPath}

/-- A step of the system does to the root what an operation does, or nothing. -/
theorem Step.root_step (hs : Step look σ σ') (env : Env) :
    σ'.root = σ.root ∨ Root.Step env σ.root σ'.root := by
  cases hs with
  | mutate d' hstage => exact .inl rfl
  | mutateWatched d' events hstage hreports => exact .inl rfl
  | scan hstage hfull => exact .inl rfl
  | seed hstage hcrawl => exact .inr (.seed _ _)
  | seedEmpty hstage hjj => exact .inr (.seed _ _)
  | attach hstage => exact .inl rfl
  | crawl hcrawl hstep => exact .inl rfl
  | receive hloop hqueue hmax => exact .inl rfl
  | lock hloop hne hcrawl => exact .inl rfl
  | @collect matched target _ jj events batch hloop hne =>
    rcases root_collect σ.disk matched target jj σ.root batch events with hsame | hdropped
    · exact .inl hsame
    · right
      show Root.Step env σ.root (Watcher.collect σ.disk matched target jj σ.root batch events).1
      rw [hdropped]
      exact .invalidate _
  | @apply arenaBytes _ jj batch hloop =>
    by_cases hempty : batch = []
    · exact .inl (if_pos hempty)
    · right
      show Root.Step env σ.root (if batch = [] then σ.root else _)
      rw [if_neg hempty]
      exact .batch arenaBytes batch σ.root
  | beginPromotion hstage hjj hcrawl hloop => exact .inl rfl
  | promote hstage hcrawl => exact .inr (.promote _ _)
  | bump => exact .inr (.bump _)
  | sweep hcrawl => exact .inr (.sweep _)

/-- Under the watch a full index changes by batches, ticks and sweeps only. -/
theorem Step.root_op (hs : Step look σ σ') (hattached : σ.stage = .attached)
    (hfull : σ.root.jjEvents = false) :
    σ'.root = σ.root ∨ ∃ op : RootOp, (∀ spec, op ≠ .query spec) ∧
      ∀ env, σ'.root = op.exec env σ.root := by
  have hunattached : ∀ {s : Stage}, σ.stage = s → s ≠ .attached → False :=
    fun h hne => hne (h.symm.trans hattached)
  have hnotJj : σ.root.jjEvents = true → False := by
    rw [hfull]
    rintro ⟨⟩
  cases hs with
  | mutate d' hstage => exact absurd hattached hstage
  | mutateWatched d' events hstage hreports => exact .inl rfl
  | scan hstage _ => exact (hunattached hstage (by simp)).elim
  | seed hstage hcrawl => exact (hunattached hstage (by simp)).elim
  | seedEmpty hstage hjj => exact (hunattached hstage (by simp)).elim
  | attach hstage => exact (hunattached hstage (by simp)).elim
  | crawl hcrawl hstep => exact .inl rfl
  | receive hloop hqueue hmax => exact .inl rfl
  | lock hloop hne hcrawl => exact .inl rfl
  | @collect matched target _ jj events batch hloop hne =>
    left
    show (Watcher.collect σ.disk matched target jj σ.root batch events).1 = σ.root
    rcases root_collect σ.disk matched target jj σ.root batch events with hsame | hdropped
    · exact hsame
    · rw [hdropped, Root.invalidateJjEvents, if_neg hnotJj]
  | @apply arenaBytes _ jj batch hloop =>
    by_cases hempty : batch = []
    · exact .inl (if_pos hempty)
    · exact .inr ⟨.batch arenaBytes batch, by simp, fun env => if_neg hempty⟩
  | beginPromotion hstage hjj hcrawl hloop => exact (hnotJj hjj).elim
  | @promote _ out hstage hcrawl =>
    left
    show σ.root.promoteToFull out = σ.root
    rw [Root.promoteToFull, if_neg hnotJj]
  | bump => exact .inr ⟨.bump, by simp, fun _ => rfl⟩
  | sweep hcrawl => exact .inr ⟨.sweep, by simp, fun _ => rfl⟩

/-- Only queries move cursors. -/
theorem Step.cursors (hs : Step look σ σ') : σ'.root.cursors = σ.root.cursors := by
  have hinvalidate : σ.root.invalidateJjEvents.1.cursors = σ.root.cursors := by
    unfold Root.invalidateJjEvents
    split_ifs <;> rfl
  cases hs with
  | @collect matched target _ jj events batch hloop hne =>
    show (Watcher.collect σ.disk matched target jj σ.root batch events).1.cursors = _
    rcases root_collect σ.disk matched target jj σ.root batch events with hsame | hdropped
    · rw [hsame]
    · rw [hdropped, hinvalidate]
  | @apply arenaBytes _ jj batch hloop =>
    show (if batch = [] then σ.root else _ : Root).cursors = _
    split_ifs
    · rfl
    · exact Root.cursors_applyChanges arenaBytes batch σ.root
  | @promote _ out hstage hcrawl =>
    show (σ.root.promoteToFull out).cursors = _
    unfold Root.promoteToFull
    split_ifs <;> rfl
  | sweep hcrawl => exact (Root.cursors_pruneTombstones σ.root).1
  | _ => rfl

theorem Inv.query (h : Inv σ) (env : Env) (spec : QuerySpec) :
    Inv { σ with root := (run env spec σ.root).2 } := by
  have hindex := (sameIndex_run env spec σ.root).1
  have hsite : SameSite σ.root (run env spec σ.root).2 := by
    refine ⟨hindex.path, ?_, hindex.jjEvents⟩
    rcases root_run env spec σ.root with hrun | ⟨other, hrun⟩ <;> rw [hrun]
    rfl
  refine h.sameRoot hsite fun _ p => ?_
  rw [hindex.tree]

end Root

/-- The life of a root before the client's first poll: steps of the system, and queries of others. -/
inductive Unpolled (name : String) : State → State → Prop
  | system {σ σ' : State} (hs : DirectStep σ σ') (hbehind : NoChangeBehindCrawl σ σ') :
    Unpolled name σ σ'
  | query (env : Env) (spec : QuerySpec) (σ : State) (hother : spec.since ≠ some (.named name)) :
    Unpolled name σ { σ with root := (run env spec σ.root).2 }

theorem Unpolled.inv {name : String} {s s' : State} (h : Unpolled name s s') (env : Env)
    (hinv : Inv s) (hticked : s.root.WellTicked) (hunused : s.root.cursors.lookup name = none) :
    Inv s' ∧ s'.root.WellTicked ∧ s'.root.cursors.lookup name = none := by
  cases h with
  | system hs hbehind =>
    refine ⟨hinv.step hs hbehind, ?_⟩
    obtain ⟨look, hs, -⟩ := hs
    rw [hs.cursors]
    refine ⟨?_, hunused⟩
    rcases hs.root_step env with hsame | hstep
    · rw [hsame]
      exact hticked
    · exact hticked.step hstep
  | query env spec _ hother =>
    refine ⟨hinv.query env spec, hticked.step (.query spec s.root), ?_⟩
    exact (lookup_run_of_ne hother env s.root).trans hunused

theorem reached_of_run {name : String} {σ₀ σ : State} (hstart : Start σ₀)
    (hrun : Run (Unpolled name) σ₀ σ) (env : Env) :
    Inv σ ∧ σ.root.WellTicked ∧ σ.root.cursors.lookup name = none := by
  have hnew : Root.Reached env σ₀.root := ⟨_, hstart.root, .refl⟩
  have hempty : σ₀.root.cursors.lookup name = none := by
    obtain ⟨path, ignores, jj, number, start, pid, hroot⟩ := hstart.root
    rw [hroot]
    rfl
  have hpreserved : ∀ s s', Inv s ∧ s.root.WellTicked ∧ s.root.cursors.lookup name = none →
      Unpolled name s s' → Inv s' ∧ s'.root.WellTicked ∧ s'.root.cursors.lookup name = none := by
    rintro s s' ⟨hinv, hticked, hunused⟩ hs
    exact hs.inv env hinv hticked hunused
  exact hrun.preserves hpreserved ⟨Inv.start hstart, hnew.wellTicked, hempty⟩

/-! ## The system with a client -/

/-- The system, and what the answers through the cursor have made a client believe. -/
structure Polled where
  system : State
  view : View String Value

def Polled.observed (x : Polled) : Observed := ⟨x.system.root, x.view⟩

section Client

variable {P : Set RelPath} {shown : RelPath → Option RelPath} {fields : List Field} {name : String}

/-- A step of the system that names no path outside of `P`, or a query of a client. Those through
the cursor are the client's own polls. -/
inductive Polled.Step (P : Set RelPath) (shown : RelPath → Option RelPath) (fields : List Field)
    (name : String) : Polled → Polled → Prop
  | system {σ σ' : State} (view : View String Value) (hs : DirectStep σ σ')
    (hknown : ∀ p, σ'.root.tree.get p ≠ none → p ∈ P) : Step P shown fields name ⟨σ, view⟩ ⟨σ', view⟩
  | query (env : Env) (spec : QuerySpec) {σ : State} (view : View String Value)
    (hpolls : spec.since = some (.named name) → Polls name shown fields spec) :
    Step P shown fields name ⟨σ, view⟩
      ⟨{ σ with root := (run env spec σ.root).2 },
        if spec.since = some (.named name) then tell view (run env spec σ.root).1 else view⟩

/-- The system is under the watch, and what the client believes comes from a run of a replica. -/
structure Polled.Inv (P : Set RelPath) (shown : RelPath → Option RelPath) (fields : List Field)
    (name : String) (s₀ : Store P Value) (x : Polled) : Prop where
  inv : Watcher.Inv x.system
  attached : x.system.stage = .attached
  full : x.system.root.jjEvents = false
  sane : x.observed.Sane P shown name
  replica : Run System.Step ⟨s₀, none, fun _ => none⟩ (x.observed.system P shown fields name)

theorem Polled.Inv.step (hfields : Telling fields) (hapart : ShownApart P shown)
    {s₀ : Store P Value} {x x' : Polled} (h : x.Inv P shown fields name s₀)
    (hs : Polled.Step P shown fields name x x') : x'.Inv P shown fields name s₀ := by
  cases hs with
  | @system σ σ' view hdirect hknown =>
    have hbehind : NoChangeBehindCrawl σ σ' := by
      rintro ⟨hstage | hstage, -⟩
      · cases h.attached.symm.trans hstage
      · cases h.attached.symm.trans hstage
    have hinv := Watcher.Inv.step h.inv hdirect hbehind
    obtain ⟨look, hs, -⟩ := hdirect
    have hattached : σ'.stage = .attached := hs.mode.1 h.attached
    have hfull : σ'.root.jjEvents = false := by
      rcases hs.mode.2 with hsame | ⟨-, hfull⟩
      · exact hsame.trans h.full
      · exact hfull
    rcases hs.root_op h.attached h.full with hsame | ⟨op, hop, hexec⟩
    · have hobserved : Polled.observed ⟨σ', view⟩ = Polled.observed ⟨σ, view⟩ := by
        unfold Polled.observed
        rw [hsame]
      refine ⟨hinv, hattached, hfull, ?_, ?_⟩
      · rw [hobserved]
        exact h.sane
      · rw [hobserved]
        exact h.replica
    · have hobserved : Polled.observed ⟨σ', view⟩ =
          (Polled.observed ⟨σ, view⟩).exec name (emptyEnv, op) := by
        unfold Polled.observed Observed.exec
        rw [hexec emptyEnv]
        cases op with
        | query spec => exact absurd rfl (hop spec)
        | _ => rfl
      have hpolls : ∀ spec, (emptyEnv, op).2 = .query spec → spec.since = some (.named name) →
          Polls name shown fields spec := fun spec heq => absurd heq (hop spec)
      refine ⟨hinv, hattached, hfull, ?_, ?_⟩
      · rw [hobserved]
        refine h.sane.exec hfields ?_ hpolls
        rw [← hobserved]
        exact hknown
      · rw [hobserved]
        exact h.replica.tail (Observed.system_exec h.sane hfields hapart hpolls)
  | @query env spec σ view hpolls =>
    have hindex := (sameIndex_run env spec σ.root).1
    have hpolls' : ∀ spec', (env, RootOp.query spec).2 = .query spec' →
        spec'.since = some (.named name) → Polls name shown fields spec' := by
      rintro spec' ⟨⟩
      exact hpolls
    have hwithin : ∀ p, ((Polled.observed ⟨σ, view⟩).exec name (env, .query spec)).root.tree.get p ≠
        none → p ∈ P := by
      intro p hp
      change (run env spec σ.root).2.tree.get p ≠ none at hp
      rw [hindex.tree] at hp
      exact h.sane.within p hp
    have hsane := Observed.Sane.exec h.sane hfields hwithin hpolls'
    have hreplica := h.replica.tail (Observed.system_exec h.sane hfields hapart hpolls')
    exact ⟨Watcher.Inv.query h.inv env spec, h.attached, hindex.jjEvents.trans h.full, hsane,
      hreplica⟩

end Client

/-- **From the disk to the client.** Let a root be registered, or promoted, to a full index, with no
visible path created or removed behind the crawl of a registration, and let a client poll it through
a cursor of its own. In every run in which no path is found through a link unless an event about it
is on the way, and in which the paths that become known are shown under different names, a poll
after the event loop has caught up leaves the client with exactly the names of the paths of the disk
that are not ignored and that the poll shows. -/
theorem poll_tells_disk {σ₀ σ₁ : State} (name : String) (hstart : Start σ₀)
    (hregistered : Run (Unpolled name) σ₀ σ₁) (hattached : σ₁.stage = .attached)
    (hfull : σ₁.root.jjEvents = false) (shown : RelPath → Option RelPath) (fields : List Field)
    (hfields : Telling fields) (P : Set RelPath) (hapart : ShownApart P shown)
    (hknown : ∀ p, σ₁.root.tree.get p ≠ none → p ∈ P) {x : Polled}
    (hrun : Run (Polled.Step P shown fields name) ⟨σ₁, fun _ => none⟩ x)
    (hdrained : Drained x.system) (env : Env) (spec : QuerySpec)
    (hpolls : Polls name shown fields spec) (n : String) :
    tell x.view (run env spec x.system.root).1 n ≠ none ↔
      ∃ p q, x.system.disk.OnDisk p ∧ shouldIgnore p x.system.root.ignores = false ∧
        shown p = some q ∧ q.toStringLossy = n := by
  obtain ⟨hinv₁, hticked, hunused⟩ := reached_of_run hstart hregistered env
  obtain ⟨hsane₁, hempty⟩ :=
    @Observed.sane_start P shown fields name σ₁.root hfull hticked hunused hknown
  have hinv : x.Inv P shown fields name (store P shown fields σ₁.root) := by
    refine hrun.preserves (fun s s' hs hstep => hs.step hfields hapart hstep) ?_
    refine ⟨hinv₁, hattached, hfull, hsane₁, ?_⟩
    show Run System.Step _ (Observed.system P shown fields name ⟨σ₁.root, fun _ => none⟩)
    rw [hempty]
  have hconverged := hinv.inv.converged hinv.attached hinv.full hdrained
  have hlive := hinv.sane.knowsLive_poll hfields hapart hinv.replica hpolls env
  have hview : (x.observed.exec name (env, .query spec)).view =
      tell x.view (run env spec x.system.root).1 := if_pos hpolls.since
  have htree : (x.observed.exec name (env, .query spec)).root.tree = x.system.root.tree :=
    tree_run_root env spec x.system.root
  unfold Observed.KnowsLive at hlive
  rw [hview, htree] at hlive
  constructor
  · intro hn
    obtain ⟨v, hv⟩ := Option.ne_none_iff_exists'.mp hn
    obtain ⟨p, e, q, he, hexists, hq, rfl, -⟩ := (hlive n v).mp hv
    obtain ⟨hon, hvisible⟩ := (hconverged p).mp ⟨e, he, hexists⟩
    exact ⟨p, q, hon, hvisible, hq, rfl⟩
  · rintro ⟨p, q, hon, hvisible, hq, rfl⟩
    obtain ⟨e, he, hexists⟩ := (hconverged p).mpr ⟨hon, hvisible⟩
    rw [(hlive q.toStringLossy _).mpr ⟨p, e, q, he, hexists, hq, rfl, rfl⟩]
    exact Option.some_ne_none _

theorem run_registered : Run (Unpolled "x") (unregistered false emptyDisk) registered := by
  have hdirect : ∀ p ∈ some [[0x61]], fileDisk.Direct p := by
    rintro p ⟨rfl⟩
    exact direct_name ⟨_, rfl, rfl⟩ _
  exact .tail (.tail (.tail (.tail (.tail (.tail (.single
    (.system ⟨_, .scan rfl rfl, by simp⟩ fun _ _ _ _ => Iff.rfl))
    (.system ⟨_, .mutate fileDisk (by simp), by simp⟩ (noChangeBehindCrawl_start rfl fileDisk)))
    (.system ⟨_, .crawl rfl (.readDir _ lstat_pair), by simp⟩ fun _ _ _ _ => Iff.rfl))
    (.system ⟨_, .crawl rfl (.entry none (by decide) rfl), fun p hp _ _ => hdirect p hp⟩
      fun _ _ _ _ => Iff.rfl))
    (.system ⟨_, .crawl rfl .done, by simp⟩ fun _ _ _ _ => Iff.rfl))
    (.system ⟨_, .seed rfl rfl, by simp⟩ fun _ _ _ _ => Iff.rfl))
    (.system ⟨_, .attach rfl, by simp⟩ fun _ _ _ _ => Iff.rfl)

/-- The client polls the root with the one file, and the file is removed. -/
def polledOnce : Polled :=
  ⟨⟨emptyDisk, .attached,
      ((run emptyEnv sinceCursor registered.root).2.applyChanges 0 [.remove [[0x61]]]).1, none, [],
      .waiting []⟩,
    tell (fun _ => none) (run emptyEnv sinceCursor registered.root).1⟩

theorem run_polledOnce : Run (Polled.Step {p | IsText p} (shownBy sinceCursor) Field.defaultFields
    "x") ⟨registered, fun _ => none⟩ polledOnce := by
  have hknown : ∀ p, (run emptyEnv sinceCursor registered.root).2.tree.get p ≠ none → IsText p := by
    rw [tree_run_root]
    exact fun p hp => isText_of_seed hp
  have hremoved : ∀ p, polledOnce.system.root.tree.get p ≠ none → IsText p := by
    intro p hp
    by_cases hname : p = [[0x61]]
    · exact hknown p (by rw [hname]; decide)
    · exact hknown p ((Root.get_applyChange_of_ne hname).symm.trans_ne hp)
  have hreports : Reports [[0x72]] fileDisk emptyDisk [about [0x61] .remove] :=
    reports_about (by simp) (fun _ => eq_of_onDisk_pair)
      (fun p hon => absurd hon (not_onDisk_emptyDisk p)) (fun _ => not_onDisk_emptyDisk _)
  have happly := @Step.apply 0
    ⟨emptyDisk, .attached, (run emptyEnv sinceCursor registered.root).2, none, [],
      .collecting false [] [.remove [[0x61]]]⟩ _ _ rfl
  rw [if_neg (by simp)] at happly
  have h₀ : Run (Polled.Step {p | IsText p} (shownBy sinceCursor) Field.defaultFields "x")
      ⟨registered, fun _ => none⟩ _ :=
    .single (.query emptyEnv sinceCursor _ fun _ => polls_sinceCursor)
  have h₁ := h₀.tail (.system _ ⟨_, .mutateWatched emptyDisk _ rfl hreports, by simp⟩ hknown)
  have h₂ := h₁.tail (.system _ ⟨_, .receive rfl rfl (by decide), by simp⟩ hknown)
  have h₃ := h₂.tail (.system _ ⟨_, .lock rfl (by simp) rfl, by simp⟩ hknown)
  have h₄ := h₃.tail (.system _ ⟨_, step_collect (by simp) rfl, by simp [statted, about]⟩ hknown)
  have h₅ := h₄.tail (.system _ ⟨_, step_collect (by simp) rfl, by simp [statted]⟩ hknown)
  exact h₅.tail (.system _ ⟨_, happly, by simp⟩ hremoved)

/-- The client knew of the file, and its next poll tells it that the file is gone. -/
theorem poll_tells_disk_removed : polledOnce.view "a" ≠ none ∧
    tell polledOnce.view (run emptyEnv sinceCursor polledOnce.system.root).1 "a" = none := by
  have hpolled := poll_tells_disk "x" (start_unregistered false emptyDisk) run_registered rfl rfl
    (shownBy sinceCursor) Field.defaultFields ⟨by decide, by decide, by decide⟩ {p | IsText p}
    (shownApart_of_isText sinceCursor) (fun p hp => isText_of_seed hp) run_polledOnce ⟨rfl, rfl⟩
    emptyEnv sinceCursor polls_sinceCursor "a"
  refine ⟨by rintro ⟨⟩, ?_⟩
  by_contra htold
  obtain ⟨p, q, hon, -⟩ := hpolled.mp htold
  exact not_onDisk_emptyDisk p hon

end Watchwoman.Watcher
