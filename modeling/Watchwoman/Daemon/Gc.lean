import Watchwoman.Commands.Subscriptions

/-!
# Sweeps of roots in use

`gc.rs`: a sweep reaps a root as stale if it counts no subscription and no trigger and the root has
not been used for long enough. It counts the entries of the registry, and a loop that leaves takes
out the entry of its name even if it is that of another session, so a root can be reaped under a
client that is still subscribed (`reaped_under_client`); and what is added between the counts and
the removal is not counted.

If no two sessions share a name and nothing is added behind a sweep's counts, only roots that
nobody uses are reaped (`stale_root_unused`).
-/

namespace Watchwoman.Subscriptions

open Transition Query Subscribe Loops

/-! ## What is promised -/

/-- Every loop that was not unsubscribed has lost its client, and no trigger is installed. -/
structure Unused (σ : State) : Prop where
  loops : ∀ i, (σ.loops i).Present → (σ.loops i).unsubscribed = false →
    σ.closed (σ.loops i).session = true
  triggers : ∀ name, σ.triggers.lookup name = none

/-- The step is a sweep that unregisters the root as stale. -/
def ReapsStale (σ σ' : State) : Prop :=
  σ.registered = true ∧ ∃ j, σ.sweeps j = .reaping .stale ∧ σ' = σ.reap j

/-- The step makes no entry under a name of which a loop of another session is there. -/
def NoSharedName (σ σ' : State) : Prop :=
  ∀ i, ¬ (σ.loops i).Present → (σ'.loops i).Present →
    ∀ j, (σ.loops j).Present → (σ.loops j).name = (σ'.loops i).name →
      (σ.loops j).session = (σ'.loops i).session

namespace Sweep

/-- The sweep has found no subscription and may still reap. -/
def CountedSubscriptions : Sweep → Prop
  | .noSubscriptions _ => True
  | .noTriggers _ => True
  | .reaping .stale => True
  | _ => False

/-- The sweep has found no trigger and may still reap. -/
def CountedTriggers : Sweep → Prop
  | .noTriggers _ => True
  | .reaping .stale => True
  | _ => False

end Sweep

/-- The step adds no subscription and no trigger behind the count of a sweep. -/
structure NothingBehindCount (σ σ' : State) : Prop where
  subscriptions : ∀ j, (σ.sweeps j).CountedSubscriptions → ∀ name,
    σ.subscriptions.lookup name = none → σ'.subscriptions.lookup name = none
  triggers : ∀ j, (σ.sweeps j).CountedTriggers → ∀ name,
    σ.triggers.lookup name = none → σ'.triggers.lookup name = none

/-! ## The registry follows the loops -/

/-- Each loop with a client has its entry, only loops without one leave, and loops of one name are
those of one session. -/
structure Registered (σ : State) : Prop where
  entered : ∀ i, (σ.loops i).Present → (σ.loops i).unsubscribed = false →
    σ.closed (σ.loops i).session = false → σ.subscriptions.lookup (σ.loops i).name ≠ none
  leaving : ∀ i, (σ.loops i).phase = .leaving → σ.closed (σ.loops i).session = true
  shared : ∀ i j, (σ.loops i).Present → (σ.loops j).Present →
    (σ.loops i).name = (σ.loops j).name → (σ.loops i).session = (σ.loops j).session

/-- The loop `l'` was there as `l`, and only its phase may differ. -/
structure Follows (closed : ℕ → Bool) (l l' : LoopState) : Prop where
  present : l'.Present → l.Present
  name : l'.Present → l'.name = l.name
  session : l'.Present → l'.session = l.session
  unsubscribed : l'.Present → l'.unsubscribed = false → l.unsubscribed = false
  leaving : l'.phase = .leaving → l.phase = .leaving ∨ closed l.session = true

section Registry

variable {σ σ' : State} {l l' : LoopState} {closed : ℕ → Bool} {i : ℕ}

theorem present_of_phase {phase : Phase} (h : l.phase = phase) (hphase : phase.Present) :
    l.Present := by
  unfold LoopState.Present
  rw [h]
  exact hphase

theorem Follows.of_eq (hname : l'.name = l.name) (hsession : l'.session = l.session)
    (hphase : l'.phase = l.phase) (hunsub : l'.unsubscribed = false → l.unsubscribed = false) :
    Follows closed l l' := by
  refine ⟨?_, fun _ => hname, fun _ => hsession, fun _ => hunsub, ?_⟩
  · unfold LoopState.Present
    rw [hphase]
    exact id
  · rw [hphase]
    exact .inl

theorem Follows.refl (closed : ℕ → Bool) (l : LoopState) : Follows closed l l :=
  .of_eq rfl rfl rfl id

theorem Follows.move {r : Root} (h : Move σ l l' r) : Follows σ.closed l l' := by
  refine ⟨h.present, fun _ => h.name_eq, fun _ => h.keeps.2.1, ?_, fun hphase => ?_⟩
  · rw [h.keeps.2.2]
    exact fun _ => id
  · exact .inr (h.leaving hphase)

theorem Follows.update (h : Follows closed (σ.loops i) l') (j : ℕ) :
    Follows closed (σ.loops j) (Function.update σ.loops i l' j) := by
  by_cases hj : j = i
  · subst hj
    rw [Function.update_self]
    exact h
  · rw [Function.update_of_ne hj]
    exact .refl closed _

/-- The loops are those of before, and each keeps its entry. -/
theorem Registered.follow (h : Registered σ)
    (hfollows : ∀ i, Follows σ.closed (σ.loops i) (σ'.loops i))
    (hclosed : ∀ s, σ.closed s = true → σ'.closed s = true)
    (hentries : ∀ i, (σ'.loops i).Present → (σ'.loops i).unsubscribed = false →
      σ.closed (σ.loops i).session = false → σ.subscriptions.lookup (σ.loops i).name ≠ none →
        σ'.subscriptions.lookup (σ.loops i).name ≠ none) : Registered σ' := by
  refine ⟨?_, ?_, ?_⟩
  · intro i hpresent hunsub hopen
    have hf := hfollows i
    rw [hf.session hpresent] at hopen
    have hopen' : σ.closed (σ.loops i).session = false := by
      by_contra hne
      rw [hclosed _ (eq_true_of_ne_false hne)] at hopen
      cases hopen
    rw [hf.name hpresent]
    refine hentries i hpresent hunsub hopen' ?_
    exact h.entered i (hf.present hpresent) (hf.unsubscribed hpresent hunsub) hopen'
  · intro i hphase
    have hf := hfollows i
    rw [hf.session (present_of_phase hphase trivial)]
    rcases hf.leaving hphase with hold | hgone
    · exact hclosed _ (h.leaving i hold)
    · exact hclosed _ hgone
  · intro i j hi hj hnames
    rw [(hfollows i).name hi, (hfollows j).name hj] at hnames
    rw [(hfollows i).session hi, (hfollows j).session hj]
    exact h.shared i j ((hfollows i).present hi) ((hfollows j).present hj) hnames

theorem Registered.keep (h : Registered σ)
    (hfollows : ∀ i, Follows σ.closed (σ.loops i) (σ'.loops i))
    (hclosed : σ'.closed = σ.closed) (hsubs : σ'.subscriptions = σ.subscriptions) :
    Registered σ' := by
  refine h.follow hfollows ?_ ?_
  · rw [hclosed]
    exact fun _ => id
  · rw [hsubs]
    exact fun _ _ _ _ => id

/-- The new entry is under a name of this session. -/
theorem Registered.addSubscription (h : Registered σ)
    (hname : ∀ j, (σ.loops j).Present → (σ.loops j).name = (σ.loops i).name →
      (σ.loops j).session = (σ.loops i).session) :
    Registered { σ with
      subscriptions := σ.subscriptions.insert (σ.loops i).name (σ.loops i).spec
      loops := Function.update σ.loops i
        { σ.loops i with phase := .registered, unsubscribed := false }
      stopped := σ.stopped.erase (σ.loops i).name } := by
  have hinsert : ∀ name, name = (σ.loops i).name ∨ σ.subscriptions.lookup name ≠ none →
      (σ.subscriptions.insert (σ.loops i).name (σ.loops i).spec).lookup name ≠ none := by
    intro name hname
    rw [HashMap.lookup_insert_eq]
    split_ifs with heq
    · exact Option.some_ne_none _
    · exact hname.resolve_left heq
  refine ⟨?_, ?_, ?_⟩
  · refine (Function.forall_update_iff σ.loops fun _ l => l.Present → l.unsubscribed = false →
      σ.closed l.session = false →
        (σ.subscriptions.insert (σ.loops i).name (σ.loops i).spec).lookup l.name ≠ none).mpr
          ⟨fun _ _ _ => hinsert _ (.inl rfl), ?_⟩
    exact fun j _ hpresent hunsub hopen => hinsert _ (.inr (h.entered j hpresent hunsub hopen))
  · refine (Function.forall_update_iff σ.loops fun _ l => l.phase = .leaving →
      σ.closed l.session = true).mpr ⟨?_, fun j _ => h.leaving j⟩
    rintro ⟨⟩
  · intro j k hj hk hnames
    dsimp only at hj hk hnames ⊢
    by_cases hji : j = i <;> by_cases hki : k = i
    · rw [hji, hki]
    · rw [hji, Function.update_self] at hnames ⊢
      rw [Function.update_of_ne hki] at hk hnames ⊢
      exact (hname k hk hnames.symm).symm
    · rw [hki, Function.update_self] at hnames ⊢
      rw [Function.update_of_ne hji] at hj hnames ⊢
      exact hname j hj hnames
    · rw [Function.update_of_ne hji] at hj hnames ⊢
      rw [Function.update_of_ne hki] at hk hnames ⊢
      exact h.shared j k hj hk hnames

theorem Registered.leave (h : Registered σ) (hphase : (σ.loops i).phase = .leaving) :
    Registered { σ with
      subscriptions := σ.subscriptions.erase (σ.loops i).name
      loops := Function.update σ.loops i { σ.loops i with phase := .ended } } := by
  have hends : Follows σ.closed (σ.loops i) { σ.loops i with phase := .ended } :=
    ⟨fun hp => hp.elim, fun hp => hp.elim, fun hp => hp.elim, fun hp => hp.elim, by rintro ⟨⟩⟩
  refine h.follow hends.update (fun _ => id) ?_
  intro j hpresent _ hopen hentry
  have hname : (σ.loops j).name ≠ (σ.loops i).name := by
    intro hname
    have hsession := h.shared j i ((hends.update j).present hpresent)
      (present_of_phase hphase trivial) hname
    rw [hsession, h.leaving i hphase] at hopen
    cases hopen
  dsimp only
  rw [AList.lookup_erase_ne hname]
  exact hentry

theorem Registered.unsubscribe (h : Registered σ) (name : String) :
    Registered (σ.unsubscribe name) := by
  refine h.follow (fun j => ?_) (fun _ => id) ?_
  · unfold State.unsubscribe
    dsimp only
    split_ifs
    · exact .of_eq rfl rfl rfl (by rintro ⟨⟩)
    · exact .refl _ _
  · intro j _ hunsub _ hentry
    unfold State.unsubscribe at hunsub ⊢
    dsimp only at hunsub ⊢
    split_ifs at hunsub with hname
    rw [AList.lookup_erase_ne hname]
    exact hentry

/-- One step that makes no entry under the name of another session. -/
theorem Registered.step (h : Registered σ) (hs : Step σ σ') (hshared : NoSharedName σ σ') :
    Registered σ' := by
  cases hs with
  | @broadcast _ ev hev =>
    refine h.keep (fun i => ?_) rfl rfl
    obtain ⟨hname, hsession, hphase, hunsub⟩ := name_hear ev (σ.loops i)
    exact .of_eq hname hsession hphase hunsub.symm.trans
  | resolve i spec session hphase hregistered =>
    refine h.keep (Follows.update ⟨?_, ?_, ?_, ?_, ?_⟩) rfl rfl
    all_goals rintro ⟨⟩
  | move i hm => exact h.keep (Follows.move hm).update rfl rfl
  | addSubscription i hphase =>
    refine h.addSubscription fun j hj hname => ?_
    have hnew := hshared i
    simp only [Function.update_self] at hnew
    refine hnew ?_ trivial j hj hname
    unfold LoopState.Present
    rw [hphase]
    exact id
  | receive i hphase hq =>
    have hl := present_of_phase hphase trivial
    exact h.keep (Follows.update ⟨fun _ => hl, fun _ => rfl, fun _ => rfl, fun _ => id,
      by rintro ⟨⟩⟩) rfl rfl
  | send i hphase hsession =>
    have hl := present_of_phase hphase trivial
    exact h.keep (Follows.update ⟨fun _ => hl, fun _ => rfl, fun _ => rfl, fun _ => id,
      by rintro ⟨⟩⟩) rfl rfl
  | leave i hphase => exact h.leave hphase
  | unsubscribe name hentry => exact h.unsubscribe name
  | disconnect session =>
    exact h.follow (fun i => .refl _ _) (fun s hs => closed_update hs session) fun _ _ _ _ => id
  | _ => exact h.keep (fun i => .refl _ _) rfl rfl

theorem Registered.init (h : Start σ) : Registered σ := by
  have habsent : ∀ i, ¬ (σ.loops i).Present := by
    intro i
    unfold LoopState.Present
    rw [h.loops i]
    exact id
  refine ⟨fun i hi => absurd hi (habsent i), fun i hphase => ?_, fun i j hi => absurd hi (habsent i)⟩
  exact absurd (present_of_phase hphase trivial) (habsent i)

end Registry

/-! ## The counts of the sweeps -/

/-- What a sweep has counted is still so. -/
structure Counted (σ : State) : Prop where
  subscriptions : ∀ j, (σ.sweeps j).CountedSubscriptions → ∀ name,
    σ.subscriptions.lookup name = none
  triggers : ∀ j, (σ.sweeps j).CountedTriggers → ∀ name, σ.triggers.lookup name = none

section Counts

variable {σ σ' : State}

theorem lookup_of_length_zero {α : Type} {m : HashMap String α} (h : m.entries.length = 0)
    (name : String) : m.lookup name = none := by
  have hempty : m = ∅ := AList.ext (List.eq_nil_of_length_eq_zero h)
  rw [hempty]
  exact AList.lookup_empty name

theorem Sweep.CountedTriggers.subscriptions {sweep : Sweep} (h : sweep.CountedTriggers) :
    sweep.CountedSubscriptions := by
  unfold CountedTriggers at h
  split at h
  · trivial
  · trivial
  · exact h.elim

/-- A check of a sweep goes on only if it found nothing. -/
theorem Counted.examine (h : Counted σ) (j : ℕ) :
    Counted { σ with sweeps := Function.update σ.sweeps j (σ.examine (σ.sweeps j)) } := by
  refine ⟨?_, ?_⟩
  · refine (Function.forall_update_iff σ.sweeps fun _ s => s.CountedSubscriptions → ∀ name,
      σ.subscriptions.lookup name = none).mpr ⟨?_, fun k _ => h.subscriptions k⟩
    intro hcounted name
    cases hs : σ.sweeps j with
    | found staleSecs =>
      rw [hs] at hcounted
      simp only [State.examine] at hcounted
      split_ifs at hcounted with hzero
      · exact lookup_of_length_zero hzero.2 name
      · exact hcounted.elim
    | noSubscriptions staleSecs => exact h.subscriptions j (by rw [hs]; trivial) name
    | noTriggers staleSecs => exact h.subscriptions j (by rw [hs]; trivial) name
    | _ =>
      rw [hs] at hcounted
      exact h.subscriptions j (by rw [hs]; exact hcounted) name
  · refine (Function.forall_update_iff σ.sweeps fun _ s => s.CountedTriggers → ∀ name,
      σ.triggers.lookup name = none).mpr ⟨?_, fun k _ => h.triggers k⟩
    intro hcounted name
    cases hs : σ.sweeps j with
    | found staleSecs =>
      rw [hs] at hcounted
      simp only [State.examine] at hcounted
      split_ifs at hcounted <;> exact hcounted.elim
    | noSubscriptions staleSecs =>
      rw [hs] at hcounted
      simp only [State.examine] at hcounted
      split_ifs at hcounted with hzero
      · exact lookup_of_length_zero hzero name
      · exact hcounted.elim
    | noTriggers staleSecs => exact h.triggers j (by rw [hs]; trivial) name
    | _ =>
      rw [hs] at hcounted
      exact h.triggers j (by rw [hs]; exact hcounted) name

theorem Counted.keep (h : Counted σ) (hbehind : NothingBehindCount σ σ')
    (hsweeps : ∀ j, (σ'.sweeps j).CountedSubscriptions → σ'.sweeps j = σ.sweeps j) :
    Counted σ' := by
  refine ⟨fun j hj name => ?_, fun j hj name => ?_⟩
  · rw [hsweeps j hj] at hj
    exact hbehind.subscriptions j hj name (h.subscriptions j hj name)
  · rw [hsweeps j hj.subscriptions] at hj
    exact hbehind.triggers j hj name (h.triggers j hj name)

theorem eq_of_counted_update {sweeps : ℕ → Sweep} {j : ℕ} {sweep : Sweep}
    (h : ¬ sweep.CountedSubscriptions) (k : ℕ)
    (hk : (Function.update sweeps j sweep k).CountedSubscriptions) :
    Function.update sweeps j sweep k = sweeps k := by
  by_cases hkj : k = j
  · rw [hkj, Function.update_self] at hk
    exact absurd hk h
  · exact Function.update_of_ne hkj _ _

theorem Counted.step (h : Counted σ) (hs : Step σ σ') (hbehind : NothingBehindCount σ σ') :
    Counted σ' := by
  cases hs with
  | findMissing j hsweep hregistered =>
    refine h.keep hbehind (eq_of_counted_update ?_)
    split_ifs <;> exact id
  | findPresent j staleSecs hsweep hregistered => exact h.keep hbehind (eq_of_counted_update id)
  | examine j => exact h.examine j
  | prune j hsweep => exact h.keep hbehind (eq_of_counted_update id)
  | reap j hsweep => exact h.keep hbehind (eq_of_counted_update id)
  | _ => exact h.keep hbehind fun _ _ => rfl

theorem Counted.init (h : Start σ) : Counted σ := by
  refine ⟨fun j hj => ?_, fun j hj => ?_⟩ <;> rw [h.sweeps j] at hj <;> exact hj.elim

end Counts

/-- **Stale roots.** In every run that makes no entry under a name while a loop of another session
has it, and adds nothing between the counts of a sweep and its removal of the root, a root that is
unregistered as stale has no loop that was not unsubscribed and whose session is open, and no
installed trigger. -/
theorem stale_root_unused {σ₀ σ σ' : State} (hstart : Start σ₀)
    (hrun : Run (fun s s' => Step s s' ∧ NoSharedName s s' ∧ NothingBehindCount s s') σ₀ σ)
    (hreap : ReapsStale σ σ') : Unused σ := by
  have hregistered : Registered σ := by
    refine hrun.preserves ?_ (Registered.init hstart)
    exact fun s s' h hs => h.step hs.1 hs.2.1
  have hcounted : Counted σ := by
    refine hrun.preserves ?_ (Counted.init hstart)
    exact fun s s' h hs => h.step hs.1 hs.2.2
  obtain ⟨-, j, hsweep, -⟩ := hreap
  refine ⟨fun i hpresent hunsub => ?_, fun name => hcounted.triggers j (by rw [hsweep]; trivial) name⟩
  by_contra hopen
  refine hregistered.entered i hpresent hunsub (eq_false_of_ne_true hopen) ?_
  exact hcounted.subscriptions j (by rw [hsweep]; trivial) _

/-! ## A trigger that is deleted -/

theorem calm_of {σ σ' : State} (hloops : σ'.loops = σ.loops)
    (hsubs : σ'.subscriptions = σ.subscriptions)
    (htriggers : ∀ name, σ.triggers.lookup name = none → σ'.triggers.lookup name = none) :
    NoSharedName σ σ' ∧ NothingBehindCount σ σ' := by
  refine ⟨fun i habsent hpresent => ?_, fun _ _ name => ?_, fun _ _ => htriggers⟩
  · rw [hloops] at hpresent
    exact absurd hpresent habsent
  · rw [hsubs]
    exact id

theorem calm_of_idle {σ σ' : State} (hloops : σ'.loops = σ.loops)
    (hidle : ∀ j, σ.sweeps j = .idle) : NoSharedName σ σ' ∧ NothingBehindCount σ σ' := by
  refine ⟨fun i habsent hpresent => ?_, fun j hj => ?_, fun j hj => ?_⟩
  · rw [hloops] at hpresent
    exact absurd hpresent habsent
  · rw [hidle j] at hj
    exact hj.elim
  · rw [hidle j] at hj
    exact hj.elim

/-- The trigger of the root is deleted, and after an hour the root is reaped. -/
theorem stale_root_unused_noSubscriptions : ∃ σ σ', ReapsStale σ σ' ∧ Unused σ := by
  have hrun : ∃ σ, Run (fun s s' => Step s s' ∧ NoSharedName s s' ∧ NothingBehindCount s s')
      noSubscriptions σ ∧ σ.registered = true ∧ σ.sweeps 0 = .reaping .stale := by
    have h₀ : Run (fun s s' => Step s s' ∧ NoSharedName s s' ∧ NothingBehindCount s s')
        noSubscriptions noSubscriptions := .refl
    have h₁ := h₀.tail ⟨.installTrigger ⟨"make", ["make"], .bool true, false, none, none⟩,
      calm_of_idle rfl fun _ => rfl⟩
    have h₂ := h₁.tail ⟨.removeTrigger "make", calm_of_idle rfl fun _ => rfl⟩
    have h₃ := h₂.tail ⟨.tick 3600, calm_of rfl rfl fun _ => id⟩
    have h₄ := h₃.tail ⟨.findPresent 0 3600 rfl rfl, calm_of rfl rfl fun _ => id⟩
    have h₅ := h₄.tail ⟨.examine 0, calm_of rfl rfl fun _ => id⟩
    have h₆ := h₅.tail ⟨.examine 0, calm_of rfl rfl fun _ => id⟩
    have h₇ := h₆.tail ⟨.examine 0, calm_of rfl rfl fun _ => id⟩
    exact ⟨_, h₇, rfl, by decide⟩
  obtain ⟨σ, hrun, hregistered, hsweep⟩ := hrun
  have hreap : ReapsStale σ (σ.reap 0) := ⟨hregistered, 0, hsweep, rfl⟩
  exact ⟨σ, σ.reap 0, hreap, stale_root_unused start_noSubscriptions hrun hreap⟩

/-! ## A client that comes back -/

/-- The client comes back under the same name, the loop of its first session ends with the next
event and takes the new entry out, and after an hour the root is reaped. -/
theorem reaped_under_client : Start noSubscriptions ∧
    ∃ σ σ', Run Step noSubscriptions σ ∧ ReapsStale σ σ' ∧ ¬ Unused σ := by
  have hrun : ∃ σ, Run Step noSubscriptions σ ∧
      (σ.registered = true ∧ σ.sweeps 0 = .reaping .stale) ∧
      (σ.loops 1).phase = .listening ∧ (σ.loops 1).unsubscribed = false ∧
        σ.closed (σ.loops 1).session = false := by
    have h₀ : Run Step noSubscriptions noSubscriptions := .refl
    have h₁ := h₀.tail (.resolve 0 xSpec 0 rfl rfl)
    have h₂ := h₁.tail (.move 0 (.promote [] rfl))
    have h₃ := h₂.tail (.move 0 (.initialQuery emptyEnv rfl))
    have h₄ := h₃.tail (.addSubscription 0 rfl)
    have h₅ := h₄.tail (.move 0 (.subscribe rfl))
    have h₆ := h₅.tail (.move 0 (.start rfl))
    have h₇ := h₆.tail (.disconnect 0)
    have h₈ := h₇.tail (.resolve 1 xSpec 1 rfl rfl)
    have h₉ := h₈.tail (.move 1 (.promote [] rfl))
    have h₁₀ := h₉.tail (.move 1 (.initialQuery emptyEnv rfl))
    have h₁₁ := h₁₀.tail (.addSubscription 1 rfl)
    have h₁₂ := h₁₁.tail (.move 1 (.subscribe rfl))
    have h₁₃ := h₁₂.tail (.move 1 (.start rfl))
    have h₁₄ := h₁₃.tail (.root (.batch 0 bCreated (by decide)))
    have h₁₅ := h₁₄.tail (.broadcast (List.mem_singleton.mpr rfl))
    have h₁₆ := h₁₅.tail (.receive 0 rfl (Lagging.send_nil tickChannelCapacity_pos))
    have h₁₇ := h₁₆.tail (.move 0 (.abandon rfl rfl))
    have h₁₈ := h₁₇.tail (.leave 0 rfl)
    have h₁₉ := h₁₈.tail (.tick 3600)
    have h₂₀ := h₁₉.tail (.findPresent 0 3600 rfl rfl)
    have h₂₁ := h₂₀.tail (.examine 0)
    have h₂₂ := h₂₁.tail (.examine 0)
    have h₂₃ := h₂₂.tail (.examine 0)
    exact ⟨_, h₂₃, ⟨rfl, by decide⟩, rfl, rfl, rfl⟩
  obtain ⟨σ, hrun, ⟨hregistered, hsweep⟩, hphase, hunsub, hopen⟩ := hrun
  refine ⟨start_noSubscriptions, σ, σ.reap 0, hrun, ⟨hregistered, 0, hsweep, rfl⟩, ?_⟩
  intro hunused
  have hclosed := hunused.loops 1 (present_of_phase hphase trivial) hunsub
  rw [hopen] at hclosed
  cases hclosed

end Watchwoman.Subscriptions
