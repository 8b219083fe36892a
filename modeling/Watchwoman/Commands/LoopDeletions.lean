import Watchwoman.Commands.Loops
import Watchwoman.Query.Deletions

/-!
# Deletions in push loops and trigger loops

The sweep looks at named cursors only; `gc.rs` says that subscribers get deletions live from the
tick events. But the loops take no paths from an event, they query the tree: a sweep between the
broadcast of a deletion and the loop's query drops the tombstone unseen
(`swept_deletion_unreported`). As long as no sweep drops a tombstone of the path that no query of the
loop has seen, its deletion is reported (`loop_reports_deletions`).
-/

namespace Watchwoman.Loops

open Transition Query Subscribe

/-! ## What is promised -/

def Loop.AsksForAll (loop : Loop) : Prop :=
  ∀ (clock : Clock) (tick : ℕ),
    Query.AsksForAll (pushSpec loop.spec clock tick) (clock.encode tick)

/-- The last change of `p` in the log, if there is one, is not its removal. -/
def WasLive (p : RelPath) (log : List (ℕ × PathChange)) : Prop :=
  ∀ x, log.find? (fun x => decide (x.2.rel = p)) = some x → x.2 ≠ .remove p

/-- Since the loop started, a batch of tick `d` removed `p` while it was live, and no later change
re-created it. -/
def RemovedAt (p : RelPath) (d : ℕ) (σ : State) : Prop :=
  σ.startTick < d ∧ ∃ later earlier, σ.log = later ++ (d, .remove p) :: earlier ∧
    (∀ x ∈ later, x.2.rel = p → x.2 = .remove p) ∧ WasLive p earlier

/-- The event of tick `d` was broadcast, and the loop has dealt with every event up to it; if the
receiver lost that event, with the later ones too. -/
def Processed (d : ℕ) (σ : State) : Prop :=
  σ.phase.Started ∧ ¬ InFlight σ d ∧
    ∀ ev ∈ σ.incoming, d < ev.tick ∧ ∀ lost ∈ σ.lagged, lost.tick ≠ d

/-- A message, or a firing, shows `p` as gone since `d` or later. -/
def ReportedGone (loop : Loop) (answers : List Answer) (p : RelPath) (d : ℕ) : Prop :=
  ∃ a ∈ answers, ∃ e, a.root.tree.get p = some e ∧ e.live = false ∧ d ≤ e.oclock ∧ loop.Shows a p e

/-- A sweep in this state leaves the tombstone of `p` if no query of the loop has seen it. -/
def SweepSparesUnseen (p : RelPath) (σ : State) : Prop :=
  σ.phase.Started → SweepSpares p σ.observed σ.root

/-- The event of tick `d` will reach the loop, or the receiver has lost it and one that covers it
will. -/
def Near (σ : State) (d : ℕ) : Prop :=
  InFlight σ d ∨ (∃ ev ∈ σ.incoming, ev.tick = d) ∨
    ((∃ lost ∈ σ.lagged, lost.tick = d) ∧ ∃ ev ∈ σ.incoming, d ≤ ev.tick)

/-- The path is live unless the log says that it was removed; a removal was reported, or its
tombstone is there, no query has seen it, and its event is near. -/
structure Tracked (loop : Loop) (p : RelPath) (σ : State) : Prop where
  live : WasLive p σ.log → σ.root.tree.Live p
  gone : ∀ d, RemovedAt p d σ → ReportedGone loop σ.answers p d ∨
    (σ.observed < d ∧ (∃ e, σ.root.tree.get p = some e ∧ e.live = false ∧ d ≤ e.oclock) ∧ Near σ d)

namespace Tracked

variable {loop : Loop} {p : RelPath} {σ σ' : State}

/-- A step that writes nothing keeps track of the path if it keeps what no query has seen of it and
no event is lost on its way. -/
theorem mono (h : Tracked loop p σ) (hlog : σ'.log = σ.log) (hstart : σ'.startTick = σ.startTick)
    (hanswers : σ'.answers = σ.answers) (hobserved : σ'.observed = σ.observed)
    (hkeep : ∀ e, σ.root.tree.get p = some e → e.live = true ∨ σ.observed < e.oclock →
      σ'.root.tree.get p = some e)
    (hnear : ∀ d, σ.startTick < d → σ.observed < d → Near σ d → Near σ' d) :
    Tracked loop p σ' := by
  refine ⟨?_, ?_⟩
  · intro hwas
    rw [hlog] at hwas
    obtain ⟨e, he, hlive⟩ := h.live hwas
    exact ⟨e, hkeep e he (.inl hlive), hlive⟩
  · intro d hremoved
    unfold RemovedAt at hremoved
    rw [hstart, hlog] at hremoved
    rw [hanswers, hobserved]
    rcases h.gone d hremoved with hrep | ⟨hunseen, ⟨e, he, hdead, hle⟩, hn⟩
    · exact .inl hrep
    · exact .inr ⟨hunseen, ⟨e, hkeep e he (.inr (hunseen.trans_le hle)), hdead, hle⟩,
        hnear d hremoved.1 hunseen hn⟩

theorem move (h : Tracked loop p σ) (hlog : σ'.log = σ.log) (hstart : σ'.startTick = σ.startTick)
    (hanswers : σ'.answers = σ.answers) (hobserved : σ'.observed = σ.observed)
    (hroot : σ'.root = σ.root) (hwriter : σ'.writer = σ.writer) (hunsent : σ'.unsent = σ.unsent)
    (hlagged : σ'.lagged = σ.lagged)
    (hincoming : ∀ ev, σ.observed < ev.tick → ev ∈ σ.incoming → ev ∈ σ'.incoming) :
    Tracked loop p σ' := by
  refine h.mono hlog hstart hanswers hobserved (fun e he _ => by rw [hroot]; exact he) ?_
  rintro d - hunseen (⟨ev, hev, htick⟩ | ⟨ev, hev, htick⟩ | ⟨hlost, ev, hev, hle⟩)
  · refine .inl ⟨ev, ?_, htick⟩
    unfold State.pending
    rw [hwriter, hunsent]
    exact hev
  · exact .inr (.inl ⟨ev, hincoming ev (htick ▸ hunseen) hev, htick⟩)
  · rw [← hlagged] at hlost
    exact .inr (.inr ⟨hlost, ev, hincoming ev (hunseen.trans_le hle) hev, hle⟩)

theorem start (hlog : σ.log = []) (htree : σ.root.tree = σ.startTree)
    (hlive : σ.startTree.Live p) : Tracked loop p σ := by
  refine ⟨fun _ => htree ▸ hlive, ?_⟩
  rintro d ⟨-, later, earlier, hsplit, -⟩
  rw [hlog] at hsplit
  simp at hsplit

theorem wasLive_cons {x : ℕ × PathChange} {log : List (ℕ × PathChange)} :
    WasLive p (x :: log) ↔ if x.2.rel = p then x.2 ≠ .remove p else WasLive p log := by
  unfold WasLive
  rw [List.find?_cons]
  split_ifs with hp
  · simp [hp]
  · simp [hp]

theorem live_applyChange {tick : ℕ} {t : Tree} {c : PathChange} {log : List (ℕ × PathChange)}
    (h : WasLive p log → t.Live p) (hwas : WasLive p ((tick, c) :: log)) :
    (Root.applyChange false tick t c).Live p := by
  rw [wasLive_cons] at hwas
  by_cases hp : c.rel = p
  · rw [if_pos hp] at hwas
    subst hp
    obtain ⟨e, he, -, hdead⟩ := @Root.exists_get_applyChange false tick t c
      (fun hremove => absurd hremove hwas)
    refine ⟨e, he, ?_⟩
    rw [← Bool.not_eq_false, hdead]
    exact hwas
  · rw [if_neg hp] at hwas
    obtain ⟨e, he, hlive⟩ := h hwas
    exact ⟨e, (Root.get_applyChange_of_ne (Ne.symm hp)).trans he, hlive⟩

theorem tombstone_applyChange {tick d : ℕ} {t : Tree} {c : PathChange}
    (h : ∃ e, t.get p = some e ∧ e.live = false ∧ d ≤ e.oclock) (hd : d ≤ tick)
    (hc : c.rel = p → c = .remove p) :
    ∃ e, (Root.applyChange false tick t c).get p = some e ∧ e.live = false ∧ d ≤ e.oclock := by
  obtain ⟨e, he, hdead, hle⟩ := h
  by_cases hp : c.rel = p
  · rw [hc hp]
    obtain ⟨e', he', htick, hdead'⟩ := @Root.exists_tombstone tick _ _ _ he
    exact ⟨e', he', hdead', hd.trans_eq htick.symm⟩
  · exact ⟨e, (Root.get_applyChange_of_ne (Ne.symm hp)).trans he, hdead, hle⟩

theorem writeChange (h : Tracked loop p σ) (hi : Inv loop σ) (hstarted : σ.phase.Started)
    {ev : TickEvent} {c : PathChange} {rest : List PathChange}
    (hw : σ.writer = .batch ev (c :: rest)) :
    Tracked loop p { σ with
      root := σ.root.writeChange ev.tick c
      writer := .batch ev rest
      log := (ev.tick, c) :: σ.log } := by
  have hpending := pending_of_batch hw
  have hget : (σ.root.writeChange ev.tick c).tree = Root.applyChange false ev.tick σ.root.tree c := by
    unfold Root.writeChange
    rw [hi.ticking.full]
  refine ⟨?_, ?_⟩
  · intro hwas
    show (σ.root.writeChange ev.tick c).tree.Live p
    rw [hget]
    exact live_applyChange h.live hwas
  · rintro d ⟨hlt, later, earlier, hsplit, hlater, hwas⟩
    show _ ∨ (_ ∧ (∃ e, (σ.root.writeChange ev.tick c).tree.get p = some e ∧ _) ∧ _)
    rw [hget]
    cases later with
    | nil =>
      -- this is the removal
      obtain ⟨hx, rfl⟩ := List.cons.inj hsplit
      obtain ⟨rfl, rfl⟩ := Prod.mk.inj hx
      obtain ⟨e, he, -⟩ := h.live hwas
      obtain ⟨e', he', htick, hdead⟩ := @Root.exists_tombstone ev.tick _ _ _ he
      have hunseen := ((hi.ahead hstarted).writing _ _ hw).resolve_left (not_le.mpr hlt)
      refine .inr ⟨hunseen, ⟨e', he', hdead, htick.ge⟩, .inl ⟨ev, ?_, rfl⟩⟩
      exact List.mem_cons_self
    | cons x later =>
      rw [List.cons_append] at hsplit
      obtain ⟨rfl, hlog⟩ := List.cons.inj hsplit
      obtain ⟨hc, hlater⟩ := List.forall_mem_cons.mp hlater
      have hd : d ≤ ev.tick := by
        refine (hi.ticking.writing _ _ hw).2.2 (d, .remove p) ?_
        rw [hlog]
        exact List.mem_append_right _ List.mem_cons_self
      rcases h.gone d ⟨hlt, later, earlier, hlog, hlater, hwas⟩ with hrep | ⟨hunseen, htomb, hn⟩
      · exact .inl hrep
      · refine .inr ⟨hunseen, tombstone_applyChange htomb hd hc, ?_⟩
        rcases hn with ⟨ev', hev', htick⟩ | hnear
        · rw [hpending] at hev'
          exact .inl ⟨ev', hev', htick⟩
        · exact .inr hnear

theorem broadcast (h : Tracked loop p σ) (ha : Ahead loop σ) {ev : TickEvent}
    (hev : ev ∈ σ.unsent) :
    Tracked loop p { σ with
      unsent := σ.unsent.erase ev
      queue := Lagging.send tickChannelCapacity σ.queue ev
      lagged := Lagging.lost tickChannelCapacity σ.queue ev ++ σ.lagged } := by
  refine h.mono rfl rfl rfl rfl (fun e he _ => he) ?_
  rintro d hlt - (⟨ev', hev', htick⟩ | ⟨ev', hev', htick⟩ | ⟨⟨lost, hlost, htick⟩, hcover⟩)
  · rcases mem_pending hev hev' with rfl | hrest
    · exact .inr (.inl ⟨ev', List.mem_append_right _
        (Lagging.mem_send_self tickChannelCapacity_pos), htick⟩)
    · exact .inl ⟨ev', hrest, htick⟩
  · rcases List.mem_append.mp hev' with hcur | hq
    · exact .inr (.inl ⟨ev', List.mem_append_left _ hcur, htick⟩)
    · rcases @Lagging.mem_send_or_lost _ tickChannelCapacity σ.queue ev ev'
        (List.mem_append_left _ hq) with hsend | hlost
      · exact .inr (.inl ⟨ev', List.mem_append_right _ hsend, htick⟩)
      · exact .inr (.inr ⟨⟨ev', List.mem_append_left _ hlost, htick⟩,
          ha.covered hev hlt ⟨ev', hev', htick.ge⟩⟩)
  · exact .inr (.inr ⟨⟨lost, List.mem_append_right _ hlost, htick⟩, ha.covered hev hlt hcover⟩)

/-- A round reports the tombstone that no query had seen. -/
theorem round (h : Tracked loop p σ) (hi : Inv loop σ) (hloop : loop.AsksForAll)
    (hcookie : ¬ IsCookie p) {ev : TickEvent} (hphase : σ.phase = .handling ev) (env : Env)
    {r' : Root} (htree : r'.tree = σ.root.tree) :
    Tracked loop p { σ with
      root := r'
      lastTick := loop.fence ev (loop.ask env σ.root σ.lastTick)
      phase := .after (loop.ask env σ.root σ.lastTick) loop
      answers := loop.record (loop.ask env σ.root σ.lastTick) σ.answers
      observed := σ.root.clock.ticks } := by
  have ha := hi.ahead (by rw [hphase]; trivial)
  have hlast : σ.lastTick < 2 ^ 64 := (ha.last_le.trans ha.observed_le).trans_lt hi.ticking.bound
  have hasks := hloop σ.root.clock σ.lastTick
  refine ⟨?_, ?_⟩
  · intro hwas
    obtain ⟨e, he, hlive⟩ := h.live hwas
    refine ⟨e, ?_, hlive⟩
    show r'.tree.get p = some e
    rw [htree]
    exact he
  · intro d hremoved
    left
    rcases h.gone d hremoved with ⟨a, hmem, hshows⟩ | ⟨hunseen, ⟨e, he, hdead, hle⟩, -⟩
    · exact ⟨a, subset_record hmem, hshows⟩
    · have hpast : σ.lastTick < e.oclock := (ha.last_le.trans_lt hunseen).trans_le hle
      obtain ⟨hemits, hshows⟩ := shows_ask hi.ticking.full ha.oldest_le hlast he hpast
        (select_of_asksForAll (resolveScmSet_encode hlast hasks.since) hasks hcookie e)
      exact ⟨loop.ask env σ.root σ.lastTick, mem_record hemits, e, he, hdead, hle, hshows⟩

end Tracked

/-! ## Whole runs -/

/-- Both invariants, for a path that was live at the start. -/
structure TrackedInv (loop : Loop) (p : RelPath) (σ : State) : Prop where
  inv : Inv loop σ
  tracked : σ.phase.Started → σ.startTree.Live p → Tracked loop p σ

section Steps

variable {loop : Loop} {p : RelPath} {σ σ' : State}

theorem TrackedInv.step (h : TrackedInv loop p σ) (hloop : loop.AsksForAll) (hcookie : ¬ IsCookie p)
    (hs : Step loop (SweepSparesUnseen p) σ σ') : TrackedInv loop p σ' := by
  refine ⟨h.inv.step hs, ?_⟩
  have hfull := h.inv.ticking.full
  cases hs with
  | openBatch arenaBytes changes hidle hticks hfew =>
    intro hstarted hlive
    rw [Root.openBatch_of_full hfull]
    refine (h.tracked hstarted hlive).mono rfl rfl rfl rfl (fun e he _ => he) ?_
    rintro d - - (⟨ev, hev, htick⟩ | hnear)
    · rw [pending_of_idle hidle] at hev
      exact .inl ⟨ev, List.mem_cons_of_mem _ hev, htick⟩
    · exact .inr hnear
  | writeChange hw =>
    exact fun hstarted hlive => (h.tracked hstarted hlive).writeChange h.inv hstarted hw
  | release hw =>
    intro hstarted hlive
    refine (h.tracked hstarted hlive).mono rfl rfl rfl rfl (fun e he _ => he) ?_
    rintro d - - (⟨ev, hev, htick⟩ | hnear)
    · rw [pending_of_batch hw] at hev
      exact .inl ⟨ev, hev, htick⟩
    · exact .inr hnear
  | broadcastUnheard hphase hev =>
    intro hstarted
    change σ.phase.Started at hstarted
    rw [hphase] at hstarted
    exact hstarted.elim
  | broadcast hphase hev =>
    exact fun hstarted hlive =>
      (h.tracked hstarted hlive).broadcast (h.inv.ahead hstarted) hev
  | bump hticks =>
    exact fun hstarted hlive => (h.tracked hstarted hlive).mono rfl rfl rfl rfl
      (fun e he _ => he) fun d _ _ hn => hn
  | sweep hidle hsweep =>
    intro hstarted hlive
    refine (h.tracked hstarted hlive).mono rfl rfl rfl rfl ?_ fun d _ _ hn => hn
    intro e he hunseen
    rw [Root.pruneTombstones_of_full hfull]
    refine (σ.root.tree.get_prune σ.root.watermark).2 he ?_
    by_cases hdead : e.live = true
    · exact .inl hdead
    · exact .inr (hsweep hstarted e he (by simpa using hdead) (hunseen.resolve_left hdead))
  | subscribe hphase => exact fun hstarted => hstarted.elim
  | start hphase => exact fun _ hlive => .start rfl rfl hlive
  | receive hphase hq =>
    intro _ hlive
    refine (h.tracked (by rw [hphase]; trivial) hlive).move rfl rfl rfl rfl rfl rfl rfl rfl ?_
    intro ev _ hev
    rw [incoming_of_phase hphase, hq] at hev
    exact hev
  | skip hphase hle =>
    intro _ hlive
    refine (h.tracked (by rw [hphase]; trivial) hlive).move rfl rfl rfl rfl rfl rfl rfl rfl ?_
    intro ev hunseen hev
    have hlast := (h.inv.ahead (by rw [hphase]; trivial)).last_le
    rw [incoming_of_phase hphase] at hev
    rcases List.mem_cons.mp hev with rfl | hmem
    · omega
    · exact hmem
  | round env hphase hlt hidle =>
    exact fun _ hlive =>
      (h.tracked (by rw [hphase]; trivial) hlive).round h.inv hloop hcookie hphase env
        (tree_run_root _ _ _)
  | finish hphase =>
    intro _ hlive
    refine (h.tracked (by rw [hphase]; trivial) hlive).move rfl rfl rfl rfl rfl rfl rfl rfl ?_
    intro ev _ hev
    rw [incoming_of_phase hphase] at hev
    exact hev

theorem TrackedInv.init (h : Start σ) : TrackedInv loop p σ := by
  refine ⟨.init h, fun hstarted => ?_⟩
  rw [h.phase] at hstarted
  exact hstarted.elim

end Steps

/-- **Deletions.** Let a loop that asks for every change run on a full-index root, and let `p` be
live when it started. In every run whose sweeps leave the tombstones of `p` that no query of the loop
has seen, once a batch of tick `d` removed `p`, `p` was not re-created, and the loop has processed
every event up to `d`, it has reported `p` as gone. -/
theorem loop_reports_deletions (loop : Loop) (hloop : loop.AsksForAll) (p : RelPath)
    (hcookie : ¬ IsCookie p) {σ₀ σ : State} (hstart : Start σ₀)
    (hrun : Run (Step loop (SweepSparesUnseen p)) σ₀ σ) (hlive : σ.startTree.Live p) (d : ℕ)
    (hremoved : RemovedAt p d σ) (hprocessed : Processed d σ) :
    ReportedGone loop σ.answers p d := by
  have hinv : TrackedInv loop p σ :=
    hrun.preserves (fun s s' h hs => h.step hloop hcookie hs) (.init hstart)
  obtain ⟨hstarted, hflight, hincoming⟩ := hprocessed
  rcases (hinv.tracked hstarted hlive).gone d hremoved with hrep | ⟨-, -, hn⟩
  · exact hrep
  · rcases hn with hf | ⟨ev, hev, htick⟩ | ⟨⟨lost, hlost, htick⟩, ev, hev, -⟩
    · exact absurd hf hflight
    · exact absurd htick (hincoming ev hev).1.ne'
    · exact absurd htick ((hincoming ev hev).2 lost hlost)

/-! ## A file that is deleted under a subscription -/

def subscription : Loop := .push everything "s"

theorem asksForAll_subscription : subscription.AsksForAll :=
  fun _ _ => ⟨rfl, rfl, rfl, rfl, rfl, rfl, rfl⟩

/-- The loop when it has received the event of the deletion of `a`. -/
def deletionEvent : State :=
  ⟨oneFileGone, .idle, [], [], 2, .handling (oneFile.applyChanges 0 [.remove [[0x61]]]).2, [], [], 2,
    2, oneFile.tree, [(3, .remove [[0x61]])]⟩

theorem run_deletionEvent (sweeps : State → Prop) :
    Run (Step subscription sweeps) beforeLoop deletionEvent :=
  (run_waitingLoop subscription sweeps).trans
    (@run_handling subscription sweeps waitingLoop rfl rfl rfl rfl (by decide) 0
      [.remove [[0x61]]])

theorem wasLive_nil (p : RelPath) : WasLive p [] := by
  rintro x ⟨⟩

/-- The subscriber is told of the deletion before a sweep drops the tombstone. -/
theorem loop_reports_deletions_oneFile :
    ∃ σ, Run (Step subscription (SweepSparesUnseen [[0x61]])) beforeLoop σ ∧
      σ.root.tree.get [[0x61]] = none ∧ ReportedGone subscription σ.answers [[0x61]] 3 := by
  have hround := @Step.round subscription (SweepSparesUnseen [[0x61]]) emptyEnv deletionEvent _
    rfl (by decide) rfl
  have hseen := (run_deletionEvent (SweepSparesUnseen [[0x61]])).tail hround
  obtain ⟨tombstone, htombstone, htick⟩ :
      ∃ e, oneFileGone.tree.get [[0x61]] = some e ∧ e.oclock = 3 := ⟨_, rfl, rfl⟩
  have hrun := hseen.tail (.sweep rfl fun _ e he _ hunseen => by
    obtain rfl := Option.some.inj (htombstone.symm.trans he)
    exact absurd (htick ▸ hunseen) (by decide))
  refine ⟨_, hrun, by decide, loop_reports_deletions subscription asksForAll_subscription [[0x61]]
    (by decide) start_beforeLoop hrun live_oneFile 3 ?_ ?_⟩
  · exact ⟨by decide, [], [], rfl, by simp, wasLive_nil _⟩
  · refine ⟨trivial, ?_, ?_⟩
    · rintro ⟨ev, hev, -⟩
      cases hev
    · intro ev hev
      cases hev

/-- The loop with the event once a sweep has dropped the tombstone. -/
def sweptEvent : State :=
  ⟨oneFileGone.pruneTombstones.1, .idle, [], [], 2,
    .handling (oneFile.applyChanges 0 [.remove [[0x61]]]).2, [], [], 2, 2, oneFile.tree,
    [(3, .remove [[0x61]])]⟩

/-- A sweep between the broadcast and the loop's query drops the tombstone, and the loop sends
nothing. -/
theorem swept_deletion_unreported :
    Start beforeLoop ∧ subscription.AsksForAll ∧
    ∃ σ, Run (Step subscription fun _ => True) beforeLoop σ ∧
      σ.startTree.Live [[0x61]] ∧ RemovedAt [[0x61]] 3 σ ∧ Processed 3 σ ∧
      ¬ ReportedGone subscription σ.answers [[0x61]] 3 := by
  have hsweep : Step subscription (fun _ => True) deletionEvent sweptEvent := .sweep rfl trivial
  have hround := @Step.round subscription (fun _ => True) emptyEnv sweptEvent _ rfl (by decide) rfl
  have hrun := ((run_deletionEvent fun _ => True).tail hsweep).tail hround
  refine ⟨start_beforeLoop, asksForAll_subscription, _, hrun, live_oneFile, ?_, ?_, ?_⟩
  · exact ⟨by decide, [], [], rfl, by simp, wasLive_nil _⟩
  · refine ⟨trivial, ?_, ?_⟩
    · rintro ⟨ev, hev, -⟩
      cases hev
    · intro ev hev
      cases hev
  · rintro ⟨a, ha, -⟩
    dsimp only at ha
    rw [Loop.record, if_neg (by decide)] at ha
    cases ha

end Watchwoman.Loops
