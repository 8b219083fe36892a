import Watchwoman.Commands.LoopDeletions
import Watchwoman.Query.Mirror

/-!
# What the messages of a subscription add up to

A client subscribes to a query without a clock that selects by the path alone, takes the files of
the response, and believes every row of every message after that. What it believes is at any time
what was live when the tree was last asked, never a mixture of two moments, and once the loop has
dealt with every batch it is what is live now (`subscriber_knows_live`).

The tree is the versioned store of `Query.Mirror` and the client its replica, refreshed up to the
tick that the last query of the loop observed. The loop's fence lies behind that tick, so a round
may tell again what the client knows.
-/

namespace Watchwoman

open Transition Query Subscribe Replica

/-! ## What a client takes a message to say -/

/-- What is believed after a message of a subscription. -/
def Subscribe.hear (view : View String Value) (message : Value) : View String Value :=
  match message with
  | .object m =>
    match m.lookup "files", m.lookup "is_fresh_instance" with
    | some (.array rows), some (.bool fresh) =>
      rows.foldl learn (if fresh then fun _ => none else view)
    | _, _ => view
  | _ => view

theorem Subscribe.hear_unilateral (view : View String Value) (name : String)
    (rootPath : List Name) (result : QueryResult) :
    hear view (unilateral name rootPath result) = tell view result := rfl

theorem Subscribe.hear_messages (view : View String Value) (name : String) (rootPath : List Name)
    (result : QueryResult) :
    (messages name rootPath result).foldl hear view = tell view result := by
  unfold messages
  split_ifs with hempty
  · rw [tell_of_delta hempty.2, hempty.1]
    rfl
  · exact hear_unilateral view name rootPath result

namespace Loops

/-- What the messages of the rounds, the last first, make of what was believed before them. -/
def heard (name : String) (base : View String Value) (answers : List Answer) :
    View String Value :=
  (answers.reverse.flatMap fun a => messages name a.root.path a.result).foldl hear base

theorem heard_cons (name : String) (base : View String Value) (a : Answer)
    (answers : List Answer) :
    heard name base (a :: answers) = tell (heard name base answers) a.result := by
  unfold heard
  rw [List.reverse_cons, List.flatMap_append, List.foldl_append, List.flatMap_singleton,
    hear_messages]

theorem mem_of_mem_record {loop : Loop} {a b : Answer} {answers : List Answer}
    (h : b ∈ loop.record a answers) : b = a ∨ b ∈ answers := by
  unfold Loop.record at h
  split_ifs at h
  · exact List.mem_cons.mp h
  · exact .inr h

theorem suffix_record {loop : Loop} {a b : Answer} {answers earlier : List Answer}
    (h : b :: earlier <:+ loop.record a answers) :
    (b = a ∧ earlier = answers) ∨ b :: earlier <:+ answers := by
  unfold Loop.record at h
  split_ifs at h
  · rcases List.suffix_cons_iff.mp h with heq | hsuffix
    · exact .inl (List.cons.inj heq)
    · exact .inr hsuffix
  · exact .inr h

theorem heard_record (spec : QuerySpec) (name : String) (base : View String Value) (a : Answer)
    (answers : List Answer) :
    heard name base ((Loop.push spec name).record a answers) =
      tell (heard name base answers) a.result := by
  unfold Loop.record
  split_ifs with hemits
  · exact heard_cons name base a answers
  · rw [← hear_messages _ name a.root.path, not_not.mp hemits]
    rfl

/-! ## The subscription -/

/-- The query has no clock, answers in full, selects by the path alone and asks for the fields. -/
structure Subscribes (shown : RelPath → Option RelPath) (fields : List Field) (spec : QuerySpec) :
    Prop where
  since : spec.since = none
  full : spec.emptyOnFreshInstance = false
  byPath : SelectsByPath shown spec
  fields : spec.fields = fields

section Answers

variable {shown : RelPath → Option RelPath} {fields : List Field} {spec : QuerySpec} {r : Root}

theorem Subscribes.response (h : Subscribes shown fields spec) (env : Env) :
    (run env spec r).1.isFreshInstance = true ∧
      RowsSince shown fields none env r (run env spec r).1.files := by
  have hsince : sinceTick r spec = none := by
    unfold sinceTick resolveNamedCursor
    rw [h.since]
    rfl
  refine ⟨by rw [isFreshInstance_run, decide_eq_true_iff]; exact .inl hsince, fun v => ?_⟩
  rw [files_run, if_neg (by simp [h.full]), mem_rows_iff, h.fields, hsince]
  have hpast : ∀ e, Past none e := by rintro e t ⟨⟩
  constructor
  · rintro ⟨p, e, q, he, -, hselect, rfl⟩
    rw [h.byPath] at hselect
    exact ⟨p, q, e, hselect, he, by rintro t ⟨⟩, rfl⟩
  · rintro ⟨p, q, e, hshown, he, -, rfl⟩
    refine ⟨p, e, q, he, hpast e, ?_, rfl⟩
    rw [h.byPath]
    exact hshown

theorem Subscribes.select_pushSpec (h : Subscribes shown fields spec) {last : ℕ}
    (hlast : last < 2 ^ 64) (env : Env) (p : RelPath) (e : FileEntry) :
    select env r (pushSpec spec r.clock last) p e = shown p := by
  have hscm : resolveScmSet env spec = none := by
    unfold resolveScmSet
    rw [h.since]
  have hscm' : resolveScmSet env (pushSpec spec r.clock last) = none :=
    resolveScmSet_encode hlast rfl
  rw [← h.byPath env r p e]
  unfold select
  rw [hscm, hscm']
  rfl

/-- The answer of a round is a delta with the rows since the fence. -/
theorem Subscribes.round (h : Subscribes shown fields spec) (name : String) {last : ℕ}
    (hlast : last < 2 ^ 64) (hfull : r.jjEvents = false) (hold : r.oldestAvailableTick ≤ last)
    (env : Env) : ((Loop.push spec name).ask env r last).result.isFreshInstance = false ∧
      RowsSince shown fields (some last) env r
        ((Loop.push spec name).ask env r last).result.files := by
  have hfresh : ¬ IsFresh r (pushSpec spec r.clock last) :=
    not_isFresh_encode hlast rfl (.refl _) hfull hold
  have hsince : sinceTick r (pushSpec spec r.clock last) = some last :=
    sinceTick_encode hlast rfl (.refl _)
  have hresult : ((Loop.push spec name).ask env r last).result =
      (run env (pushSpec spec r.clock last) r).1 := rfl
  rw [hresult]
  refine ⟨by rw [isFreshInstance_run, decide_eq_false_iff_not]; exact hfresh, fun v => ?_⟩
  have hfields : (pushSpec spec r.clock last).fields = fields := h.fields
  rw [files_run, if_neg fun hf => hfresh hf.1, mem_rows_iff, hsince, hfields]
  constructor
  · rintro ⟨p, e, q, he, hpast, hselect, rfl⟩
    rw [h.select_pushSpec hlast] at hselect
    exact ⟨p, q, e, hselect, he, hpast, rfl⟩
  · rintro ⟨p, q, e, hshown, he, hnewer, rfl⟩
    refine ⟨p, e, q, he, hnewer, ?_, rfl⟩
    rw [h.select_pushSpec hlast]
    exact hshown

end Answers

/-! ## The run as a run of a replica -/

/-- A sweep in this state leaves the tombstones that no query of the loop has seen. -/
def SparesUnseen (σ : State) : Prop := ∀ p, SweepSparesUnseen p σ

/-- Until the fence is read no batch opens. -/
def NoBatchBehindFence (σ σ' : State) : Prop := ¬ σ.phase.Started → σ'.writer = .idle

/-- The root knows paths of `P` only. -/
def Within (P : Set RelPath) (r : Root) : Prop := ∀ p, r.tree.get p ≠ none → p ∈ P

/-- What the client believes: before the fence is read the tree as it is, after that the tree up to
the tick the last query observed, and with each message the tree it was asked of. -/
structure Hearing (P : Set RelPath) (shown : RelPath → Option RelPath) (fields : List Field)
    (name : String) (base : View String Value) (σ : State) : Prop where
  within : Within P σ.root
  named : Named P shown (heard name base σ.answers)
  before : ¬ σ.phase.Started → σ.writer = .idle ∧
    viewOf P shown (heard name base σ.answers) = (store P shown fields σ.root).values
  upTo : σ.phase.Started → UpTo (some σ.observed) (store P shown fields σ.root)
    (viewOf P shown (heard name base σ.answers))
  writing : σ.phase.Started → ∀ ev rest, σ.writer = .batch ev rest → σ.observed < ev.tick
  start_le : σ.phase.Started → σ.startTick ≤ σ.observed
  answered : ∀ a ∈ σ.answers, a.root.clock.ticks ≤ σ.observed
  snapshots : ∀ a earlier, a :: earlier <:+ σ.answers → ∀ env,
    (⟨a.root, heard name base (a :: earlier)⟩ : Observed).KnowsLive env shown fields

section Steps

variable {P : Set RelPath} {shown : RelPath → Option RelPath} {fields : List Field}
  {name : String} {base : View String Value} {spec : QuerySpec} {σ σ' : State}

theorem values_prune {r : Root} (hfull : r.jjEvents = false) :
    (store P shown fields r.pruneTombstones.1).values = (store P shown fields r).values := by
  have hclock : Clock.Same r.clock r.pruneTombstones.1.clock := by
    rw [(Root.cursors_pruneTombstones r).2]
    exact .refl _
  funext p
  unfold Store.values
  rcases get_pruneTombstones_or hfull p with hsame | ⟨hgone, e, he, hdead, -⟩
  · rw [store_congr hclock hsame]
  · -- a tombstone has no value, nor has a path that is gone
    unfold store
    rw [hgone, he]
    cases shown p with
    | none => rfl
    | some q => exact (if_neg (by simp [hdead])).symm

theorem store_congr_tree {r r' : Root} (hclock : Clock.Same r.clock r'.clock)
    (htree : r'.tree = r.tree) : store P shown fields r' = store P shown fields r := by
  funext p
  exact store_congr hclock (by rw [htree])

/-- A step that neither asks nor reads the fence, if the tree changes past what was observed. -/
theorem Hearing.mono (h : Hearing P shown fields name base σ) (hanswers : σ'.answers = σ.answers)
    (hobserved : σ'.observed = σ.observed) (hstart : σ'.startTick = σ.startTick)
    (hphase : σ'.phase.Started ↔ σ.phase.Started) (hwithin : Within P σ'.root)
    (hbefore : ¬ σ.phase.Started → σ'.writer = .idle ∧
      (store P shown fields σ'.root).values = (store P shown fields σ.root).values)
    (hevolves : σ.phase.Started →
      Evolves (some σ.observed) (store P shown fields σ.root) (store P shown fields σ'.root))
    (hwriting : σ.phase.Started → ∀ ev rest, σ'.writer = .batch ev rest → σ.observed < ev.tick) :
    Hearing P shown fields name base σ' := by
  refine ⟨hwithin, ?_, ?_, ?_, ?_, ?_, ?_, ?_⟩
  · rw [hanswers]
    exact h.named
  · intro hnot
    rw [hphase] at hnot
    rw [hanswers, (hbefore hnot).2]
    exact ⟨(hbefore hnot).1, (h.before hnot).2⟩
  · intro hstarted
    rw [hphase] at hstarted
    rw [hanswers, hobserved]
    exact (h.upTo hstarted).evolves (hevolves hstarted)
  · intro hstarted
    rw [hphase] at hstarted
    rw [hobserved]
    exact hwriting hstarted
  · intro hstarted
    rw [hphase] at hstarted
    rw [hobserved, hstart]
    exact h.start_le hstarted
  · rw [hanswers, hobserved]
    exact h.answered
  · rw [hanswers]
    exact h.snapshots

/-- A step that leaves the entries of the tree alone and opens no batch. -/
theorem Hearing.still (h : Hearing P shown fields name base σ) (hanswers : σ'.answers = σ.answers)
    (hobserved : σ'.observed = σ.observed) (hstart : σ'.startTick = σ.startTick)
    (hphase : σ'.phase.Started ↔ σ.phase.Started) (hclock : Clock.Same σ.root.clock σ'.root.clock)
    (htree : σ'.root.tree = σ.root.tree) (hwriter : σ'.writer = σ.writer ∨ σ'.writer = .idle) :
    Hearing P shown fields name base σ' := by
  have hstore : store P shown fields σ'.root = store P shown fields σ.root :=
    store_congr_tree hclock htree
  refine h.mono hanswers hobserved hstart hphase ?_ ?_ ?_ ?_
  · intro p
    rw [htree]
    exact h.within p
  · intro hnot
    rw [hstore]
    refine ⟨?_, rfl⟩
    rcases hwriter with hsame | hidle
    · rw [hsame]
      exact (h.before hnot).1
    · exact hidle
  · intro _
    rw [hstore]
    exact .refl _ _
  · intro hstarted ev rest hw
    rcases hwriter with hsame | hidle
    · rw [hsame] at hw
      exact h.writing hstarted ev rest hw
    · rw [hidle] at hw
      cases hw

theorem Hearing.openBatch (h : Hearing P shown fields name base σ)
    (hi : Inv (.push spec name) σ) (arenaBytes : ℕ) (changes : List PathChange)
    (hstarted : σ.phase.Started) :
    Hearing P shown fields name base { σ with
      root := σ.root.openBatch arenaBytes
      writer := .batch ⟨σ.root.clock.bump.ticks, changes.map PathChange.rel⟩ changes } := by
  rw [Root.openBatch_of_full hi.ticking.full]
  refine h.mono rfl rfl rfl Iff.rfl h.within (fun hnot => absurd hstarted hnot) ?_ ?_
  · intro _
    show Evolves _ _ (store P shown fields σ.root.bump)
    rw [@store_congr_tree P shown fields σ.root σ.root.bump (Clock.Same.refl _).bump rfl]
    exact .refl _ _
  · rintro - ev rest ⟨rfl, rfl⟩
    exact Nat.lt_succ_of_le (hi.ahead hstarted).observed_le

theorem Hearing.writeChange (h : Hearing P shown fields name base σ) {ev : TickEvent}
    {c : PathChange} {rest : List PathChange} (hw : σ.writer = .batch ev (c :: rest))
    (hwithin : Within P (σ.root.writeChange ev.tick c)) :
    Hearing P shown fields name base { σ with
      root := σ.root.writeChange ev.tick c
      writer := .batch ev rest
      log := (ev.tick, c) :: σ.log } := by
  refine h.mono rfl rfl rfl Iff.rfl hwithin ?_ ?_ ?_
  · intro hnot
    have hidle := (h.before hnot).1
    rw [hw] at hidle
    cases hidle
  · intro hstarted
    refine evolves_of_paths (.refl _) fun p => ?_
    rcases get_applyChange_or σ.root.jjEvents ev.tick σ.root.tree c p with
      hsame | ⟨-, e, he, htick⟩
    · exact .inl hsame
    · refine .inr (.inl ⟨e, he, ?_⟩)
      rintro t ⟨⟩
      rw [htick]
      exact h.writing hstarted ev _ hw
  · rintro hstarted ev' rest' ⟨rfl, rfl⟩
    exact h.writing hstarted ev _ hw

theorem Hearing.sweep (h : Hearing P shown fields name base σ) (hfull : σ.root.jjEvents = false)
    (hidle : σ.writer = .idle) (hspares : SparesUnseen σ) :
    Hearing P shown fields name base { σ with root := σ.root.pruneTombstones.1 } := by
  refine h.mono rfl rfl rfl Iff.rfl ?_ (fun _ => ⟨hidle, values_prune hfull⟩) ?_ ?_
  · intro p hp
    rcases get_pruneTombstones_or hfull p with hsame | ⟨hgone, -⟩
    · refine h.within p ?_
      rw [← hsame]
      exact hp
    · exact absurd hgone hp
  · intro hstarted
    refine evolves_of_paths ?_ fun p => pathEvolves_prune hfull ?_
    · show Clock.Same _ σ.root.pruneTombstones.1.clock
      rw [(Root.cursors_pruneTombstones σ.root).2]
      exact .refl _
    · rintro t ⟨⟩
      exact hspares p hstarted
  · rintro - ev rest hw
    change σ.writer = _ at hw
    rw [hidle] at hw
    cases hw

/-- When the fence is read the client believes the tree as it is. -/
theorem Hearing.start (h : Hearing P shown fields name base σ) (hi : Inv (.push spec name) σ)
    (hphase : σ.phase = .subscribed) :
    Hearing P shown fields name base { σ with
      phase := .listening
      lastTick := σ.root.clock.ticks
      observed := σ.root.clock.ticks
      startTick := σ.root.clock.ticks
      startTree := σ.root.tree
      log := [] } := by
  have hnot : ¬ σ.phase.Started := by
    rw [hphase]
    exact id
  obtain ⟨hidle, hvalues⟩ := h.before hnot
  have hsilent := hi.silent hnot
  refine ⟨h.within, h.named, fun hn => absurd trivial hn, fun _ => ?_, ?_, fun _ => le_rfl, ?_,
    h.snapshots⟩
  · show UpTo _ (store P shown fields σ.root) (viewOf P shown (heard name base σ.answers))
    rw [hvalues]
    exact upTo_values _ _
  · rintro - ev rest hw
    change σ.writer = _ at hw
    rw [hidle] at hw
    cases hw
  · show ∀ a ∈ σ.answers, _
    rw [hsilent]
    simp

/-- A round makes the client believe the tree as it is. -/
theorem Hearing.round (h : Hearing P shown fields name base σ) (hi : Inv (.push spec name) σ)
    (hspec : Subscribes shown fields spec) (hfields : Telling fields)
    (hapart : ShownApart P shown) {ev : TickEvent} (hphase : σ.phase = .handling ev)
    (hidle : σ.writer = .idle) (env : Env) {r' : Root} (hindex : Root.SameIndex σ.root r') :
    Hearing P shown fields name base { σ with
      root := r'
      lastTick := (Loop.push spec name).fence ev
        ((Loop.push spec name).ask env σ.root σ.lastTick)
      phase := .after ((Loop.push spec name).ask env σ.root σ.lastTick) (.push spec name)
      answers := (Loop.push spec name).record
        ((Loop.push spec name).ask env σ.root σ.lastTick) σ.answers
      observed := σ.root.clock.ticks } := by
  have hstarted : σ.phase.Started := by
    rw [hphase]
    trivial
  have ha := hi.ahead hstarted
  have hlast : σ.lastTick < 2 ^ 64 :=
    (ha.last_le.trans ha.observed_le).trans_lt hi.ticking.bound
  obtain ⟨a, hask⟩ : ∃ a, (Loop.push spec name).ask env σ.root σ.lastTick = a := ⟨_, rfl⟩
  have hroot : a.root = σ.root := by
    rw [← hask]
    rfl
  obtain ⟨hdelta, hrows⟩ := hspec.round name hlast hi.ticking.full ha.oldest_le env
  rw [hask] at hdelta hrows ⊢
  -- what the client believes after the round
  have hnamed : Named P shown (tell (heard name base σ.answers) a.result) := by
    rw [tell_of_delta hdelta]
    exact hrows.named h.within hfields h.named
  have hvalues : viewOf P shown (tell (heard name base σ.answers) a.result) =
      (store P shown fields σ.root).values := by
    rw [tell_of_delta hdelta, hrows.view h.within hfields hapart]
    exact ((h.upTo hstarted).mono ha.last_le).apply_since
  refine ⟨?_, ?_, fun hn => absurd (started_after a (.push spec name)) hn, ?_, ?_,
    ?_, ?_, ?_⟩
  · intro p
    rw [hindex.tree]
    exact h.within p
  · rw [heard_record]
    exact hnamed
  · intro _
    show UpTo _ (store P shown fields r') (viewOf P shown (heard name base (Loop.record _ a _)))
    rw [heard_record, hvalues, store_congr_tree hindex.clock hindex.tree]
    exact upTo_values _ _
  · rintro - ev' rest hw
    change σ.writer = _ at hw
    rw [hidle] at hw
    cases hw
  · exact fun _ => (h.start_le hstarted).trans ha.observed_le
  · intro b hb
    rcases mem_of_mem_record hb with rfl | hmem
    · rw [hroot]
    · exact (h.answered b hmem).trans ha.observed_le
  · intro b earlier hsuffix env'
    rcases suffix_record hsuffix with ⟨rfl, rfl⟩ | hold
    · rw [heard_cons, hroot]
      exact knowsLive_of_values (o := ⟨σ.root, _⟩) h.within hnamed hfields hvalues env'
    · exact h.snapshots b earlier hold env'

theorem Hearing.step (h : Hearing P shown fields name base σ) (hi : Inv (.push spec name) σ)
    (hspec : Subscribes shown fields spec) (hfields : Telling fields)
    (hapart : ShownApart P shown) (hs : Step (.push spec name) SparesUnseen σ σ')
    (hfence : NoBatchBehindFence σ σ') (hwithin : Within P σ'.root) :
    Hearing P shown fields name base σ' := by
  have hstarted : ∀ {phase : Phase}, σ.phase = phase → phase.Started → σ.phase.Started :=
    fun hphase hs => hphase ▸ hs
  cases hs with
  | openBatch arenaBytes changes hidle hticks hfew =>
    refine h.openBatch hi arenaBytes changes ?_
    by_contra hnot
    cases hfence hnot
  | writeChange hw => exact h.writeChange hw hwithin
  | release hw => exact h.still rfl rfl rfl Iff.rfl (.refl _) rfl (.inr rfl)
  | broadcastUnheard hphase hev => exact h.still rfl rfl rfl Iff.rfl (.refl _) rfl (.inl rfl)
  | broadcast hphase hev => exact h.still rfl rfl rfl Iff.rfl (.refl _) rfl (.inl rfl)
  | bump hticks => exact h.still rfl rfl rfl Iff.rfl (Clock.Same.refl _).bump rfl (.inl rfl)
  | sweep hidle hsweep => exact h.sweep hi.ticking.full hidle hsweep
  | subscribe hphase =>
    refine h.still rfl rfl rfl ?_ (.refl _) rfl (.inl rfl)
    rw [hphase]
    rfl
  | start hphase => exact h.start hi hphase
  | receive hphase hq =>
    exact h.still rfl rfl rfl (iff_of_true trivial (hstarted hphase trivial)) (.refl _) rfl
      (.inl rfl)
  | skip hphase hle =>
    exact h.still rfl rfl rfl (iff_of_true trivial (hstarted hphase trivial)) (.refl _) rfl
      (.inl rfl)
  | round env hphase hlt hidle =>
    exact h.round hi hspec hfields hapart hphase hidle env (sameIndex_run _ _ _).1
  | finish hphase =>
    exact h.still rfl rfl rfl (iff_of_true trivial (hstarted hphase trivial)) (.refl _) rfl
      (.inl rfl)

/-- The client takes the files of the response whatever it believed before. -/
theorem Hearing.init (hspec : Subscribes shown fields spec) (hfields : Telling fields)
    (hapart : ShownApart P shown) (hphase : ¬ σ.phase.Started) (hidle : σ.writer = .idle)
    (hsilent : σ.answers = []) (hwithin : Within P σ.root) (env : Env)
    (before : View String Value) :
    Hearing P shown fields name (tell before (run env spec σ.root).1) σ := by
  obtain ⟨hfresh, hrows⟩ := @Subscribes.response shown fields spec σ.root hspec env
  have htell : tell before (run env spec σ.root).1 =
      (run env spec σ.root).1.files.foldl learn fun _ => none := by
    unfold Query.tell
    rw [hfresh]
    rfl
  have hheard : heard name (tell before (run env spec σ.root).1) σ.answers =
      (run env spec σ.root).1.files.foldl learn fun _ => none := by
    rw [hsilent, ← htell]
    rfl
  refine ⟨hwithin, ?_, fun _ => ⟨hidle, ?_⟩, fun hs => absurd hs hphase, fun hs => absurd hs hphase,
    fun hs => absurd hs hphase, ?_, ?_⟩
  · rw [hheard]
    exact hrows.named hwithin hfields named_empty
  · rw [hheard, hrows.view hwithin hfields hapart, viewOf_empty]
    exact (upTo_none _).apply_since
  · rw [hsilent]
    simp
  · intro a earlier hsuffix
    rw [hsilent] at hsuffix
    simp at hsuffix

/-- If every batch has been dealt with, nothing is younger than what the last query observed. -/
theorem Hearing.knowsLive (h : Hearing P shown fields name base σ) (hi : Inv (.push spec name) σ)
    (hspec : Subscribes shown fields spec) (hfields : Telling fields)
    (hstarted : σ.phase.Started) (hincoming : σ.incoming = []) (hpending : σ.pending = [])
    (env : Env) :
    (⟨σ.root, heard name base σ.answers⟩ : Observed).KnowsLive env shown fields := by
  refine knowsLive_of_values (o := ⟨σ.root, _⟩) h.within h.named hfields
    ((h.upTo hstarted).eq_values ?_) env
  intro p record hrecord
  obtain ⟨q, hq, hrecord⟩ := Option.bind_eq_some_iff.mp hrecord
  obtain ⟨e, he, rfl⟩ := Option.map_eq_some_iff.mp hrecord
  show e.oclock ≤ σ.observed
  by_cases hyoung : σ.startTick < e.oclock
  · rcases (hi.ahead hstarted).entries p e he hyoung with hsettled | ⟨-, hflight | ⟨ev, hev, -⟩⟩
    · obtain ⟨a, ha, hle, -⟩ := hsettled emptyEnv q ((hspec.byPath _ _ _ _).trans hq)
      exact hle.trans (h.answered a ha)
    · obtain ⟨ev, hev, -⟩ := hflight
      rw [hpending] at hev
      cases hev
    · rw [hincoming] at hev
      cases hev
  · exact (not_lt.mp hyoung).trans (h.start_le hstarted)

end Steps

/-- A step of the subscription, its root and its sweeps. -/
structure Follows (P : Set RelPath) (spec : QuerySpec) (name : String) (σ σ' : State) : Prop where
  step : Step (.push spec name) SparesUnseen σ σ'
  fence : NoBatchBehindFence σ σ'
  within : Within P σ'.root

/-- A full-index root reaches `σ₁`, where the client gets its response between two batches, and
from there `σ`. -/
structure Listens (P : Set RelPath) (spec : QuerySpec) (name : String) (σ₁ σ : State) : Prop where
  start : ∃ σ₀, Start σ₀ ∧ Run (Step (.push spec name) fun _ => True) σ₀ σ₁
  absent : σ₁.phase = .absent
  idle : σ₁.writer = .idle
  within : Within P σ₁.root
  run : Run (Follows P spec name) σ₁ σ

/-- What a client believes that took the files of the response, whatever it believed before. -/
def believed (env : Env) (spec : QuerySpec) (name : String) (before : View String Value)
    (r : Root) (answers : List Answer) : View String Value :=
  heard name (tell before (Query.run env spec r).1) answers

theorem Listens.hearing {P : Set RelPath} {shown : RelPath → Option RelPath} {fields : List Field}
    {spec : QuerySpec} {name : String} {σ₁ σ : State} (h : Listens P spec name σ₁ σ)
    (hfields : Telling fields) (hapart : ShownApart P shown) (hspec : Subscribes shown fields spec)
    (env : Env) (before : View String Value) : Inv (.push spec name) σ ∧
      Hearing P shown fields name (tell before (Query.run env spec σ₁.root).1) σ := by
  obtain ⟨⟨σ₀, hstart, hbefore⟩, hphase, hidle, hwithin, hrun⟩ := h
  have hnot : ¬ σ₁.phase.Started := by
    rw [hphase]
    exact id
  have hinv₁ : Inv (.push spec name) σ₁ :=
    hbefore.preserves (fun s s' h hs => h.step hs) (Inv.init hstart)
  have hheard₁ := @Hearing.init P shown fields name spec σ₁ hspec hfields hapart hnot hidle
    (hinv₁.silent hnot) hwithin env before
  have hpreserved : ∀ s s', Inv (.push spec name) s ∧
      Hearing P shown fields name (tell before (Query.run env spec σ₁.root).1) s →
      Follows P spec name s s' → Inv (.push spec name) s' ∧
        Hearing P shown fields name (tell before (Query.run env spec σ₁.root).1) s' := by
    rintro s s' ⟨hi, hh⟩ hs
    exact ⟨hi.step hs.step, hh.step hi hspec hfields hapart hs.step hs.fence hs.within⟩
  exact hrun.preserves hpreserved ⟨hinv₁, hheard₁⟩

/-- **What the messages add up to.** A client subscribes to a full-index root in any state between
two batches, with a query without a clock that selects by the path alone; the paths of the run are
shown under different names, no batch opens until the fence is read, and no sweep drops a tombstone
that no query of the loop has seen. Then, with any batches, lags and rounds in any order, the rows
of the response and of the messages up to any one of them add up to what was live when that message
was made; and once the loop has dealt with every batch they add up to what is live now. -/
theorem subscriber_knows_live (shown : RelPath → Option RelPath) (fields : List Field)
    (hfields : Telling fields) (P : Set RelPath) (hapart : ShownApart P shown) (spec : QuerySpec)
    (hspec : Subscribes shown fields spec) (name : String) {σ₁ σ : State}
    (hlistens : Listens P spec name σ₁ σ) (env : Env) (before : View String Value) :
    (∀ a earlier, a :: earlier <:+ σ.answers → ∀ env',
      (⟨a.root, believed env spec name before σ₁.root (a :: earlier)⟩ : Observed).KnowsLive env'
        shown fields) ∧
    (σ.phase.Started → σ.incoming = [] → σ.pending = [] → ∀ env',
      (⟨σ.root, believed env spec name before σ₁.root σ.answers⟩ : Observed).KnowsLive env'
        shown fields) := by
  obtain ⟨hinv, hheard⟩ := hlistens.hearing hfields hapart hspec env before
  exact ⟨hheard.snapshots, fun hstarted hincoming hpending env' =>
    hheard.knowsLive hinv hspec hfields hstarted hincoming hpending env'⟩

/-! ## Catching up -/

/-- A step of the batch at work, of the broadcast or of the loop, while the clock stands still. -/
structure Settles (loop : Loop) (σ σ' : State) : Prop where
  step : Step loop (fun _ => False) σ σ'
  clock : σ'.root.clock = σ.root.clock

def writerWork : Writer → ℕ
  | .idle => 0
  | .batch _ rest => 5 + rest.length

def Phase.work : Phase → ℕ
  | .handling _ => 2
  | .running => 1
  | _ => 0

/-- How many such steps are left at most: an event is worth more the farther it is from the end of
its way. -/
def work (σ : State) : ℕ :=
  writerWork σ.writer + 4 * σ.unsent.length + 3 * σ.queue.length + σ.phase.work

section Settling

variable {loop : Loop} {σ σ' : State}

theorem length_send_le (capacity : ℕ) (queue : List TickEvent) (ev : TickEvent) :
    (Lagging.send capacity queue ev).length ≤ queue.length + 1 := by
  unfold Lagging.send
  rw [List.length_drop, List.length_append, List.length_singleton]
  exact Nat.sub_le _ _

theorem Settles.started (hs : Settles loop σ σ') (hstarted : σ.phase.Started) :
    σ'.phase.Started := by
  obtain ⟨hs, -⟩ := hs
  cases hs with
  | subscribe hphase =>
    rw [hphase] at hstarted
    exact hstarted.elim
  | round env hphase hlt hidle => exact started_after _ loop
  | start hphase => trivial
  | receive hphase hq => trivial
  | skip hphase hle => trivial
  | finish hphase => trivial
  | _ => exact hstarted

theorem work_after (a : Answer) (loop : Loop) : (Phase.after a loop).work ≤ 1 := by
  cases loop with
  | push spec name => exact Nat.zero_le 1
  | trigger expression =>
    unfold Phase.after
    dsimp only
    split_ifs
    · exact le_rfl
    · exact Nat.zero_le 1

/-- Each such step leaves less to do. -/
theorem Settles.work_lt (hs : Settles loop σ σ') (hstarted : σ.phase.Started) :
    work σ' < work σ := by
  obtain ⟨hs, hclock⟩ := hs
  unfold work
  cases hs with
  | openBatch arenaBytes changes hidle hticks hfew =>
    -- the clock does not stand still
    change (σ.root.openBatch arenaBytes).clock = σ.root.clock at hclock
    have hticks : σ.root.clock.bump = σ.root.clock := (Root.clock_openBatch _ _).symm.trans hclock
    exact absurd (congrArg Clock.ticks hticks) (Nat.succ_ne_self _)
  | writeChange hw =>
    rw [hw]
    simp only [writerWork, List.length_cons]
    omega
  | release hw =>
    rw [hw]
    simp only [writerWork, List.length_cons, List.length_nil]
    omega
  | broadcastUnheard hphase hev =>
    rw [hphase] at hstarted
    exact hstarted.elim
  | @broadcast _ ev hphase hev =>
    have hlength := length_send_le tickChannelCapacity σ.queue ev
    have hpos := List.length_pos_of_mem hev
    simp only [List.length_erase_of_mem hev]
    omega
  | bump hticks =>
    exact absurd (congrArg Clock.ticks hclock) (Nat.succ_ne_self _)
  | sweep hidle hsweep => exact hsweep.elim
  | subscribe hphase =>
    rw [hphase] at hstarted
    exact hstarted.elim
  | start hphase =>
    rw [hphase] at hstarted
    exact hstarted.elim
  | receive hphase hq =>
    rw [hphase, hq]
    simp only [Phase.work, List.length_cons]
    omega
  | skip hphase hle =>
    rw [hphase]
    simp only [Phase.work]
    omega
  | @round env _ ev hphase hlt hidle =>
    have hafter := work_after (loop.ask env σ.root σ.lastTick) loop
    have hbefore : σ.phase.work = 2 := by
      rw [hphase]
      rfl
    dsimp only
    omega
  | finish hphase =>
    rw [hphase]
    simp only [Phase.work]
    omega

/-- As long as something is left to do, there is such a step. -/
theorem exists_settles (hstarted : σ.phase.Started) (hleft : σ.incoming ≠ [] ∨ σ.pending ≠ []) :
    ∃ σ', Settles loop σ σ' := by
  cases hw : σ.writer with
  | batch ev rest =>
    cases rest with
    | nil => exact ⟨_, .release hw, rfl⟩
    | cons c rest => exact ⟨_, .writeChange hw, rfl⟩
  | idle =>
    rw [pending_of_idle hw] at hleft
    by_cases hunsent : σ.unsent = []
    · have hincoming := hleft.resolve_right (not_not.mpr hunsent)
      cases hphase : σ.phase with
      | absent =>
        rw [hphase] at hstarted
        exact hstarted.elim
      | subscribed =>
        rw [hphase] at hstarted
        exact hstarted.elim
      | listening =>
        rw [incoming_of_phase hphase] at hincoming
        cases hq : σ.queue with
        | nil => exact absurd hq hincoming
        | cons ev rest => exact ⟨_, .receive hphase hq, rfl⟩
      | handling ev =>
        by_cases hle : ev.tick ≤ σ.lastTick
        · exact ⟨_, .skip hphase hle, rfl⟩
        · exact ⟨_, .round emptyEnv hphase (not_le.mp hle) hw, clock_run_root _ _ _⟩
      | running => exact ⟨_, .finish hphase, rfl⟩
    · obtain ⟨ev, hev⟩ := List.exists_mem_of_ne_nil σ.unsent hunsent
      refine ⟨_, .broadcast ?_ hev, rfl⟩
      intro hphase
      rw [hphase] at hstarted
      exact hstarted

theorem acc_settles (hstarted : σ.phase.Started) : Acc (fun s' s => Settles loop s s') σ :=
  acc_of_measure work (fun _ _ h hs => hs.started h) (fun _ _ h hs => hs.work_lt h) hstarted

/-- The batch at work changes paths of `P` only. -/
def WritesWithin (P : Set RelPath) (σ : State) : Prop :=
  ∀ ev rest, σ.writer = .batch ev rest → ∀ c ∈ rest, c.rel ∈ P

theorem Settles.follows {P : Set RelPath} {spec : QuerySpec} {name : String}
    (hs : Settles (.push spec name) σ σ') (hstarted : σ.phase.Started)
    (hwithin : Within P σ.root) (hwrites : WritesWithin P σ) :
    Follows P spec name σ σ' ∧ WritesWithin P σ' := by
  have hstep := hs.step
  have hsweep : Step (.push spec name) SparesUnseen σ σ' := by
    cases hstep with
    | openBatch arenaBytes changes hidle hticks hfew => exact .openBatch _ _ hidle hticks hfew
    | writeChange hw => exact .writeChange hw
    | release hw => exact .release hw
    | broadcastUnheard hphase hev => exact .broadcastUnheard hphase hev
    | broadcast hphase hev => exact .broadcast hphase hev
    | bump hticks => exact .bump hticks
    | sweep hidle hnever => exact hnever.elim
    | subscribe hphase => exact .subscribe hphase
    | start hphase => exact .start hphase
    | receive hphase hq => exact .receive hphase hq
    | skip hphase hle => exact .skip hphase hle
    | round env hphase hlt hidle => exact .round env hphase hlt hidle
    | finish hphase => exact .finish hphase
  have hafter : Within P σ'.root ∧ WritesWithin P σ' := by
    cases hstep with
    | openBatch arenaBytes changes hidle hticks hfew =>
      have hclock : σ.root.clock.bump = σ.root.clock :=
        (Root.clock_openBatch _ _).symm.trans hs.clock
      exact absurd (congrArg Clock.ticks hclock) (Nat.succ_ne_self _)
    | @writeChange _ ev c rest hw =>
      obtain ⟨hc, hrest⟩ := List.forall_mem_cons.mp (hwrites ev (c :: rest) hw)
      refine ⟨fun p hp => ?_, ?_⟩
      · rcases get_applyChange_or σ.root.jjEvents ev.tick σ.root.tree c p with hsame | ⟨rfl, -⟩
        · refine hwithin p ?_
          rw [← hsame]
          exact hp
        · exact hc
      · rintro ev' rest' ⟨rfl, rfl⟩
        exact hrest
    | release hw => exact ⟨hwithin, by rintro ev' rest' ⟨⟩⟩
    | sweep hidle hnever => exact hnever.elim
    | round env hphase hlt hidle =>
      refine ⟨fun p hp => hwithin p ?_, hwrites⟩
      rw [← tree_run_root env (pushSpec (Loop.push spec name).spec σ.root.clock σ.lastTick) σ.root]
      exact hp
    | _ => exact ⟨hwithin, hwrites⟩
  exact ⟨⟨hsweep, fun hnot => absurd hstarted hnot, hafter.1⟩, hafter.2⟩

theorem Settles.run {P : Set RelPath} {spec : QuerySpec} {name : String}
    (hrun : Run (Settles (.push spec name)) σ σ') (hstarted : σ.phase.Started)
    (hwithin : Within P σ.root) (hwrites : WritesWithin P σ) :
    Run (Follows P spec name) σ σ' ∧ σ'.phase.Started ∧ Within P σ'.root ∧
      WritesWithin P σ' := by
  induction hrun with
  | refl => exact ⟨.refl, hstarted, hwithin, hwrites⟩
  | tail _ hs ih =>
    obtain ⟨hrun, hstarted, hwithin, hwrites⟩ := ih
    obtain ⟨hfollows, hwrites⟩ := hs.follows hstarted hwithin hwrites
    exact ⟨hrun.tail hfollows, hs.started hstarted, hfollows.within, hwrites⟩

end Settling

/-- **Catching up.** From any state of such a run whose batch changes paths of the run only, the
steps of the batch, of the broadcast and of the loop come to an end while the clock stands still, in
whatever order they are taken, and at the end the rows of the response and of all messages add up to
what is live. -/
theorem subscriber_catches_up (shown : RelPath → Option RelPath) (fields : List Field)
    (hfields : Telling fields) (P : Set RelPath) (hapart : ShownApart P shown) (spec : QuerySpec)
    (hspec : Subscribes shown fields spec) (name : String) {σ₁ σ : State}
    (hlistens : Listens P spec name σ₁ σ) (hstarted : σ.phase.Started)
    (hwrites : WritesWithin P σ) (env : Env) (before : View String Value) :
    Acc (fun s' s => Settles (.push spec name) s s') σ ∧
      ∀ σ', Run (Settles (.push spec name)) σ σ' →
        (¬ ∃ σ'', Settles (.push spec name) σ' σ'') → ∀ env',
          (⟨σ'.root, believed env spec name before σ₁.root σ'.answers⟩ : Observed).KnowsLive env'
            shown fields := by
  refine ⟨acc_settles hstarted, fun σ' hrun hstuck env' => ?_⟩
  have hwithin : Within P σ.root :=
    hlistens.run.preserves (fun _ _ _ hs => hs.within) hlistens.within
  obtain ⟨hfollows, hstarted', -⟩ := Settles.run hrun hstarted hwithin hwrites
  have hlistens' : Listens P spec name σ₁ σ' :=
    { hlistens with run := hlistens.run.trans hfollows }
  have hdone : σ'.incoming = [] ∧ σ'.pending = [] := by
    by_contra hleft
    rw [not_and_or] at hleft
    exact hstuck (exists_settles hstarted' hleft)
  exact (subscriber_knows_live shown fields hfields P hapart spec hspec name hlistens' env
    before).2 hstarted' hdone.1 hdone.2 env'

/-! ## A file that is deleted under a subscription -/

theorem subscribes_everything :
    Subscribes (shownBy everything) Field.defaultFields everything :=
  ⟨rfl, rfl, selectsByPath_of_pathOnly (fun _ => rfl) rfl rfl, rfl⟩

theorem telling_defaultFields : Telling Field.defaultFields := ⟨by decide, by decide, by decide⟩

/-- The event of the batch that deletes `a`. -/
def aDeleted : TickEvent := ⟨3, [[[0x61]]]⟩

/-- The loop, waiting, when the batch has been opened. -/
def deletionOpened : State :=
  ⟨oneFile.openBatch 0, .batch aDeleted [.remove [[0x61]]], [], [], 2, .listening, [], [], 2, 2,
    oneFile.tree, []⟩

theorem listens_deletionOpened :
    Listens {p | IsText p} everything "s" beforeLoop deletionOpened := by
  have hwithin : Within {p | IsText p} oneFile := fun p hp => isText_of_seed hp
  refine ⟨⟨beforeLoop, start_beforeLoop, .refl⟩, rfl, rfl, hwithin, ?_⟩
  have h₁ : Run (Follows {p | IsText p} everything "s") beforeLoop waitingLoop :=
    .tail (.single ⟨.subscribe rfl, fun _ => rfl, hwithin⟩) ⟨.start rfl, fun _ => rfl, hwithin⟩
  exact h₁.tail ⟨.openBatch 0 [.remove [[0x61]]] rfl (by decide) tickChannelCapacity_pos,
    fun hnot => absurd trivial hnot, hwithin⟩

theorem writesWithin_deletionOpened : WritesWithin {p | IsText p} deletionOpened := by
  rintro ev rest ⟨rfl, rfl⟩ c hc
  rw [List.mem_singleton.mp hc]
  exact isText_letter ⟨"a", by decide⟩ (by decide)

theorem run_deletionOpened : ∃ σ, Run (Settles subscription) deletionOpened σ ∧
    σ.answers ≠ [] ∧ σ.incoming = [] ∧ σ.pending = [] := by
  have h₀ : Run (Settles subscription) deletionOpened deletionOpened := .refl
  have h₁ := h₀.tail ⟨.writeChange rfl, rfl⟩
  have h₂ := h₁.tail ⟨.release rfl, rfl⟩
  have h₃ := h₂.tail ⟨.broadcast (by rintro ⟨⟩) (List.mem_singleton.mpr rfl), rfl⟩
  have h₄ := h₃.tail ⟨.receive rfl (Lagging.send_nil tickChannelCapacity_pos), rfl⟩
  have h₅ := h₄.tail ⟨.round emptyEnv rfl (by decide) rfl, rfl⟩
  refine ⟨_, h₅, ?_, rfl, rfl⟩
  dsimp only
  rw [Loop.record, if_pos (by decide)]
  exact List.cons_ne_nil _ _

/-- The client is told of the deletion and believes nothing any more. -/
theorem subscriber_knows_live_deletion :
    ∃ σ, Listens {p | IsText p} everything "s" beforeLoop σ ∧ σ.answers ≠ [] ∧
      (⟨σ.root, believed emptyEnv everything "s" (fun _ => none) oneFile σ.answers⟩ :
        Observed).KnowsLive emptyEnv (shownBy everything) Field.defaultFields := by
  obtain ⟨σ, hrun, hanswers, hincoming, hpending⟩ := run_deletionOpened
  have hopened : Within {p | IsText p} deletionOpened.root := fun p hp => isText_of_seed hp
  obtain ⟨hfollows, hstarted, -⟩ :=
    Settles.run hrun trivial hopened writesWithin_deletionOpened
  have hlistens : Listens {p | IsText p} everything "s" beforeLoop σ :=
    { listens_deletionOpened with run := listens_deletionOpened.run.trans hfollows }
  exact ⟨σ, hlistens, hanswers, (subscriber_knows_live (shownBy everything) Field.defaultFields
    telling_defaultFields {p | IsText p} (shownApart_of_isText everything) everything
    subscribes_everything "s" hlistens emptyEnv fun _ => none).2 hstarted hincoming hpending
    emptyEnv⟩

theorem subscriber_catches_up_deletion :
    Acc (fun s' s => Settles (.push everything "s") s s') deletionOpened ∧
      ∀ σ', Run (Settles (.push everything "s")) deletionOpened σ' →
        (¬ ∃ σ'', Settles (.push everything "s") σ' σ'') → ∀ env,
          (⟨σ'.root, believed emptyEnv everything "s" (fun _ => none) oneFile σ'.answers⟩ :
            Observed).KnowsLive env (shownBy everything) Field.defaultFields :=
  subscriber_catches_up (shownBy everything) Field.defaultFields telling_defaultFields
    {p | IsText p} (shownApart_of_isText everything) everything subscribes_everything "s"
    listens_deletionOpened trivial writesWithin_deletionOpened emptyEnv fun _ => none

end Loops

end Watchwoman
