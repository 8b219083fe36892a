import Watchwoman.Daemon.Root
import Watchwoman.Lib.Transition

/-!
# The registry of roots

`state.rs`: `register_root` looks its path up, and on a miss builds a root, crawls, attaches the
watch and puts the root into the map. The look-up and the insertion are two accesses to the map with
nothing held in between, so two calls that both miss build two roots, and the second insertion
replaces the first (`overlapping_calls_differ`). As long as no call looks the path up while another
one is between its miss and its insertion, all calls get the one root that stays registered
(`registered_once`).
-/

namespace Watchwoman.Registry

open Transition

/-! ## Building a root -/

/-- What a call finds outside of the daemon while it builds a root. -/
structure Surroundings where
  /-- Whether the path is a directory, if its metadata can be read. -/
  isDir : Option Bool
  ignores : WatchIgnores
  jjEvents : Bool
  /-- What `initial_scan` finds, and what it finds when a persisted trigger promotes the root. -/
  entries : List ScanEntry
  recrawl : List ScanEntry
  /-- The names of the persisted triggers. -/
  triggers : List String
  startTime : UInt64
  pid : UInt32
  /-- The error of `watcher::spawn`. -/
  watchError : Option String

/-- A root with its number, which tells apart the roots of one daemon. -/
structure Instance where
  number : ℕ
  root : Root

/-- The root of a call before its watch is attached. -/
def buildRoot (path : List Name) (number : ℕ) (s : Surroundings) : Root :=
  let root := Root.new path s.ignores s.jjEvents (UInt64.ofNat number) s.startTime s.pid
  let root := root.seed (if s.jjEvents then [] else s.entries)
  if s.triggers.any (· != "jj-background-monitor") then root.promoteToFull s.recrawl else root

/-- The part of `register_root` between the look-up and the insertion: the new value of the counter
and the root or the error. -/
def build (path : List Name) (counter : ℕ) (s : Surroundings) : ℕ × Except String Instance :=
  match s.isDir with
  | none => (counter, .error ("resolving metadata for " ++ pathText path))
  | some false => (counter, .error ("watch root " ++ pathText path ++ " is not a directory"))
  | some true =>
    match s.watchError with
    | some e => (counter + 1, .error e)
    | none => (counter + 1, .ok ⟨counter + 1, buildRoot path (counter + 1) s⟩)

/-! ## The system -/

/-- Where a call of `register_root` is. -/
inductive Call where
  | idle
  | missed (path : List Name)
  | built (path : List Name) (inst : Instance)
  | returned (path : List Name) (inst : Instance)
  | failed (path : List Name) (message : String)

/-- The call missed `path` and has not inserted its root. -/
def Call.Building (path : List Name) : Call → Prop
  | .missed q => q = path
  | .built q _ => q = path
  | _ => False

def Call.ofBuild (path : List Name) : Except String Instance → Call
  | .ok inst => .built path inst
  | .error message => .failed path message

structure State where
  roots : HashMap (List Name) Instance
  rootCounter : ℕ
  calls : ℕ → Call

/-- One step of a call, or of a call of `unregister_root`. -/
inductive Step : State → State → Prop
  | hit (c : ℕ) {σ : State} {path : List Name} {inst : Instance} (hc : σ.calls c = .idle)
    (hroot : σ.roots.lookup path = some inst) :
    Step σ { σ with calls := Function.update σ.calls c (.returned path inst) }
  | miss (c : ℕ) {σ : State} {path : List Name} (hc : σ.calls c = .idle)
    (hroot : σ.roots.lookup path = none) :
    Step σ { σ with calls := Function.update σ.calls c (.missed path) }
  | build (c : ℕ) (s : Surroundings) {σ : State} {path : List Name}
    (hc : σ.calls c = .missed path) :
    Step σ { σ with
      rootCounter := (build path σ.rootCounter s).1
      calls := Function.update σ.calls c (.ofBuild path (build path σ.rootCounter s).2) }
  | insert (c : ℕ) {σ : State} {path : List Name} {inst : Instance}
    (hc : σ.calls c = .built path inst) :
    Step σ { σ with
      roots := σ.roots.insert path inst
      calls := Function.update σ.calls c (.returned path inst) }
  | unregister (path : List Name) {σ : State} : Step σ { σ with roots := σ.roots.erase path }

/-- Any registry, and no call under way. -/
def Start (σ : State) : Prop := ∀ c, σ.calls c = .idle

/-- The step does not take `path` out of the registry. -/
def KeepsRegistered (path : List Name) (σ σ' : State) : Prop :=
  σ.roots.lookup path ≠ none → σ'.roots.lookup path ≠ none

/-- No call misses `path` in this step while another one builds a root for it. -/
def NoOverlap (path : List Name) (σ σ' : State) : Prop :=
  ∀ c, σ.calls c = .idle → σ'.calls c = .missed path → ∀ c', ¬ (σ.calls c').Building path

/-! ## One root per path -/

/-- At most one call builds a root for `path`, only while none is registered, and the root that any
call returned is the registered one. -/
structure Single (path : List Name) (σ : State) : Prop where
  one : ∀ c c', (σ.calls c).Building path → (σ.calls c').Building path → c = c'
  absent : ∀ c, (σ.calls c).Building path → σ.roots.lookup path = none
  returned : ∀ c inst, σ.calls c = .returned path inst → σ.roots.lookup path = some inst

section

variable {path : List Name} {σ σ' : State} {call : Call} {c : ℕ}

theorem Single.update (h : Single path σ) (counter : ℕ)
    (hb : call.Building path → (σ.calls c).Building path)
    (hr : ∀ inst, call = .returned path inst → σ.roots.lookup path = some inst) :
    Single path { σ with
      rootCounter := counter
      calls := Function.update σ.calls c call } := by
  have hbuilding : ∀ d, (Function.update σ.calls c call d).Building path →
      (σ.calls d).Building path :=
    (Function.forall_update_iff σ.calls
      fun d x => x.Building path → (σ.calls d).Building path).mpr ⟨hb, fun _ _ => id⟩
  have hreturned : ∀ d inst, Function.update σ.calls c call d = .returned path inst →
      σ.roots.lookup path = some inst :=
    (Function.forall_update_iff σ.calls
      fun _ x => ∀ inst, x = .returned path inst → σ.roots.lookup path = some inst).mpr
      ⟨hr, fun d _ => h.returned d⟩
  exact ⟨fun d d' hd hd' => h.one d d' (hbuilding d hd) (hbuilding d' hd'),
    fun d hd => h.absent d (hbuilding d hd), hreturned⟩

theorem Single.miss (h : Single path σ) (hroot : σ.roots.lookup path = none)
    (hnone : ∀ d, ¬ (σ.calls d).Building path) :
    Single path { σ with calls := Function.update σ.calls c (.missed path) } := by
  have honly : ∀ d, (Function.update σ.calls c (.missed path) d).Building path → d = c :=
    (Function.forall_update_iff σ.calls fun d x => x.Building path → d = c).mpr
      ⟨fun _ => rfl, fun d _ hd => absurd hd (hnone d)⟩
  have hreturned : ∀ d inst, Function.update σ.calls c (.missed path) d = .returned path inst →
      σ.roots.lookup path = some inst :=
    (Function.forall_update_iff σ.calls
      fun _ x => ∀ inst, x = .returned path inst → σ.roots.lookup path = some inst).mpr
      ⟨by rintro inst ⟨⟩, fun d _ => h.returned d⟩
  exact ⟨fun d d' hd hd' => (honly d hd).trans (honly d' hd').symm, fun _ _ => hroot, hreturned⟩

/-- The inserting call is the only one at work, and no call has returned yet. -/
theorem Single.insert (h : Single path σ) {inst : Instance} (hc : σ.calls c = .built path inst) :
    Single path { σ with
      roots := σ.roots.insert path inst
      calls := Function.update σ.calls c (.returned path inst) } := by
  have hbuilding : (σ.calls c).Building path := by rw [hc]; exact rfl
  have hnone := h.absent c hbuilding
  have hover : ∀ d, ¬ (Function.update σ.calls c (.returned path inst) d).Building path :=
    (Function.forall_update_iff σ.calls fun _ x => ¬ x.Building path).mpr
      ⟨id, fun d hdc hd => hdc (h.one d c hd hbuilding)⟩
  have hreturned : ∀ d inst', Function.update σ.calls c (.returned path inst) d =
      .returned path inst' → inst' = inst := by
    refine (Function.forall_update_iff σ.calls
      fun _ x => ∀ inst', x = .returned path inst' → inst' = inst).mpr ⟨?_, ?_⟩
    · rintro inst' ⟨rfl, rfl⟩
      rfl
    · intro d _ inst' hd
      rw [h.returned d inst' hd] at hnone
      cases hnone
  refine ⟨fun d _ hd => absurd hd (hover d), fun d hd => absurd hd (hover d), ?_⟩
  intro d inst' hd
  change (σ.roots.insert path inst).lookup path = _
  rw [HashMap.lookup_insert_eq, if_pos rfl, hreturned d inst' hd]

/-- Each step that keeps the path registered and overlaps with no other call keeps its root
single. -/
theorem Single.step (h : Single path σ) (hs : Step σ σ') (hkeeps : KeepsRegistered path σ σ')
    (hoverlap : NoOverlap path σ σ') : Single path σ' := by
  cases hs with
  | @hit c _ q inst hc hroot =>
    refine h.update σ.rootCounter (fun hb => absurd hb id) ?_
    rintro inst' ⟨rfl, rfl⟩
    exact hroot
  | @miss c _ q hc hroot =>
    by_cases hq : q = path
    · subst hq
      exact h.miss hroot (hoverlap c hc (Function.update_self c _ σ.calls))
    · exact h.update σ.rootCounter (fun hb => absurd hb hq) (by rintro inst ⟨⟩)
  | @build c s _ q hc =>
    refine h.update _ (fun hb => ?_) ?_
    · rw [hc]
      cases hres : (build q σ.rootCounter s).2 with
      | ok inst => rwa [hres] at hb
      | error e =>
        rw [hres] at hb
        exact hb.elim
    · intro inst hcall
      cases hres : (build q σ.rootCounter s).2 with
      | ok inst => rw [hres] at hcall; cases hcall
      | error e => rw [hres] at hcall; cases hcall
  | @insert c _ q inst hc =>
    by_cases hq : q = path
    · subst hq
      exact h.insert hc
    · have hlookup : (σ.roots.insert q inst).lookup path = σ.roots.lookup path := by
        rw [HashMap.lookup_insert_eq, if_neg (Ne.symm hq)]
      have hcalls : Single path { σ with calls := Function.update σ.calls c (.returned q inst) } :=
        h.update σ.rootCounter (fun hb => hb.elim) (by rintro inst' ⟨rfl, rfl⟩; exact absurd rfl hq)
      refine ⟨hcalls.one, fun d hd => hlookup.trans (hcalls.absent d hd), ?_⟩
      exact fun d inst' hd => hlookup.trans (hcalls.returned d inst' hd)
  | @unregister q =>
    have hlookup : (σ.roots.erase q).lookup path = σ.roots.lookup path := by
      by_cases hq : path = q
      · subst hq
        rw [AList.lookup_erase]
        by_contra hne
        exact hkeeps (Ne.symm hne) (AList.lookup_erase ..)
      · exact AList.lookup_erase_ne hq
    exact ⟨h.one, fun d hd => hlookup.trans (h.absent d hd),
      fun d inst hd => hlookup.trans (h.returned d inst hd)⟩

/-- A registered root is not replaced. -/
theorem Single.lookup_step (h : Single path σ) (hs : Step σ σ')
    (hkeeps : KeepsRegistered path σ σ') {inst : Instance}
    (hroot : σ.roots.lookup path = some inst) : σ'.roots.lookup path = some inst := by
  cases hs with
  | hit c hc hl => exact hroot
  | miss c hc hl => exact hroot
  | build c s hc => exact hroot
  | @insert c _ q inst' hc =>
    change (σ.roots.insert q inst').lookup path = _
    rw [HashMap.lookup_insert_eq, if_neg, hroot]
    rintro rfl
    have hnone := h.absent c (by rw [hc]; exact rfl)
    rw [hroot] at hnone
    cases hnone
  | @unregister q =>
    by_cases hq : path = q
    · subst hq
      exact absurd (AList.lookup_erase ..) (hkeeps (by rw [hroot]; simp))
    · exact (AList.lookup_erase_ne hq).trans hroot

end

/-- All calls for `path` that have returned in `σ` returned one root, which is the registered one
in `σ'`, and what is registered in `σ` is so in `σ'`. -/
def Idempotent (path : List Name) (σ σ' : State) : Prop :=
  (∀ c c' inst inst', σ.calls c = .returned path inst → σ.calls c' = .returned path inst' →
    inst = inst') ∧
  (∀ inst, σ.roots.lookup path = some inst → σ'.roots.lookup path = some inst) ∧
  ∀ c inst, σ.calls c = .returned path inst → σ'.roots.lookup path = some inst

/-- **Registration.** In every run that keeps the path registered and in which no call looks it up
while another one is building a root for it, all calls return the same root, and from then on that
root is the registered one. -/
theorem registered_once (path : List Name) {σ₀ σ σ' : State} (hstart : Start σ₀)
    (hrun : Run (fun s s' => Step s s' ∧ KeepsRegistered path s s' ∧ NoOverlap path s s') σ₀ σ)
    (hlater : Run (fun s s' => Step s s' ∧ KeepsRegistered path s s' ∧ NoOverlap path s s') σ σ') :
    Idempotent path σ σ' := by
  have hinit : Single path σ₀ := by
    have hidle : ∀ c, ¬ (σ₀.calls c).Building path := fun c hb => by rw [hstart c] at hb; exact hb
    refine ⟨fun c _ hb => absurd hb (hidle c), fun c hb => absurd hb (hidle c), ?_⟩
    intro c inst hc
    rw [hstart c] at hc
    cases hc
  have hsingle : Single path σ :=
    hrun.preserves (fun s s' h hs => h.step hs.1 hs.2.1 hs.2.2) hinit
  have hstays : ∀ inst, σ.roots.lookup path = some inst → σ'.roots.lookup path = some inst := by
    intro inst hroot
    have hstep : ∀ s s', Single path s ∧ s.roots.lookup path = some inst →
        Step s s' ∧ KeepsRegistered path s s' ∧ NoOverlap path s s' →
        Single path s' ∧ s'.roots.lookup path = some inst := by
      rintro s s' ⟨h, hl⟩ ⟨hs, hkeeps, hoverlap⟩
      exact ⟨h.step hs hkeeps hoverlap, h.lookup_step hs hkeeps hl⟩
    exact (hlater.preserves hstep ⟨hsingle, hroot⟩).2
  refine ⟨?_, hstays, fun c inst hc => hstays inst (hsingle.returned c inst hc)⟩
  intro c c' inst inst' hc hc'
  have heq := (hsingle.returned c inst hc).symm.trans (hsingle.returned c' inst' hc')
  exact Option.some.inj heq

def emptyDirectory : Surroundings :=
  ⟨some true, .default, false, [], [], [], 1700000000, 42, none⟩

/-- The root that the call with this number builds for `/r`. -/
def emptyInstance (number : ℕ) : Instance := ⟨number, buildRoot [[0x72]] number emptyDirectory⟩

def noRoots : State := ⟨∅, 0, fun _ => .idle⟩

/-- One call for `/r`, then another. -/
def calledTwice : State :=
  ⟨(∅ : HashMap _ _).insert [[0x72]] (emptyInstance 1), 1,
    Function.update (Function.update (Function.update (Function.update noRoots.calls 0
      (.missed [[0x72]])) 0 (.built [[0x72]] (emptyInstance 1))) 0
      (.returned [[0x72]] (emptyInstance 1))) 1 (.returned [[0x72]] (emptyInstance 1))⟩

theorem keepsRegistered_insert (path : List Name) {σ σ' : State} {inst : Instance}
    (h : σ'.roots = σ.roots.insert path inst) : KeepsRegistered path σ σ' := by
  intro _
  rw [h, HashMap.lookup_insert_eq, if_pos rfl]
  simp

theorem noOverlap_update (path : List Name) {σ σ' : State} {c : ℕ} {call : Call}
    (h : σ'.calls = Function.update σ.calls c call) (hcall : call ≠ .missed path) :
    NoOverlap path σ σ' := by
  have hmiss : ∀ d, σ.calls d = .idle → Function.update σ.calls c call d ≠ .missed path := by
    refine (Function.forall_update_iff σ.calls
      fun d x => σ.calls d = .idle → x ≠ .missed path).mpr ⟨fun _ => hcall, ?_⟩
    intro d _ hidle
    rw [hidle]
    rintro ⟨⟩
  intro d hidle hmissed
  exact absurd (h ▸ hmissed) (hmiss d hidle)

theorem registered_once_calledTwice :
    Start noRoots ∧ Idempotent [[0x72]] calledTwice calledTwice := by
  have hstart : Start noRoots := fun _ => rfl
  refine ⟨hstart, registered_once [[0x72]] hstart ?_ .refl⟩
  refine .tail (.tail (.tail (.single ⟨.miss 0 rfl rfl, id, fun _ _ _ _ hb => hb⟩)
    ⟨.build 0 emptyDirectory rfl, id, ?_⟩) ⟨.insert 0 rfl, ?_, ?_⟩) ⟨.hit 1 rfl rfl, id, ?_⟩
  · exact noOverlap_update _ rfl (by rintro ⟨⟩)
  · exact keepsRegistered_insert _ rfl
  · exact noOverlap_update _ rfl (by rintro ⟨⟩)
  · exact noOverlap_update _ rfl (by rintro ⟨⟩)

/-- Two calls for `/r` that both look it up before either inserts. -/
def calledAtOnce : State :=
  ⟨((∅ : HashMap _ _).insert [[0x72]] (emptyInstance 1)).insert [[0x72]] (emptyInstance 2), 2,
    Function.update (Function.update (Function.update (Function.update (Function.update
      (Function.update noRoots.calls 0 (.missed [[0x72]])) 1 (.missed [[0x72]]))
      0 (.built [[0x72]] (emptyInstance 1))) 1 (.built [[0x72]] (emptyInstance 2)))
      0 (.returned [[0x72]] (emptyInstance 1))) 1 (.returned [[0x72]] (emptyInstance 2))⟩

theorem overlapping_calls_differ :
    Start noRoots ∧
    Run (fun s s' => Step s s' ∧ KeepsRegistered [[0x72]] s s') noRoots calledAtOnce ∧
    ¬ Idempotent [[0x72]] calledAtOnce calledAtOnce := by
  refine ⟨fun _ => rfl, ?_, ?_⟩
  · exact .tail (.tail (.tail (.tail (.tail (.single ⟨.miss 0 rfl rfl, id⟩) ⟨.miss 1 rfl rfl, id⟩)
      ⟨.build 0 emptyDirectory rfl, id⟩) ⟨.build 1 emptyDirectory rfl, id⟩)
      ⟨.insert 0 rfl, keepsRegistered_insert _ rfl⟩) ⟨.insert 1 rfl, keepsRegistered_insert _ rfl⟩
  · rintro ⟨hsame, -⟩
    have heq := hsame 0 1 (emptyInstance 1) (emptyInstance 2) rfl rfl
    exact absurd (congrArg Instance.number heq) (by decide)

/-! ## Calls one after the other -/

/-- A step in which no call looks a path up while another one builds a root for it. -/
def Alone (σ σ' : State) : Prop := Step σ σ' ∧ ∀ path, NoOverlap path σ σ'

/-- No call is between its look-up and its insertion. -/
def Settled (calls : ℕ → Call) : Prop := ∀ path c, ¬ (calls c).Building path

section

variable {σ : State} {path : List Name} {c : ℕ}

theorem Settled.update {calls : ℕ → Call} (h : Settled calls) {call : Call}
    (hcall : ∀ path, ¬ call.Building path) : Settled (Function.update calls c call) := fun path =>
  (Function.forall_update_iff calls fun _ x => ¬ x.Building path).mpr
    ⟨hcall path, fun d _ => h path d⟩

theorem alone_of_update {σ' : State} {call : Call} (hs : Step σ σ')
    (h : σ'.calls = Function.update σ.calls c call) (hcall : ∀ path, call ≠ .missed path) :
    Alone σ σ' :=
  ⟨hs, fun path => noOverlap_update path h (hcall path)⟩

theorem alone_hit {inst : Instance} (hc : σ.calls c = .idle)
    (hroot : σ.roots.lookup path = some inst) :
    Alone σ { σ with calls := Function.update σ.calls c (.returned path inst) } :=
  alone_of_update (.hit c hc hroot) rfl (by rintro q ⟨⟩)

theorem build_of_isDir_ne {counter : ℕ} {s : Surroundings} (h : s.isDir ≠ some true) :
    ∃ message, build path counter s = (counter, .error message) := by
  unfold build
  rcases hdir : s.isDir with _ | _ | _
  · exact ⟨_, rfl⟩
  · exact ⟨_, rfl⟩
  · exact absurd hdir h

theorem build_of_watchError {counter : ℕ} {s : Surroundings} (h : s.isDir = some true) {e : String}
    (he : s.watchError = some e) : build path counter s = (counter + 1, .error e) := by
  unfold build
  rw [h, he]

theorem build_of_attached {counter : ℕ} {s : Surroundings} (h : s.isDir = some true)
    (he : s.watchError = none) :
    build path counter s =
      (counter + 1, .ok ⟨counter + 1, buildRoot path (counter + 1) s⟩) := by
  unfold build
  rw [h, he]

/-- A call that misses and then builds has taken `build`'s number and has `build`'s result. -/
theorem run_build (s : Surroundings) (hc : σ.calls c = .idle) (hroot : σ.roots.lookup path = none)
    (hsettled : Settled σ.calls) :
    Run Alone σ { σ with
      rootCounter := (build path σ.rootCounter s).1
      calls := Function.update σ.calls c (.ofBuild path (build path σ.rootCounter s).2) } := by
  have hmiss : Alone σ { σ with calls := Function.update σ.calls c (.missed path) } :=
    ⟨.miss c hc hroot, fun q _ _ _ d => hsettled q d⟩
  have hbuild := @Step.build c s { σ with calls := Function.update σ.calls c (.missed path) } path
    (Function.update_self ..)
  have hcall : ∀ q, Call.ofBuild path (build path σ.rootCounter s).2 ≠ .missed q := by
    intro q
    cases (build path σ.rootCounter s).2 with
    | ok inst => rintro ⟨⟩
    | error message => rintro ⟨⟩
  have hrun := Relation.ReflTransGen.tail (.single hmiss) (alone_of_update hbuild rfl hcall)
  dsimp only at hrun
  rwa [Function.update_idem] at hrun

theorem run_insert {s : Surroundings} (hc : σ.calls c = .idle)
    (hroot : σ.roots.lookup path = none) (hsettled : Settled σ.calls) {n : ℕ} {inst : Instance}
    (hbuild : build path σ.rootCounter s = (n, .ok inst)) :
    Run Alone σ ⟨σ.roots.insert path inst, n, Function.update σ.calls c (.returned path inst)⟩ := by
  have hbuilt := run_build s hc hroot hsettled
  rw [hbuild] at hbuilt
  have hinsert := @Step.insert c
    ⟨σ.roots, n, Function.update σ.calls c (.built path inst)⟩ path inst (Function.update_self ..)
  have hrun := hbuilt.tail (alone_of_update hinsert rfl (by rintro q ⟨⟩))
  dsimp only at hrun
  rwa [Function.update_idem] at hrun

theorem alone_unregister (path : List Name) (σ : State) :
    Alone σ { σ with roots := σ.roots.erase path } := by
  refine ⟨.unregister path, fun q c hidle hmissed => ?_⟩
  rw [show σ.calls c = .missed q from hmissed] at hidle
  cases hidle

/-- `drain_roots` takes the roots out one after the other. -/
theorem run_drain (paths : List (List Name)) {σ : State}
    (hpaths : ∀ p, p ∉ paths → σ.roots.lookup p = none) :
    ∃ roots : HashMap (List Name) Instance, (∀ p, roots.lookup p = none) ∧
      Run Alone σ { σ with roots } := by
  induction paths generalizing σ with
  | nil => exact ⟨σ.roots, fun p => hpaths p (List.not_mem_nil), .refl⟩
  | cons path paths ih =>
    obtain ⟨roots, hnone, hrun⟩ := @ih { σ with roots := σ.roots.erase path } fun p hp => by
      dsimp only
      rw [HashMap.lookup_erase_eq]
      split_ifs with hpath
      · rfl
      · exact hpaths p (List.not_mem_cons_of_ne_of_not_mem hpath hp)
    exact ⟨roots, hnone, .head (alone_unregister path σ) hrun⟩

end

end Watchwoman.Registry
