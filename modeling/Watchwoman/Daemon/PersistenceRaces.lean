import Watchwoman.Daemon.Persistence

/-!
# Trigger changes that overlap

`install_trigger` and `remove_trigger` change the map under the write lock, release it, take a
snapshot under the read lock, write it to `triggers.json.tmp` and rename that file. Sessions run
these calls at the same time, and all of them write the same temporary file. A call that is slow
between its snapshot and its write puts an old snapshot over a newer one, and a trigger of the map
is missing from `triggers.json` when all calls have returned (`installed_trigger_lost`).

As long as no call writes a snapshot that is older than one already written, the file holds the map
whenever no call is under way (`triggers_stored`).
-/

namespace Watchwoman.PersistenceRaces

open Persisted Persistence Transition

inductive Change where
  | installTrigger (t : Trigger)
  | removeTrigger (name : String)

def Change.apply : Change → HashMap String Trigger → Option (HashMap String Trigger)
  | .installTrigger t, m => some (m.insert t.name t)
  | .removeTrigger name, m => if (m.lookup name).isSome then some (m.erase name) else none

/-- The objects of a trigger to install are maps. -/
def Change.KeysDistinct : Change → Prop
  | .installTrigger t => t.expression.All Value.KeysDistinct
  | .removeTrigger _ => True

/-- Where a call is. -/
inductive Phase where
  | called
  | changed
  /-- The values of the map when `version` changes had been made to it. -/
  | snapshot (items : List Trigger) (version : ℕ)
  | written
  | returned

/-- The calls on one root, and the daemon they change. -/
structure State (serde : Serde) (ι : Type) where
  daemon : Persistence.State serde
  /-- `triggers.json.tmp` -/
  tmp : Option serde.File
  phase : ι → Phase
  /-- How often the map was changed. -/
  changes : ℕ
  /-- The version of the newest snapshot that was written. -/
  newest : ℕ

section Races

variable {serde : Serde} {ι : Type} [DecidableEq ι]

def printed (serde : Serde) (items : List Trigger) : serde.File :=
  serde.toVecPretty (items.map fromTrigger)

def State.setPhase (σ : State serde ι) (i : ι) (phase : Phase) : State serde ι :=
  { σ with phase := Function.update σ.phase i phase }

/-- `rename` of the temporary file, which holds the bytes. -/
def State.rename (path : List Name) (bytes : serde.File) (σ : State serde ι) : State serde ι :=
  { σ with
    daemon := { σ.daemon with
      files := Function.update σ.daemon.files (pathSlug path) (some bytes) }
    tmp := none }

/-- One step of the call `i` on the root at `path`. Every operation on a file succeeds. -/
inductive Step (path : List Name) (call : ι → Change) (i : ι) :
    State serde ι → State serde ι → Prop
  | change {σ : State serde ι} {m : HashMap String Trigger} (hi : σ.phase i = .called)
    (hkeys : (call i).KeysDistinct) (hm : (call i).apply (σ.daemon.triggers path) = some m) :
    Step path call i σ
      { σ.setPhase i .changed with
        daemon := σ.daemon.setTriggers path m
        changes := σ.changes + 1 }
  /-- Nothing was removed, so nothing is written. -/
  | keep {σ : State serde ι} (hi : σ.phase i = .called)
    (hm : (call i).apply (σ.daemon.triggers path) = none) :
    Step path call i σ (σ.setPhase i .returned)
  | snapshot {σ : State serde ι} (hi : σ.phase i = .changed) {items : List Trigger}
    (hitems : items.Perm (HashMap.values (σ.daemon.triggers path))) :
    Step path call i σ (σ.setPhase i (.snapshot items σ.changes))
  | write {σ : State serde ι} {items : List Trigger} {version : ℕ}
    (hi : σ.phase i = .snapshot items version) :
    Step path call i σ
      { σ.setPhase i .written with
        tmp := some (printed serde items)
        newest := max σ.newest version }
  | rename {σ : State serde ι} {bytes : serde.File} (hi : σ.phase i = .written)
    (htmp : σ.tmp = some bytes) :
    Step path call i σ ((σ.setPhase i .returned).rename path bytes)

/-- Reading `triggers.json` gives the triggers of the map and no others. -/
def Stored (path : List Name) (σ : State serde ι) : Prop :=
  ∀ name, (σ.daemon.loadPersistedTriggers path ∅).lookup name =
    ((σ.daemon.triggers path).lookup name).map viewed

/-- No call has begun, and the file holds the map. -/
structure Start (path : List Name) (σ : State serde ι) : Prop where
  phase : ∀ i, σ.phase i = .called
  changes : σ.changes = 0
  newest : σ.newest = 0
  filed : Filed (σ.daemon.triggers path)
  stored : Stored path σ

/-- Each call that has begun has returned. -/
def Returned (σ : State serde ι) : Prop := ∀ i, σ.phase i = .called ∨ σ.phase i = .returned

/-- The calls leave every trigger of the map in the file, and no others, however they overlap. -/
def Keep (serde : Serde) (path : List Name) (call : ι → Change) : Prop :=
  ∀ σ : State serde ι, Reachable (Start path) (fun σ σ' => ∃ i, Step path call i σ σ') σ →
    Returned σ → Stored path σ

/-- If the call is about to write, its snapshot is not older than one already written. -/
def InOrder (i : ι) (σ : State serde ι) : Prop :=
  ∀ items version, σ.phase i = .snapshot items version → σ.newest ≤ version

def OrderedStep (path : List Name) (call : ι → Change) (σ σ' : State serde ι) : Prop :=
  ∃ i, InOrder i σ ∧ Step path call i σ σ'

/-! ## The invariant -/

/-- The bytes are the map of the root, printed. -/
def Current (path : List Name) (σ : State serde ι) (bytes : serde.File) : Prop :=
  ∃ items : List Trigger,
    items.Perm (HashMap.values (σ.daemon.triggers path)) ∧ bytes = printed serde items

/-- A snapshot of the last version shows the map, and so does the temporary file once one of them
was written. If `triggers.json` does not hold the map yet, some call is on its way to write it. -/
structure Inv (path : List Name) (σ : State serde ι) : Prop where
  filed : Filed (σ.daemon.triggers path)
  newest : σ.newest ≤ σ.changes
  snapshot : ∀ i items version, σ.phase i = .snapshot items version → version ≤ σ.changes ∧
    (version = σ.changes → items.Perm (HashMap.values (σ.daemon.triggers path)))
  written : ∀ i bytes, σ.phase i = .written → σ.tmp = some bytes → σ.newest = σ.changes →
    Current path σ bytes
  coming : (Stored path σ ∧ σ.newest = σ.changes) ∨
    (∃ i, σ.phase i = .changed) ∨
    (∃ i items, σ.phase i = .snapshot items σ.changes) ∨
    (∃ i, σ.phase i = .written ∧ σ.tmp ≠ none ∧ σ.newest = σ.changes)

variable {path : List Name} {call : ι → Change} {i j : ι} {σ σ' : State serde ι}

theorem filed_apply {m m' : HashMap String Trigger} (hfiled : Filed m) {c : Change}
    (hkeys : c.KeysDistinct) (hm : c.apply m = some m') : Filed m' := by
  cases c with
  | installTrigger t =>
    obtain rfl := Option.some.inj hm
    exact hfiled.insert hkeys
  | removeTrigger name =>
    dsimp only [Change.apply] at hm
    split_ifs at hm
    obtain rfl := Option.some.inj hm
    exact hfiled.erase name

theorem phase_before {f : ι → Phase} {p q : Phase} (h : Function.update f i p j = q) (hne : p ≠ q) :
    f j = q := by
  by_cases hj : j = i
  · rw [hj, Function.update_self] at h
    exact absurd h hne
  · rwa [Function.update_of_ne hj] at h

theorem phase_after {f : ι → Phase} {p p' q : Phase} (hi : f i = p') (h : f j = q) (hne : p' ≠ q) :
    Function.update f i p j = q := by
  rw [Function.update_of_ne, h]
  rintro rfl
  exact hne (hi.symm.trans h)

omit [DecidableEq ι] in
theorem stored_rename {bytes : serde.File} (hfiled : Filed (σ.daemon.triggers path))
    (h : Current path σ bytes) : Stored path (σ.rename path bytes) := by
  obtain ⟨items, hitems, rfl⟩ := h
  exact load_persistTriggers hfiled hitems σ.daemon

namespace Inv

omit [DecidableEq ι] in
theorem start (h : Start path σ) : Inv path σ where
  filed := h.filed
  newest := by rw [h.newest, h.changes]
  snapshot i items version hi := by
    rw [h.phase i] at hi
    cases hi
  written i bytes hi := by
    rw [h.phase i] at hi
    cases hi
  coming := .inl ⟨h.stored, by rw [h.newest, h.changes]⟩

theorem change (h : Inv path σ) {m : HashMap String Trigger} (hkeys : (call i).KeysDistinct)
    (hm : (call i).apply (σ.daemon.triggers path) = some m) :
    Inv path { σ.setPhase i .changed with
      daemon := σ.daemon.setTriggers path m
      changes := σ.changes + 1 } := by
  have htriggers : (σ.daemon.setTriggers path m).triggers path = m := Function.update_self ..
  constructor
  · show Filed ((σ.daemon.setTriggers path m).triggers path)
    rw [htriggers]
    exact filed_apply h.filed hkeys hm
  · exact h.newest.trans (Nat.le_succ _)
  · -- a snapshot of the map as it was is of an older version
    intro j items version hj
    have hversion := (h.snapshot j items version (phase_before hj (by simp))).1
    show version ≤ σ.changes + 1 ∧ (version = σ.changes + 1 → _)
    exact ⟨by omega, fun heq => by omega⟩
  · intro j bytes _ _ hnewest
    have hle := h.newest
    change σ.newest = σ.changes + 1 at hnewest
    omega
  · exact .inr (.inl ⟨i, Function.update_self ..⟩)

theorem keep (h : Inv path σ) (hi : σ.phase i = .called) : Inv path (σ.setPhase i .returned) where
  filed := h.filed
  newest := h.newest
  snapshot j items version hj := h.snapshot j items version (phase_before hj (by simp))
  written j bytes hj := h.written j bytes (phase_before hj (by simp))
  coming := by
    rcases h.coming with hstored | ⟨j, hj⟩ | ⟨j, items, hj⟩ | ⟨j, hj, htmp⟩
    · exact .inl hstored
    · exact .inr (.inl ⟨j, phase_after hi hj (by simp)⟩)
    · exact .inr (.inr (.inl ⟨j, items, phase_after hi hj (by simp)⟩))
    · exact .inr (.inr (.inr ⟨j, phase_after hi hj (by simp), htmp⟩))

theorem snap (h : Inv path σ) {items : List Trigger}
    (hitems : items.Perm (HashMap.values (σ.daemon.triggers path))) :
    Inv path (σ.setPhase i (.snapshot items σ.changes)) where
  filed := h.filed
  newest := h.newest
  snapshot j items' version hj := by
    by_cases hji : j = i
    · change Function.update _ _ _ _ = _ at hj
      rw [hji, Function.update_self] at hj
      cases hj
      exact ⟨le_rfl, fun _ => hitems⟩
    · change Function.update _ _ _ _ = _ at hj
      rw [Function.update_of_ne hji] at hj
      exact h.snapshot j items' version hj
  written j bytes hj := h.written j bytes (phase_before hj (by simp))
  coming := .inr (.inr (.inl ⟨i, items, Function.update_self ..⟩))

theorem write (h : Inv path σ) {items : List Trigger} {version : ℕ}
    (hi : σ.phase i = .snapshot items version) (horder : σ.newest ≤ version) :
    Inv path { σ.setPhase i .written with
      tmp := some (printed serde items)
      newest := max σ.newest version } := by
  obtain ⟨hversion, hitems⟩ := h.snapshot i items version hi
  rw [max_eq_right horder]
  constructor
  · exact h.filed
  · exact hversion
  · exact fun j items' version' hj => h.snapshot j items' version' (phase_before hj (by simp))
  · rintro j bytes - htmp hlast
    exact ⟨items, hitems hlast, (Option.some.inj htmp).symm⟩
  · rcases h.coming with ⟨hstored, hlast⟩ | ⟨j, hj⟩ | ⟨j, items', hj⟩ | ⟨j, hj, -, hlast⟩
    · exact .inl ⟨hstored, le_antisymm hversion (hlast ▸ horder)⟩
    · exact .inr (.inl ⟨j, phase_after hi hj (by simp)⟩)
    · by_cases hji : j = i
      · -- the map was in this snapshot, and now it is in the temporary file
        rw [hji, hi] at hj
        cases hj
        exact .inr (.inr (.inr ⟨i, Function.update_self .., Option.some_ne_none _, rfl⟩))
      · exact .inr (.inr (.inl ⟨j, items', (Function.update_of_ne hji ..).trans hj⟩))
    · exact .inr (.inr (.inr ⟨j, phase_after hi hj (by simp), Option.some_ne_none _,
        le_antisymm hversion (hlast ▸ horder)⟩))

theorem rename (h : Inv path σ) {bytes : serde.File} (hi : σ.phase i = .written)
    (htmp : σ.tmp = some bytes) : Inv path ((σ.setPhase i .returned).rename path bytes) := by
  have hstored : σ.newest = σ.changes →
      Stored path ((σ.setPhase i .returned).rename path bytes) :=
    fun hlast => stored_rename h.filed (h.written i bytes hi htmp hlast)
  -- the projections are reduced first, or each field would be found by comparing the files
  constructor <;> dsimp only [State.rename, State.setPhase]
  · exact h.filed
  · exact h.newest
  · exact fun j items version hj => h.snapshot j items version (phase_before hj (by simp))
  · rintro j bytes' - hnone
    cases hnone
  · rcases h.coming with ⟨-, hlast⟩ | ⟨j, hj⟩ | ⟨j, items, hj⟩ | ⟨j, -, -, hlast⟩
    · exact .inl ⟨hstored hlast, hlast⟩
    · exact .inr (.inl ⟨j, phase_after hi hj (by simp)⟩)
    · exact .inr (.inr (.inl ⟨j, items, phase_after hi hj (by simp)⟩))
    · exact .inl ⟨hstored hlast, hlast⟩

theorem step (h : Inv path σ) (hs : OrderedStep path call σ σ') : Inv path σ' := by
  obtain ⟨i, horder, hs⟩ := hs
  cases hs with
  | change hi hkeys hm => exact h.change hkeys hm
  | keep hi hm => exact h.keep hi
  | snapshot hi hitems => exact h.snap hitems
  | write hi => exact h.write hi (horder _ _ hi)
  | rename hi htmp => exact h.rename hi htmp

end Inv

/-- **Trigger changes on disk.** If in a run of any calls no call writes a snapshot that is older
than one already written, then `triggers.json` holds the triggers of the map whenever each call that
has begun has returned. -/
theorem triggers_stored
    (hrun : Reachable (Start path) (OrderedStep path call) σ) (hreturned : Returned σ) :
    Stored path σ := by
  have hinv : Inv path σ :=
    hrun.invariant (fun _ hstart => Inv.start hstart) fun _ _ h hs => h.step hs
  -- a call that is on its way has not returned
  have hidle : ∀ {j : ι} {p : Phase}, σ.phase j = p → p ≠ .called → p ≠ .returned → False := by
    rintro j p rfl hcalled hret
    exact (hreturned j).elim hcalled hret
  rcases hinv.coming with ⟨hstored, -⟩ | ⟨j, hj⟩ | ⟨j, items, hj⟩ | ⟨j, hj, -⟩
  · exact hstored
  · exact (hidle hj (by simp) (by simp)).elim
  · exact (hidle hj (by simp) (by simp)).elim
  · exact (hidle hj (by simp) (by simp)).elim

end Races

/-! ## Two calls -/

def yTrigger : Trigger := ⟨"y", ["make"], .null, false, none, none⟩

def twoInstalls : Bool → Change
  | false => .installTrigger xTrigger
  | true => .installTrigger yTrigger

def empty : State documents Bool := ⟨Persistence.State.start, none, fun _ => .called, 0, 0⟩

theorem start_empty (path : List Name) : Start path empty := by
  refine ⟨fun _ => rfl, rfl, rfl, ?_, fun _ => rfl⟩
  rintro name t ⟨⟩

/-- The second call begins after the snapshot of the first and returns before the first writes it:
`y` is in the map and not in the file. -/
theorem installed_trigger_lost : ¬ Keep documents [[0x61]] twoInstalls := by
  intro hkeep
  have h₀ : Reachable (Start [[0x61]]) (fun σ σ' => ∃ i, Step [[0x61]] twoInstalls i σ σ') empty :=
    ⟨_, start_empty _, .refl⟩
  have h₁ := h₀.next ⟨false, .change rfl trivial rfl⟩
  have h₂ := h₁.next ⟨false, .snapshot rfl (.refl _)⟩
  have h₃ := h₂.next ⟨true, .change rfl trivial rfl⟩
  have h₄ := h₃.next ⟨true, .snapshot rfl (.refl _)⟩
  have h₅ := h₄.next ⟨true, .write rfl⟩
  have h₆ := h₅.next ⟨true, .rename rfl rfl⟩
  have h₇ := h₆.next ⟨false, .write rfl⟩
  have h₈ := h₇.next ⟨false, .rename rfl rfl⟩
  have hreturned := hkeep _ h₈ fun i => .inr (by cases i <;> rfl)
  cases hreturned "y"

/-- The snapshot of the first call is still old when it is written, but it is written first. -/
theorem triggers_stored_two : ∃ σ : State documents Bool, Returned σ ∧ Stored [[0x61]] σ ∧
    (σ.daemon.triggers [[0x61]]).lookup "x" = some xTrigger ∧
    (σ.daemon.triggers [[0x61]]).lookup "y" = some yTrigger := by
  have h₀ : Reachable (Start [[0x61]]) (OrderedStep [[0x61]] twoInstalls) empty :=
    ⟨_, start_empty _, .refl⟩
  have h₁ := h₀.next ⟨false, by rintro _ _ ⟨⟩, .change rfl trivial rfl⟩
  have h₂ := h₁.next ⟨false, by rintro _ _ ⟨⟩, .snapshot rfl (.refl _)⟩
  have h₃ := h₂.next ⟨true, by rintro _ _ ⟨⟩, .change rfl trivial rfl⟩
  have h₄ := h₃.next ⟨false, by rintro _ _ ⟨⟩; exact Nat.zero_le _, .write rfl⟩
  have h₅ := h₄.next ⟨true, by rintro _ _ ⟨⟩, .snapshot rfl (.refl _)⟩
  have h₆ := h₅.next ⟨false, by rintro _ _ ⟨⟩, .rename rfl rfl⟩
  have h₇ := h₆.next ⟨true, by rintro _ _ ⟨⟩; decide, .write rfl⟩
  have h₈ := h₇.next ⟨true, by rintro _ _ ⟨⟩, .rename rfl rfl⟩
  refine ⟨_, ?_, triggers_stored h₈ ?_, rfl, rfl⟩
  all_goals exact fun i => .inr (by cases i <;> rfl)

end Watchwoman.PersistenceRaces
