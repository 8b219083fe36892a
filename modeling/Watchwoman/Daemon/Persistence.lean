import Watchwoman.Daemon.Path
import Watchwoman.Daemon.Persisted
import Watchwoman.Lib.HashMap
import Watchwoman.Lib.LastWrite
import Watchwoman.Lib.Transition

/-!
# Triggers across a restart

A root writes all its triggers to `<state_dir>/roots/<slug>/triggers.json` after each change of
them, and `register_root` reads that file. The daemon is the maps of its roots and these files; a
call changes one map and replaces one file, a restart empties the maps and registers the roots
again, and either can happen any number of times (`Logged`). `serde_json` is a parameter that parses
back what it prints.

The directory is named by `path_slug`, which writes an underscore for most of the characters a path
can have. Roots keep their triggers apart exactly if no two of their texts are alike once these
characters are not told apart (`triggers_survive_restart_iff`).
-/

namespace Watchwoman.Persistence

open Persisted

/-! ## The directory of a root -/

def keeps (ch : Char) : Bool := ch.isAlphanum || ch == '.' || ch == '-' || ch == '_'

/-- `path_slug` -/
def pathSlug (path : List Name) : String :=
  let out := (pathText path).toList.map fun ch => if keeps ch then ch else '_'
  if out = [] then "_" else String.ofList out

/-- A character that stands for itself in a slug and for nothing else. -/
def Plain (ch : Char) : Prop := ch.isAlphanum = true ∨ ch = '.' ∨ ch = '-'

/-- The texts of the two paths differ only where neither has an ASCII letter or digit, a dot or a
hyphen. -/
def Alike (p q : List Name) : Prop :=
  List.Forall₂ (fun a b => a = b ∨ ¬ Plain a ∧ ¬ Plain b) (pathText p).toList (pathText q).toList

theorem pathText_ne_nil (path : List Name) : (pathText path).toList ≠ [] := by
  intro hnil
  obtain ⟨t, ht, hempty⟩ := Utf8.lossy_append (List.forall_mem_nil _)
    (show (pathText path).toList = [] ++ [] from hnil)
  rw [hempty rfl] at ht
  cases ht

theorem pathSlug_eq (path : List Name) :
    pathSlug path =
      String.ofList ((pathText path).toList.map fun ch => if keeps ch then ch else '_') := by
  apply if_neg
  rw [List.map_eq_nil_iff]
  exact pathText_ne_nil path

theorem written_of_plain {ch : Char} (h : Plain ch) : (if keeps ch then ch else '_') = ch := by
  apply if_pos
  unfold keeps
  obtain hword | rfl | rfl := h
  · rw [hword]
    rfl
  · rfl
  · rfl

theorem written_of_not_plain {ch : Char} (h : ¬ Plain ch) :
    (if keeps ch then ch else '_') = '_' := by
  split_ifs with hkeeps
  · simp only [keeps, Bool.or_eq_true, beq_iff_eq] at hkeeps
    obtain ((hword | hdot) | hhyphen) | hunderscore := hkeeps
    · exact absurd (.inl hword) h
    · exact absurd (.inr (.inl hdot)) h
    · exact absurd (.inr (.inr hhyphen)) h
    · exact hunderscore
  · rfl

theorem not_plain_underscore : ¬ Plain '_' := by
  unfold Plain
  decide

theorem written_eq_iff (a b : Char) :
    (if keeps a then a else '_') = (if keeps b then b else '_') ↔
      a = b ∨ ¬ Plain a ∧ ¬ Plain b := by
  constructor
  · intro heq
    by_cases ha : Plain a
    · rw [written_of_plain ha] at heq
      by_cases hb : Plain b
      · exact .inl (heq.trans (written_of_plain hb))
      · rw [written_of_not_plain hb] at heq
        exact absurd (heq ▸ ha) not_plain_underscore
    · rw [written_of_not_plain ha] at heq
      refine .inr ⟨ha, fun hb => not_plain_underscore ?_⟩
      rw [heq, written_of_plain hb]
      exact hb
  · rintro (rfl | ⟨ha, hb⟩)
    · rfl
    · rw [written_of_not_plain ha, written_of_not_plain hb]

theorem pathSlug_eq_iff (p q : List Name) : pathSlug p = pathSlug q ↔ Alike p q := by
  rw [pathSlug_eq, pathSlug_eq, String.ofList_inj, ← List.forall₂_eq_eq_eq,
    List.forall₂_map_left_iff, List.forall₂_map_right_iff]
  simp only [written_eq_iff]
  rfl

/-! ## The daemon and its state directory -/

/-- `serde_json` for the lists of triggers, with the bytes of its files. -/
structure Serde where
  File : Type
  toVecPretty : List PersistedTrigger → File
  fromSlice : File → Option (List PersistedTrigger)
  /-- What the daemon prints is parsed back. -/
  fromSlice_toVecPretty : ∀ items : List Trigger,
    fromSlice (toVecPretty (items.map fromTrigger)) = some (items.map fromTrigger)

/-- The loop of `load_persisted_triggers`. -/
def insertAll (items : List PersistedTrigger) (m : HashMap String Trigger) :
    HashMap String Trigger :=
  items.foldl (fun m pt => m.insert pt.intoTrigger.name pt.intoTrigger) m

/-- The triggers of each root, and each `triggers.json` by the name of its directory. -/
structure State (serde : Serde) where
  triggers : List Name → HashMap String Trigger
  files : String → Option serde.File

namespace State

variable {serde : Serde}

def start : State serde := ⟨fun _ => ∅, fun _ => none⟩

def setTriggers (σ : State serde) (path : List Name) (m : HashMap String Trigger) : State serde :=
  { σ with triggers := Function.update σ.triggers path m }

/-- `persist_triggers` of the root at `path`, with the values of its map in the order they come. -/
def persistTriggers (σ : State serde) (path : List Name) (items : List Trigger) : State serde :=
  { σ with
    files := Function.update σ.files (pathSlug path)
      (some (serde.toVecPretty (items.map fromTrigger))) }

/-- `load_persisted_triggers` into the map of a root. -/
def loadPersistedTriggers (σ : State serde) (path : List Name) (m : HashMap String Trigger) :
    HashMap String Trigger :=
  match σ.files (pathSlug path) with
  | none => m
  | some bytes =>
    match serde.fromSlice bytes with
    | none => m
    | some items => insertAll items m

/-- The daemon starts again and registers its roots, each with a new map. -/
def restart (σ : State serde) : State serde :=
  { σ with triggers := fun path => σ.loadPersistedTriggers path ∅ }

theorem triggers_restart (σ : State serde) (path : List Name) :
    σ.restart.triggers path = σ.loadPersistedTriggers path ∅ := rfl

end State

inductive Call where
  | installTrigger (path : List Name) (t : Trigger)
  | removeTrigger (path : List Name) (name : String)
  | restart

/-- One call on a root of `roots`, or a restart. -/
inductive Step {serde : Serde} (roots : Set (List Name)) : State serde → Call → State serde → Prop
  | install {σ : State serde} {path : List Name} (hpath : path ∈ roots) (t : Trigger)
    (hkeys : t.expression.All Value.KeysDistinct) {items : List Trigger}
    (hitems : items.Perm (HashMap.values ((σ.triggers path).insert t.name t))) :
    Step roots σ (.installTrigger path t)
      ((σ.setTriggers path ((σ.triggers path).insert t.name t)).persistTriggers path items)
  | remove {σ : State serde} {path : List Name} (hpath : path ∈ roots) (name : String)
    (hfound : ((σ.triggers path).lookup name).isSome) {items : List Trigger}
    (hitems : items.Perm (HashMap.values ((σ.triggers path).erase name))) :
    Step roots σ (.removeTrigger path name)
      ((σ.setTriggers path ((σ.triggers path).erase name)).persistTriggers path items)
  /-- Nothing was removed, so nothing is written. -/
  | removeMissing {σ : State serde} {path : List Name} (hpath : path ∈ roots) (name : String)
    (hmissing : (σ.triggers path).lookup name = none) :
    Step roots σ (.removeTrigger path name) σ
  | restart {σ : State serde} : Step roots σ .restart σ.restart

/-- A step with the calls so far. -/
def Logged {serde : Serde} (roots : Set (List Name)) (s s' : List Call × State serde) : Prop :=
  ∃ call, Step roots s.2 call s'.2 ∧ s'.1 = s.1 ++ [call]

/-- The calls lead a daemon with the roots from an empty state directory to the state. -/
def Runs {serde : Serde} (roots : Set (List Name)) (calls : List Call) (σ : State serde) : Prop :=
  Transition.Reachable (· = ([], State.start)) (Logged roots) (calls, σ)

/-! ## What a root should have -/

/-- What a call makes of the trigger that the root at `path` has under `name`: it concerns the
triggers of its own root only, and a restart leaves of a trigger what JSON keeps of it. -/
def Call.leaves (path : List Name) (name : String) (had : Option Trigger) : Call → Option Trigger
  | .installTrigger p t => if p = path ∧ t.name = name then some t else had
  | .removeTrigger p n => if p = path ∧ n = name then none else had
  | .restart => had.map viewed

/-- The trigger that the calls leave the root under the name. -/
def had (calls : List Call) (path : List Name) (name : String) : Option Trigger :=
  calls.foldl (Call.leaves path name) none

/-- After any calls, the roots of a daemon that starts again have the triggers they had and no
others. -/
def SurvivesRestart (serde : Serde) (roots : Set (List Name)) : Prop :=
  ∀ (calls : List Call) (σ : State serde), Runs roots calls σ → ∀ path ∈ roots, ∀ name,
    (σ.restart.triggers path).lookup name = (had calls path name).map viewed

section Runs

variable {serde : Serde} {roots : Set (List Name)} {calls : List Call} {σ : State serde}
  {path : List Name} {m : HashMap String Trigger} {items : List Trigger}

theorem had_append (calls : List Call) (call : Call) (path : List Name) (name : String) :
    had (calls ++ [call]) path name = call.leaves path name (had calls path name) := by
  unfold had
  rw [List.foldl_append]
  rfl

/-! ## Reading a file -/

/-- Each trigger stands under its own name, and the objects of its expression are maps. -/
def Filed (m : HashMap String Trigger) : Prop :=
  ∀ name t, m.lookup name = some t → t.name = name ∧ t.expression.All Value.KeysDistinct

def writes (name : String) (pt : PersistedTrigger) : Option (Option Trigger) :=
  if pt.intoTrigger.name = name then some (some pt.intoTrigger) else none

theorem lookup_insertAll (items : List PersistedTrigger) (m : HashMap String Trigger)
    (name : String) :
    (insertAll items m).lookup name =
      (LastWrite.lastSome? (writes name) items).getD (m.lookup name) := by
  apply LastWrite.getD_foldl (fun m : HashMap String Trigger => m.lookup name)
  intro m pt
  rw [HashMap.lookup_insert_eq, writes]
  simp only [eq_comm]
  split_ifs <;> rfl

/-- The names of the values of a map tell them apart, so their order in a file does not matter. -/
theorem lookup_of_printed (hfiled : Filed m) (hitems : items.Perm (HashMap.values m))
    (name : String) :
    (insertAll (items.map fromTrigger) ∅).lookup name = (m.lookup name).map viewed := by
  have hmem : ∀ t ∈ items, m.lookup t.name = some t ∧ (fromTrigger t).intoTrigger = viewed t := by
    intro t ht
    obtain ⟨k, hk⟩ := HashMap.mem_values_iff.mp (hitems.mem_iff.mp ht)
    obtain ⟨rfl, hkeys⟩ := hfiled k t hk
    exact ⟨hk, intoTrigger_fromTrigger hkeys⟩
  rw [lookup_insertAll]
  cases hlast : LastWrite.lastSome? (writes name) (items.map fromTrigger) with
  | none =>
    show none = (m.lookup name).map viewed
    cases hlookup : m.lookup name with
    | none => rfl
    | some t =>
      -- the trigger is in the file, under the name
      have ht : t ∈ items := hitems.mem_iff.mpr (HashMap.mem_values_iff.mpr ⟨name, hlookup⟩)
      have hnone := LastWrite.lastSome?_eq_none_iff.mp hlast _ (List.mem_map_of_mem ht)
      have hname : (viewed t).name = name := (hfiled name t hlookup).1
      rw [writes, (hmem t ht).2, if_pos hname] at hnone
      cases hnone
  | some u =>
    obtain ⟨pt, hpt, hwrites⟩ := LastWrite.exists_of_lastSome? hlast
    obtain ⟨t, ht, rfl⟩ := List.mem_map.mp hpt
    obtain ⟨hlookup, hinto⟩ := hmem t ht
    rw [writes, hinto] at hwrites
    split_ifs at hwrites with hname
    obtain rfl := Option.some.inj hwrites
    have hfound : m.lookup name = some t := hname ▸ hlookup
    rw [hfound]
    rfl

theorem load_persistTriggers (hfiled : Filed m) (hitems : items.Perm (HashMap.values m))
    (σ : State serde) (name : String) :
    ((σ.persistTriggers path items).loadPersistedTriggers path ∅).lookup name =
      (m.lookup name).map viewed := by
  have hload : (σ.persistTriggers path items).loadPersistedTriggers path ∅ =
      insertAll (items.map fromTrigger) ∅ := by
    simp only [State.loadPersistedTriggers, State.persistTriggers, Function.update_self,
      serde.fromSlice_toVecPretty]
  rw [hload]
  exact lookup_of_printed hfiled hitems name

theorem load_persistTriggers_of_ne {path' : List Name} (h : pathSlug path' ≠ pathSlug path)
    (σ : State serde) :
    (σ.persistTriggers path items).loadPersistedTriggers path' m =
      σ.loadPersistedTriggers path' m := by
  simp only [State.loadPersistedTriggers, State.persistTriggers, Function.update_of_ne h]

theorem load_of_pathSlug_eq {path' : List Name} (h : pathSlug path = pathSlug path')
    (σ : State serde) : σ.loadPersistedTriggers path m = σ.loadPersistedTriggers path' m := by
  simp only [State.loadPersistedTriggers, h]

/-! ## The invariant -/

/-- Each root has the triggers its own calls left it, and its file holds them. -/
structure Inv (roots : Set (List Name)) (calls : List Call) (σ : State serde) : Prop where
  triggers : ∀ path ∈ roots, ∀ name, (σ.triggers path).lookup name = had calls path name
  filed : ∀ path ∈ roots, Filed (σ.triggers path)
  files : ∀ path ∈ roots, ∀ name,
    (σ.loadPersistedTriggers path ∅).lookup name = ((σ.triggers path).lookup name).map viewed

/-- A root changes its map and writes its file; no other root of the set reads that file. -/
theorem Inv.persist (h : Inv roots calls σ) (hroots : Set.InjOn pathSlug roots)
    (hpath : path ∈ roots) (hfiled : Filed m) (hitems : items.Perm (HashMap.values m)) {call : Call}
    (hown : ∀ name, m.lookup name = call.leaves path name (had calls path name))
    (hother : ∀ path', path' ≠ path → ∀ name,
      call.leaves path' name (had calls path' name) = had calls path' name) :
    Inv roots (calls ++ [call]) ((σ.setTriggers path m).persistTriggers path items) := by
  have hself : ((σ.setTriggers path m).persistTriggers path items).triggers path = m := by
    show Function.update σ.triggers path m path = m
    rw [Function.update_self]
  have hne : ∀ path', path' ≠ path →
      ((σ.setTriggers path m).persistTriggers path items).triggers path' = σ.triggers path' := by
    intro path' hp
    show Function.update σ.triggers path m path' = σ.triggers path'
    rw [Function.update_of_ne hp]
  refine ⟨fun path' hp' name => ?_, fun path' hp' => ?_, fun path' hp' name => ?_⟩
  · rw [had_append]
    by_cases hp : path' = path
    · rw [hp, hself, hown]
    · rw [hne path' hp, hother path' hp, h.triggers path' hp']
  · by_cases hp : path' = path
    · rw [hp, hself]
      exact hfiled
    · rw [hne path' hp]
      exact h.filed path' hp'
  · by_cases hp : path' = path
    · rw [hp, hself]
      exact load_persistTriggers hfiled hitems _ name
    · have hslug : pathSlug path' ≠ pathSlug path := fun heq => hp (hroots hp' hpath heq)
      rw [hne path' hp, load_persistTriggers_of_ne hslug]
      exact h.files path' hp' name

theorem Filed.insert (h : Filed m) {t : Trigger} (hkeys : t.expression.All Value.KeysDistinct) :
    Filed (m.insert t.name t) := by
  intro name u hu
  rw [HashMap.lookup_insert_eq] at hu
  split_ifs at hu with hname
  · obtain rfl := Option.some.inj hu
    exact ⟨hname.symm, hkeys⟩
  · exact h name u hu

theorem Filed.erase (h : Filed m) (name : String) : Filed (m.erase name) := by
  intro name' u hu
  rw [HashMap.lookup_erase_eq] at hu
  split_ifs at hu
  exact h name' u hu

theorem Inv.restart (h : Inv roots calls σ) : Inv roots (calls ++ [.restart]) σ.restart := by
  -- reading a file twice gives what reading it once gave
  have hload : ∀ path ∈ roots, ∀ name,
      (σ.restart.triggers path).lookup name = (had calls path name).map viewed := by
    intro path hpath name
    rw [State.triggers_restart, ← h.triggers path hpath name]
    exact h.files path hpath name
  refine ⟨fun path hpath name => ?_, fun path hpath name t ht => ?_, fun path hpath name => ?_⟩
  · rw [had_append]
    exact hload path hpath name
  · rw [hload path hpath, ← h.triggers path hpath, Option.map_eq_some_iff] at ht
    obtain ⟨u, hu, rfl⟩ := ht
    obtain ⟨hname, hkeys⟩ := h.filed path hpath name u hu
    exact ⟨hname, all_keysDistinct_jsonView hkeys⟩
  · show (σ.restart.triggers path).lookup name = _
    rw [hload path hpath, Option.map_map]
    congr 1
    funext t
    exact (viewed_viewed t).symm

theorem Inv.step (hroots : Set.InjOn pathSlug roots) {call : Call} {σ' : State serde}
    (h : Inv roots calls σ) (hs : Step roots σ call σ') : Inv roots (calls ++ [call]) σ' := by
  cases hs with
  | @install path hpath t hkeys items hitems =>
    refine h.persist hroots hpath ((h.filed path hpath).insert hkeys) hitems (fun name => ?_)
      fun path' hp name => if_neg fun hboth => hp hboth.1.symm
    rw [HashMap.lookup_insert_eq, h.triggers path hpath name]
    simp only [Call.leaves, true_and, eq_comm]
  | @remove path hpath name hfound items hitems =>
    refine h.persist hroots hpath ((h.filed path hpath).erase name) hitems (fun name' => ?_)
      fun path' hp name' => if_neg fun hboth => hp hboth.1.symm
    rw [HashMap.lookup_erase_eq, h.triggers path hpath name']
    simp only [Call.leaves, true_and, eq_comm]
  | @removeMissing path hpath name hmissing =>
    refine ⟨fun path' hp' name' => ?_, h.filed, h.files⟩
    rw [had_append, ← h.triggers path' hp' name', Call.leaves]
    split_ifs with hboth
    · obtain ⟨rfl, rfl⟩ := hboth
      exact hmissing
    · rfl
  | restart => exact h.restart

theorem Inv.start : Inv roots [] (State.start : State serde) := by
  refine ⟨fun path _ name => rfl, fun path _ name t ht => ?_, fun path _ name => rfl⟩
  cases ht

theorem Inv.run (hroots : Set.InjOn pathSlug roots) (hrun : Runs roots calls σ) :
    Inv roots calls σ := by
  have hstep : ∀ s s' : List Call × State serde, Inv roots s.1 s.2 → Logged roots s s' →
      Inv roots s'.1 s'.2 := by
    rintro ⟨calls, σ⟩ ⟨calls', σ'⟩ h ⟨call, hs, rfl⟩
    exact h.step hroots hs
  refine hrun.invariant ?_ hstep
  rintro s rfl
  exact Inv.start

/-! ## Roots whose files are one -/

def xTrigger : Trigger := ⟨"x", ["make"], .null, false, none, none⟩

def xTriggers : HashMap String Trigger := (∅ : HashMap String Trigger).insert "x" xTrigger

/-- The trigger was installed at `p`. -/
def xInstalled (serde : Serde) (p : List Name) : State serde :=
  (State.start.setTriggers p xTriggers).persistTriggers p [xTrigger]

theorem filed_xTriggers : Filed xTriggers := by
  refine Filed.insert (t := xTrigger) ?_ trivial
  rintro name t ⟨⟩

theorem not_survivesRestart {p q : List Name} (hp : p ∈ roots) (hq : q ∈ roots) (hne : p ≠ q)
    (hslug : pathSlug p = pathSlug q) : ¬ SurvivesRestart serde roots := by
  intro hsurvives
  have hitems : [xTrigger].Perm (HashMap.values xTriggers) := List.Perm.refl _
  have hrun : Runs roots [.installTrigger p xTrigger] (xInstalled serde p) :=
    ⟨_, rfl, .single ⟨_, .install hp xTrigger trivial hitems, rfl⟩⟩
  have hread : ((xInstalled serde p).restart.triggers q).lookup "x" = some (viewed xTrigger) := by
    rw [State.triggers_restart, ← load_of_pathSlug_eq hslug]
    exact load_persistTriggers filed_xTriggers hitems _ "x"
  have hnone : had [.installTrigger p xTrigger] q "x" = none := if_neg fun hboth => hne hboth.1
  have hlookup := hsurvives _ _ hrun q hq "x"
  rw [hread, hnone] at hlookup
  exact Option.some_ne_none _ hlookup

end Runs

/-- Every root gets its own triggers back after a restart, whatever was installed and removed,
exactly if no two of the roots' paths are alike. -/
theorem triggers_survive_restart_iff (serde : Serde) (roots : Set (List Name)) :
    SurvivesRestart serde roots ↔ roots.Pairwise fun p q => ¬ Alike p q := by
  constructor
  · intro h p hp q hq hne halike
    exact not_survivesRestart hp hq hne ((pathSlug_eq_iff p q).mpr halike) h
  · intro h calls σ hrun path hpath name
    have hroots : Set.InjOn pathSlug roots := by
      intro p hp q hq hslug
      by_contra hne
      exact h hp hq hne ((pathSlug_eq_iff p q).mp hslug)
    have hinv := Inv.run hroots hrun
    rw [State.triggers_restart, ← hinv.triggers path hpath name]
    exact hinv.files path hpath name

/-- Files that hold the documents themselves. -/
def documents : Serde where
  File := List PersistedTrigger
  toVecPretty := id
  fromSlice := some
  fromSlice_toVecPretty _ := rfl

/-- The roots `/a/b` and `/a_b` share a file. -/
theorem shared_file : ¬ SurvivesRestart documents {[[0x61], [0x62]], [[0x61, 0x5F, 0x62]]} :=
  not_survivesRestart (Set.mem_insert _ _) (Set.mem_insert_of_mem _ rfl) (by decide) (by decide)

end Watchwoman.Persistence
