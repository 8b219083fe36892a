import Watchwoman.Commands.Runs
import Watchwoman.Commands.TriggerQuery

/-!
# The triggers of a list are installed again as they are

`trigger-list` prints what `trigger` reads. The one thing that could be lost is the limit of the
names, an `i64` on the wire and a `usize` in the daemon; no client can set one past an `i64`, and the
files keep what was set. So in every state of the daemon a client can take a list of triggers and
install them on the same root, or on another one, unchanged (`listed_triggers_reinstall`).
-/

namespace Watchwoman.Dispatch

open Transaction Program Transition Persistence CommandError

/-! ## One trigger -/

/-- The limit of the names fits an `i64`. -/
def Listable (t : Trigger) : Prop := ∀ n ∈ t.maxFilesStdin, n < 2 ^ 63

theorem parseStdin_stdinText (s : TriggerStdin) :
    parseStdin (some (.string (stdinText s))) = some s := by
  cases s with
  | namePerLine => rfl
  | jsonName => rfl

theorem filterMap_asStr (l : List String) : (l.map Value.string).filterMap Value.asStr = l := by
  rw [List.filterMap_map]
  exact List.filterMap_some

theorem toNat_int {n : ℕ} (h : n < 2 ^ 63) : (Int64.ofNat n).toInt.toNat = n := by
  rw [Int64.toInt_ofNat_of_lt h, Int.toNat_natCast]

theorem parseTrigger_triggerToValue {t : Trigger} (h : Listable t) :
    parseTrigger (triggerToValue t) = .ok t := by
  obtain ⟨name, command, expression, appendFiles, stdin, maxFilesStdin⟩ := t
  have hstdin : parseStdin (stdin.map fun s => .string (stdinText s)) = stdin := by
    cases stdin with
    | none => rfl
    | some s => exact parseStdin_stdinText s
  have hmax : ((maxFilesStdin.map Info.int).bind Value.asI64).map (fun n => n.toInt.toNat) =
      maxFilesStdin := by
    cases maxFilesStdin with
    | none => rfl
    | some n => exact congrArg some (toNat_int (h n rfl))
  have hparsed : parseTrigger (triggerToValue ⟨name, command, expression, appendFiles, stdin,
      maxFilesStdin⟩) = .ok ⟨name, (command.map Value.string).filterMap Value.asStr, expression,
        appendFiles, parseStdin (stdin.map fun s => .string (stdinText s)),
        ((maxFilesStdin.map Info.int).bind Value.asI64).map fun n => n.toInt.toNat⟩ := by
    cases stdin <;> cases maxFilesStdin <;> rfl
  rw [hparsed, filterMap_asStr, hstdin, hmax]

theorem listable_of_parseTrigger {spec : Value} {t : Trigger} (h : parseTrigger spec = .ok t) :
    Listable t := by
  obtain ⟨o, -, h⟩ := CommandError.bind_eq_ok.mp h
  obtain ⟨name, -, h⟩ := CommandError.bind_eq_ok.mp h
  obtain ⟨command, -, h⟩ := CommandError.bind_eq_ok.mp h
  obtain rfl := Except.ok.inj h
  intro n hn
  obtain ⟨i, -, rfl⟩ := Option.mem_map.mp hn
  have hlt := i.toInt_lt
  omega

/-! ## Every state of the daemon -/

/-- Anything may come; the triggers among it are listable. -/
def listable : Admitted := ⟨fun _ => True, fun _ => True, Listable⟩

theorem admits_listable (e : Event) : listable.Admits e :=
  ⟨trivial, fun _ _ _ _ _ => trivial, fun _ _ _ _ _ _ ht => listable_of_parseTrigger ht⟩

theorem stored_listable : listable.Stored := fun _ ht => ht

variable {serde : Serde} {env : CommandEnv} {args : List Value}

/-- What `trigger-list` responds. -/
theorem exists_triggerList {σ : DaemonState serde.File} {v : Value}
    (h : ((triggerList env args : Cmd serde Value).exec σ).1 = .ok v) :
    ∃ path w, rootKey env args = some path ∧ σ.roots.lookup path = some w ∧
      v = obj [("triggers", .array ((HashMap.values w.triggers).map triggerToValue))] := by
  unfold triggerList at h
  rw [exec_bind] at h
  obtain ⟨e, hexec⟩ | ⟨text, path, w, hw, hexec⟩ :=
    @resolveRoot_cases _ env args "trigger command requires a root" σ
  · rw [hexec] at h
    cases h
  · have hpath := path_of_resolveRoot (congrArg Prod.fst hexec)
    rw [hexec] at h
    exact ⟨path, w, hpath, hw, (Except.ok.inj h).symm⟩

/-- The items are the triggers of the root: `trigger` reads each as that very trigger, and to install
it there changes nothing. -/
structure ListsTriggers (w : Watch) (items : List Value) : Prop where
  length : items.length = w.triggerCount
  lookup_iff : ∀ name t, w.triggers.lookup name = some t ↔
    t.name = name ∧ ∃ item ∈ items, parseTrigger item = .ok t
  reinstalled : ∀ item ∈ items, ∃ t, parseTrigger item = .ok t ∧
    ∀ name, (w.triggers.insert t.name t).lookup name = w.triggers.lookup name

/-- **Lists of triggers.** Whatever has been done to the daemon, a list of the triggers of a root has
an item for each of them, which `trigger` reads as that very trigger. -/
theorem listed_triggers_reinstall {σ₀ σ : DaemonState serde.File}
    (hstart : σ₀.roots = ∅ ∧ σ₀.reapLog = []) (hfiles : FilesAdmitted listable σ₀)
    (hrun : Run (Move listable) σ₀ σ) {v : Value}
    (hv : ((triggerList env args : Cmd serde Value).exec σ).1 = .ok v) :
    ∃ path w items, rootKey env args = some path ∧ σ.roots.lookup path = some w ∧
      v = obj [("triggers", .array items)] ∧ ListsTriggers w items := by
  obtain ⟨path, w, hpath, hw, rfl⟩ := exists_triggerList hv
  have hcoherent : Coherent listable path w :=
    (consistent_of_run stored_listable hstart hfiles hrun).roots path w hw
  -- each trigger stands under its name, and is read back
  have hread : ∀ t ∈ HashMap.values w.triggers, w.triggers.lookup t.name = some t ∧
      parseTrigger (triggerToValue t) = .ok t := by
    intro t ht
    obtain ⟨name, hlookup⟩ := HashMap.mem_values_iff.mp ht
    obtain ⟨rfl, hlistable⟩ := hcoherent.triggers name t hlookup
    exact ⟨hlookup, parseTrigger_triggerToValue hlistable⟩
  refine ⟨path, w, _, hpath, hw, rfl, ?_, fun name t => ⟨fun hlookup => ?_, ?_⟩, ?_⟩
  · rw [List.length_map]
    exact List.length_map _
  · have ht : t ∈ HashMap.values w.triggers := HashMap.mem_values_iff.mpr ⟨name, hlookup⟩
    exact ⟨(hcoherent.triggers name t hlookup).1, triggerToValue t, List.mem_map_of_mem ht,
      (hread t ht).2⟩
  · rintro ⟨rfl, item, hitem, hparse⟩
    obtain ⟨u, hu, rfl⟩ := List.mem_map.mp hitem
    obtain ⟨hlookup, hread⟩ := hread u hu
    obtain rfl := Except.ok.inj (hread.symm.trans hparse)
    exact hlookup
  · intro item hitem
    obtain ⟨t, ht, rfl⟩ := List.mem_map.mp hitem
    obtain ⟨hlookup, hread⟩ := hread t ht
    refine ⟨t, hread, fun name => ?_⟩
    rw [HashMap.lookup_insert_eq]
    split_ifs with hname
    · rw [hname, hlookup]
    · rfl

/-- A client installs a trigger that is given five names at most. -/
def triggerX : Event :=
  ⟨twoDirectories, ⟨1, .json⟩, .array [.string "trigger", .string "/a", .object [
    ("name", .string "x"), ("command", .array [.string "make"]), ("max_files_stdin", .int 5)]]⟩

theorem listed_triggers_reinstall_triggerX :
    ∃ path w items, rootKey twoDirectories [.string "/a"] = some path ∧
      (dispatchAll [commandOn "watch" "/a", triggerX] noRoots).roots.lookup path = some w ∧
      obj [("triggers", .array [triggerToValue
        ⟨"x", ["make"], .string "true", false, none, some 5⟩])] = obj [("triggers", .array items)] ∧
      ListsTriggers w items := by
  refine listed_triggers_reinstall ⟨rfl, rfl⟩ filesAdmitted_noRoots
    (.tail (.single (.command (admits_listable (commandOn "watch" "/a")) noRoots))
      (.command (admits_listable triggerX) _)) ?_
  rfl

end Watchwoman.Dispatch
