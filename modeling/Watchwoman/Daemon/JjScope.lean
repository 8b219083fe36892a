import Mathlib.Data.List.Infix
import Watchwoman.Daemon.Watcher
import Watchwoman.Lib.Memo

/-!
# The cache of ignore files

`JjScope` reads the `.gitignore` of a directory when an event first needs it and keeps the compiled
matcher, for at most 8192 directories; one more and it starts again from nothing, if need be in the
middle of a lookup. While no `.gitignore` changes, a lookup answers as if every file were read
anew: with the outermost directory on the path that the innermost rule about it ignores
(`ignored_directory_transparent`).

What the `ignore` crate compiles and how a matcher judges a directory are parameters.
-/

namespace Watchwoman.JjScope

open Memo

/-- `ignore::Match` -/
inductive Match where
  | none
  | ignore
  | whitelist
  deriving DecidableEq, Repr

/-- What a match says, if it says anything. -/
def Match.isIgnore? : Match → Option Bool
  | .none => Option.none
  | .ignore => some true
  | .whitelist => some false

section Scope

variable {Gitignore : Type}
  -- what `or_insert_with` makes of the `.gitignore` in a directory, if it is a file and compiles
  (build : List Name → Option Gitignore)
  -- `Gitignore::matched` of a directory
  (matched : Gitignore → List Name → Match)

/-! ## The source -/

/-- The fields of a `JjScope`. -/
abbrev Rules (Gitignore : Type) := HashMap (List Name) (Option Gitignore)

/-- `JjScope::matcher` -/
def matcher (dir : List Name) : StateM (Rules Gitignore) (Option Gitignore) :=
  lookupOrInsert build 8192 dir

/-- One ancestor of `abs` in the inner loop of `ignored_directory`. -/
def judge (abs : List Name) (ignored : Bool) (ancestor : List Name) :
    StateM (Rules Gitignore) Bool := do
  match ← matcher build ancestor with
  | some m => return (matched m abs).isIgnore?.getD ignored
  | none => return ignored

/-- The inner loop of `ignored_directory`. -/
def ignoredBy (ancestors : List (List Name)) (abs : List Name) : StateM (Rules Gitignore) Bool :=
  ancestors.foldlM (judge build matched abs) false

/-- The outer loop, over the components that are left. -/
def ignoredBelow (root : List Name) (targetIsDir : Bool) :
    List (List Name) → RelPath → List Name → StateM (Rules Gitignore) (Option RelPath)
  | _, _, [] => return none
  | ancestors, above, n :: rest =>
    if rest = [] ∧ targetIsDir = false then return none
    else do
      if ← ignoredBy build matched ancestors (root ++ (above ++ [n])) then
        return some (above ++ [n])
      else
        ignoredBelow root targetIsDir (ancestors ++ [root ++ (above ++ [n])]) (above ++ [n]) rest

/-- `JjScope::ignored_directory` -/
def ignoredDirectory (root : List Name) (rel : RelPath) (targetIsDir : Bool) :
    StateM (Rules Gitignore) (Option RelPath) :=
  ignoredBelow build matched root targetIsDir [root] [] rel

/-- `JjScope::clear` -/
def clear : StateM (Rules Gitignore) Unit := set (∅ : Rules Gitignore)

/-- A call of one of the two. -/
inductive Call where
  | clear
  | ignoredDirectory (root : List Name) (rel : RelPath) (targetIsDir : Bool)

/-- What a call returns; `clear` has nothing to return. -/
def Call.run : Call → StateM (Rules Gitignore) (Option RelPath)
  | .clear => do
    JjScope.clear
    return none
  | .ignoredDirectory root rel targetIsDir =>
    JjScope.ignoredDirectory build matched root rel targetIsDir

/-! ## Without the cache -/

/-- What the `.gitignore` of the directory `a` says of the directory `d`. -/
def verdict (root : List Name) (a d : RelPath) : Option Bool :=
  (build (root ++ a)).bind fun m => (matched m (root ++ d)).isIgnore?

theorem yields_judge (root : List Name) (d : RelPath) (ignored : Bool) (a : RelPath) :
    Yields (Coherent build) (judge build matched (root ++ d) ignored (root ++ a))
      ((verdict build matched root a d).getD ignored) := by
  refine (yields_lookupOrInsert build 8192 (root ++ a)).bind ?_
  unfold verdict
  cases build (root ++ a) with
  | none => exact .pure ignored
  | some m => exact .pure _

theorem yields_ignoredBy (root : List Name) (ancestors : List RelPath) (d : RelPath) :
    Yields (Coherent build) (ignoredBy build matched (ancestors.map (root ++ ·)) (root ++ d))
      (Watcher.ignoredBy (verdict build matched root) ancestors d) := by
  unfold ignoredBy Watcher.ignoredBy
  rw [List.foldlM_map]
  exact .foldlM (fun ignored a => yields_judge build matched root d ignored a) ancestors false

theorem yields_ignoredBelow (root : List Name) (targetIsDir : Bool) (rest : List Name) :
    ∀ (ancestors : List RelPath) (above : RelPath), Yields (Coherent build)
      (ignoredBelow build matched root targetIsDir (ancestors.map (root ++ ·)) above rest)
      (Watcher.ignoredBelow (verdict build matched root) targetIsDir ancestors above rest) := by
  induction rest with
  | nil =>
    intro ancestors above
    exact .pure none
  | cons n rest ih =>
    intro ancestors above
    unfold ignoredBelow Watcher.ignoredBelow
    split_ifs with hlast hignored
    · exact .pure none
    · refine (yields_ignoredBy build matched root ancestors (above ++ [n])).bind ?_
      rw [hignored]
      exact .pure _
    · refine (yields_ignoredBy build matched root ancestors (above ++ [n])).bind ?_
      rw [if_neg hignored]
      have h := ih (ancestors ++ [above ++ [n]]) (above ++ [n])
      rwa [List.map_append] at h

theorem yields_ignoredDirectory (root : List Name) (rel : RelPath) (targetIsDir : Bool) :
    Yields (Coherent build) (ignoredDirectory build matched root rel targetIsDir)
      (Watcher.ignoredDirectory (verdict build matched root) rel targetIsDir) := by
  have h := yields_ignoredBelow build matched root targetIsDir rel [[]] []
  rwa [List.map_singleton, List.append_nil] at h

theorem yields_clear : Yields (Coherent build) clear () :=
  fun _ _ => ⟨rfl, coherent_empty build⟩

end Scope

/-! ## The outermost ignored directory -/

section Outermost

variable (verdict : RelPath → RelPath → Option Bool)

/-- The deepest of the root and the proper ancestors of `d` that says anything about `d` says to
ignore it. -/
def Ignored (d : RelPath) : Prop :=
  ∃ a, a <+: d ∧ a ≠ d ∧ verdict a d = some true ∧
    ∀ a', a' <+: d → a' ≠ d → a.length < a'.length → verdict a' d = none

def OnPath (rel : RelPath) (targetIsDir : Bool) (d : RelPath) : Prop :=
  d ≠ [] ∧ d <+: rel ∧ (targetIsDir = false → d ≠ rel)

/-- The shortest ignored directory on a path, if there is any. -/
def IsOutermost (rel : RelPath) (targetIsDir : Bool) : Option RelPath → Prop
  | some d => OnPath rel targetIsDir d ∧ Ignored verdict d ∧
      ∀ d', OnPath rel targetIsDir d' → Ignored verdict d' → d.length ≤ d'.length
  | none => ∀ d, OnPath rel targetIsDir d → ¬ Ignored verdict d

theorem inits_concat (l : RelPath) (n : Name) : (l ++ [n]).inits = l.inits ++ [l ++ [n]] := by
  rw [List.inits_append]
  rfl

/-- The deepest of `above` and its ancestors that says anything about `d` says to ignore it. -/
def DeepestIgnores (above d : RelPath) : Prop :=
  ∃ a, a <+: above ∧ verdict a d = some true ∧
    ∀ a', a' <+: above → a.length < a'.length → verdict a' d = none

section Deepest

variable {verdict} {above d : RelPath} {n : Name}

theorem deepestIgnores_nil : DeepestIgnores verdict [] d ↔ verdict [] d = some true := by
  unfold DeepestIgnores
  simp only [List.prefix_nil]
  constructor
  · rintro ⟨a, rfl, hv, -⟩
    exact hv
  · intro hv
    exact ⟨[], rfl, hv, fun a' ha' hlt => absurd ha' (List.ne_nil_of_length_pos hlt)⟩

theorem deepestIgnores_concat_of_some {b : Bool} (hv : verdict (above ++ [n]) d = some b) :
    DeepestIgnores verdict (above ++ [n]) d ↔ b = true := by
  constructor
  · rintro ⟨a, ha, hva, hdeep⟩
    obtain rfl | ha := List.prefix_concat_iff.mp ha
    · exact Option.some.inj (hv.symm.trans hva)
    · have hlt : a.length < (above ++ [n]).length := by
        rw [List.length_append, List.length_singleton]
        exact Nat.lt_succ_of_le ha.length_le
      rw [hdeep _ List.prefix_rfl hlt] at hv
      cases hv
  · rintro rfl
    refine ⟨above ++ [n], List.prefix_rfl, hv, fun a' ha' hlt => ?_⟩
    exact absurd ha'.length_le (Nat.not_le.mpr hlt)

theorem deepestIgnores_concat_of_none (hv : verdict (above ++ [n]) d = none) :
    DeepestIgnores verdict (above ++ [n]) d ↔ DeepestIgnores verdict above d := by
  constructor
  · rintro ⟨a, ha, hva, hdeep⟩
    obtain rfl | ha := List.prefix_concat_iff.mp ha
    · rw [hv] at hva
      cases hva
    · exact ⟨a, ha, hva, fun a' ha' => hdeep a' (ha'.trans (List.prefix_append _ _))⟩
  · rintro ⟨a, ha, hva, hdeep⟩
    refine ⟨a, ha.trans (List.prefix_append _ _), hva, fun a' ha' hlt => ?_⟩
    obtain rfl | ha' := List.prefix_concat_iff.mp ha'
    · exact hv
    · exact hdeep a' ha' hlt

end Deepest

theorem ignoredBy_inits_iff (above d : RelPath) :
    Watcher.ignoredBy verdict above.inits d = true ↔ DeepestIgnores verdict above d := by
  induction above using List.reverseRecOn with
  | nil =>
    have hfold : Watcher.ignoredBy verdict [[]] d = (verdict [] d).getD false := rfl
    rw [List.inits, hfold, deepestIgnores_nil]
    cases verdict [] d <;> simp
  | append_singleton above n ih =>
    have hfold : Watcher.ignoredBy verdict (above ++ [n]).inits d =
        (verdict (above ++ [n]) d).getD (Watcher.ignoredBy verdict above.inits d) := by
      unfold Watcher.ignoredBy
      rw [inits_concat, List.foldl_append]
      rfl
    rw [hfold]
    cases hv : verdict (above ++ [n]) d with
    | some b => exact (deepestIgnores_concat_of_some hv).symm
    | none => exact ih.trans (deepestIgnores_concat_of_none hv).symm

theorem ignored_concat_iff (above : RelPath) (n : Name) :
    Ignored verdict (above ++ [n]) ↔
      Watcher.ignoredBy verdict above.inits (above ++ [n]) = true := by
  have hproper : ∀ a, a <+: above ++ [n] ∧ a ≠ above ++ [n] ↔ a <+: above := by
    intro a
    rw [List.prefix_concat_iff]
    constructor
    · rintro ⟨rfl | ha, hne⟩
      · exact absurd rfl hne
      · exact ha
    · intro ha
      refine ⟨.inr ha, ?_⟩
      rintro rfl
      have := ha.length_le
      rw [List.length_append, List.length_singleton] at this
      omega
  rw [ignoredBy_inits_iff]
  unfold Ignored DeepestIgnores
  simp only [← hproper, and_assoc, and_imp]

/-- The loop goes on while no directory so far is ignored. -/
theorem isOutermost_ignoredBelow (targetIsDir : Bool) (rest : List Name) :
    ∀ above : RelPath, (∀ d, d ≠ [] → d <+: above → ¬ Ignored verdict d) →
      IsOutermost verdict (above ++ rest) targetIsDir
        (Watcher.ignoredBelow verdict targetIsDir above.inits above rest) := by
  induction rest with
  | nil =>
    intro above habove d hd
    exact habove d hd.1 (by simpa using hd.2.1)
  | cons n rest ih =>
    intro above habove
    unfold Watcher.ignoredBelow
    have hrel : above ++ n :: rest = above ++ [n] ++ rest := by simp
    rw [hrel]
    split_ifs with hlast hignored
    · obtain ⟨rfl, rfl⟩ := hlast
      rw [List.append_nil]
      rintro d ⟨hne, hpre, hproper⟩
      exact habove d hne ((List.prefix_concat_iff.mp hpre).resolve_left (hproper rfl))
    · refine ⟨⟨by simp, List.prefix_append _ _, fun htarget heq => hlast ⟨?_, htarget⟩⟩,
        (ignored_concat_iff verdict above n).mpr hignored, fun d' hd' hd'ignored => ?_⟩
      · exact List.append_cancel_left (heq.symm.trans (List.append_nil _).symm)
      · by_contra hlt
        have hpre : d' <+: above :=
          List.prefix_of_prefix_length_le hd'.2.1
            ((List.prefix_append above [n]).trans (List.prefix_append _ rest)) (by
              rw [List.length_append, List.length_singleton] at hlt
              omega)
        exact habove d' hd'.1 hpre hd'ignored
    · rw [← inits_concat]
      refine ih (above ++ [n]) fun d hne hpre hd => ?_
      obtain rfl | hpre := List.prefix_concat_iff.mp hpre
      · exact hignored ((ignored_concat_iff verdict above n).mp hd)
      · exact habove d hne hpre hd

theorem isOutermost_ignoredDirectory (rel : RelPath) (targetIsDir : Bool) :
    IsOutermost verdict rel targetIsDir (Watcher.ignoredDirectory verdict rel targetIsDir) :=
  isOutermost_ignoredBelow verdict targetIsDir rel [] fun _ hne hpre _ =>
    hne (List.prefix_nil.mp hpre)

end Outermost

/-! ## Sequences of calls -/

section Calls

variable {Gitignore : Type} (build : List Name → Option Gitignore)
  (matched : Gitignore → List Name → Match)

/-- A call returned what it should. -/
def Call.Answered (out : Option RelPath) : Call → Prop
  | .clear => out = none
  | .ignoredDirectory root rel targetIsDir =>
    IsOutermost (verdict build matched root) rel targetIsDir out

/-- What a call returns without the cache. -/
def Call.answer : Call → Option RelPath
  | .clear => none
  | .ignoredDirectory root rel targetIsDir =>
    Watcher.ignoredDirectory (verdict build matched root) rel targetIsDir

theorem yields_run (c : Call) :
    Yields (Coherent build) (c.run build matched) (c.answer build matched) := by
  cases c with
  | clear => exact (yields_clear build).bind (.pure none)
  | ignoredDirectory root rel targetIsDir =>
    exact yields_ignoredDirectory build matched root rel targetIsDir

/-- **The bounded cache is transparent.** Whatever it holds, as long as that is what the disk says,
each call of a sequence returns the outermost ignored directory on its path. -/
theorem ignored_directory_transparent (calls : List Call) (scope : Rules Gitignore)
    (hscope : Coherent build scope) :
    List.Forall₂ (fun c out => Call.Answered build matched out c) calls
      ((calls.mapM (Call.run build matched)).run scope).1 := by
  have hrun := (Yields.mapM (yields_run build matched) calls scope hscope).1
  rw [hrun, List.forall₂_map_right_iff, List.forall₂_same]
  intro c _
  cases c with
  | clear => rfl
  | ignoredDirectory root rel targetIsDir =>
    exact isOutermost_ignoredDirectory (verdict build matched root) rel targetIsDir

/-- The directory `b` of the root `r` is ignored by the `.gitignore` of the root. -/
def ignoresB : Unit → List Name → Match := fun _ abs =>
  if abs = [[0x72], [0x62]] then .ignore else .none

/-- Only the root has a `.gitignore`. -/
def rootOnly : List Name → Option Unit := fun dir => if dir = [[0x72]] then some () else none

def someCalls : List Call :=
  [.ignoredDirectory [[0x72]] [[0x62], [0x63]] false, .clear,
    .ignoredDirectory [[0x72]] [[0x62]] false]

theorem ignored_directory_transparent_someCalls :
    ((someCalls.mapM (Call.run rootOnly ignoresB)).run ∅).1 = [some [[0x62]], none, none] ∧
      List.Forall₂ (fun c out => Call.Answered rootOnly ignoresB out c) someCalls
        ((someCalls.mapM (Call.run rootOnly ignoresB)).run ∅).1 :=
  ⟨by decide, ignored_directory_transparent rootOnly ignoresB someCalls ∅ (coherent_empty rootOnly)⟩

end Calls

end Watchwoman.JjScope
