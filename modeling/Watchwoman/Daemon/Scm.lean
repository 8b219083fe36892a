import Mathlib.Data.Finset.Max
import Watchwoman.Daemon.Clock
import Watchwoman.Daemon.Path
import Watchwoman.Lib.Text

/-!
# The paths that a version control system reports

`scm.rs` splits what git prints into lines and trims them. Git quotes a path with an unusual byte,
which is not undone, and prints spaces at the ends of a path, which are trimmed. So the paths of a
commit are recognised exactly if none of them is quoted or starts or ends with a space
(`git_changed_paths_iff`): one that is quoted stands for a longer path, and one that is trimmed for a
shorter one, so no finite set of paths is read as itself if there is such a path in it.
-/

namespace Watchwoman.Scm

section Source

variable (spawn : String → List String → Option (List UInt8))

/-- What a program prints when it is run in the root, if it succeeds. -/
def run (program : String) (args : List String) : Option String :=
  (spawn program args).map Utf8.lossy

/-- What `git_changed` compares with. -/
def gitTarget (mergebase : String) : String :=
  if mergebase = "" then "HEAD"
  else ((run spawn "git" ["merge-base", "HEAD", mergebase]).map Text.trim).getD mergebase

def gitChanged (mergebase : String) : Option String := do
  let target := gitTarget spawn mergebase
  let changed ← run spawn "git" ["diff", "--name-only", "--relative", target ++ "..HEAD"]
  let working := (run spawn "git" ["diff", "--name-only", "--relative", "HEAD"]).getD ""
  let untracked := (run spawn "git" ["ls-files", "--others", "--exclude-standard"]).getD ""
  return changed ++ "\n" ++ working ++ "\n" ++ untracked

def hgChanged (mergebase : String) : Option String :=
  let revArg := if mergebase = "" then ".^" else mergebase
  run spawn "hg" ["status", "--no-status", "--rev", revArg]

/-- One line of the output. The set compares paths by their components. -/
def addLine (set : Finset (List Component)) (line : String) : Finset (List Component) :=
  let line := Text.trim line
  if line = "" then set else insert (components line) set

def changedPaths (vcs : ScmVcs) (mergebase : String) : Option (Finset (List Component)) := do
  let out ← match vcs with
    | .git => gitChanged spawn mergebase
    | .hg => hgChanged spawn mergebase
  return (Text.lines out).foldl addLine ∅

end Source

/-! ## What git prints -/

/-- Git escapes the byte: a control character, a quote, a backslash, or a byte past ASCII. -/
def IsUnusual (b : UInt8) : Prop := b < 0x20 ∨ b = 0x22 ∨ b = 0x5C ∨ 0x7F ≤ b

instance : DecidablePred IsUnusual := fun _ => inferInstanceAs (Decidable (_ ∨ _ ∨ _ ∨ _))

/-- The letter that C escapes a byte with, if it has one. -/
def escapeLetter (b : UInt8) : Option UInt8 :=
  [(0x07, 0x61), (0x08, 0x62), (0x09, 0x74), (0x0A, 0x6E), (0x0B, 0x76), (0x0C, 0x66), (0x0D, 0x72),
    (0x22, 0x22), (0x5C, 0x5C)].lookup b

/-- A byte inside of quotes: escaped by its letter or in octal, if it is unusual. -/
def escape (b : UInt8) : List UInt8 :=
  if IsUnusual b then
    match escapeLetter b with
    | some letter => [0x5C, letter]
    | none => [0x5C, 0x30 + b / 64, 0x30 + b / 8 % 8, 0x30 + b % 8]
  else [b]

/-- A path as git prints it with the default `core.quotePath`. -/
def quotePath (path : List UInt8) : List UInt8 :=
  if ∃ b ∈ path, IsUnusual b then 0x22 :: (path.flatMap escape ++ [0x22]) else path

def printed (paths : List RelPath) : List UInt8 :=
  paths.flatMap fun p => quotePath p.bytes ++ [0x0A]

/-- The three commands of `git_changed` print these paths. -/
structure GitPrints (spawn : String → List String → Option (List UInt8)) (mergebase : String)
    (changed working untracked : List RelPath) : Prop where
  changed : spawn "git" ["diff", "--name-only", "--relative", gitTarget spawn mergebase ++ "..HEAD"] =
    some (printed changed)
  working : spawn "git" ["diff", "--name-only", "--relative", "HEAD"] = some (printed working)
  untracked : spawn "git" ["ls-files", "--others", "--exclude-standard"] = some (printed untracked)

/-- A path below a root that can be a file's. -/
structure IsFilePath (p : RelPath) : Prop where
  nonempty : p ≠ []
  names : ∀ n ∈ p, IsName n

/-- Git quotes the path. -/
def Quoted (p : RelPath) : Prop := ∃ b ∈ p.bytes, IsUnusual b

/-- The path starts or ends with a space. -/
def Spaced (p : RelPath) : Prop := p.bytes.head? = some 0x20 ∨ p.bytes.getLast? = some 0x20

instance (p : RelPath) : Decidable (Quoted p) := inferInstanceAs (Decidable (∃ b ∈ p.bytes, _))

instance (p : RelPath) : Decidable (Spaced p) := inferInstanceAs (Decidable (_ ∨ _))

example : quotePath [0xC3, 0xA9, 0x09] =
    [0x22, 0x5C, 0x33, 0x30, 0x33, 0x5C, 0x32, 0x35, 0x31, 0x5C, 0x74, 0x22] := by decide

/-! ## Quoting -/

/-- A byte other than a slash and a dot, of which reading a path drops some. -/
def IsHeavy (b : UInt8) : Bool := b != 0x2F && b != 0x2E

theorem forall_byte {P : UInt8 → Prop} (h : ∀ n < 256, P (UInt8.ofNat n)) (b : UInt8) : P b := by
  have hb := h b.toNat b.toNat_lt
  rwa [UInt8.ofNat_toNat] at hb

theorem escape_printable : ∀ b : UInt8, ∀ c ∈ escape b, 0x20 ≤ c.toNat ∧ c.toNat < 0x7F := by
  refine forall_byte ?_
  decide +kernel

theorem countP_escape : ∀ b : UInt8, [b].countP IsHeavy ≤ (escape b).countP IsHeavy := by
  refine forall_byte ?_
  decide +kernel

theorem countP_flatMap_escape (path : List UInt8) :
    path.countP IsHeavy ≤ (path.flatMap escape).countP IsHeavy := by
  induction path with
  | nil => exact Nat.zero_le _
  | cons b path ih =>
    have hb := countP_escape b
    rw [List.flatMap_cons, List.countP_append, ← List.singleton_append, List.countP_append]
    omega

theorem quotePath_quoted {p : RelPath} (h : Quoted p) :
    quotePath p.bytes = 0x22 :: (p.bytes.flatMap escape ++ [0x22]) := if_pos h

theorem quotePath_verbatim {p : RelPath} (h : ¬ Quoted p) : quotePath p.bytes = p.bytes := if_neg h

theorem printable_of_not_isUnusual {b : UInt8} (h : ¬ IsUnusual b) :
    0x20 ≤ b.toNat ∧ b.toNat < 0x7F := by
  have hescape : escape b = [b] := if_neg h
  refine escape_printable b b ?_
  rw [hescape]
  exact List.mem_singleton_self b

theorem quotePath_printable (p : RelPath) :
    ∀ c ∈ quotePath p.bytes, 0x20 ≤ c.toNat ∧ c.toNat < 0x7F := by
  intro c hc
  by_cases h : Quoted p
  · rw [quotePath_quoted h, List.mem_cons, List.mem_append, List.mem_singleton] at hc
    rcases hc with rfl | hc | rfl
    · decide
    · obtain ⟨b, -, hc⟩ := List.mem_flatMap.mp hc
      exact escape_printable b c hc
    · decide
  · rw [quotePath_verbatim h] at hc
    exact printable_of_not_isUnusual fun hunusual => h ⟨c, hc, hunusual⟩

theorem bytes_ne_nil {p : RelPath} (hp : IsFilePath p) : p.bytes ≠ [] := by
  obtain ⟨n, p, rfl⟩ := List.exists_cons_of_ne_nil hp.nonempty
  intro h
  have hn := Joined.subset_intercalate (x := 0x2F) (l := n :: p) List.mem_cons_self
  rw [RelPath.bytes] at h
  rw [h] at hn
  exact (hp.names n List.mem_cons_self).nonempty (List.subset_nil.mp hn)

theorem quotePath_ne_nil {p : RelPath} (hp : IsFilePath p) : quotePath p.bytes ≠ [] := by
  unfold quotePath
  split_ifs
  · exact List.cons_ne_nil _ _
  · exact bytes_ne_nil hp

/-! ## The lines that are read -/

def text (p : RelPath) : List Char := Utf8.asciiText (quotePath p.bytes)

theorem allAscii_quotePath (p : RelPath) : Utf8.AllAscii (quotePath p.bytes) := by
  intro c hc
  have h := quotePath_printable p c hc
  omega

theorem toNat_text {p : RelPath} {c : Char} (hc : c ∈ text p) : 0x20 ≤ c.toNat ∧ c.toNat < 0x7F := by
  obtain ⟨b, hb, rfl⟩ := List.mem_map.mp hc
  have h := quotePath_printable p b hb
  rw [Utf8.toNat_ofNat_ascii (by omega)]
  exact h

theorem separable_text {paths : List RelPath} (h : ∀ p ∈ paths, IsFilePath p) :
    Joined.Separable '\n' (paths.map text) := by
  refine List.forall_mem_map.mpr fun p hp => ⟨?_, fun hnewline => ?_⟩
  · unfold text Utf8.asciiText
    rw [ne_eq, List.map_eq_nil_iff]
    exact quotePath_ne_nil (h p hp)
  · exact absurd (toNat_text hnewline).1 (by decide)

theorem allAscii_printed (paths : List RelPath) : Utf8.AllAscii (printed paths) := by
  intro c hc
  obtain ⟨p, -, hc⟩ := List.mem_flatMap.mp hc
  rcases List.mem_append.mp hc with hc | hc
  · exact allAscii_quotePath p c hc
  · rw [List.mem_singleton.mp hc]
    decide

theorem lossy_printed (paths : List RelPath) :
    Utf8.lossy (printed paths) =
      String.ofList ((paths.map text).flatMap fun line => line ++ ['\n']) := by
  rw [Utf8.lossy_ascii (allAscii_printed paths)]
  unfold printed Utf8.asciiText text
  rw [List.map_flatMap, List.flatMap_map]
  simp only [List.map_append]
  rfl

theorem gitChanged_eq {spawn : String → List String → Option (List UInt8)} {mergebase : String}
    {changed working untracked : List RelPath}
    (h : GitPrints spawn mergebase changed working untracked) :
    gitChanged spawn mergebase = some (Utf8.lossy (printed changed) ++ "\n" ++
      Utf8.lossy (printed working) ++ "\n" ++ Utf8.lossy (printed untracked)) := by
  unfold gitChanged run
  dsimp only
  rw [h.changed, h.working, h.untracked]
  rfl

theorem parts_output {changed working untracked : List RelPath}
    (hpaths : ∀ p ∈ changed ++ working ++ untracked, IsFilePath p) :
    Joined.parts '\n' (Utf8.lossy (printed changed) ++ "\n" ++
      Utf8.lossy (printed working) ++ "\n" ++ Utf8.lossy (printed untracked)).toList =
        (changed ++ working ++ untracked).map text := by
  have hchanged : Joined.Separable '\n' (changed.map text) :=
    separable_text fun p hp => hpaths p (by simp [hp])
  have hworking : Joined.Separable '\n' (working.map text) :=
    separable_text fun p hp => hpaths p (by simp [hp])
  have huntracked : Joined.Separable '\n' (untracked.map text) :=
    separable_text fun p hp => hpaths p (by simp [hp])
  have hlast := Joined.parts_flatMap_append huntracked []
  rw [List.append_nil, Joined.parts_nil, List.append_nil] at hlast
  have hnewline : "\n".toList = ['\n'] := rfl
  simp only [lossy_printed, String.toList_append, String.toList_ofList, hnewline, List.append_assoc,
    List.cons_append, List.nil_append]
  rw [Joined.parts_flatMap_append hchanged, Joined.parts_cons_self,
    Joined.parts_flatMap_append hworking, Joined.parts_cons_self, hlast, List.map_append,
    List.map_append]

theorem cr_notMem_lossy_printed (paths : List RelPath) :
    '\r' ∉ (Utf8.lossy (printed paths)).toList := by
  rw [lossy_printed, String.toList_ofList]
  intro hcr
  obtain ⟨line, hline, hcr⟩ := List.mem_flatMap.mp hcr
  obtain ⟨p, -, rfl⟩ := List.mem_map.mp hline
  rcases List.mem_append.mp hcr with hcr | hcr
  · exact absurd (toNat_text hcr).1 (by decide)
  · exact absurd (List.mem_singleton.mp hcr) (by decide)

def readLine (p : RelPath) : Option (List Component) :=
  let line := Text.trim (String.ofList (text p))
  if line = "" then none else some (components line)

theorem mem_foldl_addLine {lines : List String} {set : Finset (List Component)}
    {c : List Component} : c ∈ lines.foldl addLine set ↔
      c ∈ set ∨ ∃ line ∈ lines, Text.trim line ≠ "" ∧ components (Text.trim line) = c := by
  induction lines generalizing set with
  | nil => simp
  | cons line lines ih =>
    rw [List.foldl_cons, ih, List.exists_mem_cons_iff, ← or_assoc]
    refine or_congr_left ?_
    unfold addLine
    dsimp only
    split_ifs with hempty
    · simp [hempty]
    · rw [Finset.mem_insert, or_comm, eq_comm]
      simp [hempty]

/-- The set holds what the lines of the paths are read to. -/
theorem mem_changedPaths {spawn : String → List String → Option (List UInt8)} {mergebase : String}
    {changed working untracked : List RelPath}
    (h : GitPrints spawn mergebase changed working untracked)
    (hpaths : ∀ p ∈ changed ++ working ++ untracked, IsFilePath p) :
    ∃ set, changedPaths spawn .git mergebase = some set ∧
      ∀ c, c ∈ set ↔ ∃ p ∈ changed ++ working ++ untracked, readLine p = some c := by
  have hparts := parts_output hpaths
  have hcr : '\r' ∉ (Utf8.lossy (printed changed) ++ "\n" ++ Utf8.lossy (printed working) ++ "\n" ++
      Utf8.lossy (printed untracked)).toList := by
    have hline := cr_notMem_lossy_printed
    have hnewline : '\r' ∉ "\n".toList := by decide
    simp only [String.toList_append, List.mem_append, not_or]
    exact ⟨⟨⟨⟨hline changed, hnewline⟩, hline working⟩, hnewline⟩, hline untracked⟩
  have hlines : ∀ line, Text.trim line ≠ "" → (line ∈ Text.lines (Utf8.lossy (printed changed) ++
      "\n" ++ Utf8.lossy (printed working) ++ "\n" ++ Utf8.lossy (printed untracked)) ↔
        ∃ p ∈ changed ++ working ++ untracked, String.ofList (text p) = line) := by
    intro line hne
    have hline : line.toList ≠ [] := by
      intro hnil
      refine hne ?_
      rw [Text.trim, hnil]
      rfl
    rw [← String.ofList_toList (s := line), Text.mem_lines_iff hcr hline, hparts, List.mem_map]
    simp only [String.ofList_inj]
  refine ⟨_, by rw [changedPaths, gitChanged_eq h]; rfl, fun c => ?_⟩
  rw [mem_foldl_addLine]
  unfold readLine
  constructor
  · rintro (hempty | ⟨line, hmem, hne, rfl⟩)
    · exact absurd hempty (Finset.notMem_empty c)
    · obtain ⟨p, hp, rfl⟩ := (hlines line hne).mp hmem
      exact ⟨p, hp, if_neg hne⟩
  · rintro ⟨p, hp, hread⟩
    dsimp only at hread
    split_ifs at hread with hempty
    obtain rfl := Option.some.inj hread
    exact .inr ⟨_, (hlines _ hempty).mpr ⟨p, hp, rfl⟩, hempty, rfl⟩

/-! ## What a line is read to -/

def isSpace (b : UInt8) : Bool := Text.isWhitespace (Char.ofNat b.toNat)

theorem isSpace_iff : ∀ b : UInt8, 0x20 ≤ b.toNat ∧ b.toNat < 0x7F → (isSpace b ↔ b = 0x20) := by
  refine forall_byte ?_
  decide +kernel

theorem isHeavy_of_isSpace : ∀ b : UInt8, isSpace b → IsHeavy b := by
  refine forall_byte ?_
  decide +kernel

section ReadLine

variable {p r : RelPath} {c : List Component}

theorem trim_text (p : RelPath) : Text.trim (String.ofList (text p)) =
    String.ofList (Utf8.asciiText (Text.strip isSpace (quotePath p.bytes))) := by
  unfold Text.trim text Utf8.asciiText
  rw [String.toList_ofList, Text.strip_map]
  rfl

theorem bytesOf_trim_text (p : RelPath) : Utf8.bytesOf (Text.trim (String.ofList (text p))) =
    Text.strip isSpace (quotePath p.bytes) := by
  rw [trim_text, Utf8.bytesOf_asciiText]
  exact fun x hx => allAscii_quotePath p x ((Text.strip_sublist _ _).subset hx)

theorem readLine_eq_some (h : readLine p = some c) :
    components (Text.trim (String.ofList (text p))) = c := by
  unfold readLine at h
  dsimp only at h
  split_ifs at h
  exact Option.some.inj h

theorem countP_readLine {q : UInt8 → Bool} (hslash : ¬ q 0x2F) (hdot : ¬ q 0x2E)
    (h : readLine p = some (r.map .normal)) :
    r.bytes.countP q = (Text.strip isSpace (quotePath p.bytes)).countP q := by
  rw [countP_components hslash hdot (readLine_eq_some h), bytesOf_trim_text]

theorem strip_quotePath (h : Quoted p) :
    Text.strip isSpace (quotePath p.bytes) = quotePath p.bytes := by
  have hquote : ¬ isSpace 0x22 := by decide
  rw [quotePath_quoted h]
  refine Text.strip_eq_self ?_ ?_
  · rintro x ⟨⟩
    exact hquote
  · intro x hx
    rw [← List.cons_append, List.getLast?_concat] at hx
    obtain rfl := Option.some.inj hx
    exact hquote

theorem readLine_of_plain (hp : IsFilePath p) (hquoted : ¬ Quoted p) (hspaced : ¬ Spaced p) :
    readLine p = some (p.map .normal) := by
  have hspace : ∀ x ∈ p.bytes, isSpace x → x = 0x20 := fun x hx =>
    (isSpace_iff x (printable_of_not_isUnusual fun hunusual => hquoted ⟨x, hx, hunusual⟩)).mp
  have hstrip : Text.strip isSpace p.bytes = p.bytes := by
    refine Text.strip_eq_self (fun x hx hxspace => ?_) (fun x hx hxspace => ?_)
    · exact hspaced (.inl (hspace x (List.mem_of_mem_head? hx) hxspace ▸ hx))
    · exact hspaced (.inr (hspace x (List.mem_of_getLast? hx) hxspace ▸ hx))
  have hbytes : Utf8.bytesOf (Text.trim (String.ofList (text p))) = p.bytes := by
    rw [bytesOf_trim_text, quotePath_verbatim hquoted, hstrip]
  have hne : Text.trim (String.ofList (text p)) ≠ "" := by
    intro hempty
    rw [hempty] at hbytes
    exact bytes_ne_nil hp hbytes.symm
  unfold readLine
  dsimp only
  rw [if_neg hne, components_of_bytes hp.nonempty hp.names hbytes]

theorem quoted_iff_countP : Quoted p ↔ 0 < p.bytes.countP fun b => decide (IsUnusual b) := by
  simp [Quoted, List.countP_pos_iff]

theorem quoted_iff_of_readLine (h : readLine p = some (r.map .normal)) : Quoted r ↔ Quoted p := by
  rw [quoted_iff_countP, countP_readLine (by decide) (by decide) h]
  by_cases hquoted : Quoted p
  · rw [strip_quotePath hquoted, quotePath_quoted hquoted]
    refine iff_of_true (List.countP_pos_iff.mpr ⟨0x22, List.mem_cons_self, by decide⟩) hquoted
  · refine iff_of_false ?_ hquoted
    have hle := (Text.strip_sublist isSpace p.bytes).countP_le (p := fun b => decide (IsUnusual b))
    have hzero := mt quoted_iff_countP.mpr hquoted
    rw [quotePath_verbatim hquoted]
    omega

def weight (p : RelPath) : ℕ := p.bytes.countP IsHeavy

theorem weight_lt_of_quoted (h : readLine p = some (r.map .normal)) (hquoted : Quoted p) :
    weight p < weight r := by
  have hescape := countP_flatMap_escape p.bytes
  have hquote : IsHeavy 0x22 = true := rfl
  unfold weight
  rw [countP_readLine (by decide) (by decide) h, strip_quotePath hquoted, quotePath_quoted hquoted,
    List.countP_cons_of_pos hquote, List.countP_append]
  omega

theorem weight_lt_of_spaced (h : readLine p = some (r.map .normal)) (hquoted : ¬ Quoted p)
    (hspaced : Spaced p) : weight r < weight p := by
  unfold weight
  rw [countP_readLine (by decide) (by decide) h, quotePath_verbatim hquoted]
  exact Text.countP_strip_lt isHeavy_of_isSpace ⟨0x20, by decide, hspaced⟩

end ReadLine

/-! ## All the paths of a commit -/

/-- If each path of a finite set is read from the line of one of them, none is quoted or spaced: the
shortest quoted one and the longest spaced one would be read from no line. -/
theorem plain_of_covered {S : Finset RelPath} (hS : ∀ p ∈ S, IsFilePath p)
    (hcovered : ∀ p ∈ S, ∃ q ∈ S, readLine q = some (p.map .normal)) :
    ∀ p ∈ S, ¬ Quoted p ∧ ¬ Spaced p := by
  have hquoted : ∀ p ∈ S, ¬ Quoted p := by
    intro p₀ hp₀ hquoted₀
    obtain ⟨p, hp, hmin⟩ := (S.filter Quoted).exists_min_image weight
      ⟨p₀, Finset.mem_filter.mpr ⟨hp₀, hquoted₀⟩⟩
    obtain ⟨hpS, hquoted⟩ := Finset.mem_filter.mp hp
    obtain ⟨q, hq, hread⟩ := hcovered p hpS
    have hqquoted := (quoted_iff_of_readLine hread).mp hquoted
    have hle := hmin q (Finset.mem_filter.mpr ⟨hq, hqquoted⟩)
    exact absurd (weight_lt_of_quoted hread hqquoted) (Nat.not_lt.mpr hle)
  refine fun p hp => ⟨hquoted p hp, ?_⟩
  intro hspaced₀
  obtain ⟨r, hr, hmax⟩ := (S.filter Spaced).exists_max_image weight
    ⟨p, Finset.mem_filter.mpr ⟨hp, hspaced₀⟩⟩
  obtain ⟨hrS, hspaced⟩ := Finset.mem_filter.mp hr
  obtain ⟨q, hq, hread⟩ := hcovered r hrS
  by_cases hqspaced : Spaced q
  · have hle := hmax q (Finset.mem_filter.mpr ⟨hq, hqspaced⟩)
    exact absurd (weight_lt_of_spaced hread (hquoted q hq) hqspaced) (Nat.not_lt.mpr hle)
  · rw [readLine_of_plain (hS q hq) (hquoted q hq) hqspaced, Option.some_inj] at hread
    rw [List.map_injective_iff.mpr (fun _ _ => Component.normal.inj) hread] at hqspaced
    exact hqspaced hspaced

/-- **Changed paths.** However a finite set of paths is split over the three commands of
`git_changed`, what they print is read to exactly this set if and only if no path of it is quoted by
git or starts or ends with a space. -/
theorem git_changed_paths_iff {spawn : String → List String → Option (List UInt8)}
    {mergebase : String} (S : Finset RelPath) (hS : ∀ p ∈ S, IsFilePath p)
    {changed working untracked : List RelPath}
    (hsplit : ∀ p, p ∈ S ↔ p ∈ changed ++ working ++ untracked)
    (hgit : GitPrints spawn mergebase changed working untracked) :
    changedPaths spawn .git mergebase = some (S.image fun p => p.map Component.normal) ↔
      ∀ p ∈ S, ¬ Quoted p ∧ ¬ Spaced p := by
  obtain ⟨set, hset, hmem⟩ := mem_changedPaths hgit fun p hp => hS p ((hsplit p).mpr hp)
  rw [hset, Option.some_inj]
  constructor
  · intro heq
    refine plain_of_covered hS fun p hp => ?_
    have hin : p.map Component.normal ∈ set := heq ▸ Finset.mem_image_of_mem _ hp
    obtain ⟨q, hq, hread⟩ := (hmem _).mp hin
    exact ⟨q, (hsplit q).mpr hq, hread⟩
  · intro hplain
    ext c
    rw [hmem, Finset.mem_image]
    have hread : ∀ p ∈ S, readLine p = some (p.map .normal) := fun p hp =>
      readLine_of_plain (hS p hp) (hplain p hp).1 (hplain p hp).2
    constructor
    · rintro ⟨p, hp, hc⟩
      have hpS := (hsplit p).mpr hp
      exact ⟨p, hpS, Option.some.inj ((hread p hpS).symm.trans hc)⟩
    · rintro ⟨p, hp, rfl⟩
      exact ⟨p, (hsplit p).mp hp, hread p hp⟩

/-- A working copy without changes but for these new files. -/
def untrackedOnly (paths : List RelPath) (program : String) (args : List String) :
    Option (List UInt8) :=
  if program = "git" then
    some (if args = ["ls-files", "--others", "--exclude-standard"] then printed paths else [])
  else none

theorem gitPrints_untrackedOnly (paths : List RelPath) :
    GitPrints (untrackedOnly paths) "" [] [] paths where
  changed := rfl
  working := rfl
  untracked := rfl

theorem isFilePath_singleton {n : Name} (h : IsName n) : IsFilePath [n] :=
  ⟨List.cons_ne_nil _ _, List.forall_mem_singleton.mpr h⟩

/-- A new file `a b`. -/
theorem git_changed_paths_iff_inner :
    changedPaths (untrackedOnly [[[0x61, 0x20, 0x62]]]) .git "" =
      some (({[[0x61, 0x20, 0x62]]} : Finset RelPath).image fun p => p.map Component.normal) := by
  have hfile : IsFilePath [[0x61, 0x20, 0x62]] :=
    isFilePath_singleton ⟨by decide, by decide, by decide, by decide⟩
  refine (git_changed_paths_iff {[[0x61, 0x20, 0x62]]} ?_ (fun p => by simp)
    (gitPrints_untrackedOnly [[[0x61, 0x20, 0x62]]])).mpr ?_
  · intro p hp
    rw [Finset.mem_singleton.mp hp]
    exact hfile
  · decide

/-- A new file `é`: git prints it quoted, and the set is not that of the file. -/
theorem quoted_path_missed : GitPrints (untrackedOnly [[[0xC3, 0xA9]]]) "" [] [] [[[0xC3, 0xA9]]] ∧
    IsFilePath [[0xC3, 0xA9]] ∧
    changedPaths (untrackedOnly [[[0xC3, 0xA9]]]) .git "" ≠
      some (({[[0xC3, 0xA9]]} : Finset RelPath).image fun p => p.map Component.normal) := by
  have hfile : IsFilePath [[0xC3, 0xA9]] :=
    isFilePath_singleton ⟨by decide, by decide, by decide, by decide⟩
  refine ⟨gitPrints_untrackedOnly _, hfile, fun heq => ?_⟩
  obtain ⟨set, hset, hmem⟩ := mem_changedPaths (gitPrints_untrackedOnly [[[0xC3, 0xA9]]])
    fun p hp => List.mem_singleton.mp hp ▸ hfile
  rw [hset, Option.some_inj, Finset.image_singleton] at heq
  obtain ⟨p, hp, hread⟩ := (hmem _).mp (heq ▸ Finset.mem_singleton_self _)
  obtain rfl := List.mem_singleton.mp hp
  exact absurd (weight_lt_of_quoted hread (by decide)) (Nat.lt_irrefl _)

end Watchwoman.Scm
