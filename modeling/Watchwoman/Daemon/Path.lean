import Watchwoman.Lib.Joined
import Watchwoman.Lib.Utf8

/-!
# Paths under a root

A path inside a root is the list of its names, each a byte string; Rust compares, hashes and strips
paths by component, so nothing else of their spelling is seen. A path that a client sends is parsed
to components first, since a leading dot, a parent or a root never matches a name.
-/

namespace Watchwoman

/-- The bytes of one `OsStr` component. -/
abbrev Name := List UInt8

/-- A path relative to a root. -/
abbrev RelPath := List Name

/-- `std::path::Component` of a client's path. -/
inductive Component where
  | rootDir
  | curDir
  | parentDir
  | normal (name : Name)
  deriving DecidableEq, Repr

namespace RelPath

def bytes (p : RelPath) : List UInt8 := [0x2F].intercalate p

/-- `to_string_lossy` -/
def toStringLossy (p : RelPath) : String := Utf8.lossy p.bytes

def fileName (p : RelPath) : Option Name := p.getLast?

def parent (p : RelPath) : Option RelPath := if p = [] then none else some p.dropLast

/-- `extension`: what follows the last dot of the file name, unless that dot is its first byte. -/
def extension (p : RelPath) : Option (List UInt8) := do
  let name ← p.fileName
  let ext := name.reverse.takeWhile (· ≠ 0x2E)
  if ext.length + 1 < name.length then some ext.reverse else none

/-- `strip_prefix` by the components of a client's path. -/
def stripPrefix : RelPath → List Component → Option RelPath
  | p, [] => some p
  | n :: p, .normal m :: base => if n = m then stripPrefix p base else none
  | _, _ => none

/-- A path is stripped of a base of plain names that it starts with, and of no other. -/
theorem stripPrefix_eq_some_iff {p q : RelPath} {base : List Component} :
    p.stripPrefix base = some q ↔ ∃ b : RelPath, base = b.map .normal ∧ p = b ++ q := by
  induction base generalizing p with
  | nil =>
    have hnil : p.stripPrefix [] = some p := by unfold stripPrefix; rfl
    rw [hnil, Option.some_inj]
    constructor
    · rintro rfl
      exact ⟨[], rfl, rfl⟩
    · rintro ⟨b, hb, rfl⟩
      rw [List.map_eq_nil_iff.mp hb.symm, List.nil_append]
  | cons c base ih =>
    constructor
    · intro h
      unfold stripPrefix at h
      split at h
      · rename_i heq
        cases heq
      · rename_i n p' m base' heq
        obtain ⟨rfl, rfl⟩ := List.cons.inj heq
        split_ifs at h with hnm
        obtain ⟨b, rfl, rfl⟩ := ih.mp h
        exact ⟨n :: b, by rw [hnm, List.map_cons], rfl⟩
      · cases h
    · rintro ⟨b, hb, rfl⟩
      obtain ⟨n, b, rfl, rfl, rfl⟩ := List.map_eq_cons_iff.mp hb.symm
      rw [List.cons_append, stripPrefix, if_pos rfl]
      exact ih.mpr ⟨b, rfl, rfl⟩

end RelPath

def pathText (path : List Name) : String := Utf8.lossy (0x2F :: RelPath.bytes path)

/-- The components of a path that a client sends: empty ones are dropped, and a dot but for the
first. -/
def components (path : String) : List Component :=
  let parts := (Utf8.bytesOf path).splitOn 0x2F
  let isRoot := 2 ≤ parts.length ∧ parts.head? = some []
  let head := if isRoot then [.rootDir] else if parts.head? = some [0x2E] then [.curDir] else []
  head ++ parts.filterMap fun n =>
    if n = [] ∨ n = [0x2E] then none
    else if n = [0x2E, 0x2E] then some .parentDir
    else some (.normal n)

/-- The name of a file as it can stand in a normalised path. -/
structure IsName (n : Name) : Prop where
  nonempty : n ≠ []
  noSlash : 0x2F ∉ n
  notDot : n ≠ [0x2E]
  notDotDot : n ≠ [0x2E, 0x2E]

theorem components_of_bytes {p : RelPath} (hp : p ≠ []) (hnames : ∀ n ∈ p, IsName n) {s : String}
    (hs : Utf8.bytesOf s = p.bytes) : components s = p.map .normal := by
  have hparts : (Utf8.bytesOf s).splitOn 0x2F = p := by
    rw [hs]
    exact List.splitOn_intercalate 0x2F (fun n hn => (hnames n hn).noSlash) hp
  have hhead : ∀ n, ¬ IsName n → p.head? ≠ some n := fun n hn h =>
    hn (hnames n (List.mem_of_mem_head? h))
  have hroot : ¬ (2 ≤ p.length ∧ p.head? = some []) := fun h =>
    hhead [] (fun h => h.nonempty rfl) h.2
  have hcur : p.head? ≠ some [0x2E] := hhead _ fun h => h.notDot rfl
  unfold components
  simp only [hparts, if_neg hroot, if_neg hcur, List.nil_append]
  rw [← List.filterMap_eq_map]
  refine List.filterMap_congr fun n hn => ?_
  have hn := hnames n hn
  rw [if_neg (not_or.mpr ⟨hn.nonempty, hn.notDot⟩), if_neg hn.notDotDot]
  rfl

/-- The parts that are dropped hold nothing but a dot. -/
theorem sum_countP_names {q : UInt8 → Bool} (hdot : ¬ q 0x2E) {parts : List Name} {p : RelPath}
    (h : (parts.filterMap fun n =>
      if n = [] ∨ n = [0x2E] then none
      else if n = [0x2E, 0x2E] then some .parentDir
      else some (.normal n)) = p.map Component.normal) :
    (p.map (List.countP q)).sum = (parts.map (List.countP q)).sum := by
  induction parts generalizing p with
  | nil => rw [List.map_eq_nil_iff.mp h.symm]
  | cons n parts ih =>
    rw [List.filterMap_cons] at h
    rw [List.map_cons, List.sum_cons]
    split_ifs at h with hdropped hparent
    · have hzero : n.countP q = 0 := by
        rcases hdropped with rfl | rfl <;> simp [hdot]
      rw [ih h, hzero, Nat.zero_add]
    · obtain ⟨m, p, rfl, hm, -⟩ := List.map_eq_cons_iff.mp h.symm
      cases hm
    · obtain ⟨m, p, rfl, hm, hrest⟩ := List.map_eq_cons_iff.mp h.symm
      obtain rfl := Component.normal.inj hm
      rw [List.map_cons, List.sum_cons, ih hrest.symm]

theorem countP_components {q : UInt8 → Bool} (hslash : ¬ q 0x2F) (hdot : ¬ q 0x2E) {s : String}
    {p : RelPath} (h : components s = p.map .normal) :
    p.bytes.countP q = (Utf8.bytesOf s).countP q := by
  have hplain : ∀ c ∈ components s, ∃ n, c = .normal n := by
    rw [h]
    exact List.forall_mem_map.mpr fun n _ => ⟨n, rfl⟩
  rw [RelPath.bytes, Joined.countP_intercalate hslash, ← Joined.countP_splitOn hslash]
  refine sum_countP_names hdot ?_
  unfold components at h hplain
  dsimp only at h hplain
  split_ifs at h hplain
  · obtain ⟨n, hn⟩ := hplain .rootDir List.mem_cons_self
    cases hn
  · obtain ⟨n, hn⟩ := hplain .curDir List.mem_cons_self
    cases hn
  · exact h

example : components "./a//b/../c" =
    [.curDir, .normal [0x61], .normal [0x62], .parentDir, .normal [0x63]] := by decide

example : RelPath.extension [[0x2E, 0x61]] = none ∧
    RelPath.extension [[0x61, 0x2E, 0x62, 0x2E, 0x63]] = some [0x63] := by decide

/-- `to_ascii_lowercase` -/
def asciiLower (s : String) : String := s.map Char.toLower

/-- `eq_ignore_ascii_case` -/
def eqIgnoreAsciiCase (a b : String) : Bool := asciiLower a == asciiLower b

/-- `starts_with` on strings. -/
def startsWith (s pre : String) : Bool := pre.toList.isPrefixOf s.toList

end Watchwoman
