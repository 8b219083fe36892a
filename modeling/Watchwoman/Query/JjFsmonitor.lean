import Watchwoman.Daemon.Watcher
import Watchwoman.Query.Run

/-!
# The query of jj

jj asks for everything outside of `.git` and `.jj`, and `is_jj_fsmonitor_query` recognises it by its
expression: none of three parts, a pair of names and two directories. Such a query shows every path
whose first name is another one (`select_of_asksForJj`), also where the text of the path is lossy.
-/

namespace Watchwoman

namespace Expr

/-- The part that names `.git` and `.jj`. -/
def isJjNames : Expr → Bool
  | .name names .wholename _ => names.length == 2 && names.contains ".git" && names.contains ".jj"
  | _ => Bool.false

def isDirnameOf (target : String) : Expr → Bool
  | .dirname path _ => path == target
  | _ => Bool.false

/-- The flag of a part. -/
def isCaseSensitive : Expr → Bool
  | .name _ _ caseSensitive => caseSensitive
  | .dirname _ caseSensitive => caseSensitive
  | _ => Bool.true

theorem dirname_of_isDirnameOf {target : String} {part : Expr}
    (h : part.isDirnameOf target = Bool.true) : ∃ cs, part = .dirname target cs := by
  unfold isDirnameOf at h
  split at h
  · rename_i path cs
    exact ⟨cs, by rw [beq_iff_eq.mp h]⟩
  · cases h

theorem name_of_isJjNames {part : Expr} (h : part.isJjNames = Bool.true) :
    ∃ names cs, part = .name names .wholename cs ∧ ∀ n ∈ names, n = ".git" ∨ n = ".jj" := by
  unfold isJjNames at h
  split at h
  · rename_i names cs
    simp only [Bool.and_eq_true, beq_iff_eq, List.contains_iff_mem] at h
    obtain ⟨⟨hlen, hgit⟩, hjj⟩ := h
    obtain ⟨a, b, rfl⟩ := List.length_eq_two.mp hlen
    refine ⟨_, cs, rfl, ?_⟩
    simp only [List.mem_cons, List.not_mem_nil, or_false] at hgit hjj ⊢
    have hne : ".git" ≠ ".jj" := by decide
    grind
  · cases h

theorem evalAny_eq_false {entry : FileEntry} {ctx : EvalCtx} {list : List Expr}
    (h : ∀ part ∈ list, eval entry ctx part = Bool.false) :
    evalAny entry ctx list = Bool.false := by
  induction list with
  | nil => rw [evalAny]
  | cons part list ih =>
    obtain ⟨hpart, hlist⟩ := List.forall_mem_cons.mp h
    rw [evalAny, hpart, ih hlist]
    rfl

end Expr

namespace Query

/-- `is_jj_fsmonitor_query` -/
def isJjFsmonitorQuery (spec : QuerySpec) : Bool :=
  match spec.expression with
  | .not (.anyOf excludes) =>
    if excludes.length ≠ 3 then false
    else
      excludes.any Expr.isJjNames && excludes.any (Expr.isDirnameOf ".git") &&
        excludes.any (Expr.isDirnameOf ".jj")
  | _ => false

def IsJjPart (part : Expr) : Prop :=
  part.isJjNames = true ∨ part.isDirnameOf ".git" = true ∨ part.isDirnameOf ".jj" = true

theorem forall_of_three {α : Type} {P Q R : α → Prop} {l : List α} (hlen : l.length = 3)
    (hP : ∃ x ∈ l, P x) (hQ : ∃ x ∈ l, Q x) (hR : ∃ x ∈ l, R x) (hPQ : ∀ x, P x → ¬ Q x)
    (hPR : ∀ x, P x → ¬ R x) (hQR : ∀ x, Q x → ¬ R x) : ∀ x ∈ l, P x ∨ Q x ∨ R x := by
  obtain ⟨a, b, c, rfl⟩ := List.length_eq_three.mp hlen
  simp only [List.mem_cons, List.not_mem_nil, or_false, exists_eq_or_imp, exists_eq_left,
    forall_eq_or_imp, forall_eq] at hP hQ hR ⊢
  grind

theorem parts_of_isJjFsmonitorQuery {spec : QuerySpec} (h : isJjFsmonitorQuery spec = true) :
    ∃ excludes, spec.expression = .not (.anyOf excludes) ∧ ∀ part ∈ excludes, IsJjPart part := by
  unfold isJjFsmonitorQuery at h
  split at h
  · rename_i excludes hexpr
    split_ifs at h with hlen
    simp only [Bool.and_eq_true, List.any_eq_true] at h
    obtain ⟨⟨hnames, hgit⟩, hjj⟩ := h
    refine ⟨excludes, hexpr, forall_of_three (not_not.mp hlen) hnames hgit hjj ?_ ?_ ?_⟩
    · intro part hp hq
      obtain ⟨names, cs, rfl, -⟩ := Expr.name_of_isJjNames hp
      cases hq
    · intro part hp hq
      obtain ⟨names, cs, rfl, -⟩ := Expr.name_of_isJjNames hp
      cases hq
    · intro part hp hq
      obtain ⟨cs, rfl⟩ := Expr.dirname_of_isDirnameOf hp
      obtain ⟨cs', heq⟩ := Expr.dirname_of_isDirnameOf hq
      exact absurd (Expr.dirname.inj heq).1 (by decide)
  · cases h

/-- jj's query, case-sensitive and with default options, since the clock `c`. -/
structure AsksForJj (spec : QuerySpec) (c : String) : Prop where
  query : isJjFsmonitorQuery spec = true
  parts : ∀ excludes, spec.expression = .not (.anyOf excludes) →
    ∀ part ∈ excludes, part.isCaseSensitive = true
  caseSensitive : spec.caseSensitive = true
  suffix : spec.generators.suffix = none
  glob : spec.generators.glob = none
  paths : spec.generators.paths = none
  relativeRoot : spec.relativeRoot = none
  directories : spec.alwaysIncludeDirectories = true
  since : spec.since = some (ClockSpec.parse c)

end Query

/-! ## Texts of paths -/

namespace RelPath

def NoSlash (p : RelPath) : Prop := ∀ n ∈ p, 0x2F ∉ n

instance (p : RelPath) : Decidable p.NoSlash := inferInstanceAs (Decidable (∀ n ∈ p, _))

theorem bytes_cons (n m : Name) (rest : RelPath) :
    bytes (n :: m :: rest) = n ++ 0x2F :: bytes (m :: rest) := by
  unfold bytes
  rw [List.intercalate_cons_cons, List.append_assoc]
  rfl

theorem takeWhile_append_slash {x : List UInt8} (hx : 0x2F ∉ x) {t : List UInt8}
    (ht : t = [] ∨ ∃ u, t = 0x2F :: u) : (x ++ t).takeWhile (· ≠ 0x2F) = x := by
  have hall : ∀ b ∈ x, decide (b ≠ 0x2F) = true :=
    fun b hb => decide_eq_true fun heq => hx (heq ▸ hb)
  rw [List.takeWhile_append_of_pos hall]
  rcases ht with rfl | ⟨u, rfl⟩
  · exact List.append_nil x
  · rw [List.takeWhile_cons_of_neg (by decide)]
    exact List.append_nil x

theorem head_of_bytes {p : RelPath} (hp : p.NoSlash) {x t : List UInt8} (hx : 0x2F ∉ x)
    (hne : x ≠ []) (h : p.bytes = x ++ t) (ht : t = [] ∨ ∃ u, t = 0x2F :: u) :
    p.head? = some x := by
  have hx' := takeWhile_append_slash hx ht
  rw [← h] at hx'
  cases p with
  | nil => exact absurd hx'.symm hne
  | cons n rest =>
    have hn : 0x2F ∉ n := hp n List.mem_cons_self
    cases rest with
    | nil =>
      have hself := takeWhile_append_slash hn (.inl rfl)
      rw [List.append_nil] at hself
      rw [show bytes [n] = n from List.intercalate_singleton, hself] at hx'
      rw [hx']
      rfl
    | cons m rest =>
      rw [bytes_cons, takeWhile_append_slash hn (.inr ⟨_, rfl⟩)] at hx'
      rw [hx']
      rfl

/-- A text that is an ASCII name, or starts with one and a separator, is that of a path with this
first name. -/
theorem head_of_text {p : RelPath} (hp : p.NoSlash) {name : List Char}
    (hascii : ∀ c ∈ name, Utf8.IsAscii c) (hslash : 0x2F ∉ Utf8.asciiBytes name) (hne : name ≠ [])
    (h : p.toStringLossy.toList = name ∨ ∃ s, p.toStringLossy.toList = name ++ '/' :: s) :
    p.head? = some (Utf8.asciiBytes name) := by
  have hne' : Utf8.asciiBytes name ≠ [] := fun h => hne (List.map_eq_nil_iff.mp h)
  rcases h with h | ⟨s, h⟩
  · rw [← List.append_nil name] at h
    obtain ⟨t, hbytes, ht⟩ := Utf8.lossy_append hascii h
    exact head_of_bytes hp hslash hne' hbytes (.inl (ht rfl))
  · have hascii' : ∀ c ∈ name ++ ['/'], Utf8.IsAscii c := by
      refine List.forall_mem_append.mpr ⟨hascii, List.forall_mem_singleton.mpr ?_⟩
      decide
    rw [List.append_cons] at h
    obtain ⟨t, hbytes, -⟩ := Utf8.lossy_append hascii' h
    rw [Utf8.asciiBytes, List.map_append, List.append_assoc] at hbytes
    exact head_of_bytes hp hslash hne' hbytes (.inr ⟨t, rfl⟩)

end RelPath

/-! ## What jj's query shows -/

namespace Query

variable {env : Env} {r : Root} {spec : QuerySpec} {p : RelPath} {e : FileEntry} {c : String}

theorem jjName_ascii {name : String} (h : name = ".git" ∨ name = ".jj") :
    name.toList ≠ [] ∧ (∀ c ∈ name.toList, Utf8.IsAscii c) ∧
      0x2F ∉ Utf8.asciiBytes name.toList ∧ Utf8.asciiBytes name.toList = Utf8.bytesOf name := by
  have hascii : name.toList.all (fun c => decide (Utf8.IsAscii c)) = true := by
    rcases h with rfl | rfl <;> decide
  refine ⟨?_, fun c hc => of_decide_eq_true (List.all_eq_true.mp hascii c hc), ?_, ?_⟩ <;>
    rcases h with rfl | rfl <;> decide

theorem isJjInternal_of_head {name : String} (h : name = ".git" ∨ name = ".jj")
    (hp : p.head? = some (Utf8.bytesOf name)) : Watcher.isJjInternal p = true := by
  unfold Watcher.isJjInternal
  rw [hp]
  rcases h with rfl | rfl <;> decide

theorem isJjInternal_of_text {name : String} (hname : name = ".git" ∨ name = ".jj")
    (hp : p.NoSlash)
    (h : p.toStringLossy = name ∨ startsWith p.toStringLossy (name ++ "/") = true) :
    Watcher.isJjInternal p = true := by
  obtain ⟨hne, hascii, hslash, hbytes⟩ := jjName_ascii hname
  refine isJjInternal_of_head hname ?_
  rw [← hbytes]
  refine RelPath.head_of_text hp hascii hslash hne ?_
  rcases h with h | h
  · exact .inl (congrArg String.toList h)
  · unfold startsWith at h
    rw [List.isPrefixOf_iff_prefix, String.toList_append] at h
    obtain ⟨s, hs⟩ := h
    refine .inr ⟨s, ?_⟩
    rw [← hs, List.append_assoc]
    rfl

theorem isJjInternal_of_dropLast (h : Watcher.isJjInternal p.dropLast = true) :
    Watcher.isJjInternal p = true := by
  cases p with
  | nil => exact h
  | cons n p =>
    cases p with
    | nil => cases h
    | cons m p => exact h

theorem matchDirname_eq_false {target : String} (htarget : target = ".git" ∨ target = ".jj")
    (hp : p.NoSlash) (hinternal : Watcher.isJjInternal p = false) :
    Expr.matchDirname p target true = false := by
  have hparent : RelPath.NoSlash p.dropLast := fun n hn => hp n (List.mem_of_mem_dropLast hn)
  unfold Expr.matchDirname RelPath.parent
  by_cases hnil : p = []
  · rw [if_pos hnil]
  · rw [if_neg hnil]
    simp only [if_true]
    by_contra hmatch
    rw [Bool.not_eq_false, Bool.or_eq_true, beq_iff_eq] at hmatch
    have hin := isJjInternal_of_dropLast (isJjInternal_of_text htarget hparent hmatch)
    rw [hinternal] at hin
    cases hin

/-- A part of jj's query leaves out only what is inside `.git` and `.jj`. -/
theorem eval_jjPart {part : Expr} (hpart : IsJjPart part) (hcase : part.isCaseSensitive = true)
    (hp : p.NoSlash) (hinternal : Watcher.isJjInternal p = false) (clock : Clock) :
    part.eval e ⟨clock, p, true⟩ = false := by
  rcases hpart with hpart | hpart | hpart
  · obtain ⟨names, cs, rfl, hnames⟩ := Expr.name_of_isJjNames hpart
    obtain rfl : cs = true := hcase
    rw [Expr.eval, Bool.and_true, Expr.matchName, if_pos rfl]
    refine List.any_eq_false.mpr fun n hn heq => ?_
    have hin := isJjInternal_of_text (hnames n hn) hp (.inl (beq_iff_eq.mp heq).symm)
    rw [hinternal] at hin
    cases hin
  · obtain ⟨cs, rfl⟩ := Expr.dirname_of_isDirnameOf hpart
    obtain rfl : cs = true := hcase
    rw [Expr.eval, Bool.and_true]
    exact matchDirname_eq_false (.inl rfl) hp hinternal
  · obtain ⟨cs, rfl⟩ := Expr.dirname_of_isDirnameOf hpart
    obtain rfl : cs = true := hcase
    rw [Expr.eval, Bool.and_true]
    exact matchDirname_eq_false (.inr rfl) hp hinternal

/-- jj's query shows every path outside of `.git` and `.jj` that is no cookie. -/
theorem select_of_asksForJj (hspec : AsksForJj spec c) (hscm : resolveScmSet env spec = none)
    (hp : p.NoSlash) (hinternal : Watcher.isJjInternal p = false) (hcookie : ¬ IsCookie p)
    (e : FileEntry) : select env r spec p e = some p := by
  obtain ⟨excludes, hexpr, hparts⟩ := parts_of_isJjFsmonitorQuery hspec.query
  have haccept : spec.generators.accept p = true := by
    unfold Generators.accept
    rw [hspec.suffix, hspec.glob, hspec.paths]
    rfl
  have heval : spec.expression.eval e ⟨r.clock, p, spec.caseSensitive⟩ = true := by
    rw [hexpr, hspec.caseSensitive, Expr.eval, Expr.eval, Expr.evalAny_eq_false]
    · rfl
    · intro part hpart
      exact eval_jjPart (hparts part hpart) (hspec.parts excludes hexpr part hpart) hp hinternal _
  unfold select
  rw [if_neg hcookie, hspec.directories, if_neg (by simp)]
  simp only [displayRel, hspec.relativeRoot, hscm, Option.bind_eq_bind, Option.bind_some, haccept,
    heval, Bool.and_self, if_true]

end Query

end Watchwoman
