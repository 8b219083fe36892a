import Watchwoman.Query.Cursors
import Watchwoman.Query.RelativeRoot

/-!
# The since term and the since option

A clock can be given to a query as the option `since` or as the term `["since", clock]` of its
expression. The option looks a named cursor up; the term compares through `tick_against`, for which
every cursor is at tick zero. The two agree on clocks and numbers, and on a cursor exactly if nothing
that would be listed lies at or before it (`since_term_iff`).
-/

namespace Watchwoman

namespace ClockSpec

theorem parse_eq_named_iff {s name : String} : parse s = .named name ↔ s = "n:" ++ name := by
  constructor
  · intro h
    unfold parse at h
    split at h
    · unfold parseFull at h
      split at h
      · split at h <;> cases h
      · cases h
    · rename_i chars heq
      obtain rfl := ClockSpec.named.inj h
      refine String.toList_inj.mp ?_
      rw [heq, String.toList_append]
      simp
    · unfold parseScm at h
      simp only at h
      split_ifs at h
    · split at h <;> cases h
  · rintro rfl
    exact parse_named name

/-- The string is a clock, a cursor or a number. -/
def HasForm (s : String) : Prop :=
  startsWith s "c:" = true ∨ startsWith s "n:" = true ∨ ∃ n, parseUint 64 s.toList = some n

theorem HasForm.parse_ne_scm {s : String} (h : HasForm s) (vcs : ScmVcs) (mergebase : String) :
    parse s ≠ .scm vcs mergebase := by
  rcases h with hc | hn | ⟨n, hn⟩
  · obtain ⟨rest, hs⟩ := Query.toList_of_startsWith_c hc
    rcases parse_of_c hs with hparse | ⟨a, b, c, d, hparse⟩ <;> rw [hparse] <;> rintro ⟨⟩
  · obtain ⟨rest, hrest⟩ := List.isPrefixOf_iff_prefix.mp hn
    have hs : s = "n:" ++ String.ofList rest := by
      refine String.toList_inj.mp ?_
      rw [← hrest, String.toList_append]
      simp
    rw [parse_eq_named_iff.mpr hs]
    rintro ⟨⟩
  · intro hscm
    -- a number has no colon
    have hcolon := colon_not_mem_of_parseUint hn
    unfold parse at hscm
    split at hscm
    · rename_i heq
      exact hcolon (heq ▸ by simp)
    · cases hscm
    · rename_i heq
      exact hcolon (heq ▸ by simp)
    · split at hscm <;> cases hscm

end ClockSpec

namespace Query

variable {env : Env} {r : Root} {spec : QuerySpec} {s : String}

def sinceTerm (spec : QuerySpec) (s : String) : QuerySpec :=
  { spec with expression := .since (ClockSpec.parse s), since := none }

def sinceOption (spec : QuerySpec) (s : String) : QuerySpec :=
  { spec with expression := .true, since := some (ClockSpec.parse s) }

def listed (env : Env) (r : Root) (spec : QuerySpec) : Set RelPath :=
  { p | ∃ e, r.tree.get p = some e ∧ answerRow env r spec p e ≠ none }

/-- The entry passes the tests that look neither at ticks nor at the expression. -/
def Visible (spec : QuerySpec) (p : RelPath) (e : FileEntry) : Prop :=
  ¬ IsCookie p ∧ ¬ (spec.alwaysIncludeDirectories = false ∧ e.kind = .dir) ∧
    ∃ q, displayRel spec p = some q ∧ spec.generators.accept q = true

theorem mem_listed_iff {p : RelPath} : p ∈ listed env r spec ↔
    ∃ e q, r.tree.get p = some e ∧ Passes r spec p e q ∧ Allowed env spec p q := by
  constructor
  · rintro ⟨e, he, hrow⟩
    obtain ⟨v, hv⟩ := Option.ne_none_iff_exists'.mp hrow
    obtain ⟨q, hpass, hallowed, -⟩ := answerRow_eq_some_iff.mp hv
    exact ⟨e, q, he, hpass, hallowed⟩
  · rintro ⟨e, q, he, hpass, hallowed⟩
    refine ⟨e, he, ?_⟩
    rw [answerRow_eq_some_iff.mpr ⟨q, hpass, hallowed, rfl⟩]
    exact Option.some_ne_none _

/-- The tick a clock given as the option stands for. -/
def optionTick (r : Root) : ClockSpec → ℕ
  | .named name => r.cursorTick name
  | c => c.tickAgainst r.clock

theorem sinceTick_of_since {c : ClockSpec} (h : spec.since = some c) :
    sinceTick r spec = some (optionTick r c) := by
  unfold sinceTick resolveNamedCursor
  rw [h]
  cases c <;> rfl

theorem sinceTick_of_none (h : spec.since = none) : sinceTick r spec = none := by
  unfold sinceTick resolveNamedCursor
  rw [h]
  rfl

/-- A query without a set of changed paths lists what is visible and passes its two tests of
ticks. -/
theorem mem_listed_iff_visible {P : FileEntry → Prop} (hempty : spec.emptyOnFreshInstance = false)
    (hset : resolveScmSet env spec = none)
    (htick : ∀ e q, Past (sinceTick r spec) e ∧
      spec.expression.eval e ⟨r.clock, q, spec.caseSensitive⟩ = true ↔ P e) {p : RelPath} :
    p ∈ listed env r spec ↔ ∃ e, r.tree.get p = some e ∧ Visible spec p e ∧ P e := by
  rw [mem_listed_iff]
  constructor
  · rintro ⟨e, q, he, hpass, -⟩
    exact ⟨e, he, ⟨hpass.notCookie, hpass.kind, q, hpass.below, hpass.generated⟩,
      (htick e q).mp ⟨hpass.past, hpass.matched⟩⟩
  · rintro ⟨e, he, ⟨hcookie, hkind, q, hbelow, haccept⟩, hP⟩
    obtain ⟨hpast, hmatched⟩ := (htick e q).mpr hP
    have hanswered : ¬ (IsFresh r spec ∧ spec.emptyOnFreshInstance = true) := by
      rintro ⟨-, h⟩
      exact absurd (hempty.symm.trans h) (by decide)
    refine ⟨e, q, he, ⟨hanswered, hpast, hcookie, hkind, hbelow, haccept, hmatched⟩, ?_⟩
    intro set hsome
    rw [hset] at hsome
    cases hsome

theorem mem_listed_sinceTerm (hempty : spec.emptyOnFreshInstance = false) {p : RelPath} :
    p ∈ listed env r (sinceTerm spec s) ↔ ∃ e, r.tree.get p = some e ∧ Visible spec p e ∧
      (ClockSpec.parse s).tickAgainst r.clock < e.oclock := by
  refine @mem_listed_iff_visible env r (sinceTerm spec s) _ hempty rfl (fun e q => ?_) p
  rw [@sinceTick_of_none r (sinceTerm spec s) rfl]
  constructor
  · rintro ⟨-, hmatched⟩
    exact of_decide_eq_true hmatched
  · intro htick
    refine ⟨fun t ht => ?_, decide_eq_true htick⟩
    cases ht

theorem mem_listed_sinceOption (hempty : spec.emptyOnFreshInstance = false)
    (hform : ClockSpec.HasForm s) {p : RelPath} :
    p ∈ listed env r (sinceOption spec s) ↔ ∃ e, r.tree.get p = some e ∧ Visible spec p e ∧
      optionTick r (ClockSpec.parse s) < e.oclock := by
  have hset : resolveScmSet env (sinceOption spec s) = none := by
    unfold resolveScmSet
    split
    · rename_i vcs mergebase hscm
      exact absurd (Option.some.inj hscm) (hform.parse_ne_scm vcs mergebase)
    · rfl
  refine @mem_listed_iff_visible env r (sinceOption spec s) _ hempty hset (fun e q => ?_) p
  rw [@sinceTick_of_since r (sinceOption spec s) _ rfl, past_some]
  exact and_iff_left rfl

/-- **Since terms.** The clock lists the same entries as a term and as an option, exactly if it is
no cursor, or one that is behind every visible entry that was ever stamped. -/
theorem since_term_iff (env : Env) (r : Root) (spec : QuerySpec)
    (hempty : spec.emptyOnFreshInstance = false) (s : String) (hform : ClockSpec.HasForm s) :
    listed env r (sinceTerm spec s) = listed env r (sinceOption spec s) ↔
      ∀ name, s = "n:" ++ name → ∀ p e, r.tree.get p = some e → Visible spec p e →
        0 < e.oclock → r.cursorTick name < e.oclock := by
  constructor
  · rintro h name rfl p e he hvisible hpos
    rw [Set.ext_iff] at h
    have hterm : p ∈ listed env r (sinceTerm spec ("n:" ++ name)) := by
      refine (mem_listed_sinceTerm hempty).mpr ⟨e, he, hvisible, ?_⟩
      rw [ClockSpec.parse_named]
      exact hpos
    obtain ⟨e', he', -, htick⟩ := (mem_listed_sinceOption hempty hform).mp ((h p).mp hterm)
    obtain rfl := Option.some.inj (he'.symm.trans he)
    rw [ClockSpec.parse_named] at htick
    exact htick
  · intro h
    ext p
    rw [mem_listed_sinceTerm hempty, mem_listed_sinceOption hempty hform]
    refine exists_congr fun e => and_congr_right fun he => and_congr_right fun hvisible => ?_
    cases hparse : ClockSpec.parse s with
    | named name =>
      have hpast := h name (ClockSpec.parse_eq_named_iff.mp hparse) p e he hvisible
      exact ⟨hpast, fun htick => Nat.zero_lt_of_lt htick⟩
    | epoch => rfl
    | tick n => rfl
    | full a b c d => rfl
    | scm vcs mergebase => rfl

/-- A root whose cursor `x` is past its one file. -/
def cursorPast : Root := oneFile.setCursor "x" 2

theorem since_term_iff_clock :
    everything.emptyOnFreshInstance = false ∧ ClockSpec.HasForm "7" ∧
    (listed emptyEnv cursorPast (sinceTerm everything "7") =
        listed emptyEnv cursorPast (sinceOption everything "7") ↔
      ∀ name, "7" = "n:" ++ name → ∀ p e, cursorPast.tree.get p = some e → Visible everything p e →
        0 < e.oclock → cursorPast.cursorTick name < e.oclock) :=
  have hform : ClockSpec.HasForm "7" := .inr (.inr ⟨7, by decide⟩)
  ⟨rfl, hform, since_term_iff emptyEnv cursorPast everything rfl "7" hform⟩

/-- The cursor is past the file: the term lists it, the option does not. -/
theorem cursor_term_lists_more :
    cursorPast.jjEvents = false ∧ ClockSpec.HasForm "n:x" ∧
    listed emptyEnv cursorPast (sinceTerm everything "n:x") ≠
      listed emptyEnv cursorPast (sinceOption everything "n:x") := by
  refine ⟨rfl, .inr (.inl (by decide)), fun h => ?_⟩
  have hterm : [[0x61]] ∈ listed emptyEnv cursorPast (sinceTerm everything "n:x") :=
    ⟨_, rfl, Option.some_ne_none _⟩
  rw [h] at hterm
  obtain ⟨e, he, hrow⟩ := hterm
  obtain rfl := Option.some.inj he
  exact hrow rfl

end Query

end Watchwoman
