import Watchwoman.Query.Operands

/-!
# The expressions of a query

What `expr.rs` accepts, said without the parser: `Expression` has a rule for each operator, with the
operands it needs. `parse` succeeds exactly on these (`parse_accepts_iff`). Globs and regular
expressions are accepted if their crates compile them.
-/

namespace Watchwoman

/-- A parser succeeds. -/
def Accepts {α : Type} (x : Except CommandError α) : Prop := ∃ a, x = .ok a

section Accepts

variable {α β : Type}

@[simp] theorem accepts_ok (a : α) : Accepts (.ok a) := ⟨a, rfl⟩

@[simp] theorem accepts_pure (a : α) : Accepts (pure a) := ⟨a, rfl⟩

@[simp] theorem not_accepts_error (e : CommandError) :
    ¬ Accepts (.error e : Except CommandError α) := by
  rintro ⟨a, h⟩
  cases h

theorem CommandError.bind_eq_ok {x : Except CommandError α} {f : α → Except CommandError β} {b : β} :
    (x >>= f) = .ok b ↔ ∃ a, x = .ok a ∧ f a = .ok b := by
  cases x with
  | ok a =>
    refine ⟨fun h => ⟨a, rfl, h⟩, ?_⟩
    rintro ⟨_, ⟨⟩, h⟩
    exact h
  | error e =>
    constructor
    · rintro ⟨⟩
    · rintro ⟨_, ⟨⟩, -⟩

@[simp] theorem accepts_bind {x : Except CommandError α} {f : α → Except CommandError β} :
    Accepts (x >>= f) ↔ ∃ a, x = .ok a ∧ Accepts (f a) := by
  constructor
  · rintro ⟨b, h⟩
    obtain ⟨a, hx, hf⟩ := CommandError.bind_eq_ok.mp h
    exact ⟨a, hx, b, hf⟩
  · rintro ⟨a, hx, b, hf⟩
    exact ⟨b, CommandError.bind_eq_ok.mpr ⟨a, hx, hf⟩⟩

@[simp] theorem accepts_map {x : Except CommandError α} {f : α → β} :
    Accepts (f <$> x) ↔ Accepts x := by
  cases x with
  | ok a => exact iff_of_true ⟨f a, rfl⟩ ⟨a, rfl⟩
  | error e => exact iff_of_false (not_accepts_error e) (not_accepts_error e)

@[simp] theorem orBadArgs_eq_ok {message : String} {o : Option α} {a : α} :
    CommandError.orBadArgs message o = .ok a ↔ o = some a := by
  cases o <;> simp [CommandError.orBadArgs]

end Accepts

theorem CmpOp.parse_eq_some_iff (s : String) (op : CmpOp) : parse s = some op ↔ s = op.name := by
  constructor
  · intro h
    unfold parse at h
    split at h <;> cases h <;> rfl
  · rintro rfl
    cases op <;> rfl

namespace Expr

/-! ## Operands -/

/-- The string among the operands at a place, if there is one. -/
def strAt (operands : List Value) (i : ℕ) : Option String := operands[i]?.bind Value.asStr

/-- What stands in the place of the scope is no string, or one of the two scopes. -/
def ScopeFits (operands : List Value) : Prop :=
  ∀ s ∈ strAt operands 1, s = "basename" ∨ s = "wholename"

/-- A string, or an array to take the strings of. -/
inductive HoldsStrings : Value → Prop
  | string (s : String) : HoldsStrings (.string s)
  | array (items : List Value) : HoldsStrings (.array items)

/-- The operators that have no expression inside, with the operands they need. -/
inductive Term (env : ParseEnv) : String → List Value → Prop
  | constant {head : String} {operands : List Value}
    (hhead : head ∈ ["true", "false", "exists", "empty"]) : Term env head operands
  | name {head : String} {first : Value} {rest : List Value}
    (hhead : head = "name" ∨ head = "iname") (hfirst : HoldsStrings first)
    (hscope : ScopeFits (first :: rest)) : Term env head (first :: rest)
  | match {head pattern : String} {operands : List Value}
    (hhead : head = "match" ∨ head = "imatch") (hpattern : strAt operands 0 = some pattern)
    (hscope : ScopeFits operands) (hglob : ∃ matcher, env.buildGlob pattern (head == "imatch")
      (strAt operands 1 == some "wholename") = .ok matcher) : Term env head operands
  | pcre {head pattern : String} {operands : List Value}
    (hhead : head = "pcre" ∨ head = "ipcre") (hpattern : strAt operands 0 = some pattern)
    (hscope : ScopeFits operands)
    (hregex : ∃ regex, env.buildRegex pattern (head == "ipcre") = .ok regex) :
    Term env head operands
  | suffix {operands : List Value} (h : ∀ v ∈ operands, HoldsStrings v) :
    Term env "suffix" operands
  | type {kind : String} {operands : List Value} (hkind : strAt operands 0 = some kind)
    (h : kind ∈ ["f", "d", "l", "b", "c", "p", "s"]) : Term env "type" operands
  | size {op : CmpOp} {bytes : Int64} {operands : List Value}
    (hop : strAt operands 0 = some op.name)
    (hbytes : operands[1]?.bind Value.asI64 = some bytes) : Term env "size" operands
  | since {clock : String} {operands : List Value} (hclock : strAt operands 0 = some clock) :
    Term env "since" operands
  | dirname {head path : String} {operands : List Value}
    (hhead : head = "dirname" ∨ head = "idirname") (hpath : strAt operands 0 = some path) :
    Term env head operands

/-- The expressions of the query language. -/
inductive Expression (env : ParseEnv) : Value → Prop
  | bare {s : String} (h : s ∈ ["true", "false", "exists", "empty"]) : Expression env (.string s)
  | not {inner : Value} {rest : List Value} (h : Expression env inner) :
    Expression env (.array (.string "not" :: inner :: rest))
  | allOf {operands : List Value} (h : ∀ v ∈ operands, Expression env v) :
    Expression env (.array (.string "allof" :: operands))
  | anyOf {operands : List Value} (h : ∀ v ∈ operands, Expression env v) :
    Expression env (.array (.string "anyof" :: operands))
  | term {head : String} {operands : List Value} (h : Term env head operands) :
    Expression env (.array (.string head :: operands))

/-! ## One operator -/

theorem strAt_zero (operands : List Value) : strAt operands 0 = operands.head?.bind Value.asStr := by
  cases operands <;> rfl

theorem accepts_parseScope {s : String} :
    Accepts (parseScope s) ↔ s = "basename" ∨ s = "wholename" := by
  unfold parseScope
  split
  · simp
  · simp
  · rename_i hbase hwhole
    exact iff_of_false (not_accepts_error _) (not_or.mpr ⟨hbase, hwhole⟩)

theorem accepts_scopeArg {operands : List Value} :
    Accepts (scopeArg operands) ↔ ScopeFits operands := by
  unfold scopeArg ScopeFits strAt
  cases operands[1]?.bind Value.asStr with
  | none => simp
  | some s => simp [accepts_parseScope]

/-- The scope that is read is the whole name if the operand is `wholename`. -/
theorem scopeArg_eq_ok {operands : List Value} {scope : MatchScope}
    (h : scopeArg operands = .ok scope) :
    (scope == .wholename) = (strAt operands 1 == some "wholename") := by
  unfold scopeArg at h
  unfold strAt
  cases hs : operands[1]?.bind Value.asStr with
  | none =>
    rw [hs] at h
    cases h
    rfl
  | some s =>
    rw [hs] at h
    unfold parseScope at h
    dsimp only at h
    split at h <;> cases h <;> rfl

theorem accepts_flattenStrings {operands : List Value} :
    Accepts (flattenStrings operands) ↔ ∀ v ∈ operands, HoldsStrings v := by
  induction operands with
  | nil => simp [flattenStrings]
  | cons v operands ih =>
    rw [List.forall_mem_cons, ← ih]
    cases v with
    | string s => simp [flattenStrings, HoldsStrings.string]
    | array items => simp [flattenStrings, HoldsStrings.array]
    | _ =>
      refine iff_of_false (not_accepts_error _) ?_
      rintro ⟨⟨⟩, -⟩

theorem accepts_parseNameArgs {operands : List Value} : Accepts (parseNameArgs operands) ↔
    ∃ first rest, operands = first :: rest ∧ HoldsStrings first ∧ ScopeFits operands := by
  unfold parseNameArgs
  cases operands with
  | nil => simp
  | cons first rest =>
    have hfirst : Accepts (flattenStrings [first]) ↔ HoldsStrings first := by
      simp [accepts_flattenStrings]
    rw [accepts_bind, ← accepts_scopeArg]
    constructor
    · rintro ⟨_, ⟨⟩, h⟩
      obtain ⟨names, hnames, h⟩ := accepts_bind.mp h
      obtain ⟨scope, hscope, -⟩ := accepts_bind.mp h
      exact ⟨first, rest, rfl, hfirst.mp ⟨names, hnames⟩, scope, hscope⟩
    · rintro ⟨_, _, ⟨⟩, hholds, scope, hscope⟩
      obtain ⟨names, hnames⟩ := hfirst.mpr hholds
      refine ⟨first, rfl, accepts_bind.mpr ⟨names, hnames, ?_⟩⟩
      exact accepts_bind.mpr ⟨scope, hscope, accepts_pure _⟩

theorem accepts_parseMatch {env : ParseEnv} {caseInsensitive : Bool} {operands : List Value} :
    Accepts (parseMatch env caseInsensitive operands) ↔
      ∃ pattern, strAt operands 0 = some pattern ∧ ScopeFits operands ∧
        ∃ matcher, env.buildGlob pattern caseInsensitive
          (strAt operands 1 == some "wholename") = .ok matcher := by
  unfold parseMatch
  simp only [accepts_bind, orBadArgs_eq_ok, strAt_zero]
  refine exists_congr fun pattern => and_congr_right fun _ => ?_
  rw [← accepts_scopeArg]
  constructor
  · rintro ⟨scope, hscope, h⟩
    rw [scopeArg_eq_ok hscope] at h
    refine ⟨⟨scope, hscope⟩, ?_⟩
    split at h
    · exact ⟨_, ‹_›⟩
    · exact absurd h (not_accepts_error _)
  · rintro ⟨⟨scope, hscope⟩, matcher, hglob⟩
    refine ⟨scope, hscope, ?_⟩
    rw [scopeArg_eq_ok hscope, hglob]
    exact accepts_pure _

theorem accepts_parsePcre {env : ParseEnv} {caseInsensitive : Bool} {operands : List Value} :
    Accepts (parsePcre env caseInsensitive operands) ↔
      ∃ pattern, strAt operands 0 = some pattern ∧ ScopeFits operands ∧
        ∃ regex, env.buildRegex pattern caseInsensitive = .ok regex := by
  unfold parsePcre
  simp only [accepts_bind, orBadArgs_eq_ok, strAt_zero]
  refine exists_congr fun pattern => and_congr_right fun _ => ?_
  rw [← accepts_scopeArg]
  constructor
  · rintro ⟨scope, hscope, h⟩
    refine ⟨⟨scope, hscope⟩, ?_⟩
    split at h
    · exact ⟨_, ‹_›⟩
    · exact absurd h (not_accepts_error _)
  · rintro ⟨⟨scope, hscope⟩, regex, hregex⟩
    refine ⟨scope, hscope, ?_⟩
    rw [hregex]
    exact accepts_pure _

theorem accepts_parseKind {kind : String} :
    Accepts (parseKind kind) ↔ kind ∈ ["f", "d", "l", "b", "c", "p", "s"] := by
  unfold parseKind
  split
  case h_8 =>
    refine iff_of_false (not_accepts_error _) ?_
    simp only [List.mem_cons, List.not_mem_nil, or_false]
    tauto
  all_goals simp

theorem accepts_parseSize {operands : List Value} : Accepts (parseSize operands) ↔
    ∃ op : CmpOp, strAt operands 0 = some op.name ∧
      ∃ bytes, operands[1]?.bind Value.asI64 = some bytes := by
  have hop : ∀ op : CmpOp, (operands.head?.bind Value.asStr).bind CmpOp.parse = some op ↔
      strAt operands 0 = some op.name := by
    simp [strAt_zero, Option.bind_eq_some_iff, CmpOp.parse_eq_some_iff]
  unfold parseSize
  simp only [accepts_bind, orBadArgs_eq_ok, hop]
  simp

theorem accepts_string {operands : List Value} {message : String}
    {f : String → Except CommandError Expr} (hf : ∀ s, Accepts (f s)) :
    Accepts (CommandError.orBadArgs message (operands.head?.bind Value.asStr) >>= f) ↔
      ∃ s, strAt operands 0 = some s := by
  simp only [accepts_bind, orBadArgs_eq_ok, strAt_zero, hf, and_true]

/-- An operator that is read has its operands. -/
theorem term_of_accepts {env : ParseEnv} {head : String} {operands : List Value}
    (h : Accepts (parseTerm env head operands)) : Term env head operands := by
  unfold parseTerm at h
  split at h
  case h_17 => exact absurd h (not_accepts_error _)
  · exact .constant (by simp)
  · exact .constant (by simp)
  · exact .constant (by simp)
  · exact .constant (by simp)
  · obtain ⟨x, hx, -⟩ := accepts_bind.mp h
    obtain ⟨first, rest, rfl, hfirst, hscope⟩ := accepts_parseNameArgs.mp ⟨x, hx⟩
    exact .name (.inl rfl) hfirst hscope
  · obtain ⟨x, hx, -⟩ := accepts_bind.mp h
    obtain ⟨first, rest, rfl, hfirst, hscope⟩ := accepts_parseNameArgs.mp ⟨x, hx⟩
    exact .name (.inr rfl) hfirst hscope
  · obtain ⟨pattern, hpattern, hscope, hglob⟩ := accepts_parseMatch.mp h
    exact .match (.inl rfl) hpattern hscope hglob
  · obtain ⟨pattern, hpattern, hscope, hglob⟩ := accepts_parseMatch.mp h
    exact .match (.inr rfl) hpattern hscope hglob
  · obtain ⟨pattern, hpattern, hscope, hregex⟩ := accepts_parsePcre.mp h
    exact .pcre (.inl rfl) hpattern hscope hregex
  · obtain ⟨pattern, hpattern, hscope, hregex⟩ := accepts_parsePcre.mp h
    exact .pcre (.inr rfl) hpattern hscope hregex
  · obtain ⟨list, hlist, -⟩ := accepts_bind.mp h
    exact .suffix (accepts_flattenStrings.mp ⟨list, hlist⟩)
  · simp only [accepts_bind, orBadArgs_eq_ok, ← strAt_zero] at h
    obtain ⟨kind, hkind, k, hk, -⟩ := h
    exact .type hkind (accepts_parseKind.mp ⟨k, hk⟩)
  · obtain ⟨op, hop, bytes, hbytes⟩ := accepts_parseSize.mp h
    exact .size hop hbytes
  · obtain ⟨clock, hclock⟩ := (accepts_string fun _ => accepts_pure _).mp h
    exact .since hclock
  · obtain ⟨path, hpath⟩ := (accepts_string fun _ => accepts_pure _).mp h
    exact .dirname (.inl rfl) hpath
  · obtain ⟨path, hpath⟩ := (accepts_string fun _ => accepts_pure _).mp h
    exact .dirname (.inr rfl) hpath

theorem Term.accepts {env : ParseEnv} {head : String} {operands : List Value}
    (h : Term env head operands) : Accepts (parseTerm env head operands) := by
  cases h with
  | constant hhead =>
    simp only [List.mem_cons, List.not_mem_nil, or_false] at hhead
    rcases hhead with rfl | rfl | rfl | rfl <;> exact accepts_pure _
  | name hhead hfirst hscope =>
    obtain ⟨x, hx⟩ := accepts_parseNameArgs.mpr ⟨_, _, rfl, hfirst, hscope⟩
    rcases hhead with rfl | rfl <;> exact accepts_bind.mpr ⟨x, hx, accepts_pure _⟩
  | «match» hhead hpattern hscope hglob =>
    rcases hhead with rfl | rfl <;> exact accepts_parseMatch.mpr ⟨_, hpattern, hscope, hglob⟩
  | pcre hhead hpattern hscope hregex =>
    rcases hhead with rfl | rfl <;> exact accepts_parsePcre.mpr ⟨_, hpattern, hscope, hregex⟩
  | suffix h =>
    obtain ⟨list, hlist⟩ := accepts_flattenStrings.mpr h
    exact accepts_bind.mpr ⟨list, hlist, accepts_pure _⟩
  | type hkind h =>
    obtain ⟨k, hk⟩ := accepts_parseKind.mpr h
    refine accepts_bind.mpr ⟨_, orBadArgs_eq_ok.mpr (strAt_zero _ ▸ hkind), ?_⟩
    exact accepts_bind.mpr ⟨k, hk, accepts_pure _⟩
  | size hop hbytes => exact accepts_parseSize.mpr ⟨_, hop, _, hbytes⟩
  | since hclock => exact (accepts_string fun _ => accepts_pure _).mpr ⟨_, hclock⟩
  | dirname hhead hpath =>
    rcases hhead with rfl | rfl <;> exact (accepts_string fun _ => accepts_pure _).mpr ⟨_, hpath⟩

theorem Term.parseArray {env : ParseEnv} {head : String} {operands : List Value}
    (h : Term env head operands) :
    Expr.parseArray env (.string head :: operands) = parseTerm env head operands := by
  cases h with
  | constant hhead =>
    simp only [List.mem_cons, List.not_mem_nil, or_false] at hhead
    rcases hhead with rfl | rfl | rfl | rfl <;> rfl
  | name hhead | «match» hhead | pcre hhead | dirname hhead => rcases hhead with rfl | rfl <;> rfl
  | suffix | type | size | since => rfl

/-! ## Expressions inside expressions -/

theorem accepts_parseAll {env : ParseEnv} {operands : List Value} :
    Accepts (parseAll env operands) ↔ ∀ v ∈ operands, Accepts (parse env v) := by
  induction operands with
  | nil => simp [parseAll]
  | cons v operands ih =>
    rw [List.forall_mem_cons, ← ih, parseAll]
    simp only [accepts_bind, accepts_pure, and_true]
    exact exists_and_right

theorem expression_of_accepts {env : ParseEnv} {items : List Value}
    (ih : ∀ v ∈ items, Accepts (parse env v) → Expression env v)
    (h : Accepts (parseArray env items)) : Expression env (.array items) := by
  unfold parseArray at h
  split at h
  · split at h
    · exact absurd h (not_accepts_error _)
    · obtain ⟨e, he, -⟩ := accepts_bind.mp h
      exact .not (ih _ (by simp) ⟨e, he⟩)
  · obtain ⟨es, hes, -⟩ := accepts_bind.mp h
    refine .allOf fun v hv => ih v (List.mem_cons_of_mem _ hv) ?_
    exact accepts_parseAll.mp ⟨es, hes⟩ v hv
  · obtain ⟨es, hes, -⟩ := accepts_bind.mp h
    refine .anyOf fun v hv => ih v (List.mem_cons_of_mem _ hv) ?_
    exact accepts_parseAll.mp ⟨es, hes⟩ v hv
  · exact .term (term_of_accepts h)
  · exact absurd h (not_accepts_error _)

/-- `parse` succeeds on the expressions of the language and on nothing else. -/
theorem parse_accepts_iff {env : ParseEnv} {v : Value} :
    Accepts (parse env v) ↔ Expression env v := by
  constructor
  · intro h
    induction v with
    | string s =>
      unfold parse at h
      split at h
      case h_1 | h_2 | h_3 | h_4 =>
        rename_i heq
        rw [Value.string.inj heq]
        exact .bare (by simp)
      all_goals first | exact absurd h (not_accepts_error _) | contradiction
    | array items ih => exact expression_of_accepts ih (by rwa [parse] at h)
    | _ => exact absurd h (not_accepts_error _)
  · intro h
    induction h with
    | bare h =>
      simp only [List.mem_cons, List.not_mem_nil, or_false] at h
      rcases h with rfl | rfl | rfl | rfl <;> exact accepts_ok _
    | not h ih =>
      obtain ⟨e, he⟩ := ih
      exact accepts_bind.mpr ⟨e, he, accepts_pure _⟩
    | allOf h ih =>
      obtain ⟨es, hes⟩ := accepts_parseAll.mpr ih
      exact accepts_bind.mpr ⟨es, hes, accepts_pure _⟩
    | anyOf h ih =>
      obtain ⟨es, hes⟩ := accepts_parseAll.mpr ih
      exact accepts_bind.mpr ⟨es, hes, accepts_pure _⟩
    | term h =>
      unfold parse
      rw [h.parseArray]
      exact h.accepts

end Expr

end Watchwoman
