import Watchwoman.Query.Freshness
import Watchwoman.Query.JjFsmonitor

/-!
# Parsing a query spec

The parsers of `expr.rs`, `field.rs`, `generator.rs` and `run.rs`, with the errors of each exit.
Globs and regular expressions are compiled by other crates, which refuse some patterns; `ParseEnv` is
what they return.

The field names of the wire are read back (`Field.parse_eq_some_iff`), and the query that jj sends is
the one that `is_jj_fsmonitor_query` looks for (`parseSpec_jjQuery`).
-/

namespace Watchwoman

/-! ## Errors -/

inductive CommandError where
  | unknown (name : String)
  | badArgs (message : String)
  | unknownRoot (path : String)
  | notImplemented (what : String)
  /-- An `anyhow` error, by the text of its chain. -/
  | internal (message : String)
  deriving DecidableEq, Repr

namespace CommandError

/-- The text that the client is sent. -/
def display : CommandError → String
  | .unknown name => "unknown command: " ++ name
  | .badArgs message => "bad args: " ++ message
  | .unknownRoot path => "no such root: " ++ path
  | .notImplemented what => "not implemented: " ++ what
  | .internal message => "internal: " ++ message

/-- `ok_or_else` with a message about the arguments. -/
def orBadArgs {α : Type} (message : String) : Option α → Except CommandError α
  | some a => .ok a
  | none => .error (.badArgs message)

end CommandError

open CommandError

/-- What the parsers take from other crates. -/
structure ParseEnv where
  /-- `GlobBuilder` with the flags `case_insensitive` and `literal_separator`: a matcher, or the text
  of the error. -/
  buildGlob : String → Bool → Bool → Except String (List UInt8 → Bool)
  /-- `RegexBuilder` with the flag `case_insensitive`. -/
  buildRegex : String → Bool → Except String (String → Bool)
  /-- The `Debug` text of a value. -/
  debugText : Value → String

/-! ## Expressions -/

def CmpOp.parse : String → Option CmpOp
  | "eq" => some .eq
  | "ne" => some .ne
  | "lt" => some .lt
  | "le" => some .le
  | "gt" => some .gt
  | "ge" => some .ge
  | _ => none

namespace Expr

def parseScope : String → Except CommandError MatchScope
  | "basename" => .ok .basename
  | "wholename" => .ok .wholename
  | other => .error (.badArgs ("unknown scope `" ++ other ++ "` (use basename or wholename)"))

/-- The scope behind a pattern or a name. -/
def scopeArg (rest : List Value) : Except CommandError MatchScope :=
  match rest[1]?.bind Value.asStr with
  | none => .ok .basename
  | some s => parseScope s

def flattenStrings : List Value → Except CommandError (List String)
  | [] => .ok []
  | .string s :: items => do
    let out ← flattenStrings items
    return s :: out
  | .array inner :: items => do
    let out ← flattenStrings items
    return inner.filterMap Value.asStr ++ out
  | _ :: _ => .error (.badArgs "expected string or array")

def parseNameArgs (rest : List Value) : Except CommandError (List String × MatchScope) := do
  let first ← orBadArgs "`name` requires at least a name" rest.head?
  let names ← flattenStrings [first]
  let scope ← scopeArg rest
  return (names, scope)

/-- The operators `match` and `imatch`. -/
def parseMatch (env : ParseEnv) (caseInsensitive : Bool) (rest : List Value) :
    Except CommandError Expr := do
  let pattern ← orBadArgs "`match` requires a pattern" (rest.head?.bind Value.asStr)
  let scope ← scopeArg rest
  match env.buildGlob pattern caseInsensitive (scope == .wholename) with
  | .ok matcher => return .match matcher scope
  | .error e => throw (.badArgs ("bad match pattern: " ++ e))

/-- The operators `pcre` and `ipcre`. -/
def parsePcre (env : ParseEnv) (caseInsensitive : Bool) (rest : List Value) :
    Except CommandError Expr := do
  let pattern ← orBadArgs "`pcre` requires a pattern" (rest.head?.bind Value.asStr)
  let scope ← scopeArg rest
  match env.buildRegex pattern caseInsensitive with
  | .ok regex => return .pcre regex scope
  | .error e => throw (.badArgs ("bad pcre pattern: " ++ e))

/-- The letter of a kind in the operator `type`. -/
def parseKind : String → Except CommandError FileKind
  | "f" => .ok .file
  | "d" => .ok .dir
  | "l" => .ok .symlink
  | "b" => .ok .block
  | "c" => .ok .char
  | "p" => .ok .fifo
  | "s" => .ok .socket
  | other => .error (.badArgs ("unknown type `" ++ other ++ "`"))

def parseSize (rest : List Value) : Except CommandError Expr := do
  let op ← orBadArgs "`size` requires a comparison op"
    ((rest.head?.bind Value.asStr).bind CmpOp.parse)
  let bytes ← orBadArgs "`size` requires bytes" (rest[1]?.bind Value.asI64)
  return .size op bytes.toUInt64

/-- The operators of `parse_array` that have no expression inside. -/
def parseTerm (env : ParseEnv) (head : String) (rest : List Value) : Except CommandError Expr :=
  match head with
  | "true" => return .true
  | "false" => return .false
  | "exists" => return .exists
  | "empty" => return .empty
  | "name" => do
    let (names, scope) ← parseNameArgs rest
    return .name names scope Bool.true
  | "iname" => do
    let (names, scope) ← parseNameArgs rest
    return .name names scope Bool.false
  | "match" => parseMatch env Bool.false rest
  | "imatch" => parseMatch env Bool.true rest
  | "pcre" => parsePcre env Bool.false rest
  | "ipcre" => parsePcre env Bool.true rest
  | "suffix" => do
    let list ← flattenStrings rest
    return .suffix (list.map asciiLower)
  | "type" => do
    let t ← orBadArgs "`type` requires a kind" (rest.head?.bind Value.asStr)
    let kind ← parseKind t
    return .type kind
  | "size" => parseSize rest
  | "since" => do
    let s ← orBadArgs "`since` requires a clock" (rest.head?.bind Value.asStr)
    return .since (ClockSpec.parse s)
  | "dirname" => do
    let path ← orBadArgs "`dirname` requires a path" (rest.head?.bind Value.asStr)
    return .dirname path Bool.true
  | "idirname" => do
    let path ← orBadArgs "`dirname` requires a path" (rest.head?.bind Value.asStr)
    return .dirname path Bool.false
  | other => throw (.badArgs ("unknown expression operator `" ++ other ++ "`"))

mutual

/-- `parse` -/
def parse (env : ParseEnv) : Value → Except CommandError Expr
  | .string "true" => .ok .true
  | .string "false" => .ok .false
  | .string "exists" => .ok .exists
  | .string "empty" => .ok .empty
  | .string other => .error (.badArgs ("unknown bare expression `" ++ other ++ "`"))
  | .array items => parseArray env items
  | other => .error (.badArgs ("expected expression array, got " ++ env.debugText other))

/-- `parse_array` -/
def parseArray (env : ParseEnv) : List Value → Except CommandError Expr
  | .string "not" :: rest =>
    match rest with
    | [] => .error (.badArgs "`not` requires an operand")
    | inner :: _ => do
      let e ← parse env inner
      return .not e
  | .string "allof" :: rest => do
    let list ← parseAll env rest
    return .allOf list
  | .string "anyof" :: rest => do
    let list ← parseAll env rest
    return .anyOf list
  | .string head :: rest => parseTerm env head rest
  | _ => .error (.badArgs "empty expression")

/-- The operands of `allof` and `anyof`, up to the first that is refused. -/
def parseAll (env : ParseEnv) : List Value → Except CommandError (List Expr)
  | [] => .ok []
  | v :: vs => do
    let e ← parse env v
    let es ← parseAll env vs
    return e :: es

end

end Expr

/-! ## Fields -/

namespace Field

def parse : String → Option Field
  | "name" => some .name
  | "exists" => some .exists
  | "size" => some .size
  | "mode" => some .mode
  | "uid" => some .uid
  | "gid" => some .gid
  | "ino" => some .ino
  | "dev" => some .dev
  | "nlink" => some .nlink
  | "mtime" => some .mtime
  | "mtime_ms" => some .mtimeMs
  | "mtime_us" => some .mtimeUs
  | "mtime_ns" => some .mtimeNs
  | "mtime_f" => some .mtimeF
  | "ctime" => some .ctime
  | "ctime_ms" => some .ctimeMs
  | "ctime_us" => some .ctimeUs
  | "ctime_ns" => some .ctimeNs
  | "ctime_f" => some .ctimeF
  | "type" => some .type
  | "new" => some .new
  | "cclock" => some .cclock
  | "oclock" => some .oclock
  | "symlink_target" => some .symlinkTarget
  | "content.sha1hex" => some .contentSha1Hex
  | _ => none

theorem parse_eq_some_iff (s : String) (f : Field) : parse s = some f ↔ s = f.wireName := by
  constructor
  · intro h
    unfold parse at h
    split at h <;> cases h <;> rfl
  · rintro rfl
    cases f <;> rfl

/-- The loop of `parse_list`. -/
def parseNames : List Value → Except CommandError (List Field)
  | [] => .ok []
  | v :: vs => do
    let name ← orBadArgs "`fields` entries must be strings" v.asStr
    let f ← orBadArgs ("unknown field `" ++ name ++ "`") (parse name)
    let fs ← parseNames vs
    return f :: fs

/-- `parse_list` -/
def parseList (value : Value) : Except CommandError (List Field) := do
  let arr ← orBadArgs "`fields` must be an array" value.asArray
  parseNames arr

end Field

/-! ## Generators -/

namespace Generators

def asStringList (v : Value) : Except CommandError (List String) := do
  let arr ← orBadArgs "expected an array of strings" v.asArray
  arr.mapM fun item => orBadArgs "expected a string" item.asStr

/-- One pattern of `glob`. -/
def buildGlob (env : ParseEnv) (pat : String) : Except CommandError (List UInt8 → Bool) :=
  match env.buildGlob pat false true with
  | .ok matcher => .ok matcher
  | .error e => .error (.badArgs ("bad glob `" ++ pat ++ "`: " ++ e))

/-- One entry of `path`. -/
def parsePathSpec : Value → Except CommandError PathSpec
  | .string s => .ok ⟨s, none⟩
  | .object o => do
    let path ← orBadArgs "path entry missing `path`" ((o.lookup "path").bind Value.asStr)
    let depth := (o.lookup "depth").bind Value.asI64
    return ⟨path, depth.map fun d => d.toUInt64.toUInt32⟩
  | _ => .error (.badArgs "`path` entries must be strings or objects")

/-- `from_spec` -/
def fromSpec (env : ParseEnv) (spec : List (String × Value)) : Except CommandError Generators := do
  let suffix ← (spec.lookup "suffix").mapM asStringList
  let patterns ← (spec.lookup "glob").mapM asStringList
  let glob ← patterns.mapM fun patterns => patterns.mapM (buildGlob env)
  let arr ← (spec.lookup "path").mapM fun v => orBadArgs "`path` must be an array" v.asArray
  let paths ← arr.mapM fun arr => arr.mapM parsePathSpec
  return {
    suffix := suffix.map fun list => list.map asciiLower
    glob
    paths
    since := ((spec.lookup "since").bind Value.asStr).map ClockSpec.parse }

theorem asStringList_strings (patterns : List String) :
    asStringList (.array (patterns.map Value.string)) = .ok patterns := by
  show (patterns.map Value.string).mapM _ = _
  induction patterns with
  | nil => rfl
  | cons pat patterns ih =>
    rw [List.map_cons, List.mapM_cons, ih]
    rfl

theorem fromSpec_glob {env : ParseEnv} {v : Value} {patterns : List String}
    {globs : List (List UInt8 → Bool)} (hv : asStringList v = .ok patterns)
    (h : patterns.mapM (buildGlob env) = .ok globs) :
    fromSpec env [("glob", v)] = .ok { glob := some globs } := by
  show (do
    let patterns ← some <$> asStringList v
    let glob ← patterns.mapM fun patterns => patterns.mapM (buildGlob env)
    return { glob } : Except CommandError Generators) = _
  rw [hv]
  show (do
    let glob ← some <$> patterns.mapM (buildGlob env)
    return { glob } : Except CommandError Generators) = _
  rw [h]
  rfl

end Generators

/-! ## Specs -/

namespace Query

def flag (map : List (String × Value)) (key : String) (default : Bool) : Bool :=
  ((map.lookup key).bind Value.asBool).getD default

/-- `always_include_dirs_default` -/
def alwaysIncludeDirsDefault : Bool := true

/-- `parse_spec` -/
def parseSpec (env : ParseEnv) (raw : Value) : Except CommandError QuerySpec := do
  let map ← orBadArgs "query spec must be an object" raw.asObject
  let expression ← match map.lookup "expression" with
    | some v => Expr.parse env v
    | none => .ok .true
  let fields ← match map.lookup "fields" with
    | some v => Field.parseList v
    | none => .ok Field.defaultFields
  let generators ← Generators.fromSpec env map
  return {
    expression
    fields
    generators
    since := ((map.lookup "since").bind Value.asStr).map ClockSpec.parse
    relativeRoot := ((map.lookup "relative_root").bind Value.asStr).map components
    emptyOnFreshInstance := flag map "empty_on_fresh_instance" false
    alwaysIncludeDirectories := flag map "always_include_directories" alwaysIncludeDirsDefault
    caseSensitive := flag map "case_sensitive" true }

/-! ## jj's query -/

/-- The spec that jj sends to ask for the changes since a clock. -/
def jjQuery (clock : String) : Value :=
  .object [
    ("expression", .array [.string "not", .array [.string "anyof",
      .array [.string "name", .array [.string ".git", .string ".jj"], .string "wholename"],
      .array [.string "dirname", .string ".git"],
      .array [.string "dirname", .string ".jj"]]]),
    ("fields", .array [.string "name"]),
    ("since", .string clock)]

theorem parseSpec_jjQuery (env : ParseEnv) (clock : String) :
    ∃ spec, parseSpec env (jjQuery clock) = .ok spec ∧ AsksForJj spec clock := by
  refine ⟨_, rfl, rfl, ?_, rfl, rfl, rfl, rfl, rfl, rfl, rfl⟩
  rintro excludes ⟨⟩
  simp [Expr.isCaseSensitive]

end Query

end Watchwoman
