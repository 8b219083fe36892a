import Watchwoman.Daemon.Clock
import Watchwoman.Daemon.Tree

/-!
# Expressions and generators

`expr.rs` and `generator.rs`: the tests a query puts to an entry. A compiled glob or regular
expression is the function it computes, on the bytes of a path or on a text.
-/

namespace Watchwoman

inductive MatchScope where
  | basename
  | wholename
  deriving DecidableEq, Repr

inductive CmpOp where
  | eq | ne | lt | le | gt | ge
  deriving DecidableEq, Repr

def CmpOp.apply (op : CmpOp) (lhs rhs : UInt64) : Bool :=
  match op with
  | .eq => lhs == rhs
  | .ne => lhs != rhs
  | .lt => lhs < rhs
  | .le => lhs ≤ rhs
  | .gt => rhs < lhs
  | .ge => rhs ≤ lhs

/-- A query expression. -/
inductive Expr where
  | true
  | false
  | allOf (list : List Expr)
  | anyOf (list : List Expr)
  | not (inner : Expr)
  | name (names : List String) (scope : MatchScope) (caseSensitive : Bool)
  | match (matcher : List UInt8 → Bool) (scope : MatchScope)
  | pcre (regex : String → Bool) (scope : MatchScope)
  | suffix (exts : List String)
  | type (kind : FileKind)
  | size (op : CmpOp) (rhs : UInt64)
  | exists
  | empty
  | since (spec : ClockSpec)
  | dirname (path : String) (caseSensitive : Bool)

/-- What an expression sees besides the entry. -/
structure EvalCtx where
  clock : Clock
  rel : RelPath
  caseSensitive : Bool

namespace Expr

def basenameText (rel : RelPath) : String := (rel.fileName.map Utf8.lossy).getD ""

def scopeText (rel : RelPath) : MatchScope → String
  | .basename => basenameText rel
  | .wholename => rel.toStringLossy

def matchName (rel : RelPath) (names : List String) (scope : MatchScope)
    (caseSensitive : Bool) : Bool :=
  if caseSensitive then names.any (· == scopeText rel scope)
  else names.any (eqIgnoreAsciiCase · (scopeText rel scope))

def matchDirname (rel : RelPath) (target : String) (caseSensitive : Bool) : Bool :=
  match rel.parent with
  | none => Bool.false
  | some parent =>
    let p := parent.toStringLossy
    if caseSensitive then p == target || startsWith p (target ++ "/")
    else eqIgnoreAsciiCase p target || startsWith (asciiLower p) (asciiLower target ++ "/")

def extensionText (rel : RelPath) : Option String :=
  (rel.extension.bind Utf8.ofBytes?).map asciiLower

mutual

/-- `eval` -/
def eval (entry : FileEntry) (ctx : EvalCtx) : Expr → Bool
  | .true => Bool.true
  | .false => Bool.false
  | .allOf list => evalAll entry ctx list
  | .anyOf list => evalAny entry ctx list
  | .not inner => !eval entry ctx inner
  | .exists => entry.live
  | .empty => entry.size == 0
  | .name names scope caseSensitive =>
    matchName ctx.rel names scope (caseSensitive && ctx.caseSensitive)
  | .match matcher .basename => (ctx.rel.fileName.map matcher).getD Bool.false
  | .match matcher .wholename => matcher ctx.rel.bytes
  | .pcre regex scope => regex (scopeText ctx.rel scope)
  | .suffix exts => (extensionText ctx.rel).any exts.contains
  | .type kind => entry.kind == kind
  | .size op rhs => op.apply entry.size rhs
  | .since spec => spec.tickAgainst ctx.clock < entry.oclock
  | .dirname path caseSensitive => matchDirname ctx.rel path (caseSensitive && ctx.caseSensitive)

def evalAll (entry : FileEntry) (ctx : EvalCtx) : List Expr → Bool
  | [] => Bool.true
  | e :: es => eval entry ctx e && evalAll entry ctx es

def evalAny (entry : FileEntry) (ctx : EvalCtx) : List Expr → Bool
  | [] => Bool.false
  | e :: es => eval entry ctx e || evalAny entry ctx es

end

end Expr

/-! ## Generators -/

structure PathSpec where
  path : String
  depth : Option UInt32
  deriving DecidableEq, Repr

/-- Which files the evaluator iterates over; `since` is parsed and not looked at. -/
structure Generators where
  suffix : Option (List String) := none
  glob : Option (List (List UInt8 → Bool)) := none
  paths : Option (List PathSpec) := none
  since : Option ClockSpec := none

namespace Generators

/-- `components().count() as u32 <= d + 1`, with the sum of a release build. -/
def withinDepth (rel : RelPath) (d : UInt32) : Bool := UInt32.ofNat rel.length ≤ d + 1

def acceptPath (rel : RelPath) (spec : PathSpec) : Bool :=
  let within (sub : RelPath) := (spec.depth.map (withinDepth sub)).getD true
  if spec.path = "" then within rel
  else (RelPath.stripPrefix rel (components spec.path)).any within

/-- `accept` -/
def accept (g : Generators) (rel : RelPath) : Bool :=
  (match g.suffix with
    | none => true
    | some sufs => (Expr.extensionText rel).any sufs.contains) &&
  (match g.glob with
    | none => true
    | some globs => globs.any fun m => m rel.bytes) &&
  (match g.paths with
    | none => true
    | some paths => paths.any (acceptPath rel))

end Generators

end Watchwoman
