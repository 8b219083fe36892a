import Watchwoman.Commands.Failures
import Watchwoman.Commands.Loops
import Watchwoman.Query.Grammar

/-!
# The query of a trigger

`trigger` takes any value as the expression and installs it; it is parsed in the loop, for each event.
A trigger with an expression outside the language is installed and listed, and its loop ends with the
first event it would query for. The loop can go on exactly if the expression of the spec, where it
has one, is an expression of the language (`accepted_trigger_runs_iff`).
-/

namespace Watchwoman

open Query Subscribe

/-- `query_spec` -/
def Trigger.querySpec (t : Trigger) (sinceClock : String) : Value :=
  .object [
    ("expression", t.expression),
    ("fields", .array [.string "name"]),
    ("since", .string sinceClock)]

namespace Dispatch

theorem parseSpec_querySpec (env : ParseEnv) (t : Trigger) (clock : String) :
    parseSpec env (t.querySpec clock) = (fun e => { Loops.triggerSpec e with
      since := some (ClockSpec.parse clock)
      generators := { since := some (ClockSpec.parse clock) } }) <$> Expr.parse env t.expression := by
  show (Expr.parse env t.expression >>= _) = _
  cases Expr.parse env t.expression <;> rfl

theorem parseSpec_querySpec_encode (env : ParseEnv) (t : Trigger) (clock : Clock) (tick : ℕ) :
    parseSpec env (t.querySpec (clock.encode tick)) =
      (fun e => pushSpec (Loops.triggerSpec e) clock tick) <$> Expr.parse env t.expression :=
  parseSpec_querySpec env t (clock.encode tick)

theorem accepts_querySpec {env : ParseEnv} {t : Trigger} {clock : String} :
    Accepts (parseSpec env (t.querySpec clock)) ↔ Expr.Expression env t.expression := by
  rw [parseSpec_querySpec, accepts_map, Expr.parse_accepts_iff]

/-- The expression of a trigger is the one in its spec, or `true`. -/
theorem expression_parseTrigger {spec : Value} {t : Trigger} (h : parseTrigger spec = .ok t) :
    t.expression = (spec.asObject.bind (List.lookup "expression")).getD (.string "true") := by
  obtain ⟨o, ho, h⟩ := CommandError.bind_eq_ok.mp h
  obtain ⟨name, -, h⟩ := CommandError.bind_eq_ok.mp h
  obtain ⟨command, -, h⟩ := CommandError.bind_eq_ok.mp h
  obtain rfl := Except.ok.inj h
  rw [orBadArgs_eq_ok.mp ho]
  rfl

theorem expression_true (env : ParseEnv) : Expr.Expression env (.string "true") := .bare (by simp)

/-- **Triggers.** The query of an accepted trigger can be parsed, for every clock, if and only if the
spec has no expression or one of the language. -/
theorem accepted_trigger_runs_iff (env : ParseEnv) {spec : Value} {t : Trigger}
    (haccepted : parseTrigger spec = .ok t) :
    (∀ clock, ∃ query, parseSpec env (t.querySpec clock) = .ok query) ↔
      ∀ v, spec.asObject.bind (List.lookup "expression") = some v → Expr.Expression env v := by
  have hruns : (∀ clock, ∃ query, parseSpec env (t.querySpec clock) = .ok query) ↔
      Expr.Expression env t.expression := by
    constructor
    · exact fun h => accepts_querySpec.mp (h "")
    · exact fun h clock => accepts_querySpec.mpr h
  rw [hruns, expression_parseTrigger haccepted]
  cases spec.asObject.bind (List.lookup "expression") with
  | none => simp [expression_true]
  | some v => simp

/-- `{"name": "x", "command": ["make"]}` with this expression. -/
def makeSpec (expression : Value) : Value :=
  .object [("name", .string "x"), ("command", .array [.string "make"]), ("expression", expression)]

/-- Every change of a C file, `["suffix", "c"]`. -/
theorem accepted_trigger_runs_iff_suffix :
    ∃ t, parseTrigger (makeSpec (.array [.string "suffix", .string "c"])) = .ok t ∧
      ∀ clock, ∃ query, parseSpec noWatches.parse (t.querySpec clock) = .ok query := by
  obtain ⟨t, ht⟩ : ∃ t, parseTrigger (makeSpec (.array [.string "suffix", .string "c"])) = .ok t :=
    ⟨_, rfl⟩
  refine ⟨t, ht, (accepted_trigger_runs_iff noWatches.parse ht).mpr ?_⟩
  rintro v ⟨⟩
  refine .term (.suffix ?_)
  intro v hv
  rw [List.mem_singleton.mp hv]
  exact .string "c"

/-- A trigger with the expression `["bogus"]` is accepted, and `trigger` installs it at `/a`, but none
of its queries can be parsed. -/
theorem bogus_trigger_accepted :
    (∃ t, parseTrigger (makeSpec (.array [.string "bogus"])) = .ok t ∧
      ∀ env clock, parseSpec env (t.querySpec clock) =
        .error (.badArgs "unknown expression operator `bogus`")) ∧
    (((dispatchInner noWatches ⟨1, .json⟩ (.array [.string "trigger", .string "/a",
      makeSpec (.array [.string "bogus"])])).exec jjDaemon).2.roots.lookup [[0x61]]).map
        Watch.triggerCount = some 1 :=
  ⟨⟨_, rfl, fun _ _ => rfl⟩, rfl⟩

end Dispatch

end Watchwoman
