import Mathlib.Algebra.Group.Nat.Defs
import Mathlib.Data.List.Basic
import Mathlib.Tactic.SplitIfs

/-!
# Clock ticks and clock strings

`clock.rs`: a root counts ticks from one and spells them `c:<start>:<pid>:<root>:<tick>`. A clock
string that names another instance, or that cannot be read, compares as tick zero.
-/

namespace Watchwoman

/-! ## Numbers in a clock string -/

/-- `parse::<u64>` and `parse::<u32>`: digits after an optional plus, within the width. -/
def parseUint (bits : ℕ) (s : List Char) : Option ℕ :=
  let digits := match s with
    | '+' :: rest => rest
    | _ => s
  if digits ≠ [] ∧ digits.all Char.isDigit ∧ Nat.ofDigitChars 10 digits 0 < 2 ^ bits then
    some (Nat.ofDigitChars 10 digits 0)
  else none

theorem parseUint_toDigits {bits n : ℕ} (h : n < 2 ^ bits) :
    parseUint bits (Nat.toDigits 10 n) = some n := by
  have hdigit : ∀ c ∈ Nat.toDigits 10 n, c.isDigit :=
    fun c hc => Nat.isDigit_of_mem_toDigits (by decide) (by decide) hc
  have hplus : (match Nat.toDigits 10 n with
      | '+' :: rest => rest
      | _ => Nat.toDigits 10 n) = Nat.toDigits 10 n := by
    split
    · rename_i rest heq
      have := hdigit '+' (by rw [heq]; exact List.mem_cons_self)
      exact absurd this (by decide)
    · rfl
  unfold parseUint
  simp only [hplus]
  rw [Nat.ofDigitChars_ten_toDigits, if_pos]
  exact ⟨Nat.toDigits_ne_nil, by simpa using hdigit, h⟩

theorem colon_not_mem_of_parseUint {bits n : ℕ} {s : List Char} (h : parseUint bits s = some n) :
    ':' ∉ s := by
  unfold parseUint at h
  simp only at h
  split_ifs at h with hcond
  intro hmem
  have hall := List.all_eq_true.mp hcond.2.1
  split at hall
  · rcases List.mem_cons.mp hmem with hc | hc
    · exact absurd hc (by decide)
    · exact absurd (hall ':' hc) (by decide)
  · exact absurd (hall ':' hmem) (by decide)

/-! ## The clock of a root -/

/-- The instance a root's clock names, and the tick it has reached. -/
structure Clock where
  ticks : ℕ
  rootNumber : UInt64
  startTime : UInt64
  pid : UInt32
  deriving DecidableEq, Repr

namespace Clock

/-- `Clock::new` -/
def new (rootNumber startTime : UInt64) (pid : UInt32) : Clock :=
  ⟨1, rootNumber, startTime, pid⟩

/-- `bump`: the clock after it, whose tick it returns. -/
def bump (c : Clock) : Clock := { c with ticks := c.ticks + 1 }

/-- `encode` -/
def encode (c : Clock) (tick : ℕ) : String :=
  String.ofList ('c' :: ':' :: [':'].intercalate
    ([c.startTime.toNat, c.pid.toNat, c.rootNumber.toNat, tick].map (Nat.toDigits 10)))

example : encode (new 3 1700000000 42) 7 = "c:1700000000:42:3:7" := by decide

theorem one_le_bump (c : Clock) : 1 ≤ c.bump.ticks := Nat.succ_le_succ (Nat.zero_le _)

end Clock

/-! ## Clock specs -/

inductive ScmVcs where
  | git
  | hg
  deriving DecidableEq, Repr

/-- A parsed clock spec. -/
inductive ClockSpec where
  | epoch
  | tick (n : ℕ)
  | named (name : String)
  | full (startTime pid rootNumber tick : ℕ)
  | scm (vcs : ScmVcs) (mergebase : String)
  deriving DecidableEq, Repr

namespace ClockSpec

/-- The four numbers behind `c:`. -/
def parseFull (rest : List Char) : ClockSpec :=
  match rest.splitOn ':' with
  | [a, b, c, d] =>
    match parseUint 64 a, parseUint 32 b, parseUint 64 c, parseUint 64 d with
    | some startTime, some pid, some rootNumber, some t => .full startTime pid rootNumber t
    | _, _, _, _ => .epoch
  | _ => .epoch

/-- The system and the mergebase behind `scm:`. -/
def parseScm (rest : List Char) : ClockSpec :=
  let vcs := String.ofList (rest.takeWhile (· ≠ ':'))
  let mergebase := String.ofList (rest.dropWhile (· ≠ ':')).tail
  if vcs = "git" then .scm .git mergebase
  else if vcs = "hg" ∨ vcs = "sapling" ∨ vcs = "sl" then .scm .hg mergebase
  else .epoch

/-- `ClockSpec::parse` -/
def parse (s : String) : ClockSpec :=
  match s.toList with
  | 'c' :: ':' :: rest => parseFull rest
  | 'n' :: ':' :: name => .named (String.ofList name)
  | 's' :: 'c' :: 'm' :: ':' :: rest => parseScm rest
  | chars =>
    match parseUint 64 chars with
    | some n => .tick n
    | none => .epoch

/-- The numbers name the instance of the clock. -/
def Names (clock : Clock) (startTime pid rootNumber : ℕ) : Prop :=
  startTime = clock.startTime.toNat ∧ pid = clock.pid.toNat ∧
    rootNumber = clock.rootNumber.toNat

instance (clock : Clock) (startTime pid rootNumber : ℕ) :
    Decidable (Names clock startTime pid rootNumber) :=
  inferInstanceAs (Decidable (_ ∧ _ ∧ _))

/-- `tick_against` -/
def tickAgainst (clock : Clock) : ClockSpec → ℕ
  | .epoch => 0
  | .named _ => 0
  | .scm _ _ => 0
  | .tick t => t
  | .full startTime pid rootNumber t =>
    if Names clock startTime pid rootNumber then t else 0

/-- The string reads `c:<start>:<pid>:<root>:<tick>`. -/
def Spells (s : String) (startTime pid rootNumber tick : ℕ) : Prop :=
  ∃ a b c d, s.toList = 'c' :: ':' :: [':'].intercalate [a, b, c, d] ∧
    parseUint 64 a = some startTime ∧ parseUint 32 b = some pid ∧
    parseUint 64 c = some rootNumber ∧ parseUint 64 d = some tick

theorem spells_of_parseFull {rest : List Char} {startTime pid rootNumber tick : ℕ}
    (h : parseFull rest = .full startTime pid rootNumber tick) :
    ∃ a b c d, rest = [':'].intercalate [a, b, c, d] ∧
      parseUint 64 a = some startTime ∧ parseUint 32 b = some pid ∧
      parseUint 64 c = some rootNumber ∧ parseUint 64 d = some tick := by
  unfold parseFull at h
  split at h
  · rename_i a b c d hsplit
    split at h
    · rename_i ha hb hc hd
      cases h
      refine ⟨a, b, c, d, ?_, ha, hb, hc, hd⟩
      rw [← hsplit, List.intercalate_splitOn]
    · cases h
  · cases h

theorem parseFull_intercalate {a b c d : List Char} {startTime pid rootNumber tick : ℕ}
    (ha : parseUint 64 a = some startTime) (hb : parseUint 32 b = some pid)
    (hc : parseUint 64 c = some rootNumber) (hd : parseUint 64 d = some tick) :
    parseFull ([':'].intercalate [a, b, c, d]) = .full startTime pid rootNumber tick := by
  have hsplit : ([':'].intercalate [a, b, c, d]).splitOn ':' = [a, b, c, d] := by
    refine List.splitOn_intercalate ':' ?_ (by simp)
    intro l hl
    simp only [List.mem_cons, List.not_mem_nil, or_false] at hl
    rcases hl with rfl | rfl | rfl | rfl
    · exact colon_not_mem_of_parseUint ha
    · exact colon_not_mem_of_parseUint hb
    · exact colon_not_mem_of_parseUint hc
    · exact colon_not_mem_of_parseUint hd
  unfold parseFull
  rw [hsplit]
  simp only [ha, hb, hc, hd]

theorem parse_eq_full_iff {s : String} {startTime pid rootNumber tick : ℕ} :
    parse s = .full startTime pid rootNumber tick ↔ Spells s startTime pid rootNumber tick := by
  constructor
  · intro h
    unfold parse at h
    split at h
    · rename_i rest heq
      obtain ⟨a, b, c, d, rfl, ha, hb, hc, hd⟩ := spells_of_parseFull h
      exact ⟨a, b, c, d, heq, ha, hb, hc, hd⟩
    · cases h
    · unfold parseScm at h
      simp only at h
      split_ifs at h
    · split at h <;> cases h
  · rintro ⟨a, b, c, d, hs, ha, hb, hc, hd⟩
    unfold parse
    rw [hs]
    exact parseFull_intercalate ha hb hc hd

/-- A string behind `c:` parses to a full clock or to the epoch. -/
theorem parse_of_c {s : String} {rest : List Char} (hs : s.toList = 'c' :: ':' :: rest) :
    parse s = .epoch ∨ ∃ startTime pid rootNumber tick,
      parse s = .full startTime pid rootNumber tick := by
  unfold parse
  rw [hs]
  simp only
  unfold parseFull
  split
  · split
    · exact .inr ⟨_, _, _, _, rfl⟩
    · exact .inl rfl
  · exact .inl rfl

theorem parse_encode (clock : Clock) {tick : ℕ} (h : tick < 2 ^ 64) :
    parse (clock.encode tick) =
      .full clock.startTime.toNat clock.pid.toNat clock.rootNumber.toNat tick := by
  rw [parse_eq_full_iff]
  refine ⟨_, _, _, _, String.toList_ofList, parseUint_toDigits ?_, parseUint_toDigits ?_,
    parseUint_toDigits ?_, parseUint_toDigits h⟩
  · exact clock.startTime.toNat_lt
  · exact clock.pid.toNat_lt
  · exact clock.rootNumber.toNat_lt

end ClockSpec

end Watchwoman
