import Watchwoman.Query.Parse

/-!
# Numbers in queries

The numbers of a query are `i64` on the wire. The operand of `size` is cast to `u64`, so a negative
one compares like a size near `2 ^ 64`; the depth of a `path` entry is cast to `u32`, as is the
number of components it is compared with, and one is added that wraps in a release build. Where the
operands keep their value, and only there, the tests are those of the integers
(`operands_exact_iff`).
-/

namespace Watchwoman

/-! ## Casts -/

/-- `as u64` of an `i64`. -/
theorem toNat_toUInt64 (b : Int64) :
    (b.toUInt64.toNat : ℤ) = if 0 ≤ b.toInt then b.toInt else 2 ^ 64 + b.toInt := by
  have h := BitVec.toInt_eq_toNat_cond b.toBitVec
  have hlt := b.toBitVec.isLt
  have hint : b.toInt = b.toBitVec.toInt := rfl
  have hnat : b.toUInt64.toNat = b.toBitVec.toNat := rfl
  rw [hint, hnat]
  split_ifs at h ⊢ <;> omega

/-- `as u32` of an `i64`. -/
theorem toNat_toUInt32 (d : Int64) : (d.toUInt64.toUInt32.toNat : ℤ) = d.toInt % 2 ^ 32 := by
  have h := toNat_toUInt64 d
  rw [UInt64.toNat_toUInt32, Int.natCast_mod, h]
  split_ifs <;> omega

/-! ## The size of a file -/

/-- The name of a comparison in a query. -/
def CmpOp.name : CmpOp → String
  | .eq => "eq"
  | .ne => "ne"
  | .lt => "lt"
  | .le => "le"
  | .gt => "gt"
  | .ge => "ge"

/-- The comparison of the integers. -/
def CmpOp.Holds : CmpOp → ℤ → ℤ → Prop
  | .eq, s, b => s = b
  | .ne, s, b => s ≠ b
  | .lt, s, b => s < b
  | .le, s, b => s ≤ b
  | .gt, s, b => b < s
  | .ge, s, b => b ≤ s

/-- The comparison of a size with a negative operand, which stands for `2 ^ 64 + b`, comes out as
it should. -/
def CmpOp.Survives : CmpOp → ℤ → ℤ → Prop
  | .eq, s, b | .ne, s, b => s ≠ 2 ^ 64 + b
  | .lt, s, b | .ge, s, b => 2 ^ 64 + b ≤ s
  | .le, s, b | .gt, s, b => 2 ^ 64 + b < s

theorem CmpOp.apply_iff (op : CmpOp) (s r : UInt64) :
    op.apply s r = true ↔ op.Holds s.toNat r.toNat := by
  cases op with
  | eq => simp [apply, Holds, UInt64.toNat_inj]
  | ne => simp [apply, Holds, UInt64.toNat_inj]
  | lt | le | gt | ge => simp [apply, Holds, UInt64.lt_iff_toNat_lt, UInt64.le_iff_toNat_le]

theorem CmpOp.apply_toUInt64_iff (op : CmpOp) (s : UInt64) (b : Int64) :
    (op.apply s b.toUInt64 = true ↔ op.Holds s.toNat b.toInt) ↔
      0 ≤ b.toInt ∨ op.Survives s.toNat b.toInt := by
  rw [apply_iff, toNat_toUInt64 b]
  have hlow := b.le_toInt
  split_ifs with hb
  · exact iff_of_true Iff.rfl (.inl hb)
  · cases op <;> simp only [Holds, Survives] <;> omega

theorem Expr.parse_size (env : ParseEnv) (op : CmpOp) (b : Int64) :
    Expr.parse env (.array [.string "size", .string op.name, .int b]) =
      .ok (.size op b.toUInt64) := by
  cases op <;> rfl

/-! ## The depth of a path entry -/

/-- The path lies at or under the base, `sub` being what is below it. -/
def LiesUnder (base : String) (rel sub : RelPath) : Prop :=
  ∃ q : RelPath, components base = q.map .normal ∧ rel = q ++ sub

/-- The number of components below the base and one more than the depth compare as their remainders
modulo `2 ^ 32` do. -/
def DepthSurvives (k : ℕ) (d : ℤ) : Prop :=
  ((k : ℤ) ≤ d + 1 ∧ (k : ℤ) % 2 ^ 32 ≤ (d + 1) % 2 ^ 32) ∨
    (d + 1 < k ∧ (d + 1) % 2 ^ 32 < (k : ℤ) % 2 ^ 32)

theorem withinDepth_iff (sub : RelPath) (d : Int64) :
    Generators.withinDepth sub d.toUInt64.toUInt32 = true ↔
      (sub.length : ℤ) % 2 ^ 32 ≤ (d.toInt + 1) % 2 ^ 32 := by
  have h := toNat_toUInt32 d
  unfold Generators.withinDepth
  rw [decide_eq_true_iff, UInt32.le_iff_toNat_le, UInt32.toNat_add, UInt32.toNat_ofNat']
  have hone : (1 : UInt32).toNat = 1 := rfl
  rw [hone]
  omega

theorem liesUnder_iff {base : String} {rel sub : RelPath} :
    LiesUnder base rel sub ↔ rel.stripPrefix (components base) = some sub :=
  RelPath.stripPrefix_eq_some_iff.symm

theorem acceptPath_depth_iff (base : String) (d : UInt32) (rel : RelPath) :
    Generators.acceptPath rel ⟨base, some d⟩ = true ↔
      ∃ sub, LiesUnder base rel sub ∧ Generators.withinDepth sub d = true := by
  simp only [liesUnder_iff]
  unfold Generators.acceptPath
  simp only [Option.map_some, Option.getD_some]
  split_ifs with hbase
  · have hempty : components "" = [] := by decide
    have hstrip : rel.stripPrefix [] = some rel := by
      unfold RelPath.stripPrefix
      rfl
    rw [hbase, hempty, hstrip]
    simp only [Option.some_inj, exists_eq_left']
  · exact Option.any_eq_true ..

theorem LiesUnder.unique {base : String} {rel sub sub' : RelPath} (h : LiesUnder base rel sub)
    (h' : LiesUnder base rel sub') : sub = sub' :=
  Option.some.inj ((liesUnder_iff.mp h).symm.trans (liesUnder_iff.mp h'))

theorem depthSurvives_iff (k : ℕ) (d : ℤ) :
    DepthSurvives k d ↔ ((k : ℤ) % 2 ^ 32 ≤ (d + 1) % 2 ^ 32 ↔ (k : ℤ) ≤ d + 1) := by
  unfold DepthSurvives
  omega

/-- A path entry with a depth accepts what lies within it, or the path is not under the base or the
casts make no difference. -/
theorem acceptPath_exact_iff (base : String) (d : Int64) (rel : RelPath) :
    (Generators.acceptPath rel ⟨base, some d.toUInt64.toUInt32⟩ = true ↔
        ∃ sub, LiesUnder base rel sub ∧ (sub.length : ℤ) ≤ d.toInt + 1) ↔
      ∀ sub, LiesUnder base rel sub → DepthSurvives sub.length d.toInt := by
  rw [acceptPath_depth_iff]
  simp only [withinDepth_iff, depthSurvives_iff]
  constructor
  · intro h sub hsub
    constructor
    · intro hle
      obtain ⟨sub', hsub', hle'⟩ := h.mp ⟨sub, hsub, hle⟩
      rwa [hsub.unique hsub']
    · intro hle
      obtain ⟨sub', hsub', hle'⟩ := h.mpr ⟨sub, hsub, hle⟩
      rwa [hsub.unique hsub']
  · intro h
    exact exists_congr fun sub => and_congr_right (h sub)

/-- Nothing wraps around: the depth and the number of components below the base fit a `u32`, and so
does the depth with one added. -/
structure NoWrap (base : String) (d : Int64) (rel : RelPath) : Prop where
  conversion : (d.toUInt64.toUInt32.toNat : ℤ) = d.toInt
  addition : d.toUInt64.toUInt32.toNat + 1 < 2 ^ 32
  count : ∀ sub, LiesUnder base rel sub → (UInt32.ofNat sub.length).toNat = sub.length

theorem noWrap_iff (base : String) (d : Int64) (rel : RelPath) :
    NoWrap base d rel ↔ 0 ≤ d.toInt ∧ d.toInt + 1 < 2 ^ 32 ∧
      ∀ sub, LiesUnder base rel sub → sub.length < 2 ^ 32 := by
  have hcast := toNat_toUInt32 d
  have hcount : ∀ k : ℕ, (UInt32.ofNat k).toNat = k ↔ k < 2 ^ 32 := fun k => by
    rw [UInt32.toNat_ofNat']
    omega
  constructor
  · rintro ⟨hconv, hadd, hk⟩
    exact ⟨by omega, by omega, fun sub hsub => (hcount _).mp (hk sub hsub)⟩
  · rintro ⟨hlow, hhigh, hk⟩
    exact ⟨by omega, by omega, fun sub hsub => (hcount _).mpr (hk sub hsub)⟩

/-! ## The operands -/

/-- **When numeric operands keep their value.** A size term compares the integers exactly if its
operand is not negative or makes no difference; a path entry with a depth accepts what lies within
the depth exactly if the casts make no difference, and nothing wraps around exactly if the depth and
the count are small. -/
theorem operands_exact_iff (env : ParseEnv) (entry : FileEntry) (ctx : EvalCtx) :
    (∀ op b, ∃ term,
      Expr.parse env (.array [.string "size", .string (CmpOp.name op), .int b]) = .ok term ∧
        ((term.eval entry ctx = true ↔ op.Holds entry.size.toNat b.toInt) ↔
          0 ≤ b.toInt ∨ op.Survives entry.size.toNat b.toInt)) ∧
      ∀ base d rel, ∃ spec,
        Generators.parsePathSpec (.object [("path", .string base), ("depth", .int d)]) = .ok spec ∧
          ((Generators.acceptPath rel spec = true ↔
              ∃ sub, LiesUnder base rel sub ∧ (sub.length : ℤ) ≤ d.toInt + 1) ↔
            ∀ sub, LiesUnder base rel sub → DepthSurvives sub.length d.toInt) ∧
          (NoWrap base d rel ↔ 0 ≤ d.toInt ∧ d.toInt + 1 < 2 ^ 32 ∧
            ∀ sub, LiesUnder base rel sub → sub.length < 2 ^ 32) := by
  constructor
  · intro op b
    refine ⟨_, Expr.parse_size env op b, ?_⟩
    rw [Expr.eval]
    exact op.apply_toUInt64_iff entry.size b
  · intro base d rel
    exact ⟨_, rfl, acceptPath_exact_iff base d rel, noWrap_iff base d rel⟩

/-- A file of one byte is not larger than minus one, and everything below a base is within a
negative depth. -/
theorem negative_operands :
    (∃ term, Expr.parse ⟨fun _ _ _ => .error "", fun _ _ => .error "", fun _ => ""⟩
        (.array [.string "size", .string "gt", .int (-1)]) = .ok term ∧
      ¬ (term.eval { FileEntry.missing 1 with size := 1 } ⟨.new 0 0 0, [[0x61]], true⟩ = true ↔
        CmpOp.gt.Holds 1 (-1))) ∧
    ∃ spec, Generators.parsePathSpec (.object [("path", .string "a"), ("depth", .int (-2))]) =
        .ok spec ∧
      ¬ (Generators.acceptPath [[0x61], [0x62]] spec = true ↔
        ∃ sub, LiesUnder "a" [[0x61], [0x62]] sub ∧ (sub.length : ℤ) ≤ -2 + 1) := by
  constructor
  · refine ⟨_, rfl, fun h => ?_⟩
    have hcode : (Expr.size .gt (-1 : Int64).toUInt64).eval { FileEntry.missing 1 with size := 1 }
        ⟨.new 0 0 0, [[0x61]], true⟩ = false := by rfl
    have htrue := h.mpr (by decide : (-1 : ℤ) < 1)
    exact absurd (hcode.symm.trans htrue) (by decide)
  · refine ⟨_, rfl, fun h => ?_⟩
    obtain ⟨sub, -, hle⟩ := h.mp (by decide)
    omega

end Watchwoman
