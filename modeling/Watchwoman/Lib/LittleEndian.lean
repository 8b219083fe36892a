import Mathlib.Data.Nat.Digits.Lemmas
import Mathlib.Tactic.Ring

/-!
# Little-endian integers

A `w`-byte little-endian field holds a natural number below `256 ^ w`; read as two's complement it
holds an integer of `[-(256 ^ w) / 2, 256 ^ w / 2)`, the balanced residue `Int.bmod`.
-/

namespace LittleEndian

/-- The `w` low bytes of `n`, least significant first. -/
def leBytes : ℕ → ℕ → List UInt8
  | 0, _ => []
  | w + 1, n => UInt8.ofNat (n % 256) :: leBytes w (n / 256)

/-- The number whose little-endian bytes are `bs`. -/
def leNat : List UInt8 → ℕ
  | [] => 0
  | b :: bs => b.toNat + 256 * leNat bs

@[simp] theorem length_leBytes (w n : ℕ) : (leBytes w n).length = w := by
  induction w generalizing n with
  | zero => rfl
  | succ w ih => rw [leBytes, List.length_cons, ih]

theorem leNat_leBytes (w n : ℕ) : leNat (leBytes w n) = n % 256 ^ w := by
  induction w generalizing n with
  | zero => simp [leBytes, leNat, Nat.mod_one]
  | succ w ih =>
    have hb : (UInt8.ofNat (n % 256)).toNat = n % 256 :=
      UInt8.toNat_ofNat_of_lt (Nat.mod_lt _ (by norm_num))
    rw [leBytes, leNat, ih, hb, pow_succ', Nat.mod_mul]

/-! ## Two's complement -/

/-- The `w` bytes of the two's complement of `n`. -/
def signedBytes (w : ℕ) (n : ℤ) : List UInt8 := leBytes w (n % 256 ^ w).toNat

/-- The integer a little-endian two's complement field holds. -/
def signedInt (bs : List UInt8) : ℤ := Int.bmod (leNat bs) (256 ^ bs.length)

@[simp] theorem length_signedBytes (w : ℕ) (n : ℤ) : (signedBytes w n).length = w :=
  length_leBytes _ _

theorem signedInt_signedBytes {w : ℕ} {n : ℤ} (hlo : -(256 ^ w : ℕ) ≤ 2 * n)
    (hhi : 2 * n < (256 ^ w : ℕ)) : signedInt (signedBytes w n) = n := by
  have hpos : (0 : ℤ) < 256 ^ w := by positivity
  have hnonneg : 0 ≤ n % (256 ^ w : ℤ) := Int.emod_nonneg _ (ne_of_gt hpos)
  have hlt : n % (256 ^ w : ℤ) < 256 ^ w := Int.emod_lt_of_pos _ hpos
  have hnat : (n % (256 ^ w : ℤ)).toNat < 256 ^ w := by
    have : ((n % (256 ^ w : ℤ)).toNat : ℤ) < (256 ^ w : ℕ) := by
      rw [Int.toNat_of_nonneg hnonneg]; exact_mod_cast hlt
    exact_mod_cast this
  unfold signedInt signedBytes
  rw [length_leBytes, leNat_leBytes, Nat.mod_eq_of_lt hnat, Int.toNat_of_nonneg hnonneg]
  rw [show (256 ^ w : ℤ) = ((256 ^ w : ℕ) : ℤ) by push_cast; rfl, Int.emod_bmod]
  exact Int.bmod_eq_of_le_mul_two (by omega) (by omega)

/-- A field of `w` bytes holds an integer of the `8 w`-bit signed range. -/
theorem signedInt_range {bs : List UInt8} {k : ℕ} (h : 256 ^ bs.length = 2 * k) :
    -(k : ℤ) ≤ signedInt bs ∧ signedInt bs < k := by
  have hpos : 0 < 256 ^ bs.length := by positivity
  have hlo := Int.le_bmod (x := (leNat bs : ℤ)) hpos
  have hhi := Int.bmod_lt (x := (leNat bs : ℤ)) hpos
  unfold signedInt
  rw [h] at hlo hhi ⊢
  push_cast at hlo hhi
  omega

end LittleEndian
