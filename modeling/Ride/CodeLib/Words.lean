import Mathlib.Algebra.Ring.Nat
import Mathlib.Tactic.Common

/-!
# Signed and unsigned words

A C program moves numbers between signed and unsigned words of one width, and the
bits stay what they are.  The lemmas say which number the other type reads: the
same one in the lower half of the unsigned range, and a negative one above.
-/

namespace CodeLib.Words

/-! ## 64 bits -/

/-- An unsigned word in the lower half keeps its value. -/
theorem toInt_toInt64 {x : UInt64} (h : x.toNat < 2 ^ 63) :
    x.toInt64.toInt = x.toNat :=
  BitVec.toInt_eq_toNat_of_lt (x := x.toBitVec) (by
    show 2 * x.toNat < 2 ^ 64
    omega)

/-- An unsigned word in the upper half is read as a negative number. -/
theorem toInt64_neg_iff (x : UInt64) : x.toInt64 < 0 ↔ 2 ^ 63 ≤ x.toNat := by
  have hcond : x.toInt64.toInt = if 2 * x.toNat < 2 ^ 64 then (x.toNat : Int)
      else x.toNat - (2 ^ 64 : Nat) :=
    BitVec.toInt_eq_toNat_cond x.toBitVec
  have hlt := x.toNat_lt
  rw [Int64.lt_iff_toInt_lt, hcond, Int64.toInt_zero]
  split_ifs <;> omega

/-! ## 32 bits -/

/-- A signed word that is not negative keeps its value. -/
theorem toNat_toUInt32 {x : Int32} {m : Nat} (h : x.toInt = m) :
    x.toUInt32.toNat = m := by
  have hnonneg : 0 ≤ x := by
    rw [Int32.le_iff_toInt_le, h, Int32.toInt_zero]
    omega
  rw [Int32.toNat_toUInt32_of_le hnonneg, Int32.toNatClampNeg, h,
    Int.toNat_natCast]

/-- The next number, where there is one. -/
theorem toInt_add_one {x : Int32} {m : Nat} (h : x.toInt = m)
    (hm : m + 1 < 2 ^ 31) : (x + 1).toInt = (m + 1 : Nat) := by
  have hone : (1 : Int32).toInt = 1 := rfl
  rw [Int32.toInt_add, h, hone, Int.bmod_eq_of_le (by omega) (by omega)]
  rfl

end CodeLib.Words
