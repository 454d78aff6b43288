import Mathlib.Algebra.Group.Nat.Defs

/-! # Indices that are counted in a C `int`

An index beyond the positive values of `int` is negative, and as a `size_t` it is larger than any length. -/

namespace CIndex
variable {i : Nat}

/-- The conversion of an `int` to `size_t`. -/
def toSize (index : BitVec 32) : Nat := (index.signExtend 64).toNat

theorem toNat_ofNat (h : i < 2 ^ 32) : (BitVec.ofNat 32 i).toNat = i := by
  rw [BitVec.toNat_ofNat, Nat.mod_eq_of_lt h]

theorem ofNat_ne_neg_one (h : i < 2 ^ 32 - 1) : BitVec.ofNat 32 i ≠ -1 := by
  intro heq
  have htoNat := congrArg BitVec.toNat heq
  rw [toNat_ofNat (by omega)] at htoNat
  simp at htoNat
  omega

theorem toSize_ofNat (h : i < 2 ^ 31) : toSize (BitVec.ofNat 32 i) = i := by
  have hmsb : (BitVec.ofNat 32 i).msb = false := by
    rw [BitVec.msb_eq_false_iff_two_mul_lt, toNat_ofNat (by omega)]
    omega
  rw [toSize, BitVec.signExtend_eq_setWidth_of_msb_false hmsb, BitVec.toNat_setWidth, toNat_ofNat (by omega)]
  omega

theorem toSize_ofNat_far (h : 2 ^ 31 ≤ i) (hint : i < 2 ^ 32) : 2 ^ 63 ≤ toSize (BitVec.ofNat 32 i) := by
  have hmsb : (BitVec.ofNat 32 i).msb = true := by
    rw [BitVec.msb_eq_true_iff_two_mul_ge, toNat_ofNat hint]
    omega
  rw [toSize, BitVec.signExtend_eq_not_setWidth_not_of_msb_true hmsb, BitVec.toNat_not, BitVec.toNat_setWidth,
    BitVec.toNat_not, toNat_ofNat hint]
  omega

end CIndex
