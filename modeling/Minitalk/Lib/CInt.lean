import Mathlib.Algebra.Group.Int.Defs
import Mathlib.Algebra.Group.Nat.Defs

/-! # Arithmetic of a C `int`

An operation whose result is an `int` has that result; any other wraps around. -/

namespace CInt
variable {a b : BitVec 32} {n : Nat}

def Fits (v : Int) : Prop := -2 ^ 31 ≤ v ∧ v < 2 ^ 31

/-- A value as it is in an `int`. -/
def wrap (v : Int) : Int := v.bmod (2 ^ 32)

instance {v : Int} : Decidable (Fits v) := inferInstanceAs (Decidable (_ ∧ _))

/-! ### Operations that only have a result when it is an `int` -/

def plus (a b : BitVec 32) : Option (BitVec 32) := if Fits (a.toInt + b.toInt) then some (a + b) else none

def minus (a b : BitVec 32) : Option (BitVec 32) := if Fits (a.toInt - b.toInt) then some (a - b) else none

def negate (a : BitVec 32) : Option (BitVec 32) := if Fits (-a.toInt) then some (-a) else none

/-- A value that has to be an `int`. -/
def checked (v : Int) : Option Int := if Fits v then some v else none

/-- A value that becomes an `int`. -/
def wrapped (v : Int) : Option Int := some (wrap v)

theorem plus_eq (h : Fits (a.toInt + b.toInt)) : plus a b = some (a + b) := if_pos h

theorem minus_eq (h : Fits (a.toInt - b.toInt)) : minus a b = some (a - b) := if_pos h

/-! ### Values -/

theorem fits_toInt (a : BitVec 32) : Fits a.toInt := ⟨BitVec.le_toInt a, BitVec.toInt_lt⟩

theorem bmod_of_fits {v : Int} (h : Fits v) : v.bmod (2 ^ 32) = v := by
  obtain ⟨hlo, hhi⟩ := h
  exact Int.bmod_eq_of_le (by omega) (by omega)

theorem wrap_of_fits {v : Int} (h : Fits v) : wrap v = v := bmod_of_fits h

theorem checked_of_fits {v : Int} (h : Fits v) : checked v = some v := if_pos h

theorem wrapped_of_fits {v : Int} (h : Fits v) : wrapped v = some v := congrArg some (wrap_of_fits h)

theorem fits_wrap (v : Int) : Fits (wrap v) := by
  have hlo : -((2 ^ 32 : Nat) : Int) / 2 ≤ v.bmod (2 ^ 32) := Int.le_bmod (by decide)
  have hhi : v.bmod (2 ^ 32) < (((2 ^ 32 : Nat) : Int) + 1) / 2 := Int.bmod_lt (by decide)
  exact ⟨hlo, hhi⟩

/-- A value that is a little too large for an `int` becomes a negative one. -/
theorem wrap_of_above {v : Int} (hlo : 2 ^ 31 ≤ v) (hhi : v < 2 ^ 32 + 2 ^ 31) : wrap v = v - 2 ^ 32 := by
  rw [wrap, ← Int.sub_bmod_right, bmod_of_fits ⟨by omega, by omega⟩]
  rfl

theorem toInt_ofNat (h : n < 2 ^ 31) : (BitVec.ofNat 32 n).toInt = n := by
  rw [BitVec.toInt_ofNat', bmod_of_fits ⟨by omega, by omega⟩]

theorem toInt_add (h : Fits (a.toInt + b.toInt)) : (a + b).toInt = a.toInt + b.toInt := by
  rw [BitVec.toInt_add, bmod_of_fits h]

theorem toInt_sub (h : Fits (a.toInt - b.toInt)) : (a - b).toInt = a.toInt - b.toInt := by
  rw [BitVec.toInt_sub, bmod_of_fits h]

theorem toInt_mul (h : Fits (a.toInt * b.toInt)) : (a * b).toInt = a.toInt * b.toInt := by
  rw [BitVec.toInt_mul, bmod_of_fits h]

theorem toInt_neg (h : Fits (-a.toInt)) : (-a).toInt = -a.toInt := by
  rw [BitVec.toInt_neg, bmod_of_fits h]

/-- Between values that are not negative, the division of C is that of the numbers. -/
theorem toInt_sdiv (ha : 0 ≤ a.toInt) (hb : 0 < b.toInt) : (a.sdiv b).toInt = a.toInt / b.toInt := by
  have hle : a.toInt / b.toInt ≤ a.toInt := Int.ediv_le_self _ ha
  have hpos : 0 ≤ a.toInt / b.toInt := Int.ediv_nonneg ha (Int.le_of_lt hb)
  have hlt := (fits_toInt a).2
  rw [BitVec.toInt_sdiv, Int.tdiv_eq_ediv_of_nonneg ha, bmod_of_fits ⟨by omega, by omega⟩]

theorem toInt_srem (ha : 0 ≤ a.toInt) : (a.srem b).toInt = a.toInt % b.toInt := by
  rw [BitVec.toInt_srem, Int.tmod_eq_emod_of_nonneg ha]

/-- A number that is no `int` is another one as an `int`. -/
theorem toInt_ofNat_iff : (BitVec.ofNat 32 n).toInt = n ↔ n < 2 ^ 31 := by
  constructor
  · intro h
    have := (fits_toInt (BitVec.ofNat 32 n)).2
    omega
  · exact toInt_ofNat

theorem toNat_of_nonneg (h : 0 ≤ a.toInt) : (a.toNat : Int) = a.toInt := by
  rw [BitVec.toInt_eq_toNat_cond] at h ⊢
  split at h <;> split <;> omega

/-- The magnitude, as it is taken by a negation of the negative values. -/
theorem toNat_abs (a : BitVec 32) : (if a.toInt < 0 then -a else a).toNat = a.toInt.natAbs := by
  have := a.isLt
  split
  · rename_i hneg
    rw [BitVec.toInt_eq_toNat_cond] at hneg ⊢
    rw [BitVec.toNat_neg]
    split at hneg <;> split <;> omega
  · rename_i hneg
    have := toNat_of_nonneg (Int.not_lt.mp hneg)
    omega

end CInt
