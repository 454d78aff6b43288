import Mathlib.Tactic.Ring
import Minitalk.Lib.CInt
import Minitalk.Lib.Program

/-! # `ft_divide` (`libft/math/ft_divide.c`)

A shift that loses a bit has no result. The other operations wrap around. -/

namespace Minitalk.Libft
open CInt Program

/-- `b << i` -/
def shiftLeft (b : BitVec 32) (i : Nat) : Option (BitVec 32) :=
  if b.toNat * 2 ^ i < 2 ^ 32 then some (b <<< i) else none

/-- The magnitude of the dividend that is left, and the result. -/
structure Quotient where
  a : BitVec 32
  result : BitVec 32

def ftDivideLoop (b : BitVec 32) (s : Quotient) : Option Quotient :=
  forDown 31 (-1) (fun i s => do
    if b ≤ s.a >>> i.toNat then some ⟨s.a - (← shiftLeft b i.toNat), s.result ||| (← shiftLeft 1 i.toNat)⟩
    else some s) s

def ftDivide (dividend divisor : BitVec 32) : Option (BitVec 32) := do
  if divisor = 0 then return 0
  let sign := if dividend.toInt < 0 ∧ 0 < divisor.toInt ∨ 0 < dividend.toInt ∧ divisor.toInt < 0 then -1#32 else 1#32
  let a := if dividend.toInt < 0 then -dividend else dividend
  let b := if divisor.toInt < 0 then -divisor else divisor
  let s ← ftDivideLoop b ⟨a, 0⟩
  return sign * s.result

section Divide
variable {a b k : Nat} {x y : BitVec 32} {s : Quotient}

/-- The bits of the quotient of `a` by `b` from `k` on are found. -/
structure Divided (a b k : Nat) (s : Quotient) : Prop where
  quotient : s.a.toNat + b * s.result.toNat = a
  rest : s.a.toNat < b * 2 ^ k
  dvd : 2 ^ k ∣ s.result.toNat

theorem shiftLeft_eq {i : Nat} (h : x.toNat * 2 ^ i < 2 ^ 32) :
    ∃ z, shiftLeft x i = some z ∧ z.toNat = x.toNat * 2 ^ i := by
  refine ⟨x <<< i, if_pos h, ?_⟩
  rw [BitVec.toNat_shiftLeft, Nat.shiftLeft_eq, Nat.mod_eq_of_lt h]

/-- The next bit of the quotient is set. -/
theorem or_two_pow {q : Nat} (h : 2 ^ (k + 1) ∣ q) : q ||| 2 ^ k = q + 2 ^ k := by
  obtain ⟨m, rfl⟩ := h
  exact (Nat.two_pow_add_eq_or_of_lt (Nat.pow_lt_pow_right (by decide) (Nat.lt_succ_self k)) m).symm

theorem Divided.turn (h : Divided a y.toNat (k + 1) s) (hk : k < 32) :
    Ends (do if y ≤ s.a >>> k then some ⟨s.a - (← shiftLeft y k), s.result ||| (← shiftLeft 1 k)⟩ else some s)
      (Divided a y.toNat k) := by
  have hquotient := h.quotient
  have hrest := h.rest
  have hdvd : 2 ^ k ∣ s.result.toNat := (Nat.pow_dvd_pow 2 (Nat.le_succ k)).trans h.dvd
  have hpos : 0 < 2 ^ k := Nat.pow_pos (by decide)
  rw [Nat.pow_succ, ← Nat.mul_assoc] at hrest
  have hle : y ≤ s.a >>> k ↔ y.toNat * 2 ^ k ≤ s.a.toNat := by
    rw [BitVec.le_def, BitVec.toNat_ushiftRight, Nat.shiftRight_eq_div_pow, Nat.le_div_iff_mul_le hpos]
  split
  · rename_i hbit
    rw [hle] at hbit
    have hbit' : (1 : BitVec 32).toNat * 2 ^ k < 2 ^ 32 := by
      rw [show (1 : BitVec 32).toNat = 1 from rfl, Nat.one_mul]
      exact Nat.pow_lt_pow_right (by decide) hk
    obtain ⟨z, hz, hz'⟩ := shiftLeft_eq (Nat.lt_of_le_of_lt hbit s.a.isLt)
    obtain ⟨bit, hone, hone'⟩ := shiftLeft_eq hbit'
    have hsub : (s.a - z).toNat = s.a.toNat - y.toNat * 2 ^ k := by
      rw [BitVec.toNat_sub_of_le (by rwa [BitVec.le_def, hz']), hz']
    have hor : (s.result ||| bit).toNat = s.result.toNat + 2 ^ k := by
      rw [BitVec.toNat_or, hone', show (1 : BitVec 32).toNat = 1 from rfl, Nat.one_mul, or_two_pow h.dvd]
    rw [hz, hone]
    refine .some ⟨?_, ?_, ?_⟩
    · rw [hsub, hor, Nat.mul_add]
      omega
    · rw [hsub]
      omega
    · rw [hor]
      exact Nat.dvd_add hdvd (Nat.dvd_refl _)
  · rename_i hbit
    rw [hle] at hbit
    exact .some ⟨hquotient, by omega, hdvd⟩

theorem ftDivideLoop_ends (hy : 0 < y.toNat) :
    Ends (ftDivideLoop y ⟨x, 0⟩) fun s => s.result.toNat = x.toNat / y.toNat := by
  have hstart : Divided x.toNat y.toNat ((31 : Int) + 1).toNat ⟨x, 0⟩ := by
    refine ⟨by simp, ?_, ⟨0, rfl⟩⟩
    exact Nat.lt_of_lt_of_le x.isLt (Nat.le_mul_of_pos_left _ hy)
  refine (forDown_rule (fun i => Divided x.toNat y.toNat (i + 1).toNat) (by omega) hstart ?_).mono ?_
  · intro i s hlo hhi h
    have hnext : (i + 1).toNat = i.toNat + 1 := by omega
    rw [hnext] at h
    have hsame : (i - 1 + 1).toNat = i.toNat := by omega
    rw [hsame]
    exact h.turn (by omega)
  · intro s h
    have hrest : s.a.toNat < y.toNat := by simpa using h.rest
    rw [← h.quotient, Nat.add_mul_div_left _ _ hy, Nat.div_eq_of_lt hrest, Nat.zero_add]

/-- Where the code takes the sign -1, and where it takes 1. -/
theorem tdiv_sign (m n : Int) : if m < 0 ∧ 0 < n ∨ 0 < m ∧ n < 0 then m.tdiv n ≤ 0 else 0 ≤ m.tdiv n := by
  split
  · rename_i h
    rcases h with ⟨hm, hn⟩ | ⟨hm, hn⟩
    · have hneg : 0 ≤ (-m).tdiv n := Int.tdiv_nonneg (by omega) (by omega)
      rw [Int.neg_tdiv] at hneg
      omega
    · exact Int.tdiv_nonpos_of_nonneg_of_nonpos (by omega) (by omega)
  · rename_i h
    rcases Int.lt_or_le n 0 with hn | hn
    · exact Int.tdiv_nonneg_of_nonpos_of_nonpos (by omega) (by omega)
    · rcases Int.lt_or_le m 0 with hm | hm
      · obtain rfl : n = 0 := by omega
        rw [Int.tdiv_zero]
      · exact Int.tdiv_nonneg hm hn

theorem toInt_neg_of_le (h : x.toNat ≤ 2 ^ 31) : (-x).toInt = -(x.toNat : Int) := by
  rw [BitVec.toInt_eq_toNat_cond, BitVec.toNat_neg]
  split <;> omega

/-- Only the least dividend has a quotient that is too large, and only by -1 or 1. -/
theorem quotient_le (hy : y ≠ 0) : x.toInt.natAbs / y.toInt.natAbs < 2 ^ 31 ∨
    x.toInt.natAbs / y.toInt.natAbs = 2 ^ 31 ∧ x = BitVec.intMin 32 ∧ y.toInt.natAbs = 1 := by
  obtain ⟨hlo, hhi⟩ := fits_toInt x
  have hne : y.toInt.natAbs ≠ 0 := fun hzero => hy (BitVec.eq_of_toInt_eq (Int.natAbs_eq_zero.mp hzero))
  rcases Nat.lt_or_ge 1 y.toInt.natAbs with htwo | hone
  · refine Or.inl (Nat.div_lt_of_lt_mul ?_)
    have hmul : 2 * 2 ^ 31 ≤ y.toInt.natAbs * 2 ^ 31 := Nat.mul_le_mul_right _ htwo
    omega
  · have heq : y.toInt.natAbs = 1 := by omega
    rw [heq, Nat.div_one]
    rcases Nat.lt_or_ge x.toInt.natAbs (2 ^ 31) with hlt | hge
    · exact Or.inl hlt
    · refine Or.inr ⟨by omega, BitVec.eq_of_toInt_eq ?_, rfl⟩
      rw [show (BitVec.intMin 32).toInt = -2 ^ 31 from rfl]
      omega

theorem ft_divide_quotient (dividend divisor : BitVec 32) (hne : divisor ≠ 0)
    (hpair : ¬(dividend = BitVec.intMin 32 ∧ divisor = -1)) :
    Ends (ftDivide dividend divisor) fun result => result.toInt = dividend.toInt.tdiv divisor.toInt := by
  have hpos : divisor.toInt.natAbs ≠ 0 := fun hzero => hne (BitVec.eq_of_toInt_eq (Int.natAbs_eq_zero.mp hzero))
  obtain ⟨s, hs, hresult⟩ := ftDivideLoop_ends (x := if dividend.toInt < 0 then -dividend else dividend)
    (y := if divisor.toInt < 0 then -divisor else divisor) (by rw [toNat_abs]; omega)
  rw [toNat_abs, toNat_abs] at hresult
  have hmagnitude : (dividend.toInt.tdiv divisor.toInt).natAbs = s.result.toNat := by
    rw [hresult]
    exact Int.natAbs_tdiv _ _
  have hsign := tdiv_sign dividend.toInt divisor.toInt
  have hlarge := quotient_le (x := dividend) hne
  rw [← hresult] at hlarge
  rw [ftDivide, if_neg hne]
  simp only [hs, Option.bind_eq_bind, Option.bind_some, pure]
  refine .some ?_
  split at hsign
  · rename_i hopposite
    rw [if_pos hopposite, BitVec.neg_mul, BitVec.one_mul, toInt_neg_of_le (by omega)]
    omega
  · rename_i hsame
    rw [if_neg hsame, BitVec.one_mul]
    have hlt : s.result.toNat < 2 ^ 31 := by
      rcases hlarge with hlt | ⟨-, rfl, hunit⟩
      · exact hlt
      · have hmin : (BitVec.intMin 32).toInt = -2 ^ 31 := rfl
        have hminus : divisor.toInt = (-1 : BitVec 32).toInt := by
          rw [show (-1 : BitVec 32).toInt = -1 from rfl]
          omega
        exact absurd ⟨rfl, BitVec.eq_of_toInt_eq hminus⟩ hpair
    rw [BitVec.toInt_eq_toNat_of_lt (by omega)]
    omega

/-- The least dividend by 1. -/
theorem ft_divide_quotient_intMin :
    Ends (ftDivide (BitVec.intMin 32) 1) fun result =>
      result.toInt = (BitVec.intMin 32).toInt.tdiv (1 : BitVec 32).toInt :=
  ft_divide_quotient (BitVec.intMin 32) 1 (by decide) (by decide)

end Divide

end Minitalk.Libft
