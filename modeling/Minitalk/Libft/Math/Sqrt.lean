import Mathlib.Tactic.Zify
import Minitalk.Lib.CInt
import Minitalk.Lib.DigitRoot
import Minitalk.Lib.Program

/-! # `ft_sqrt` (`libft/math/ft_sqrt.c`)

An operation without a result stands for a value out of the range of an `int`. -/

namespace Minitalk.Libft
open CInt DigitRoot Program

structure Sqrt where
  n : BitVec 32
  res : BitVec 32
  bit : BitVec 32

def ftSqrtTurn (s : Sqrt) : Option Sqrt := do
  let t ← plus s.res s.bit
  let cond := if t.sle s.n then 1#32 else 0#32
  let n ← minus s.n (t &&& (← negate cond))
  let res := (← plus (s.res.sshiftRight 1) (s.bit &&& (← negate cond))) |||
    (s.res.sshiftRight 1 &&& ~~~(← negate cond))
  some ⟨n, res, s.bit.sshiftRight 2⟩

def ftSqrt (turns : Nat) (n : BitVec 32) : Option (BitVec 32) := do
  let neg := n.sshiftRight 31
  let n := n &&& ~~~neg
  let bit ← whileLoop (fun bit => some (n.slt bit)) (fun bit => some (bit.sshiftRight 2)) turns (1 <<< 30)
  let s ← whileLoop (fun s => some (s.bit != 0)) ftSqrtTurn turns ⟨n, 0, bit⟩
  some s.res

section Sqrt
variable {N k r : Nat} {n bit : BitVec 32} {s : Sqrt}

/-- `bit` is the square of the bit below `k`. -/
def IsBit (k : Nat) (bit : BitVec 32) : Prop := bit.toInt = ((4 ^ k / 4 : Nat) : Int)

/-- The bits of the root from `k` on are found. -/
structure Found (N k r : Nat) (s : Sqrt) : Prop where
  root : RootFrom N k r
  n : s.n.toInt = ((N - r * r : Nat) : Int)
  res : s.res.toInt = ((r * 2 ^ k : Nat) : Int)
  bit : IsBit k s.bit

theorem toInt_sshiftRight_natCast {x : BitVec 32} {v : Nat} (h : x.toInt = v) (i : Nat) :
    (x.sshiftRight i).toInt = ((v / 2 ^ i : Nat) : Int) := by
  rw [BitVec.toInt_sshiftRight, h, Int.shiftRight_eq_div_pow]
  norm_cast

theorem IsBit.succ (h : IsBit (k + 1) bit) : bit.toInt = ((4 ^ k : Nat) : Int) := by
  rw [IsBit] at h
  rwa [Nat.pow_succ, Nat.mul_div_cancel _ (by decide)] at h

theorem IsBit.shift (h : IsBit (k + 1) bit) : IsBit k (bit.sshiftRight 2) := toInt_sshiftRight_natCast h.succ 2

theorem IsBit.eq_zero_iff (h : IsBit k bit) : bit = 0 ↔ k = 0 := by
  rw [IsBit] at h
  cases k with
  | zero => exact iff_of_true (BitVec.eq_of_toInt_eq h) rfl
  | succ k =>
    refine iff_of_false ?_ (Nat.succ_ne_zero k)
    rintro rfl
    have hpos : 0 < 4 ^ k := Nat.pow_pos (by decide)
    rw [Nat.pow_succ, Nat.mul_div_cancel _ (by decide)] at h
    have hzero : (0 : BitVec 32).toInt = 0 := rfl
    omega

/-- The turn with the condition decided. -/
theorem ftSqrtTurn_eq {t : BitVec 32} (ht : plus s.res s.bit = some t) : ftSqrtTurn s =
    if t.sle s.n then
      (minus s.n t).bind fun n => (plus (s.res.sshiftRight 1) s.bit).bind fun res => some ⟨n, res, s.bit.sshiftRight 2⟩
    else
      (minus s.n 0#32).bind fun n => (plus (s.res.sshiftRight 1) 0#32).bind fun res =>
        some ⟨n, res ||| s.res.sshiftRight 1, s.bit.sshiftRight 2⟩ := by
  have hone : negate 1#32 = some (BitVec.allOnes 32) := rfl
  have hzero : negate 0#32 = some 0#32 := rfl
  rw [ftSqrtTurn, ht, Option.bind_eq_bind, Option.bind_some]
  split
  · simp only [hone, Option.bind_some, BitVec.and_allOnes, BitVec.not_allOnes, BitVec.and_zero, BitVec.or_zero]
  · simp only [hzero, Option.bind_some, BitVec.not_zero, BitVec.and_allOnes, BitVec.and_zero]

theorem Found.turn (h : Found N (k + 1) r s) (hN : N < 2 ^ 31) (hk : k ≤ 15) :
    Ends (ftSqrtTurn s) fun s' => ∃ r', Found N k r' s' := by
  have hbit := h.bit.succ
  have hres := h.res
  have hn := h.n
  have hlow := h.root.low
  have hpos : 0 < 4 ^ k := Nat.pow_pos (by decide)
  have ht : s.res.toInt + s.bit.toInt = ((r * 2 ^ (k + 1) + 4 ^ k : Nat) : Int) := by
    rw [hres, hbit]
    norm_cast
  have hbound : r * 2 ^ (k + 1) + 4 ^ k < 2 ^ 31 := h.root.scaled_lt (w := 15) hN hk
  have hfits : Fits (s.res.toInt + s.bit.toInt) := ⟨by omega, by omega⟩
  have hhalf : (s.res.sshiftRight 1).toInt = ((r * 2 ^ k : Nat) : Int) := by
    rw [toInt_sshiftRight_natCast hres, Nat.pow_succ, ← Nat.mul_assoc, Nat.pow_one, Nat.mul_div_cancel _ (by decide)]
  have hdouble : r * 2 ^ (k + 1) = 2 * (r * 2 ^ k) := by
    rw [Nat.pow_succ]
    ring
  rw [ftSqrtTurn_eq (plus_eq hfits)]
  split
  · rename_i hle
    rw [BitVec.sle_iff_toInt_le, toInt_add hfits, ht, hn] at hle
    have hfits' : Fits (s.n.toInt - (s.res + s.bit).toInt) := by
      rw [toInt_add hfits]
      exact ⟨by omega, by omega⟩
    have hfits'' : Fits ((s.res.sshiftRight 1).toInt + s.bit.toInt) := ⟨by omega, by omega⟩
    rw [minus_eq hfits', plus_eq hfits'']
    refine .some ⟨r + 2 ^ k, h.root.take (by omega), ?_, ?_, h.bit.shift⟩
    · rw [toInt_sub hfits', toInt_add hfits, ht, hn, square_add]
      omega
    · rw [toInt_add hfits'', hhalf, hbit, Nat.add_mul, ← four_pow]
      norm_cast
  · rename_i hlt
    rw [BitVec.sle_iff_toInt_le, toInt_add hfits, ht, hn] at hlt
    have hzero : (0#32).toInt = 0 := rfl
    have hfits' : Fits (s.n.toInt - (0#32).toInt) := ⟨by omega, by omega⟩
    have hfits'' : Fits ((s.res.sshiftRight 1).toInt + (0#32).toInt) := ⟨by omega, by omega⟩
    rw [minus_eq hfits', plus_eq hfits'']
    refine .some ⟨r, h.root.skip (by omega), ?_, ?_, h.bit.shift⟩
    · rw [toInt_sub hfits', hn, hzero, Int.sub_zero]
    · rw [← hhalf, BitVec.add_zero, BitVec.or_self]

/-- The first bit is the largest one whose square is at most `n`. -/
theorem firstBit_ends (hn : n.toInt = N) {turns : Nat} (hturns : 17 ≤ turns) :
    Ends (whileLoop (fun bit => some (n.slt bit)) (fun bit => some (bit.sshiftRight 2)) turns (1 <<< 30))
      fun bit => ∃ k ≤ 16, IsBit k bit ∧ N < 4 ^ k := by
  have hN := (fits_toInt n).2
  refine whileLoop_countdown (fun k bit => k ≤ 16 ∧ IsBit k bit ∧ N < 4 ^ k) (n := 16) (by omega)
    ⟨Nat.le_refl 16, rfl, by omega⟩ ?_
  rintro k bit ⟨hk, hbit, hlt⟩
  refine .some ?_
  split
  · rename_i hslt
    rw [BitVec.slt_iff_toInt_lt, hn] at hslt
    cases k with
    | zero =>
      have hzero : bit.toInt = 0 := hbit
      omega
    | succ k =>
      rw [hbit.succ] at hslt
      exact .some ⟨k, Nat.lt_succ_self k, by omega, hbit.shift, by omega⟩
  · exact ⟨k, hk, hbit, hlt⟩

theorem Found.loop (h : Found N k r s) (hN : N < 2 ^ 31) (hk : k ≤ 16) {turns : Nat} (hturns : 17 ≤ turns) :
    Ends (whileLoop (fun s => some (s.bit != 0)) ftSqrtTurn turns s) fun s => ∃ r, Found N 0 r s := by
  refine whileLoop_countdown (fun k s => k ≤ 16 ∧ ∃ r, Found N k r s) (n := k) (by omega) ⟨hk, r, h⟩ ?_
  rintro k s ⟨hk, r, h⟩
  refine .some ?_
  cases k with
  | zero => simpa [h.bit.eq_zero_iff.mpr rfl] using ⟨r, h⟩
  | succ k =>
    have hne : s.bit ≠ 0 := fun hzero => Nat.succ_ne_zero k (h.bit.eq_zero_iff.mp hzero)
    rw [if_pos (bne_iff_ne.mpr hne)]
    exact (h.turn hN (by omega)).mono fun s' hs' => ⟨k, Nat.lt_succ_self k, by omega, hs'⟩

theorem sshiftRight_sign (n : BitVec 32) : n.sshiftRight 31 = if n.toInt < 0 then BitVec.allOnes 32 else 0#32 := by
  obtain ⟨hlo, hhi⟩ := fits_toInt n
  apply BitVec.eq_of_toInt_eq
  rw [BitVec.toInt_sshiftRight, Int.shiftRight_eq_div_pow]
  split
  · rw [BitVec.toInt_allOnes]
    simp only [Nat.cast_pow, Nat.cast_ofNat]
    omega
  · rw [BitVec.toInt_zero]
    simp only [Nat.cast_pow, Nat.cast_ofNat]
    omega

/-- The mask makes a negative number 0. -/
theorem masked_toInt (n : BitVec 32) : (n &&& ~~~(n.sshiftRight 31)).toInt = (n.toInt.toNat : Int) := by
  rw [sshiftRight_sign]
  split
  · rw [BitVec.not_allOnes, BitVec.and_zero, BitVec.toInt_zero]
    omega
  · rw [BitVec.not_zero, BitVec.and_allOnes]
    omega

theorem ftSqrt_ends (n : BitVec 32) {turns : Nat} (hturns : 17 ≤ turns) :
    Ends (ftSqrt turns n) fun res =>
      ∃ r : Nat, res.toInt = r ∧ r * r ≤ n.toInt.toNat ∧ n.toInt.toNat < (r + 1) * (r + 1) := by
  have hn := masked_toInt n
  have hN := (fits_toInt n).2
  refine (firstBit_ends hn hturns).bind fun bit ⟨k, hk, hbit, hlt⟩ => ?_
  have hfound : Found n.toInt.toNat k 0 ⟨n &&& ~~~(n.sshiftRight 31), 0, bit⟩ :=
    ⟨.start hlt, hn, by simp, hbit⟩
  refine (hfound.loop (by omega) hk hturns).bind fun s ⟨r, h⟩ => .some ⟨r, ?_, h.root.root⟩
  have hres := h.res
  rwa [Nat.pow_zero, Nat.mul_one] at hres

theorem ft_sqrt_root (n : BitVec 32) : Halts (fun turns => ftSqrt turns n) fun res =>
    (n.toInt < 0 → res = 0) ∧
    (0 ≤ n.toInt → res.toInt * res.toInt ≤ n.toInt ∧ n.toInt < (res.toInt + 1) * (res.toInt + 1)) := by
  refine ⟨17, fun turns hturns => (ftSqrt_ends n hturns).mono ?_⟩
  rintro res ⟨r, hres, hle, hlt⟩
  constructor
  · intro hneg
    have hzero : r * r ≤ 0 := by rwa [Int.toNat_of_nonpos (Int.le_of_lt hneg)] at hle
    obtain rfl : r = 0 := by simpa using hzero
    exact BitVec.eq_of_toInt_eq hres
  · intro hpos
    rw [hres]
    zify at hle hlt
    rw [Int.toNat_of_nonneg hpos] at hle hlt
    exact ⟨hle, hlt⟩

end Sqrt

end Minitalk.Libft
