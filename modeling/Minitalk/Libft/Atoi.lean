import Mathlib.Algebra.Group.Int.Defs
import Mathlib.Algebra.Group.Nat.Defs
import Minitalk.Lib.CText

/-! # `ft_atoi` (`libft/stdlib/ft_atoi.c`, `libft/ctype`)

The number is accumulated in a `long`, guarded against its overflow, and narrowed to an `int` at the end. -/

namespace Minitalk.Libft
open CText

def intMax : BitVec 32 := 2147483647

def intMin : BitVec 32 := -2147483648

def longMax : BitVec 64 := 9223372036854775807

def longMin : BitVec 64 := -9223372036854775808

def ftIsspace (c : UInt8) : Bool :=
  c ^^^ chr ' ' == 0 || c ^^^ chr '\t' == 0 || c ^^^ chr '\n' == 0 || c ^^^ chr '\r' == 0 || c ^^^ 11 == 0 ||
    c ^^^ 12 == 0

def ftIsdigit (c : UInt8) : Bool := c &&& 0xF0 == 0x30 && decide (c &&& 0x0F ≤ 9)

/-- The loop over the digits. The division of C rounds towards zero. -/
def ftAtoiLoop (sign : BitVec 64) (result : BitVec 64) : List UInt8 → BitVec 32
  | [] => (result * sign).setWidth 32
  | c :: cs =>
    if ftIsdigit c then
      let digit : BitVec 64 := BitVec.ofNat 64 (c - chr '0').toNat
      if sign = 1 ∧ (longMax - digit).toInt.tdiv 10 < result.toInt then intMax
      else if sign = -1 ∧ (-result).toInt < (longMin + digit).toInt.tdiv 10 then intMin
      else ftAtoiLoop sign (result * 10 + digit) cs
    else (result * sign).setWidth 32

def ftAtoi (str : List UInt8) : BitVec 32 :=
  match str.dropWhile ftIsspace with
  | c :: cs =>
    if c = chr '+' ∨ c = chr '-' then ftAtoiLoop (if c = chr '-' then -1 else 1) 0 cs
    else ftAtoiLoop 1 0 (c :: cs)
  | [] => ftAtoiLoop 1 0 []

/-! ### A string of digits -/

/-- The `int` that a number is narrowed to: its low 32 bits, or `INT_MAX` where a `long` overflows. -/
def narrowed (n : Nat) : BitVec 32 := if n < 2 ^ 63 then BitVec.ofNat 32 n else intMax

section Digits
variable {c : UInt8} {cs : List UInt8} {n : Nat}

theorem ftIsdigit_eq (c : UInt8) : ftIsdigit c = isDigit c := by
  have h := forall_uint8 (p := fun c => ftIsdigit c == isDigit c) (by decide +kernel) c
  simpa using h

theorem digit_le (h : isDigit c = true) : (c - chr '0').toNat ≤ 9 := by
  have hall := forall_uint8 (p := fun c => !isDigit c || decide ((c - chr '0').toNat ≤ 9)) (by decide +kernel) c
  simpa [h] using hall

theorem le_foldl_digits (cs : List UInt8) (n : Nat) :
    n ≤ cs.foldl (fun n c => n * 10 + (c - chr '0').toNat) n := by
  induction cs generalizing n with
  | nil => exact Nat.le_refl n
  | cons c cs ih =>
    have hstep : n ≤ n * 10 + (c - chr '0').toNat := by omega
    exact Nat.le_trans hstep (ih _)

theorem longMax_guard : ∀ d ≤ 9, (longMax - BitVec.ofNat 64 d).toInt.tdiv 10 = (2 ^ 63 - 1 - d : Nat) / 10 := by
  decide

/-- The accumulator holds the number of the digits so far, as long as that is a `long`. -/
theorem ftAtoiLoop_digits (hcs : ∀ c ∈ cs, isDigit c = true) (hn : n < 2 ^ 63) :
    ftAtoiLoop 1 (BitVec.ofNat 64 n) cs = narrowed (cs.foldl (fun n c => n * 10 + (c - chr '0').toNat) n) := by
  induction cs generalizing n with
  | nil =>
    have hone : BitVec.ofNat 64 n * 1 = BitVec.ofNat 64 n := BitVec.mul_one _
    rw [ftAtoiLoop, List.foldl_nil, narrowed, if_pos hn, hone]
    exact BitVec.setWidth_ofNat_of_le (by decide) n
  | cons c cs ih =>
    have hc := hcs c List.mem_cons_self
    have hd := digit_le hc
    have hresult : (BitVec.ofNat 64 n).toInt = n := by
      rw [BitVec.toInt_ofNat', Int.bmod_eq_of_le] <;> omega
    have hsign : ¬((1 : BitVec 64) = -1 ∧ (-BitVec.ofNat 64 n).toInt <
        (longMin + BitVec.ofNat 64 (c - chr '0').toNat).toInt.tdiv 10) := fun h => absurd h.1 (by decide)
    rw [ftAtoiLoop, ftIsdigit_eq, if_pos hc, List.foldl_cons]
    simp only [hresult, longMax_guard _ hd, true_and, if_neg hsign]
    split
    · -- The number has outgrown a `long` and grows on.
      have hgrow := le_foldl_digits cs (n * 10 + (c - chr '0').toNat)
      rw [narrowed, if_neg (by omega)]
    · have hnext : BitVec.ofNat 64 n * 10 + BitVec.ofNat 64 (c - chr '0').toNat =
          BitVec.ofNat 64 (n * 10 + (c - chr '0').toNat) := by
        rw [BitVec.ofNat_add, BitVec.ofNat_mul]
        rfl
      rw [hnext]
      exact ih (fun d hd => hcs d (List.mem_cons_of_mem c hd)) (by omega)

theorem digit_ne {d : UInt8} (h : isDigit c = true) (hd : isDigit d = false) : c ≠ d := by
  rintro rfl
  rw [h] at hd
  cases hd

theorem ftAtoi_digits (hcs : ∀ c ∈ cs, isDigit c = true) : ftAtoi cs = narrowed (decimal cs) := by
  have hskip : cs.dropWhile ftIsspace = cs := by
    cases cs with
    | nil => rfl
    | cons c cs =>
      have hc := hcs c List.mem_cons_self
      have hspace : ftIsspace c = false := by
        have h := forall_uint8 (p := fun c => !isDigit c || !ftIsspace c) (by decide +kernel) c
        simpa [hc] using h
      rw [List.dropWhile_cons_of_neg (by rw [hspace]; decide)]
  have hloop := ftAtoiLoop_digits hcs (n := 0) (by decide)
  unfold ftAtoi
  rw [hskip]
  cases cs with
  | nil => exact hloop
  | cons c cs =>
    have hc := hcs c List.mem_cons_self
    have hnosign : ¬(c = chr '+' ∨ c = chr '-') := by
      rintro (h | h)
      · exact digit_ne hc (by decide) h
      · exact digit_ne hc (by decide) h
    simp only [if_neg hnosign]
    exact hloop

/-! ### Behind a minus -/

theorem longMin_guard : ∀ d ≤ 9, (longMin + BitVec.ofNat 64 d).toInt.tdiv 10 < -2 ^ 31 := by
  decide

/-- A number that an `int` holds is far from the ends of a `long`. -/
theorem ftAtoiLoop_neg (hcs : ∀ c ∈ cs, isDigit c = true)
    (hsmall : cs.foldl (fun n c => n * 10 + (c - chr '0').toNat) n ≤ 2 ^ 31) :
    ftAtoiLoop (-1) (BitVec.ofNat 64 n) cs =
      -BitVec.ofNat 32 (cs.foldl (fun n c => n * 10 + (c - chr '0').toNat) n) := by
  induction cs generalizing n with
  | nil =>
    have hminus : BitVec.ofNat 64 n * -1 = -BitVec.ofNat 64 n := by
      rw [BitVec.mul_neg]
      exact congrArg _ (BitVec.mul_one _)
    rw [ftAtoiLoop, List.foldl_nil, hminus, BitVec.setWidth_neg_of_le (by decide)]
    exact congrArg _ (BitVec.setWidth_ofNat_of_le (by decide) n)
  | cons c cs ih =>
    have hc := hcs c List.mem_cons_self
    have hn : n ≤ 2 ^ 31 := Nat.le_trans (le_foldl_digits (c :: cs) n) hsmall
    have hnegated : (-BitVec.ofNat 64 n).toInt = -n := by
      have hresult : (BitVec.ofNat 64 n).toInt = n := by
        rw [BitVec.toInt_ofNat', Int.bmod_eq_of_le] <;> omega
      rw [BitVec.toInt_neg, hresult, Int.bmod_eq_of_le] <;> omega
    have hguard := longMin_guard _ (digit_le hc)
    rw [ftAtoiLoop, ftIsdigit_eq, if_pos hc, hnegated, if_neg (fun h => absurd h.1 (by decide)),
      if_neg (fun h => absurd h.2 (by omega))]
    have hnext : BitVec.ofNat 64 n * 10 + BitVec.ofNat 64 (c - chr '0').toNat =
        BitVec.ofNat 64 (n * 10 + (c - chr '0').toNat) := by
      rw [BitVec.ofNat_add, BitVec.ofNat_mul]
      rfl
    rw [hnext]
    exact ih (fun d hd => hcs d (List.mem_cons_of_mem c hd)) hsmall

end Digits

end Minitalk.Libft
