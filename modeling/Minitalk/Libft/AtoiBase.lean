import Mathlib.Data.List.TakeWhile
import Minitalk.Lib.CInt
import Minitalk.Lib.Radix
import Minitalk.Libft.Atoi

/-! # `ft_atoi_base` (`libft/stdlib/ft_atoi_base.c`)

A character that is neither a letter nor a digit counts as the digit 0, so only a letter or a digit that the base does
not have ends the number. -/

namespace Minitalk.Libft
open CText

def isValidForBase (digit base : BitVec 32) : Bool := decide (digit.toInt < base.toInt)

def convChar (c : UInt8) : BitVec 32 :=
  let digit := if chr '0' ≤ c ∧ c ≤ chr '9' then BitVec.ofNat 32 (c - chr '0').toNat else 0
  let upperCase := if chr 'A' ≤ c ∧ c ≤ chr 'Z' then BitVec.ofNat 32 (c - chr 'A').toNat + 10 else 0
  let lowerCase := if chr 'a' ≤ c ∧ c ≤ chr 'z' then BitVec.ofNat 32 (c - chr 'a').toNat + 10 else 0
  digit ||| upperCase ||| lowerCase

/-- The loop of `process_digits`. The division of C rounds towards zero. -/
def processDigits (base sign res : BitVec 32) : List UInt8 → BitVec 32
  | [] => res * sign
  | c :: cs =>
    let digit := convChar c
    if !isValidForBase digit base then res * sign
    else if (intMax - digit).toInt.tdiv base.toInt < res.toInt then if sign = 1 then intMax else intMin
    else processDigits base sign (res * base + digit) cs

def isSign (str : List UInt8) : Bool := str.head? == some (chr '+') || str.head? == some (chr '-')

def ftAtoiBase (str : List UInt8) (base : BitVec 32) : BitVec 32 :=
  let str := str.dropWhile ftIsspace
  let sign : BitVec 32 := if str.head? = some (chr '-') then -1 else 1
  let str := if isSign str then str.tail else str
  if isSign str then 0 else processDigits base sign 0 str

/-! ### The longest numeral -/

def isSpace (c : UInt8) : Bool := (cstr " \t\n\r" ++ [11, 12]).contains c

/-- The text behind the white space: whether it begins with a minus, and what follows its sign. -/
def signed (str : List UInt8) : Bool × List UInt8 :=
  match str.dropWhile isSpace with
  | [] => (false, [])
  | c :: cs => if c = chr '-' then (true, cs) else if c = chr '+' then (false, cs) else (false, c :: cs)

/-- The value of a letter or a digit. -/
def alnumValue (c : UInt8) : Option Nat :=
  if chr '0' ≤ c ∧ c ≤ chr '9' then some (c - chr '0').toNat
  else if chr 'A' ≤ c ∧ c ≤ chr 'Z' then some ((c - chr 'A').toNat + 10)
  else if chr 'a' ≤ c ∧ c ≤ chr 'z' then some ((c - chr 'a').toNat + 10)
  else none

def isDigitOf (base : Nat) (c : UInt8) : Bool := (alnumValue c).any (decide <| · < base)

/-- A letter or a digit that the base does not have. -/
def isForeign (base : Nat) (c : UInt8) : Bool := (alnumValue c).any (decide <| base ≤ ·)

def numeralValue (base : Nat) (tail : List UInt8) : Nat :=
  Radix.value base ((tail.takeWhile (isDigitOf base)).filterMap alnumValue)

/-- The greatest magnitude that an `int` has on this side of 0. -/
def limit (negative : Bool) : Nat := if negative then 2 ^ 31 else 2 ^ 31 - 1

def saturated (negative : Bool) (n : Nat) : Int := (if negative then -1 else 1) * (min n (limit negative) : Nat)

/-- The value of the longest numeral behind the white space and the sign. -/
def longestNumeral (base : Nat) (str : List UInt8) : Int :=
  saturated (signed str).1 (numeralValue base (signed str).2)

/-- The number is out of range or 0 anyway, or what follows it is nothing, a letter, a digit, or a second sign. -/
def Ended (base : Nat) (str : List UInt8) : Prop :=
  isSign (signed str).2 = true ∨
    (∀ c ∈ ((signed str).2.dropWhile (isDigitOf base)).head?, (alnumValue c).isSome = true) ∨
    limit (signed str).1 ≤ numeralValue base (signed str).2 ∨
    ∀ c ∈ (signed str).2.takeWhile (!isForeign base ·), (alnumValue c).getD 0 = 0

instance (base : Nat) (str : List UInt8) : Decidable (Ended base str) := inferInstanceAs (Decidable (_ ∨ _))

/-! ### The digits that the loop counts -/

section Digits
variable {base : Nat} {cs : List UInt8} {n : Nat}

def countedDigits (base : Nat) (cs : List UInt8) : List Nat :=
  (cs.takeWhile (!isForeign base ·)).map fun c => (alnumValue c).getD 0

theorem convChar_eq (c : UInt8) : convChar c = BitVec.ofNat 32 ((alnumValue c).getD 0) := by
  have h := forall_uint8 (p := fun c => convChar c == BitVec.ofNat 32 ((alnumValue c).getD 0)) (by decide +kernel) c
  simpa using h

theorem alnumValue_lt (c : UInt8) : (alnumValue c).getD 0 < 36 := by
  have h := forall_uint8 (p := fun c => decide ((alnumValue c).getD 0 < 36)) (by decide +kernel) c
  simpa using h

theorem isForeign_eq (hbase : 0 < base) (c : UInt8) : isForeign base c = decide (base ≤ (alnumValue c).getD 0) := by
  rw [isForeign]
  cases alnumValue c with
  | none => exact (decide_eq_false (Nat.not_le.mpr hbase)).symm
  | some d => rfl

theorem countedDigits_cons (hbase : 0 < base) (c : UInt8) (cs : List UInt8) :
    countedDigits base (c :: cs) =
      if (alnumValue c).getD 0 < base then (alnumValue c).getD 0 :: countedDigits base cs else [] := by
  rw [countedDigits, List.takeWhile_cons, isForeign_eq hbase]
  by_cases hd : (alnumValue c).getD 0 < base
  · rw [if_pos hd, decide_eq_false (Nat.not_le.mpr hd)]
    rfl
  · rw [if_neg hd, decide_eq_true (Nat.not_lt.mp hd)]
    rfl

/-- The numeral comes first, then what the loop reads beyond it. -/
theorem countedDigits_split (hbase : 0 < base) (cs : List UInt8) :
    countedDigits base cs =
      (cs.takeWhile (isDigitOf base)).filterMap alnumValue ++ countedDigits base (cs.dropWhile (isDigitOf base)) := by
  induction cs with
  | nil => rfl
  | cons c cs ih =>
    by_cases hc : isDigitOf base c = true
    · obtain ⟨d, hd, hlt⟩ : ∃ d, alnumValue c = some d ∧ d < base := by
        simpa [isDigitOf, Option.any_eq_true] using hc
      rw [List.takeWhile_cons_of_pos hc, List.dropWhile_cons_of_pos hc, List.filterMap_cons_some hd, List.cons_append,
        ← ih, countedDigits_cons hbase, hd, Option.getD_some, if_pos hlt]
    · rw [List.takeWhile_cons_of_neg hc, List.dropWhile_cons_of_neg hc]
      rfl

/-- Beyond the numeral the loop stops at once at a letter or a digit only. -/
theorem countedDigits_rest (hbase : 0 < base) :
    countedDigits base (cs.dropWhile (isDigitOf base)) = [] ↔
      ∀ c ∈ (cs.dropWhile (isDigitOf base)).head?, (alnumValue c).isSome = true := by
  cases hrest : cs.dropWhile (isDigitOf base) with
  | nil => simp [countedDigits]
  | cons c rest =>
    have hc : isDigitOf base c = false := by
      have := List.head?_dropWhile_not (isDigitOf base) cs
      rw [hrest] at this
      simpa using this
    rw [countedDigits_cons hbase, List.head?_cons]
    cases hvalue : alnumValue c with
    | none => simp [hvalue, hbase]
    | some d =>
      have hle : base ≤ d := by simpa [isDigitOf, hvalue] using hc
      simp [hvalue, Nat.not_lt.mpr hle]

/-! ### The loop -/

def signOf (negative : Bool) : BitVec 32 := if negative then -1 else 1

theorem toInt_mul_signOf (negative : Bool) (hn : n < 2 ^ 31) :
    (BitVec.ofNat 32 n * signOf negative).toInt = saturated negative n := by
  have hvalue := CInt.toInt_ofNat hn
  cases negative with
  | false =>
    have hone : (signOf false).toInt = 1 := rfl
    rw [CInt.toInt_mul (by rw [hvalue, hone]; exact ⟨by omega, by omega⟩), hvalue, hone]
    simp only [saturated, limit, Bool.false_eq_true, if_false]
    omega
  | true =>
    have hone : (signOf true).toInt = -1 := rfl
    rw [CInt.toInt_mul (by rw [hvalue, hone]; exact ⟨by omega, by omega⟩), hvalue, hone]
    simp only [saturated, limit, if_true]
    omega

theorem saturated_of_le {negative : Bool} (h : 2 ^ 31 ≤ n) :
    saturated negative n = (if signOf negative = 1 then intMax else intMin).toInt := by
  cases negative with
  | false =>
    have hmin : min n (limit false) = 2 ^ 31 - 1 := by
      simp only [limit, Bool.false_eq_true, if_false]
      omega
    rw [saturated, hmin]
    rfl
  | true =>
    have hmin : min n (limit true) = 2 ^ 31 := by
      simp only [limit, if_true]
      omega
    rw [saturated, hmin]
    rfl

theorem guard_iff {d : Nat} (hbase : 0 < base) (hbase36 : base ≤ 36) (hd : d < 36) (hn : n < 2 ^ 31) :
    (intMax - BitVec.ofNat 32 d).toInt.tdiv (BitVec.ofNat 32 base).toInt < (BitVec.ofNat 32 n).toInt ↔
      2 ^ 31 ≤ n * base + d := by
  have hdigit : (BitVec.ofNat 32 d).toInt = d := CInt.toInt_ofNat (by omega)
  have hmax : intMax.toInt = 2 ^ 31 - 1 := rfl
  have hdiff : (intMax - BitVec.ofNat 32 d).toInt = (2 ^ 31 - 1 - d : Nat) := by
    rw [CInt.toInt_sub (by rw [hdigit, hmax]; exact ⟨by omega, by omega⟩), hdigit, hmax]
    omega
  rw [hdiff, CInt.toInt_ofNat (show base < 2 ^ 31 by omega), CInt.toInt_ofNat hn, ← Int.ofNat_tdiv,
    Int.ofNat_lt, Nat.div_lt_iff_lt_mul hbase]
  omega

theorem isValidForBase_ofNat {d : Nat} (hbase36 : base ≤ 36) (hd : d < 36) :
    isValidForBase (BitVec.ofNat 32 d) (BitVec.ofNat 32 base) = decide (d < base) := by
  rw [isValidForBase, CInt.toInt_ofNat (by omega), CInt.toInt_ofNat (by omega)]
  exact decide_eq_decide.mpr Int.ofNat_lt

/-- The loop computes the saturated value of all the digits that it counts. -/
theorem processDigits_eq (hbase : 0 < base) (hbase36 : base ≤ 36) (negative : Bool) (cs : List UInt8)
    (hn : n < 2 ^ 31) :
    (processDigits (BitVec.ofNat 32 base) (signOf negative) (BitVec.ofNat 32 n) cs).toInt =
      saturated negative (Radix.extend base n (countedDigits base cs)) := by
  induction cs generalizing n with
  | nil => exact toInt_mul_signOf negative hn
  | cons c cs ih =>
    have hd := alnumValue_lt c
    rw [processDigits, countedDigits_cons hbase, convChar_eq]
    generalize (alnumValue c).getD 0 = d at hd
    simp only [isValidForBase_ofNat hbase36 hd, guard_iff hbase hbase36 hd hn]
    by_cases hlt : d < base
    · simp only [decide_eq_true hlt, Bool.not_true, Bool.false_eq_true, if_false, if_pos hlt, Radix.extend_cons]
      split
      · rename_i hover
        exact (saturated_of_le (Nat.le_trans hover (Radix.le_extend hbase _ _))).symm
      · rename_i hfits
        have hstep : BitVec.ofNat 32 n * BitVec.ofNat 32 base + BitVec.ofNat 32 d = BitVec.ofNat 32 (n * base + d) := by
          rw [BitVec.ofNat_add, BitVec.ofNat_mul]
        rw [hstep]
        exact ih (Nat.not_le.mp hfits)
    · simp only [decide_eq_false hlt, Bool.not_false, if_true, if_neg hlt, Radix.extend_nil]
      exact toInt_mul_signOf negative hn

theorem saturated_eq_iff {negative : Bool} {m : Nat} (h : m ≤ n) :
    saturated negative n = saturated negative m ↔ limit negative ≤ m ∨ n = m := by
  unfold saturated
  cases negative
  · simp only [Bool.false_eq_true, if_false]
    omega
  · simp only [if_true]
    omega

end Digits

/-! ### The whole function -/

theorem takeWhile_of_isSign {base : Nat} {tail : List UInt8} (h : isSign tail = true) :
    tail.takeWhile (isDigitOf base) = [] := by
  cases tail with
  | nil => rfl
  | cons c cs =>
    have hc : c = chr '+' ∨ c = chr '-' := by simpa [isSign] using h
    have hnone : alnumValue c = none := by
      rcases hc with rfl | rfl
      · decide
      · decide
    rw [List.takeWhile_cons_of_neg (by rw [isDigitOf, hnone]; exact Bool.false_ne_true)]

/-- The digits beyond the numeral leave the value 0 alone exactly when all digits that the loop counts are 0. -/
theorem zero_iff {base : Nat} (hbase : 0 < base) {tail : List UInt8} :
    (Radix.value base ((tail.takeWhile (isDigitOf base)).filterMap alnumValue) = 0 ∧
      ∀ d ∈ countedDigits base (tail.dropWhile (isDigitOf base)), d = 0) ↔
      ∀ c ∈ tail.takeWhile (!isForeign base ·), (alnumValue c).getD 0 = 0 := by
  rw [← Radix.extend_eq_zero hbase, Radix.value, ← Radix.extend_append, ← countedDigits_split hbase,
    Radix.extend_eq_zero hbase, countedDigits, List.forall_mem_map]
  exact and_iff_right rfl

theorem ftIsspace_eq (c : UInt8) : ftIsspace c = isSpace c := by
  have h := forall_uint8 (p := fun c => ftIsspace c == isSpace c) (by decide +kernel) c
  simpa using h

theorem ftAtoiBase_eq (str : List UInt8) (base : BitVec 32) :
    ftAtoiBase str base =
      if isSign (signed str).2 then 0 else processDigits base (signOf (signed str).1) 0 (signed str).2 := by
  have hspace : ftIsspace = isSpace := funext ftIsspace_eq
  rw [ftAtoiBase, signed, hspace]
  cases str.dropWhile isSpace with
  | nil => rfl
  | cons c cs =>
    by_cases hminus : c = chr '-'
    · subst hminus
      rfl
    · by_cases hplus : c = chr '+'
      · subst hplus
        rfl
      · have hsign : isSign (c :: cs) = false := by simp [isSign, hminus, hplus]
        simp [hsign, hminus, hplus, signOf]

/-- `ft_atoi_base` reads the longest numeral exactly when it is ended by something that the loop ends at. -/
theorem ftAtoiBase_iff (base : Nat) (h2 : 2 ≤ base) (h36 : base ≤ 36) (str : CString) :
    (ftAtoiBase str.1 (BitVec.ofNat 32 base)).toInt = longestNumeral base str.1 ↔ Ended base str.1 := by
  have hbase : 0 < base := by omega
  rw [ftAtoiBase_eq, longestNumeral, Ended, numeralValue]
  obtain ⟨negative, tail⟩ := signed str.1
  dsimp only
  by_cases hsign : isSign tail = true
  · rw [if_pos hsign, takeWhile_of_isSign hsign]
    cases negative <;> simp [hsign, saturated, Radix.value]
  · have hloop := processDigits_eq hbase h36 negative tail (Nat.two_pow_pos 31)
    rw [if_neg hsign, show (processDigits _ _ 0 tail).toInt = _ from hloop, countedDigits_split hbase,
      Radix.extend_append, ← Radix.value, saturated_eq_iff (Radix.le_extend hbase _ _),
      Radix.extend_eq_self h2, countedDigits_rest hbase, zero_iff hbase]
    simp only [hsign, false_or, Bool.false_eq_true]
    exact or_left_comm

/-- `-2a` in base 16. -/
theorem ftAtoiBase_hex :
    (ftAtoiBase (cstr "-2a") (BitVec.ofNat 32 16)).toInt = longestNumeral 16 (cstr "-2a") :=
  (ftAtoiBase_iff 16 (by decide) (by decide) ⟨cstr "-2a", by decide +kernel⟩).mpr
    (by decide +kernel)

/-- A space is read as a digit: `12 3` is 1203. -/
theorem ftAtoiBase_space : ∃ str : CString, (ftAtoiBase str.1 10).toInt ≠ longestNumeral 10 str.1 :=
  ⟨⟨cstr "12 3", by decide +kernel⟩, by decide +kernel⟩

end Minitalk.Libft
