import Minitalk.Lib.CInt
import Minitalk.Lib.Radix
import Minitalk.Libft.Atoi

/-! # `ft_putnbr_base` (`libft/stdio/ft_putnbr_base.c`)

The result is what the calls write; nothing, when an index into the radix is none of its characters. -/

namespace Minitalk.Libft
open CText

def radixAt (radix : List UInt8) (i : BitVec 32) : Option UInt8 :=
  if i.toInt < 0 then none else radix[i.toInt.toNat]?

/-- The lowest `int` stays negative when it is negated, and then there is no recursion. -/
theorem natAbs_sdiv_lt {nbr base : BitVec 32} (hbase : 2 ≤ base.toInt)
    (hle : base.toInt ≤ (if nbr.toInt < 0 then -nbr else nbr).toInt) :
    ((if nbr.toInt < 0 then -nbr else nbr).sdiv base).toInt.natAbs < nbr.toInt.natAbs := by
  have habs := CInt.toNat_abs nbr
  have hpos : 0 ≤ (if nbr.toInt < 0 then -nbr else nbr).toInt := by omega
  have hnat := CInt.toNat_of_nonneg hpos
  have hlt : (if nbr.toInt < 0 then -nbr else nbr).toInt / base.toInt <
      (if nbr.toInt < 0 then -nbr else nbr).toInt := Int.ediv_lt_self_of_pos_of_ne_one (by omega) (by omega)
  have hquot := Int.ediv_nonneg hpos (show 0 ≤ base.toInt by omega)
  rw [CInt.toInt_sdiv hpos (by omega)]
  omega

def ftPutnbrBase (radix : List UInt8) (nbr : BitVec 32) : Option (List UInt8) :=
  let base := BitVec.ofNat 32 radix.length
  if hbase : base.toInt < 2 ∨ 16 < base.toInt then some []
  else
    let minus := if nbr.toInt < 0 then [chr '-'] else []
    let n := if nbr.toInt < 0 then -nbr else nbr
    let high := if _hle : base.toInt ≤ n.toInt then ftPutnbrBase radix (n.sdiv base) else some []
    high.bind fun high => (radixAt radix (n.srem base)).map fun c => minus ++ high ++ [c]
termination_by nbr.toInt.natAbs
decreasing_by exact natAbs_sdiv_lt (Int.not_lt.mp fun h => hbase (Or.inl h)) _hle

/-! ### Numerals over a radix -/

def digitIn (radix : List UInt8) (d : Nat) : UInt8 := radix[d]?.getD 0

def numeralIn (radix : List UInt8) (n : Nat) : List UInt8 := (Radix.digits radix.length n).map (digitIn radix)

def signedNumeral (radix : List UInt8) (v : Int) : List UInt8 :=
  (if v < 0 then [chr '-'] else []) ++ numeralIn radix v.natAbs

def readNumeral (radix : List UInt8) (text : List UInt8) : Nat := Radix.value radix.length (text.map (radix.idxOf ·))

/-- A text that begins with a minus is negative. -/
def readSigned (radix : List UInt8) (text : List UInt8) : Int :=
  if text.head? = some (chr '-') then -readNumeral radix text.tail else readNumeral radix text

/-- Every index is one of the radix, the signed numeral is written, and it reads as the number. -/
structure Printed (radix : List UInt8) (nbr : BitVec 32) : Prop where
  written : ftPutnbrBase radix nbr = some (signedNumeral radix nbr.toInt)
  read : readSigned radix (signedNumeral radix nbr.toInt) = nbr.toInt

section Base
variable {radix : List UInt8} {n : BitVec 32} {m : Nat}

theorem digitIn_eq {d : Nat} (hd : d < radix.length) : radix[d]? = some (digitIn radix d) := by
  rw [digitIn, List.getElem?_eq_getElem hd, Option.getD_some]

theorem idxOf_digitIn (hnodup : radix.Nodup) {d : Nat} (hd : d < radix.length) :
    radix.idxOf (digitIn radix d) = d := by
  rw [digitIn, List.getElem?_eq_getElem hd, Option.getD_some]
  exact hnodup.idxOf_getElem d hd

theorem readNumeral_numeralIn (h2 : 2 ≤ radix.length) (hnodup : radix.Nodup) (m : Nat) :
    readNumeral radix (numeralIn radix m) = m := by
  have hidx : (numeralIn radix m).map (radix.idxOf ·) = Radix.digits radix.length m := by
    rw [numeralIn, List.map_map]
    exact List.map_congr_left (fun d hd => idxOf_digitIn hnodup (Radix.digits_lt h2 hd)) |>.trans (List.map_id _)
  rw [readNumeral, hidx, Radix.value_digits h2]

theorem toInt_base (h16 : radix.length ≤ 16) : (BitVec.ofNat 32 radix.length).toInt = radix.length :=
  CInt.toInt_ofNat (by omega)

theorem ftPutnbrBase_eq (h2 : 2 ≤ radix.length) (h16 : radix.length ≤ 16) {a : BitVec 32}
    (ha : (if n.toInt < 0 then -n else n) = a) :
    ftPutnbrBase radix n =
      (if radix.length ≤ a.toInt then ftPutnbrBase radix (a.sdiv (BitVec.ofNat 32 radix.length)) else some []).bind
        fun high => (radixAt radix (a.srem (BitVec.ofNat 32 radix.length))).map fun c =>
          (if n.toInt < 0 then [chr '-'] else []) ++ high ++ [c] := by
  have hbase := toInt_base h16
  rw [ftPutnbrBase, dif_neg (by omega)]
  simp only [ha, hbase]
  rfl

/-- The digits of a number that is not negative. -/
theorem ftPutnbrBase_nonneg (h2 : 2 ≤ radix.length) (h16 : radix.length ≤ 16) (hn : n.toInt = m) :
    ftPutnbrBase radix n = some (numeralIn radix m) := by
  induction m using Nat.strong_induction_on generalizing n with
  | _ m ih =>
    have hbase := toInt_base h16
    have hpos : ¬n.toInt < 0 := by omega
    have hquot : (n.sdiv (BitVec.ofNat 32 radix.length)).toInt = (m / radix.length : Nat) := by
      rw [CInt.toInt_sdiv (by omega) (by omega), hbase, hn, Int.natCast_ediv]
    have hrem : (n.srem (BitVec.ofNat 32 radix.length)).toInt = (m % radix.length : Nat) := by
      rw [CInt.toInt_srem (by omega), hbase, hn, Int.natCast_emod]
    have hdigit : radixAt radix (n.srem (BitVec.ofNat 32 radix.length)) = some (digitIn radix (m % radix.length)) := by
      rw [radixAt, hrem, if_neg (by omega), Int.toNat_natCast, digitIn_eq (Nat.mod_lt _ (by omega))]
    rw [ftPutnbrBase_eq h2 h16 (if_neg hpos), hdigit, if_neg hpos, hn, numeralIn]
    split
    · rename_i hle
      rw [ih (m / radix.length) (Nat.div_lt_self (by omega) h2) hquot, Radix.digits_of_le h2 (by omega),
        List.map_append]
      rfl
    · rename_i hgt
      rw [Radix.digits_of_lt (by omega), Nat.mod_eq_of_lt (by omega)]
      rfl

/-- A negative number is written like its magnitude, behind the minus. -/
theorem ftPutnbrBase_neg (h2 : 2 ≤ radix.length) (h16 : radix.length ≤ 16) (hneg : n.toInt < 0)
    (hn : (-n).toInt = m) : ftPutnbrBase radix n = some (chr '-' :: numeralIn radix m) := by
  have hpos : ¬(-n).toInt < 0 := by omega
  have hmagnitude := ftPutnbrBase_nonneg h2 h16 hn
  rw [ftPutnbrBase_eq h2 h16 (if_neg hpos), if_neg hpos] at hmagnitude
  rw [ftPutnbrBase_eq h2 h16 (if_pos hneg), if_pos hneg]
  revert hmagnitude
  generalize (if (radix.length : Int) ≤ (-n).toInt then _ else _ : Option (List UInt8)) = high
  generalize radixAt radix _ = c
  cases high <;> cases c <;> simp

/-- The lowest `int` is written with one digit at most. -/
theorem ftPutnbrBase_intMin (h2 : 2 ≤ radix.length) (h16 : radix.length ≤ 16) {text : List UInt8}
    (h : ftPutnbrBase radix intMin = some text) : text.length = 2 := by
  have hneg : intMin.toInt < 0 := by decide
  have hself : -intMin = intMin := by decide
  rw [ftPutnbrBase_eq h2 h16 ((if_pos hneg).trans hself), if_pos hneg, if_neg (by omega), Option.bind_some] at h
  obtain ⟨c, -, rfl⟩ := Option.map_eq_some_iff.mp h
  rfl

theorem signedNumeral_neg {v : Int} (hv : v < 0) : signedNumeral radix v = chr '-' :: numeralIn radix v.natAbs := by
  rw [signedNumeral, if_pos hv]
  rfl

theorem signedNumeral_nonneg (m : Nat) : signedNumeral radix m = numeralIn radix m := by
  rw [signedNumeral, if_neg (Int.not_lt.mpr (Int.natCast_nonneg m))]
  rfl

theorem not_printed_intMin (h2 : 2 ≤ radix.length) (h16 : radix.length ≤ 16) : ¬Printed radix intMin := by
  intro h
  have hshort := ftPutnbrBase_intMin h2 h16 h.written
  have hlarge : radix.length ≤ 2147483648 := by omega
  rw [signedNumeral_neg (by decide), show intMin.toInt.natAbs = 2147483648 from rfl, numeralIn,
    Radix.digits_of_le h2 hlarge, List.length_cons, List.length_map, List.length_append, List.length_singleton,
    Nat.succ_inj, Nat.succ_inj, List.length_eq_zero_iff] at hshort
  exact Radix.digits_ne_nil _ _ hshort

/-- A negative number reads as itself, its minus being a sign. -/
theorem readSigned_neg (h2 : 2 ≤ radix.length) (hnodup : radix.Nodup) {v : Int} (hv : v < 0) :
    readSigned radix (signedNumeral radix v) = v := by
  rw [signedNumeral_neg hv, readSigned, List.head?_cons, if_pos rfl, List.tail_cons, readNumeral_numeralIn h2 hnodup]
  omega

/-- A positive number reads as itself unless its leading digit is taken for a minus. -/
theorem readSigned_nonneg (h2 : 2 ≤ radix.length) (hnodup : radix.Nodup) (m : Nat) :
    readSigned radix (numeralIn radix m) = m ↔ ¬(0 < m ∧ (numeralIn radix m).head? = some (chr '-')) := by
  rw [readSigned]
  split
  · rename_i hhead
    simp only [hhead, and_true]
    constructor
    · intro hread
      omega
    · intro hm
      have h0 : m = 0 := by omega
      rw [h0, numeralIn, Radix.digits_of_lt (by omega)]
      rfl
  · rename_i hhead
    rw [readNumeral_numeralIn h2 hnodup]
    simp only [hhead, and_false, not_false_eq_true]

end Base

/-- `ft_putnbr_base` prints every `int` but the lowest; what it prints can be read back unless the leading digit of a
    positive number is a minus. -/
theorem ftPutnbrBase_iff (radix : CString) (h2 : 2 ≤ radix.1.length) (h16 : radix.1.length ≤ 16)
    (hnodup : radix.1.Nodup) (nbr : BitVec 32) :
    Printed radix.1 nbr ↔
      nbr ≠ intMin ∧ ¬(0 < nbr.toInt ∧ (numeralIn radix.1 nbr.toInt.natAbs).head? = some (chr '-')) := by
  by_cases hmin : nbr = intMin
  · rw [hmin]
    exact iff_of_false (not_printed_intMin h2 h16) fun h => h.1 rfl
  by_cases hneg : nbr.toInt < 0
  · have hne : nbr.toInt ≠ -2 ^ 31 := fun h => hmin (BitVec.eq_of_toInt_eq h)
    have hlo := (CInt.fits_toInt nbr).1
    have hmagnitude : (-nbr).toInt = nbr.toInt.natAbs := by
      rw [CInt.toInt_neg ⟨by omega, by omega⟩]
      omega
    refine iff_of_true ⟨?_, readSigned_neg h2 hnodup hneg⟩ ⟨hmin, fun h => absurd h.1 (Int.lt_asymm hneg)⟩
    rw [signedNumeral_neg hneg]
    exact ftPutnbrBase_neg h2 h16 hneg hmagnitude
  · obtain ⟨m, hm⟩ := Int.eq_ofNat_of_zero_le (Int.not_lt.mp hneg)
    have hwritten : ftPutnbrBase radix.1 nbr = some (signedNumeral radix.1 nbr.toInt) := by
      rw [hm, signedNumeral_nonneg]
      exact ftPutnbrBase_nonneg h2 h16 hm
    have hread := readSigned_nonneg h2 hnodup m
    constructor
    · intro h
      have hvalue := h.read
      rw [hm, signedNumeral_nonneg] at hvalue
      exact ⟨hmin, by rw [hm]; simpa using hread.mp hvalue⟩
    · rintro ⟨-, hhead⟩
      refine ⟨hwritten, ?_⟩
      rw [hm] at hhead ⊢
      rw [signedNumeral_nonneg]
      exact hread.mpr (by simpa using hhead)

/-- -42 in base 16. -/
theorem ftPutnbrBase_hex : Printed (cstr "0123456789abcdef") (-42) := by
  have h := ftPutnbrBase_iff ⟨cstr "0123456789abcdef", by decide +kernel⟩ (by decide) (by decide)
    (by decide +kernel) (-42)
  exact h.mpr ⟨by decide, fun h => absurd h.1 (by decide)⟩

/-- In base 10 the lowest `int` leads to an index outside the radix. -/
theorem ftPutnbrBase_outside :
    ftPutnbrBase (cstr "0123456789") intMin = none ∧ ¬Printed (cstr "0123456789") intMin := by
  have hnone : ftPutnbrBase (cstr "0123456789") intMin = none := by
    rw [ftPutnbrBase_eq (a := intMin) (by decide) (by decide) (by decide), if_neg (by decide)]
    decide
  refine ⟨hnone, fun h => ?_⟩
  have hwritten := h.written
  rw [hnone] at hwritten
  cases hwritten

end Minitalk.Libft
