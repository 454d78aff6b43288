import Minitalk.Lib.CInt
import Minitalk.Lib.CPrintf
import Minitalk.Lib.Radix
import Minitalk.Printf.Convert

/-! # The numeric conversions of `ft_printf`

`ft_print_int`, `ft_print_unsigned` and `ft_print_hex_format` write C's text of the number and return its length, as
long as the sign or the `0x` and the precision together are an `int`. -/

namespace Minitalk.Printf
open CText CPrintf

/-- The numeric conversions: `d` and `i`, `u`, `x` and `X`. -/
inductive NumConv where
  | int
  | unsigned
  | hex (uppercase : Bool)
deriving DecidableEq

namespace NumConv

def run : NumConv → BitVec 32 → Flags → Out
  | int => ftPrintInt
  | unsigned => ftPrintUnsigned
  | hex uppercase => fun n flags => ftPrintHexFormat n uppercase flags

def style : NumConv → Style
  | int => .signed
  | unsigned => .unsigned
  | hex uppercase => .hex uppercase

/-- The argument, as an `int` or an `unsigned int`. -/
def value (k : NumConv) (n : BitVec 32) : Int := if k = int then n.toInt else n.toNat

end NumConv

/-- What the flags ask of C's `printf`. -/
def Flags.layout (flags : Flags) : Layout where
  left := flags.left
  plus := flags.plus
  space := flags.space
  alt := flags.hash
  zero := flags.zero
  width := flags.width.toInt.toNat
  precision := if flags.dot then some flags.precision.toInt.toNat else none

@[simp] theorem layout_left (flags : Flags) : flags.layout.left = flags.left := rfl

@[simp] theorem layout_zero (flags : Flags) : flags.layout.zero = flags.zero := rfl

@[simp] theorem layout_width (flags : Flags) : flags.layout.width = flags.width.toInt.toNat := rfl

@[simp] theorem layout_precision (flags : Flags) :
    flags.layout.precision = if flags.dot then some flags.precision.toInt.toNat else none := rfl

/-- A width, and a precision exactly when there is a dot. -/
structure Flags.Regular (flags : Flags) : Prop where
  width : 0 ≤ flags.width.toInt
  precision : flags.dot = true ↔ 0 ≤ flags.precision.toInt

/-- The conversion writes C's text, and returns the number of bytes that it wrote. -/
def Rendered (k : NumConv) (n : BitVec 32) (flags : Flags) : Prop :=
  (k.run n flags).bytes = intText flags.layout k.style (k.value n) ∧
    (k.run n flags).count.toInt = (k.run n flags).bytes.length

/-- The sign or the mark and the precision are together an `int`. -/
def Counted (k : NumConv) (n : BitVec 32) (flags : Flags) : Prop :=
  flags.dot = true → (mark flags.layout k.style (k.value n)).length + flags.precision.toInt < 2 ^ 31

/-! ### Outputs -/

namespace Out

@[simp] theorem empty_eq : ({} : Out) = write [] := rfl

@[simp] theorem write_append (a b : List UInt8) : write a ++ write b = write (a ++ b) := by
  show andThen (write a) (write b) = write (a ++ b)
  simp only [andThen, write, List.length_append, BitVec.ofNat_add]

end Out

theorem printDigits_eq (digit : Nat → UInt8) {base : Nat} (hbase : 1 < base) {fuel n : Nat}
    (h : n < base ^ (fuel + 1)) :
    printDigits digit base (fuel + 1) n = .write ((Radix.digits base n).map digit) := by
  induction fuel generalizing n with
  | zero =>
    have hlt : n < base := by simpa using h
    rw [printDigits, if_neg (Nat.not_le.mpr hlt), Radix.digits_of_lt hlt, Nat.mod_eq_of_lt hlt]
    rfl
  | succ fuel ih =>
    rw [printDigits]
    split
    · rename_i hle
      rw [ih (Radix.div_lt_pow h), Radix.digits_of_le hbase hle, List.map_append]
      exact Out.write_append _ _
    · rename_i hlt
      have hlt := Nat.not_le.mp hlt
      rw [Radix.digits_of_lt hlt, Nat.mod_eq_of_lt hlt]
      rfl

theorem nbrLenLoop_eq {base : Nat} (hbase : 1 < base) {fuel n : Nat} (h : n < base ^ fuel) :
    nbrLenLoop base fuel n = (Nat.digits base n).length := by
  refine Radix.quotient_induction (motive := fun fuel n => nbrLenLoop base fuel n = (Nat.digits base n).length)
    hbase ?_ ?_ h
  · intro fuel
    cases fuel <;> simp [nbrLenLoop]
  · intro fuel n hn hdigits ih
    rw [nbrLenLoop, if_pos hn, ih, hdigits, List.length_cons]

theorem numeral_eq_digits (base : Nat) (upper : Bool) (n : Nat) :
    numeral base upper n = (Radix.digits base n).map (digitChar upper) := by
  unfold numeral Radix.digits
  split
  · cases upper <;> rfl
  · rw [List.map_reverse]

/-- A 32-bit number has at most 32 digits. -/
theorem length_numeral {base : Nat} (hbase : 1 < base) (upper : Bool) {n : Nat} (h : n < 2 ^ 32) :
    (numeral base upper n).length ≤ 32 := by
  have hpow : n < base ^ 32 := Nat.lt_of_lt_of_le h (Nat.pow_le_pow_left hbase 32)
  unfold numeral
  split
  · decide
  · rw [List.length_reverse, List.length_map]
    exact Nat.digits_length_le_iff hbase n |>.mpr hpow

theorem ftNbrLen_eq {base : Nat} (hbase : 1 < base) (upper : Bool) {n : Nat} (h : n < 2 ^ 32) :
    (ftNbrLen n base).toInt = (numeral base upper n).length := by
  have hpow : n < base ^ 64 :=
    Nat.lt_of_lt_of_le h (Nat.le_trans (by decide) (Nat.pow_le_pow_left hbase 64))
  have hlen : (if n = 0 then 1 else nbrLenLoop base 64 n) = (numeral base upper n).length := by
    rw [nbrLenLoop_eq hbase hpow]
    unfold numeral
    split <;> simp
  have := length_numeral hbase upper h
  rw [ftNbrLen, hlen, CInt.toInt_ofNat (by omega)]

theorem ftPrintUnsignedNbr_eq (n : BitVec 32) : ftPrintUnsignedNbr n = .write (numeral 10 false n.toNat) := by
  have hlt : n.toNat < 10 ^ (31 + 1) := Nat.lt_of_lt_of_le n.isLt (by decide)
  have hdigit : ∀ d < 10, chr '0' + UInt8.ofNat d = digitChar false d := by decide
  rw [ftPrintUnsignedNbr, printDigits_eq _ (by decide) hlt, numeral_eq_digits]
  exact congrArg Out.write (List.map_congr_left fun d hd => hdigit d (Radix.digits_lt (by decide) hd))

theorem ftPrintHexValue_eq (n : BitVec 32) (uppercase : Bool) :
    ftPrintHexValue (n.setWidth 64) uppercase = .write (numeral 16 uppercase n.toNat) := by
  have hn : (n.setWidth 64).toNat = n.toNat := by
    rw [BitVec.toNat_setWidth]
    exact Nat.mod_eq_of_lt (Nat.lt_trans n.isLt (by decide))
  have hlt : n.toNat < 16 ^ (63 + 1) := Nat.lt_of_lt_of_le n.isLt (by decide)
  rw [ftPrintHexValue, hn, printDigits_eq _ (by decide) hlt, numeral_eq_digits]
  rfl

/-! ### Figures and padding -/

section Texts
variable {k : Style} {n : BitVec 32} {flags : Flags}

/-- A precision that is not there is negative, and asks for no zeros. -/
theorem figures_eq (h : flags.Regular) (hk : k ≠ .octal) (v : Nat) :
    figures flags.layout k v =
      if flags.precision.toInt = 0 ∧ v = 0 then []
      else zeros (flags.precision.toInt.toNat - (numeral k.base k.upper v).length) ++
        numeral k.base k.upper v := by
  have hprec := h.precision
  rw [figures, if_neg fun hoct => hk hoct.1, precise]
  cases hdot : flags.dot with
  | false =>
    have hneg : flags.precision.toInt < 0 := by
      rw [hdot] at hprec
      by_contra hpos
      exact absurd (hprec.mpr (by omega)) (by decide)
    simp only [layout_precision, hdot, Bool.false_eq_true, if_false]
    rw [if_neg fun hzero => absurd hzero.1 (by omega), Int.toNat_of_nonpos (by omega), Nat.zero_sub]
    rfl
  | true =>
    have hpos := hprec.mp hdot
    have hiff : (v = 0 ∧ flags.precision.toInt.toNat = 0) ↔ (flags.precision.toInt = 0 ∧ v = 0) := by omega
    simp only [layout_precision, hdot, if_true, hiff]

theorem length_figures (h : flags.Regular) (hk : k ≠ .octal) {v : Nat}
    (hzero : ¬(flags.precision.toInt = 0 ∧ v = 0)) :
    (figures flags.layout k v).length =
      max flags.precision.toInt.toNat (numeral k.base k.upper v).length := by
  rw [figures_eq h hk, if_neg hzero, List.length_append, zeros, List.length_replicate]
  omega

/-- The length that a conversion computes from the number of digits is that of the figures. -/
theorem precise_length (h : flags.Regular) (hk : k ≠ .octal) {v : Nat} {len : BitVec 32}
    (hlen : len.toInt = (numeral k.base k.upper v).length)
    (hzero : ¬(flags.precision.toInt = 0 ∧ v = 0)) :
    (if (flags.dot && decide (len.toInt < flags.precision.toInt)) = true then flags.precision else len).toInt =
      (figures flags.layout k v).length := by
  have hprec := h.precision
  rw [length_figures h hk hzero]
  simp only [Bool.and_eq_true, decide_eq_true_eq]
  split
  · omega
  · rename_i hnot
    cases hdot : flags.dot with
    | false =>
      rw [hdot] at hprec
      have hneg : ¬0 ≤ flags.precision.toInt := fun hpos => absurd (hprec.mpr hpos) (by decide)
      omega
    | true =>
      rw [hdot] at hnot
      have : ¬len.toInt < flags.precision.toInt := fun hlt => hnot ⟨rfl, hlt⟩
      omega

theorem ftPrintWidth_eq {width len : BitVec 32} {m : Nat} (hm : (width.toInt - len.toInt).toNat = m) (zero : Bool) :
    ftPrintWidth width len zero = .write (if zero then zeros m else spaces m) := by
  rw [ftPrintWidth, hm]
  cases zero <;> rfl

theorem mark_signed (flags : Flags) (v : Int) :
    mark flags.layout .signed v =
      if v < 0 then cstr "-" else if flags.plus then cstr "+" else if flags.space then cstr " " else [] := rfl

theorem ftPrintSign_eq (n : BitVec 32) (flags : Flags) :
    ftPrintSign n flags = .write (mark flags.layout .signed n.toInt) := by
  rw [ftPrintSign, mark_signed]
  by_cases hneg : n.toInt < 0
  · rw [if_pos hneg, if_pos hneg]
    rfl
  · rw [if_neg hneg, if_neg hneg]
    cases flags.plus <;> cases flags.space <;> rfl

theorem ftCalcSignLen_eq (n : BitVec 32) (flags : Flags) :
    (ftCalcSignLen n flags).toInt = (mark flags.layout .signed n.toInt).length ∧
      (mark flags.layout .signed n.toInt).length ≤ 1 := by
  rw [ftCalcSignLen, mark_signed]
  by_cases hneg : n.toInt < 0
  · rw [if_pos hneg, if_pos hneg]
    decide
  · rw [if_neg hneg, if_neg hneg]
    cases flags.plus <;> cases flags.space <;> decide

theorem toInt_zero : (0 : BitVec 32).toInt = 0 := rfl

/-- A sign, a mark or one digit takes its place from the width. -/
theorem width_sub (h : flags.Regular) {len : BitVec 32} {m : Nat} (hlen : len.toInt = m) (hm : m ≤ 2) :
    (flags.width - len).toInt = flags.width.toInt - m := by
  have := h.width
  have := (CInt.fits_toInt flags.width).2
  rw [CInt.toInt_sub ⟨by omega, by omega⟩, hlen]

theorem padding_width {len signLen : BitVec 32} {m s : Nat} (hlen : len.toInt = m) (hsign : signLen.toInt = s)
    (h : m + s < 2 ^ 31) : (flags.width.toInt - (len + signLen).toInt).toNat = flags.layout.width - (s + m) := by
  rw [CInt.toInt_add ⟨by omega, by omega⟩, hlen, hsign, layout_width]
  omega

/-- The three layouts of a text: on the left, behind zeros, behind spaces. -/
theorem write_intText (flags : Flags) (k : Style) (v : Int) :
    Out.write (intText flags.layout k v) =
      let mark := mark flags.layout k v
      let figures := figures flags.layout k v.natAbs
      let rest := flags.layout.width - (mark.length + figures.length)
      if flags.left then .write (mark ++ figures ++ spaces rest)
      else if flags.zero && !flags.dot then .write (mark ++ zeros rest ++ figures)
      else .write (spaces rest ++ mark ++ figures) := by
  rw [intText]
  cases hleft : flags.left with
  | true => simp [pad, hleft]
  | false =>
    cases hz : flags.zero && !flags.dot with
    | true =>
      simp only [Bool.and_eq_true, Bool.not_eq_true'] at hz
      simp [hleft, hz.1, hz.2]
    | false =>
      have hnone : ¬(flags.zero = true ∧ flags.dot = false) := by
        intro hb
        rw [hb.1, hb.2] at hz
        cases hz
      simp [pad, hleft, hnone]

/-! ### The three conversions -/

theorem ftHandleZeroPrecision_eq (h : flags.Regular) (n : BitVec 32) :
    ftHandleZeroPrecision n flags = .write (pad flags.layout (mark flags.layout .signed n.toInt)) := by
  obtain ⟨hlen, hle⟩ := ftCalcSignLen_eq n flags
  have hwidth : ((flags.width - ftCalcSignLen n flags).toInt - (0 : BitVec 32).toInt).toNat =
      flags.layout.width - (mark flags.layout .signed n.toInt).length := by
    rw [width_sub h hlen (by omega), toInt_zero, layout_width]
    omega
  have hnone : (flags.plus || flags.space || decide (n.toInt < 0)) = false →
      mark flags.layout .signed n.toInt = [] := by
    intro hsign
    simp only [Bool.or_eq_false_iff, decide_eq_false_iff_not] at hsign
    simp only [mark_signed, hsign, if_false, Bool.false_eq_true]
  simp only [ftHandleZeroPrecision, ftPrintSign_eq, ftPrintWidth_eq hwidth]
  split
  · cases hleft : flags.left <;> simp [pad, hleft]
  · rename_i hsign
    have hmark := hnone (Bool.eq_false_iff.mpr hsign)
    rw [hmark, ftPrintWidth_eq (m := flags.layout.width) (by rw [toInt_zero, Int.sub_zero]; rfl)]
    cases hleft : flags.left <;> simp [pad, hleft]

/-- The zeros of the precision, and the digits. -/
theorem zeros_digits_eq (h : flags.Regular) (hk : k ≠ .octal) {v : Nat} {len : BitVec 32}
    (hlen : len.toInt = (numeral k.base k.upper v).length) (hzero : ¬(flags.precision.toInt = 0 ∧ v = 0)) :
    ftPrintWidth flags.precision len true ++ .write (numeral k.base k.upper v) =
      .write (figures flags.layout k v) := by
  have hzeros : (flags.precision.toInt - len.toInt).toNat =
      flags.precision.toInt.toNat - (numeral k.base k.upper v).length := by
    rw [hlen]
    omega
  rw [ftPrintWidth_eq hzeros, figures_eq h hk, if_neg hzero]
  exact Out.write_append _ _

theorem zero_of_guard (hprec : flags.precision = 0) (hn : n = 0) : flags.precision.toInt = 0 ∧ n.toNat = 0 := by
  rw [hprec, hn]
  exact ⟨rfl, rfl⟩

theorem intDigits_eq (h : flags.Regular) (hzero : ¬(flags.precision.toInt = 0 ∧ n.toInt.natAbs = 0)) :
    intDigits n (if n.toInt < 0 then -n else n) flags = .write (figures flags.layout .signed n.toInt.natAbs) := by
  have hlen := ftNbrLen_eq (show 1 < 10 by decide) false (BitVec.isLt (if n.toInt < 0 then -n else n))
  rw [CInt.toNat_abs] at hlen
  have hshown : (!(flags.dot && flags.precision == 0 && n == 0)) = true := by
    rw [Bool.not_eq_true', Bool.eq_false_iff]
    intro hguard
    simp only [Bool.and_eq_true, beq_iff_eq] at hguard
    obtain ⟨⟨-, hprec⟩, rfl⟩ := hguard
    exact hzero (zero_of_guard (n := 0) hprec rfl)
  rw [intDigits, hshown, if_pos rfl, ftPrintUnsignedNbr_eq, CInt.toNat_abs]
  exact zeros_digits_eq (k := .signed) h (by decide) hlen hzero

/-- The test for a precision of 0, which also looks for the precision that is not there. -/
theorem noDigits_iff (h : flags.Regular) :
    (flags.dot && (flags.precision == 0 || flags.precision == -1)) = true ↔ flags.precision.toInt = 0 := by
  have hprec := h.precision
  simp only [Bool.and_eq_true, Bool.or_eq_true, beq_iff_eq]
  constructor
  · rintro ⟨hdot, hp | hp⟩
    · rw [hp]
      rfl
    · have := hprec.mp hdot
      rw [hp] at this
      exact absurd this (by decide)
  · intro hp
    exact ⟨hprec.mpr (Int.le_of_eq hp.symm), Or.inl (BitVec.eq_of_toInt_eq hp)⟩

theorem ftPrintInt_eq (h : flags.Regular) (hc : Counted .int n flags) :
    ftPrintInt n flags = .write (intText flags.layout .signed n.toInt) := by
  have hwidth := h.width
  have hprec := h.precision
  obtain ⟨hsign, hle⟩ := ftCalcSignLen_eq n flags
  have hlen := ftNbrLen_eq (show 1 < 10 by decide) false (BitVec.isLt (if n.toInt < 0 then -n else n))
  rw [CInt.toNat_abs] at hlen
  by_cases hzero : flags.precision.toInt = 0 ∧ n.toInt.natAbs = 0
  · -- The number has no digits.
    obtain rfl : n = 0 := BitVec.eq_of_toInt_eq (Int.natAbs_eq_zero.mp hzero.2)
    have hdot : flags.dot = true := hprec.mpr (Int.le_of_eq hzero.1.symm)
    have hguard := (noDigits_iff h).mpr hzero.1
    have hfig : figures flags.layout .signed (0 : BitVec 32).toInt.natAbs = [] := by
      rw [figures_eq h (by decide), if_pos hzero]
    rw [ftPrintInt, hguard, if_pos (by decide), ftHandleZeroPrecision_eq h, intText]
    simp only [hfig, List.append_nil, layout_precision, hdot, if_true, reduceCtorEq, and_false, if_false]
  · have hguard : ¬(flags.dot && (flags.precision == 0 || flags.precision == -1) && n == 0) = true := by
      intro hguard
      rw [Bool.and_eq_true, noDigits_iff h, beq_iff_eq] at hguard
      exact hzero ⟨hguard.1, by rw [hguard.2]; rfl⟩
    have hnum := precise_length (k := .signed) h (by decide) hlen hzero
    have hfits := length_figures (k := .signed) h (by decide) hzero
    have hshort := length_numeral (show 1 < 10 by decide) false (BitVec.isLt (if n.toInt < 0 then -n else n))
    rw [CInt.toNat_abs] at hshort
    have hwide : (figures flags.layout .signed n.toInt.natAbs).length +
        (mark flags.layout .signed n.toInt).length < 2 ^ 31 := by
      by_cases hpos : 0 ≤ flags.precision.toInt
      · have hc := hc (hprec.mpr hpos)
        simp only [NumConv.style, NumConv.value, if_true] at hc
        simp only [Style.base, Style.upper] at hfits
        omega
      · simp only [Style.base, Style.upper] at hfits
        omega
    have hpad : (flags.width.toInt - _).toNat = _ := padding_width hnum hsign hwide
    simp only [ftPrintInt, CInt.toNat_abs, hguard, if_false, Bool.false_eq_true, ftPrintIntLalign, ftPrintIntRalign,
      ftPrintIntRalignZero, ftPrintIntRalignStd, intDigits_eq h hzero, ftPrintSign_eq, ftPrintWidth_eq hpad]
    rw [write_intText]
    simp only [Out.write_append, if_true]

theorem ftPrintUnsigned_eq (h : flags.Regular) :
    ftPrintUnsigned n flags = .write (intText flags.layout .unsigned n.toNat) := by
  have hlen := ftNbrLen_eq (show 1 < 10 by decide) false n.isLt
  have hmark : mark flags.layout .unsigned n.toNat = [] := rfl
  rw [write_intText, Int.natAbs_natCast, hmark]
  by_cases hzero : flags.precision.toInt = 0 ∧ n.toNat = 0
  · -- The number has no digits.
    obtain rfl : n = 0 := BitVec.eq_of_toNat_eq hzero.2
    have hdot : flags.dot = true := h.precision.mpr (Int.le_of_eq hzero.1.symm)
    have hguard := (noDigits_iff h).mpr hzero.1
    have hfig : figures flags.layout .unsigned (0 : BitVec 32).toNat = [] := by
      rw [figures_eq h (by decide), if_pos hzero]
    have hpad : (flags.width.toInt - (0 : BitVec 32).toInt).toNat = flags.layout.width := by
      rw [toInt_zero, Int.sub_zero, layout_width]
    rw [ftPrintUnsigned, hguard, if_pos (by decide), ftPrintWidth_eq hpad, hfig]
    cases flags.left <;> simp [hdot]
  · have hguard : ¬(flags.dot && (flags.precision == 0 || flags.precision == -1) && n == 0) = true := by
      intro hguard
      rw [Bool.and_eq_true, noDigits_iff h, beq_iff_eq] at hguard
      exact hzero ⟨hguard.1, by rw [hguard.2]; rfl⟩
    have hnum := precise_length (k := .unsigned) h (by decide) hlen hzero
    have hshown : ¬(n == 0 && flags.precision == 0) = true := by
      intro hguard
      rw [Bool.and_eq_true, beq_iff_eq, beq_iff_eq] at hguard
      exact hzero (zero_of_guard hguard.2 hguard.1)
    have hnonzero : ¬(flags.dot && flags.precision == 0 && n == 0) = true := by
      intro hguard
      simp only [Bool.and_eq_true, beq_iff_eq] at hguard
      exact hzero (zero_of_guard hguard.1.2 hguard.2)
    have hpad : (flags.width.toInt - (ftGetUnsignedLen n flags).toInt).toNat =
        flags.layout.width - (([] : List UInt8).length + (figures flags.layout .unsigned n.toNat).length) := by
      rw [ftGetUnsignedLen, if_neg hnonzero, hnum, layout_width, List.length_nil]
      omega
    have hdigits : ftPrintUnsignedPrecision n flags.precision = .write (figures flags.layout .unsigned n.toNat) := by
      rw [ftPrintUnsignedPrecision, if_neg hshown, ftPrintUnsignedNbr_eq]
      exact zeros_digits_eq (k := .unsigned) h (by decide) hlen hzero
    simp only [ftPrintUnsigned, hguard, if_false, Bool.false_eq_true, hdigits, ftPrintWidth_eq hpad, Out.write_append]
    cases flags.left <;> cases flags.zero && !flags.dot <;> simp

/-- The digits of a number that is not 0. -/
theorem ftPrintHexPrecision_eq (h : flags.Regular) {uppercase : Bool} (hn : n ≠ 0) :
    ftPrintHexPrecision n flags.precision uppercase = .write (figures flags.layout (.hex uppercase) n.toNat) := by
  have hlen := ftNbrLen_eq (show 1 < 16 by decide) uppercase n.isLt
  have hpos : n.toNat ≠ 0 := fun h0 => hn (BitVec.eq_of_toNat_eq h0)
  have hdigits := zeros_digits_eq (k := .hex uppercase) h (by simp) hlen fun hzero => hpos hzero.2
  have hne : (n == 0) = false := beq_eq_false_iff_ne.mpr hn
  simp only [ftPrintHexPrecision, hne, Bool.false_and, Bool.false_eq_true, if_false, ftPrintHexValue_eq]
  split
  · exact hdigits
  · rename_i hprec
    rw [← hdigits, ftPrintWidth, Int.toNat_of_nonpos (by omega)]
    rfl

/-- The mark, and its length. -/
theorem hexPrefixOf_eq (n : BitVec 32) (flags : Flags) (uppercase : Bool) :
    hexPrefixOf n flags uppercase = .write (mark flags.layout (.hex uppercase) n.toNat) ∧
      ((if (flags.hash && n != 0) = true then 2 else 0 : BitVec 32)).toInt =
        (mark flags.layout (.hex uppercase) n.toNat).length ∧
      (mark flags.layout (.hex uppercase) n.toNat).length ≤ 2 := by
  have hiff : (flags.hash && n != 0) = true ↔ flags.layout.alt = true ∧ (n.toNat : Int) ≠ 0 := by
    rw [Bool.and_eq_true, bne_iff_ne]
    refine and_congr_right fun _ => not_congr ?_
    rw [Int.natCast_eq_zero]
    exact ⟨fun h0 => by rw [h0]; rfl, fun h0 => BitVec.eq_of_toNat_eq h0⟩
  rw [hexPrefixOf, mark]
  by_cases hhash : (flags.hash && n != 0) = true
  · rw [if_pos hhash, if_pos hhash, if_pos (hiff.mp hhash)]
    cases uppercase <;> exact ⟨rfl, rfl, by decide⟩
  · rw [if_neg hhash, if_neg hhash, if_neg (mt hiff.mpr hhash)]
    exact ⟨rfl, rfl, Nat.zero_le _⟩

/-- A precision above 0 makes zeros of the number 0. -/
theorem figures_zero (h : flags.Regular) (hk : k ≠ .octal) (hprec : 0 < flags.precision.toInt) :
    figures flags.layout k 0 = zeros flags.precision.toInt.toNat := by
  have hsucc : flags.precision.toInt.toNat = flags.precision.toInt.toNat - 1 + 1 := by omega
  rw [figures_eq h hk, if_neg fun hzero => absurd hzero.1 (by omega), numeral, if_pos rfl, List.length_singleton]
  conv_rhs => rw [hsucc, zeros, List.replicate_succ']
  rfl

theorem ftPrintHexZeroWithDot_eq (h : flags.Regular) (hdot : flags.dot = true) (uppercase : Bool) :
    ftPrintHexZeroWithDot flags uppercase = .write (intText flags.layout (.hex uppercase) 0) := by
  have hpos := h.precision.mp hdot
  have hmark : mark flags.layout (.hex uppercase) 0 = [] := if_neg fun hzero => hzero.2 rfl
  have hguard := noDigits_iff h
  rw [hdot, Bool.true_and] at hguard
  rw [write_intText, hmark, ftPrintHexZeroWithDot]
  by_cases hprec : flags.precision.toInt = 0
  · have hfig : figures flags.layout (.hex uppercase) (0 : Int).natAbs = [] := by
      rw [figures_eq h (by simp), if_pos ⟨hprec, rfl⟩]
    have hpad : (flags.width.toInt - (0 : BitVec 32).toInt).toNat = flags.layout.width := by
      rw [toInt_zero, Int.sub_zero, layout_width]
    rw [if_pos (hguard.mpr hprec), ftPrintWidth_eq hpad, hfig]
    cases flags.left <;> simp [hdot]
  · have hfig : figures flags.layout (.hex uppercase) (0 : Int).natAbs = zeros flags.precision.toInt.toNat :=
      figures_zero h (by simp) (by omega)
    have hzeros : ftPrintHexPrecision 0 flags.precision uppercase = .write (zeros flags.precision.toInt.toNat) := by
      have hne : ¬flags.precision = -1 := fun heq => by
        rw [heq] at hpos
        exact absurd hpos (by decide)
      have hlt : 0 < flags.precision.toInt := by omega
      have hm : (flags.precision.toInt - (0 : BitVec 32).toInt).toNat = flags.precision.toInt.toNat := by
        rw [toInt_zero, Int.sub_zero]
      simp only [ftPrintHexPrecision, beq_self_eq_true, Bool.true_and, beq_iff_eq, hne, if_false, hlt, decide_true,
        if_true, ftPrintWidth_eq hm]
    have hpad : (flags.width.toInt - flags.precision.toInt).toNat =
        flags.layout.width - (([] : List UInt8).length + (zeros flags.precision.toInt.toNat).length) := by
      rw [layout_width, zeros, List.length_replicate, List.length_nil]
      omega
    rw [if_neg (mt hguard.mp hprec), hfig, hzeros, ftPrintWidth_eq hpad]
    cases flags.left <;> simp [hdot]

theorem ftPrintHexZeroRegular_eq (h : flags.Regular) (hdot : flags.dot = false) (uppercase : Bool) :
    ftPrintHexZeroRegular flags = .write (intText flags.layout (.hex uppercase) 0) := by
  have hneg : ¬0 ≤ flags.precision.toInt := fun hpos => by
    rw [h.precision.mpr hpos] at hdot
    cases hdot
  have hmark : mark flags.layout (.hex uppercase) 0 = [] := if_neg fun hzero => hzero.2 rfl
  have hfig : figures flags.layout (.hex uppercase) (0 : Int).natAbs = [chr '0'] := by
    rw [figures_eq h (by simp), if_neg fun hzero => absurd hzero.1 (by omega), Int.toNat_of_nonpos (by omega),
      Nat.zero_sub]
    rfl
  have hpad : ((flags.width - 1).toInt - (0 : BitVec 32).toInt).toNat =
      flags.layout.width - (([] : List UInt8).length + [chr '0'].length) := by
    rw [width_sub h (m := 1) (show (1 : BitVec 32).toInt = 1 from rfl) (by decide), toInt_zero, layout_width]
    simp only [List.length_nil, List.length_singleton]
    omega
  rw [write_intText, hmark, hfig]
  simp only [ftPrintHexZeroRegular, ftPrintWidth_eq hpad, ftPrintC, Out.write_append]
  cases flags.left <;> cases flags.zero <;> simp [hdot]

theorem ftPrintHexZero_eq (h : flags.Regular) (uppercase : Bool) :
    ftPrintHexZero flags uppercase = .write (intText flags.layout (.hex uppercase) 0) := by
  unfold ftPrintHexZero
  split
  · exact ftPrintHexZeroWithDot_eq h ‹_› uppercase
  · exact ftPrintHexZeroRegular_eq h (Bool.eq_false_iff.mpr ‹_›) uppercase

/-- The conversion of a number that is not 0, with the case of the letters in `spec`. -/
theorem printHex_eq (h : flags.Regular) {uppercase : Bool} (hspec : (flags.spec == chr 'X') = uppercase) (hn : n ≠ 0)
    {hexLen prefixLen : BitVec 32} (hlen : hexLen.toInt = (figures flags.layout (.hex uppercase) n.toNat).length)
    (hmark : prefixLen.toInt = (mark flags.layout (.hex uppercase) n.toNat).length)
    (hle : (mark flags.layout (.hex uppercase) n.toNat).length ≤ 2) :
    (if flags.left then ftPrintHexLeft n hexLen prefixLen flags else ftPrintHexRight n hexLen prefixLen flags) =
      .write (intText flags.layout (.hex uppercase) n.toNat) := by
  have hpad : ((flags.width - prefixLen).toInt - hexLen.toInt).toNat =
      flags.layout.width - ((mark flags.layout (.hex uppercase) n.toNat).length +
        (figures flags.layout (.hex uppercase) n.toNat).length) := by
    rw [width_sub h hmark hle, hlen, layout_width]
    omega
  rw [write_intText, Int.natAbs_natCast]
  simp only [ftPrintHexLeft, ftPrintHexRight, hspec, (hexPrefixOf_eq n flags uppercase).1, ftPrintHexPrecision_eq h hn,
    ftPrintWidth_eq hpad, Out.write_append, if_true, Bool.false_eq_true, if_false]
  cases flags.left <;> cases flags.zero && !flags.dot <;> simp

theorem ftPrintHexFormat_eq (h : flags.Regular) (uppercase : Bool) :
    ftPrintHexFormat n uppercase flags = .write (intText flags.layout (.hex uppercase) n.toNat) := by
  have h' : Flags.Regular { flags with spec := if uppercase then chr 'X' else chr 'x' } := ⟨h.width, h.precision⟩
  have hspec : ((if uppercase = true then chr 'X' else chr 'x') == chr 'X') = uppercase := by
    cases uppercase <;> decide
  unfold ftPrintHexFormat
  by_cases hn : n = 0
  · subst hn
    rw [if_pos (by decide)]
    exact ftPrintHexZero_eq h' uppercase
  · have hpos : n.toNat ≠ 0 := fun h0 => hn (BitVec.eq_of_toNat_eq h0)
    obtain ⟨-, hmark, hle⟩ := hexPrefixOf_eq n flags uppercase
    have hlen := ftNbrLen_eq (show 1 < 16 by decide) uppercase n.isLt
    have hnum := precise_length (k := .hex uppercase) h (by simp) hlen fun hzero => hpos hzero.2
    rw [if_neg (by simpa using hn)]
    exact printHex_eq h' hspec hn hnum hmark hle

/-- What the conversion writes is C's text, in the given case. -/
theorem run_eq {k : NumConv} (h : flags.Regular) (hc : k = .int → Counted k n flags) :
    k.run n flags = .write (intText flags.layout k.style (k.value n)) := by
  cases k with
  | int => exact ftPrintInt_eq h (hc rfl)
  | unsigned => exact ftPrintUnsigned_eq h
  | hex uppercase => exact ftPrintHexFormat_eq h uppercase

theorem NumConv.style_ne (k : NumConv) : k.style ≠ .octal := by cases k <;> simp [style]

theorem NumConv.natAbs_lt (k : NumConv) (n : BitVec 32) : (k.value n).natAbs < 2 ^ 32 := by
  have := n.isLt
  obtain ⟨_, _⟩ := CInt.fits_toInt n
  unfold value
  split <;> omega

theorem length_mark_le (l : Layout) (k : Style) (v : Int) : (mark l k v).length ≤ 2 := by
  unfold mark
  split
  · split
    · decide
    · split
      · decide
      · split <;> decide
  · split
    · split <;> decide
    · exact Nat.zero_le _
  · exact Nat.zero_le _

/-- The width and the digits are `int`s, and so is the precision with the mark. -/
theorem length_text_lt {k : NumConv} (h : flags.Regular) (hc : Counted k n flags) :
    (intText flags.layout k.style (k.value n)).length < 2 ^ 31 := by
  have hwidth := (CInt.fits_toInt flags.width).2
  have hmark := length_mark_le flags.layout k.style (k.value n)
  have hnum := length_numeral k.style.base_ok.1 k.style.upper (k.natAbs_lt n)
  have hfig : (figures flags.layout k.style (k.value n).natAbs).length ≤
      max flags.precision.toInt.toNat (numeral k.style.base k.style.upper (k.value n).natAbs).length := by
    by_cases hzero : flags.precision.toInt = 0 ∧ (k.value n).natAbs = 0
    · rw [figures_eq h k.style_ne, if_pos hzero]
      exact Nat.zero_le _
    · exact Nat.le_of_eq (length_figures h k.style_ne hzero)
  rw [length_intText, layout_width]
  by_cases hpos : 0 ≤ flags.precision.toInt
  · have := hc (h.precision.mpr hpos)
    omega
  · omega

/-- A count that is right counts no more than an `int` can hold. -/
theorem counted_of_rendered {k : NumConv} (h : flags.Regular) (hr : Rendered k n flags) : Counted k n flags := by
  intro hdot
  obtain ⟨hbytes, hcount⟩ := hr
  have hpos := h.precision.mp hdot
  have hmark := length_mark_le flags.layout k.style (k.value n)
  have hlt := (CInt.fits_toInt (k.run n flags).count).2
  rw [hcount, hbytes, length_intText] at hlt
  by_cases hzero : flags.precision.toInt = 0 ∧ (k.value n).natAbs = 0
  · omega
  · rw [length_figures h k.style_ne hzero] at hlt
    omega

end Texts

/-- The numeric conversions write C's text and return its length exactly when the sign or the mark and the precision
    together are an `int`. -/
theorem rendered_iff (k : NumConv) (n : BitVec 32) (flags : Flags) (h : flags.Regular) :
    Rendered k n flags ↔ Counted k n flags := by
  refine ⟨counted_of_rendered h, fun hc => ?_⟩
  have hrun := run_eq h fun _ => hc
  rw [Rendered, hrun]
  exact ⟨rfl, CInt.toInt_ofNat (length_text_lt h hc)⟩

/-- `%+8.3d` of the lowest `int`. -/
theorem rendered_intMin : Rendered .int (-2147483648) { plus := true, dot := true, width := 8, precision := 3 } :=
  (rendered_iff _ _ _ ⟨by decide, by decide⟩).mpr fun _ => by decide

/-- `%.2147483647d` of -1: with the sign the length is no `int`. -/
theorem rendered_overflows :
    ∃ flags : Flags, flags.Regular ∧ flags.precision.toInt = 2147483647 ∧ ¬Rendered .int (-1) flags := by
  have h : Flags.Regular { dot := true, precision := 2147483647 } := ⟨by decide, by decide⟩
  exact ⟨_, h, rfl, fun hr => absurd (counted_of_rendered h hr rfl) (by decide)⟩

end Minitalk.Printf
