import Minitalk.Lib.CPrintf
import Minitalk.Lib.Radix
import Minitalk.Log.Format

/-! # The integer conversions of the log

`buffer_append_int_formatted` shows the sign and the digits and nothing else: the width, the precision, `#`, `-` and
`0` are parsed and not used, and `+` and space are shown for unsigned conversions too. -/

namespace Minitalk.Log
open CText CPrintf

/-- The integer conversions. -/
inductive IntSpec where
  | decimal
  | integer
  | unsigned
  | hexLower
  | hexUpper
  | octal
deriving DecidableEq

namespace IntSpec

def action : IntSpec → SpecAction
  | decimal => specDecimal
  | integer => specInteger
  | unsigned => specUnsigned
  | hexLower => specHexLower
  | hexUpper => specHexUpper
  | octal => specOctal

def style : IntSpec → Style
  | decimal | integer => .signed
  | unsigned => .unsigned
  | hexLower => .hex false
  | hexUpper => .hex true
  | octal => .octal

/-- The argument, as an `int` or an `unsigned int`. -/
def value (k : IntSpec) (arg : Arg) : Int := if k.style = .signed then arg.int.toInt else arg.int.toNat

end IntSpec

/-- What the spec asks of C's `printf`. -/
def FormatSpec.layout (spec : FormatSpec) : Layout where
  left := spec.leftAlign
  plus := spec.showSign
  space := spec.spacePrefix
  alt := spec.altForm
  zero := spec.zeroPad
  width := spec.width.toInt.toNat
  precision := if spec.hasPrecision then some spec.precision.toInt.toNat else none

/-- How many digits the value has in the notation of the conversion. -/
def IntSpec.digits (k : IntSpec) (v : Int) : Nat := (numeral k.style.base k.style.upper v.natAbs).length

/-- Nothing is asked for that is not shown, and nothing is shown that is not asked for. -/
def IntSpec.Honoured (k : IntSpec) (spec : FormatSpec) (v : Int) : Prop :=
  (spec.altForm = true → k = .octal ∨ k = .hexLower ∨ k = .hexUpper → v = 0) ∧
    (spec.hasPrecision = true → spec.precision.toInt ≤ k.digits v ∧
      (v = 0 → spec.precision.toInt ≤ 0 → k = .octal ∧ spec.altForm = true)) ∧
    if k.style = .signed then
      spec.width.toInt ≤ k.digits v + (if v < 0 ∨ spec.showSign = true ∨ spec.spacePrefix = true then 1 else 0)
    else
      spec.showSign = false ∧
        if spec.spacePrefix = true then
          spec.width.toInt = k.digits v + 1 ∧ spec.leftAlign = false ∧
            (spec.zeroPad = true → spec.hasPrecision = true)
        else spec.width.toInt ≤ k.digits v

/-! ### What the code shows -/

section Shown
variable {k : IntSpec} {spec : FormatSpec} {v : Int} {b : TBuffer}

theorem digitLoop_eq {base : Nat} (hbase : 1 < base) (upper : Bool) {fuel n : Nat} (h : n < base ^ fuel) :
    digitLoop base upper fuel n = (Nat.digits base n).map (digitChar upper) := by
  refine Radix.quotient_induction (motive := fun fuel n => digitLoop base upper fuel n =
    (Nat.digits base n).map (digitChar upper)) hbase ?_ ?_ h
  · intro fuel
    cases fuel <;> simp [digitLoop]
  · intro fuel n hn hdigits ih
    rw [digitLoop, if_pos hn, ih, hdigits]
    rfl

theorem convertToString_reverse {base : Nat} (hbase : 1 < base) (upper : Bool) {n : Nat} (h : n < base ^ 64) :
    (convertToString n base upper).reverse = numeral base upper n := by
  unfold convertToString numeral
  by_cases hn : n = 0
  · simp [hn]
  · have hne : (n : Int) ≠ 0 := by omega
    rw [if_neg hne, if_neg hn, Int.toNat_natCast, digitLoop_eq hbase upper h]

/-- The sign that the code shows: a space or `+` also where the conversion is unsigned. -/
def IntSpec.sign (spec : FormatSpec) (v : Int) : List UInt8 := signPrefix spec (decide (v < 0))

def IntSpec.shown (k : IntSpec) (spec : FormatSpec) (v : Int) : List UInt8 :=
  IntSpec.sign spec v ++ numeral k.style.base k.style.upper v.natAbs

theorem signPrefix_reverse (spec : FormatSpec) (neg : Bool) : (signPrefix spec neg).reverse = signPrefix spec neg := by
  unfold signPrefix
  repeat' split
  all_goals rfl

theorem IntSpec.value_range (k : IntSpec) (arg : Arg) :
    (k.value arg).natAbs < 2 ^ 32 ∧ (k.style ≠ .signed → 0 ≤ k.value arg) := by
  unfold value
  have := arg.int.isLt
  have := BitVec.toInt_lt (x := arg.int)
  have := BitVec.le_toInt (x := arg.int)
  split
  · exact ⟨by omega, fun h => absurd ‹_› h⟩
  · exact ⟨by omega, fun _ => by omega⟩

theorem toInt_signExtend_int (x : BitVec 32) :
    (x.signExtend 64).toInt = x.toInt ∧ x.signExtend 64 ≠ BitVec.intMin 64 := by
  have hsame : (x.signExtend 64).toInt = x.toInt := BitVec.toInt_signExtend_of_le (by decide)
  refine ⟨hsame, fun hmin => ?_⟩
  have hlow := BitVec.le_toInt x
  rw [← hsame, hmin] at hlow
  exact absurd hlow (by decide)

theorem toInt_setWidth_int (x : BitVec 32) :
    (x.setWidth 64).toInt = x.toNat ∧ x.setWidth 64 ≠ BitVec.intMin 64 := by
  have hlt := x.isLt
  have hsame : (x.setWidth 64).toInt = x.toNat := by
    rw [BitVec.toInt_eq_toNat_of_lt (by rw [BitVec.toNat_setWidth]; omega), BitVec.toNat_setWidth]
    omega
  refine ⟨hsame, fun hmin => ?_⟩
  rw [hmin] at hsame
  have hneg : (BitVec.intMin 64).toInt < 0 := by decide
  omega

/-- The negation of a `long long` other than the smallest one is that of its number. -/
theorem formatNumber_eq {num : BitVec 64} {base : Nat} (hbase : 1 < base)
    (hnum : num.toInt = v ∧ num ≠ BitVec.intMin 64)
    (hneg : v < 0 → (spec.specifier == chr 'd' || spec.specifier == chr 'i') = true) :
    formatNumber num spec base =
      signPrefix spec (decide (v < 0)) ++ numeral base (spec.specifier == chr 'X') v.natAbs := by
  obtain ⟨rfl, hmin⟩ := hnum
  have hsign : (decide (num.toInt < 0) && (spec.specifier == chr 'd' || spec.specifier == chr 'i')) =
      decide (num.toInt < 0) := by
    by_cases hnum : num.toInt < 0
    · rw [hneg hnum, Bool.and_true]
    · simp [hnum]
  have habs : (if decide (num.toInt < 0) = true then -num else num).toInt = (num.toInt.natAbs : Int) := by
    split
    · rename_i hnum
      have := of_decide_eq_true hnum
      rw [BitVec.toInt_neg_of_ne_intMin hmin]
      omega
    · rename_i hnum
      have : ¬num.toInt < 0 := fun hlt => hnum (decide_eq_true hlt)
      omega
  have hlow := BitVec.le_toInt num
  have hhigh := num.toInt_lt
  have hpow : num.toInt.natAbs < base ^ 64 :=
    Nat.lt_of_lt_of_le (show num.toInt.natAbs < 2 ^ 64 by omega) (Nat.pow_le_pow_left hbase 64)
  simp only [formatNumber, hsign, habs]
  rw [List.reverse_append, signPrefix_reverse, convertToString_reverse hbase _ hpow]

theorem IntSpec.run_eq (k : IntSpec) (arg : Arg) (spec : FormatSpec) (b : TBuffer) :
    k.action.run arg spec b = b.append 1023 (k.shown spec (k.value arg)) := by
  have hbase := k.style.base_ok.1
  cases k with
  | decimal | integer =>
    simp only [action, specDecimal, specInteger, SpecAction.run, bufferAppendIntFormatted, bufferAppendStr_eq, if_true]
    exact congrArg (b.append 1023) (formatNumber_eq hbase (toInt_signExtend_int arg.int) fun _ => rfl)
  | unsigned | hexLower | hexUpper | octal =>
    have hneg : ¬((arg.int.toNat : Int) < 0) := by omega
    simp only [action, specUnsigned, specHexLower, specHexUpper, specOctal, SpecAction.run, bufferAppendIntFormatted,
      bufferAppendStr_eq, Bool.false_eq_true, if_false]
    exact congrArg (b.append 1023) (formatNumber_eq hbase (toInt_setWidth_int arg.int) fun h => absurd h hneg)

end Shown

/-! ### When that is C's text -/

section Honoured
variable {l : Layout} {k : Style} {v : Int}

theorem digit_ne_space {c : UInt8} (h : c ∈ cstr "0123456789ABCDEFabcdef") : c ≠ chr ' ' := by
  rintro rfl
  exact absurd h (by decide)

/-- The sign and the digits are C's text of a signed number. -/
theorem signed_iff :
    mark l .signed v ++ numeral 10 false v.natAbs = CPrintf.intText l .signed v ↔
      Plain l .signed v.natAbs ∧ l.width ≤ (mark l .signed v).length + (numeral 10 false v.natAbs).length := by
  have hmark : ∀ c ∈ mark l .signed v, c ∈ cstr "-+ " := by
    simp only [mark]
    repeat' split
    all_goals decide +kernel
  constructor
  · intro h
    have hlen := congrArg List.length h
    rw [length_intText, List.length_append] at hlen
    rcases figures_cases l .signed v.natAbs with ⟨hplain, hfig⟩ | ⟨-, ⟨hzero, hprec, hnil⟩ | ⟨j, hfig⟩⟩
    · exact ⟨hplain, by omega⟩
    · exact absurd (hmark _ (zero_mem_mark (k := .signed) h hzero hprec hnil)) (by decide)
    · rw [hfig, List.length_append, zeros, List.length_replicate] at hlen
      simp only [Style.base, Style.upper] at hlen
      omega
  · rintro ⟨hplain, hwidth⟩
    have hfig : figures l .signed v.natAbs = numeral 10 false v.natAbs := figures_of_plain hplain
    rw [intText_of_le (by rwa [hfig]), hfig]

/-- The sign that the flags ask for. -/
def flagSign (l : Layout) : List UInt8 := if l.plus then cstr "+" else if l.space then cstr " " else []

theorem mem_mark_of_unsigned (hk : k ≠ .signed) {c : UInt8} (hc : c ∈ mark l k v) : c ∈ cstr "0xX" := by
  have hall : ∀ c ∈ mark l k v, c ∈ cstr "0xX" := by
    cases k with
    | signed => exact absurd rfl hk
    | unsigned | octal => simp [mark]
    | hex upper =>
      simp only [mark]
      repeat' split
      all_goals decide +kernel
  exact hall c hc

/-- C shows neither `+` nor, without a mark, a letter that is no digit. -/
theorem flagSign_unsigned (hk : k ≠ .signed)
    (h : flagSign l ++ numeral k.base k.upper v.natAbs = CPrintf.intText l k v) :
    l.plus = false ∧ mark l k v = [] := by
  constructor
  · cases hp : l.plus with
    | false => rfl
    | true =>
      have hmem : chr '+' ∈ CPrintf.intText l k v := by
        rw [← h, flagSign, if_pos hp]
        exact List.mem_append_left _ (by decide)
      rcases mem_intText hmem with h' | h' | h' | h'
      · exact absurd h' (by decide)
      · exact absurd h' (by decide)
      · exact absurd (mem_mark_of_unsigned hk h') (by decide)
      · exact absurd (mem_figures h') (by decide)
  · by_contra hne
    obtain ⟨x, hx, hmark⟩ : ∃ x ∈ mark l k v, x = chr 'x' ∨ x = chr 'X' := by
      cases k with
      | signed => exact absurd rfl hk
      | unsigned | octal => exact absurd rfl hne
      | hex upper =>
        simp only [mark] at hne ⊢
        split at hne
        · rw [if_pos ‹_›]
          cases upper with
          | true => exact ⟨chr 'X', by decide, Or.inr rfl⟩
          | false => exact ⟨chr 'x', by decide, Or.inl rfl⟩
        · exact absurd rfl hne
    have hmem : x ∈ flagSign l ++ numeral k.base k.upper v.natAbs := by
      rw [h]
      simp only [CPrintf.intText, pad]
      repeat' split
      all_goals simp [hx]
    rcases List.mem_append.mp hmem with h' | h'
    · have hsign : ∀ c ∈ flagSign l, c ∈ cstr "+ " := by
        unfold flagSign
        repeat' split
        all_goals decide +kernel
      rcases hmark with rfl | rfl <;> exact absurd (hsign _ h') (by decide)
    · have := numeral_chars k.base_ok.1 k.base_ok.2 h'
      rcases hmark with rfl | rfl <;> exact absurd this (by decide)

/-- One space in front is C's text when it is the padding. -/
theorem space_iff {text : List UInt8} (hne : text ≠ []) (hhead : text.head? ≠ some (chr ' '))
    (hmark : mark l k v = []) (hfig : figures l k v.natAbs = text) :
    chr ' ' :: text = CPrintf.intText l k v ↔
      l.width = text.length + 1 ∧ l.left = false ∧ (l.zero = true → l.precision ≠ none) := by
  obtain ⟨d, ds, rfl⟩ := List.exists_cons_of_ne_nil hne
  have hd : chr ' ' ≠ d := fun hd => hhead (by rw [hd]; rfl)
  simp only [CPrintf.intText, hmark, hfig, List.nil_append, List.length_nil, Nat.zero_add]
  constructor
  · intro h
    have hlen := congrArg List.length h
    split at h
    · -- Zeros in front, or nothing.
      rw [if_pos ‹_›] at hlen
      simp only [List.length_append, zeros, List.length_replicate, List.length_cons] at hlen h
      obtain ⟨n, hn⟩ : ∃ n, l.width - (ds.length + 1) = n + 1 := ⟨l.width - (ds.length + 1) - 1, by omega⟩
      rw [hn, List.replicate_succ, List.cons_append] at h
      exact absurd (List.cons.inj h).1 (by decide)
    · rename_i hzero
      rw [if_neg hzero, length_pad, List.length_cons] at hlen
      cases hleft : l.left with
      | true =>
        rw [pad, if_pos hleft, List.cons_append] at h
        exact absurd (List.cons.inj h).1 hd
      | false => exact ⟨by omega, rfl, fun hz hprec => hzero ⟨hz, hleft, hprec⟩⟩
  · rintro ⟨hwidth, hleft, hzero⟩
    have hpad : ¬(l.zero = true ∧ l.left = false ∧ l.precision = none) := fun hz => hzero hz.1 hz.2.2
    rw [if_neg hpad, pad, hleft, hwidth, Nat.add_sub_cancel_left]
    rfl

theorem numeral_head_ne_space (k : Style) (n : Nat) : (numeral k.base k.upper n).head? ≠ some (chr ' ') := by
  intro h
  exact digit_ne_space (numeral_chars k.base_ok.1 k.base_ok.2 (List.mem_of_mem_head? h)) rfl

theorem flagSign_of_not_plus (hplus : l.plus = false) : flagSign l = if l.space = true then cstr " " else [] := by
  rw [flagSign, hplus]
  rfl

/-- Where C shows a zero in front of the digits, the text of the code is too short or begins with a space. -/
theorem ne_of_zeros {j : Nat} (hmark : mark l k v = []) (hplus : l.plus = false)
    (hfig : figures l k v.natAbs = zeros (j + 1) ++ numeral k.base k.upper v.natAbs) :
    flagSign l ++ numeral k.base k.upper v.natAbs ≠ CPrintf.intText l k v := by
  intro h
  have hnum := List.length_pos_of_ne_nil (numeral_ne_nil k.base k.upper v.natAbs)
  have hlen := congrArg List.length h
  rw [length_intText, List.length_append, hmark, List.length_nil, Nat.zero_add, hfig, List.length_append, zeros,
    List.length_replicate] at hlen
  rw [flagSign_of_not_plus hplus] at h hlen
  split at h
  · rename_i hspace
    rw [if_pos hspace] at hlen
    have hone : (cstr " ").length = 1 := rfl
    have hwidth : l.width ≤ (mark l k v).length + (figures l k v.natAbs).length := by
      rw [hfig, List.length_append, zeros, List.length_replicate]
      omega
    rw [intText_of_le hwidth, hmark, hfig, zeros, List.replicate_succ] at h
    exact absurd (List.cons.inj h).1 (by decide)
  · rename_i hspace
    rw [if_neg hspace, List.length_nil] at hlen
    omega

/-- The same for the other styles, which have no sign in C. -/
theorem unsigned_iff (hk : k ≠ .signed) :
    flagSign l ++ numeral k.base k.upper v.natAbs = CPrintf.intText l k v ↔
      mark l k v = [] ∧ Plain l k v.natAbs ∧ l.plus = false ∧
        if l.space = true then
          l.width = (numeral k.base k.upper v.natAbs).length + 1 ∧ l.left = false ∧
            (l.zero = true → l.precision ≠ none)
        else l.width ≤ (numeral k.base k.upper v.natAbs).length := by
  have hhead := numeral_head_ne_space k v.natAbs
  constructor
  · intro h
    obtain ⟨hplus, hmark⟩ := flagSign_unsigned hk h
    rcases figures_cases l k v.natAbs with ⟨hplain, hfig⟩ | ⟨-, ⟨hzero, hprec, hnil⟩ | ⟨j, hfig⟩⟩
    · refine ⟨hmark, hplain, hplus, ?_⟩
      rw [flagSign_of_not_plus hplus] at h
      split
      · rw [if_pos ‹_›] at h
        exact (space_iff (numeral_ne_nil _ _ _) hhead hmark hfig).mp h
      · have hlen := congrArg List.length h
        rw [if_neg ‹_›, length_intText, hmark, hfig, List.nil_append, List.length_nil] at hlen
        omega
    · have hmem := zero_mem_mark h hzero hprec hnil
      rw [hmark] at hmem
      cases hmem
    · exact absurd h (ne_of_zeros hmark hplus hfig)
  · rintro ⟨hmark, hplain, hplus, hwidth⟩
    have hfig := figures_of_plain hplain
    rw [flagSign_of_not_plus hplus]
    split
    · rw [if_pos ‹_›] at hwidth
      exact (space_iff (numeral_ne_nil _ _ _) hhead hmark hfig).mpr hwidth
    · rw [if_neg ‹_›] at hwidth
      rw [intText_of_le (by rw [hmark, hfig, List.length_nil]; omega), hmark, hfig]

/-! ### The condition, in the fields of the spec -/

variable {n : IntSpec} {spec : FormatSpec}

theorem plain_iff (n : IntSpec) (spec : FormatSpec) (v : Int) :
    Plain spec.layout n.style v.natAbs ↔
      (spec.altForm = true → n = .octal → v = 0) ∧
        (spec.hasPrecision = true → spec.precision.toInt ≤ n.digits v ∧
          (v = 0 → spec.precision.toInt ≤ 0 → n = .octal ∧ spec.altForm = true)) := by
  have hoct : n.style = .octal ↔ n = .octal := by cases n <;> simp [IntSpec.style]
  have hzero : v.natAbs = 0 ↔ v = 0 := Int.natAbs_eq_zero
  have hprec : spec.precision.toInt.toNat = 0 ↔ spec.precision.toInt ≤ 0 := Int.toNat_eq_zero
  have hle : spec.precision.toInt.toNat ≤ n.digits v ↔ spec.precision.toInt ≤ n.digits v := Int.toNat_le
  unfold IntSpec.digits at hle ⊢
  rw [Plain, hoct]
  refine and_congr ⟨fun h ha ho => hzero.mp (h ho ha), fun h ho ha => hzero.mpr (h ha ho)⟩ ?_
  cases hp : spec.hasPrecision with
  | false => simp [FormatSpec.layout, hp]
  | true =>
    simp only [FormatSpec.layout, hp, if_true, Option.some.injEq, forall_eq', forall_true_left, hzero, hprec, hle]

theorem mark_nil_iff (hn : n.style ≠ .signed) :
    mark spec.layout n.style v = [] ↔ (spec.altForm = true → n = .hexLower ∨ n = .hexUpper → v = 0) := by
  have hhex : ∀ upper : Bool, mark spec.layout (.hex upper) v = [] ↔ (spec.altForm = true → v = 0) := by
    intro upper
    by_cases h : spec.altForm = true ∧ v ≠ 0
    · have hmark : mark spec.layout (.hex upper) v = if upper then cstr "0X" else cstr "0x" := if_pos h
      rw [hmark]
      cases upper <;> simp [h, cstr]
    · have hmark : mark spec.layout (.hex upper) v = [] := if_neg h
      exact ⟨fun _ ha => by_contra fun hv => h ⟨ha, hv⟩, fun _ => hmark⟩
  cases n with
  | decimal | integer => exact absurd rfl hn
  | unsigned | octal => simp [IntSpec.style, mark]
  | hexLower | hexUpper => simpa [IntSpec.style] using hhex _

theorem sign_signed : IntSpec.sign spec v = mark spec.layout .signed v := by
  simp only [IntSpec.sign, signPrefix, mark, FormatSpec.layout, decide_eq_true_eq]
  rfl

theorem length_mark_signed :
    (mark spec.layout .signed v).length =
      if v < 0 ∨ spec.showSign = true ∨ spec.spacePrefix = true then 1 else 0 := by
  simp only [mark, FormatSpec.layout]
  by_cases hv : v < 0
  · simp [hv, cstr]
  · by_cases hp : spec.showSign = true
    · simp [hv, hp, cstr]
    · by_cases hs : spec.spacePrefix = true <;> simp [hv, hp, hs, cstr]

theorem sign_unsigned (hv : 0 ≤ v) : IntSpec.sign spec v = flagSign spec.layout := by
  have hneg : decide (v < 0) = false := decide_eq_false (by omega)
  rw [IntSpec.sign, hneg]
  rfl

theorem honoured_iff (n : IntSpec) (spec : FormatSpec) (v : Int) (hpos : n.style ≠ .signed → 0 ≤ v) :
    n.shown spec v = CPrintf.intText spec.layout n.style v ↔ n.Honoured spec v := by
  by_cases hn : n.style = .signed
  · have hoct : n ≠ .octal ∧ n ≠ .hexLower ∧ n ≠ .hexUpper := by cases n <;> simp_all [IntSpec.style]
    have hdigits : n.digits v = (numeral 10 false v.natAbs).length := by rw [IntSpec.digits, hn]; rfl
    have hplain := plain_iff n spec v
    rw [hn] at hplain
    rw [IntSpec.shown, hn, sign_signed]
    refine signed_iff.trans ?_
    rw [hplain, length_mark_signed, ← hdigits, IntSpec.Honoured, if_pos hn]
    simp only [hoct.1, hoct.2.1, hoct.2.2, or_self, false_implies, implies_true, true_and, FormatSpec.layout]
    refine and_congr Iff.rfl ?_
    split <;> omega
  · rw [IntSpec.shown, sign_unsigned (hpos hn)]
    refine (unsigned_iff hn).trans ?_
    have hwidth : (if spec.layout.space = true then
        spec.layout.width = n.digits v + 1 ∧ spec.layout.left = false ∧
          (spec.layout.zero = true → spec.layout.precision ≠ none)
        else spec.layout.width ≤ n.digits v) ↔
        if spec.spacePrefix = true then
          spec.width.toInt = n.digits v + 1 ∧ spec.leftAlign = false ∧
            (spec.zeroPad = true → spec.hasPrecision = true)
        else spec.width.toInt ≤ n.digits v := by
      have hprec : spec.layout.precision ≠ none ↔ spec.hasPrecision = true := by
        simp [FormatSpec.layout]
      have hw : spec.layout.width = spec.width.toInt.toNat := rfl
      rw [hprec, hw]
      by_cases hs : spec.spacePrefix = true
      · have hs' : spec.layout.space = true := hs
        rw [if_pos hs, if_pos hs']
        exact and_congr (by omega) Iff.rfl
      · have hs' : ¬spec.layout.space = true := hs
        rw [if_neg hs, if_neg hs']
        omega
    rw [mark_nil_iff hn, plain_iff, IntSpec.Honoured, if_neg hn]
    constructor
    · rintro ⟨hhex, ⟨hoct, hprec⟩, hplus, hlast⟩
      refine ⟨fun ha hk => ?_, hprec, hplus, hwidth.mp hlast⟩
      rcases hk with ho | hx
      · exact hoct ha ho
      · exact hhex ha hx
    · rintro ⟨halt, hprec, hplus, hlast⟩
      exact ⟨fun ha hx => halt ha (Or.inr hx), ⟨fun ha ho => halt ha (Or.inl ho), hprec⟩, hplus, hwidth.mpr hlast⟩

end Honoured

section Conversions
variable {b : TBuffer}

theorem appends_shown (k : IntSpec) (arg : Arg) (spec : FormatSpec) (hcells : b.cells.length = bufferSize)
    (hshown : b.pos + (k.shown spec (k.value arg)).length ≤ 1023) :
    b.Appends (k.action.run arg spec b) (k.shown spec (k.value arg)) := by
  have hlimit : 1023 ≤ b.cells.length := by rw [hcells]; decide
  have happ := Buffer.appends_append hlimit (by omega) (k.shown spec (k.value arg))
  rwa [List.take_of_length_le (by omega), ← k.run_eq] at happ

/-- The text that an integer conversion appends, when the buffer has room, is C's exactly when nothing is asked for
    that is not shown, and nothing shown that is not asked for. -/
theorem intConversion_iff (k : IntSpec) (arg : Arg) (spec : FormatSpec) (b : TBuffer)
    (hcells : b.cells.length = bufferSize)
    (hshown : b.pos + (k.shown spec (k.value arg)).length ≤ 1023) :
    b.Appends (k.action.run arg spec b) (CPrintf.intText spec.layout k.style (k.value arg)) ↔
      k.Honoured spec (k.value arg) := by
  have happ := appends_shown k arg spec hcells hshown
  rw [← honoured_iff k spec _ (k.value_range arg).2]
  constructor
  · exact happ.unique
  · intro h
    rwa [h] at happ

end Conversions

theorem numeral_42 : numeral 10 false 42 = cstr "42" := by decide

/-- `%+d` of -42 -/
theorem intConversion_minus :
    let b : TBuffer := Buffer.empty bufferSize
    let spec : FormatSpec := { showSign := true }
    b.Appends (IntSpec.decimal.action.run { int := -42 } spec b) (CPrintf.intText spec.layout .signed (-42)) ∧
      CPrintf.intText spec.layout .signed (-42) = cstr "-42" := by
  intro b spec
  have hcells : b.cells.length = bufferSize := List.length_replicate
  have htext : IntSpec.decimal.shown spec (-42) = cstr "-42" := congrArg (cstr "-" ++ ·) numeral_42
  have hfits : b.pos + (IntSpec.decimal.shown spec (-42)).length ≤ 1023 := by rw [htext]; decide
  have hdigits : IntSpec.decimal.digits (-42) = 2 := congrArg List.length numeral_42
  have hhonoured : IntSpec.decimal.Honoured spec (-42) := by
    refine ⟨by decide, by decide, ?_⟩
    rw [hdigits]
    decide
  refine ⟨(intConversion_iff .decimal { int := -42 } spec b hcells hfits).mpr hhonoured, ?_⟩
  rw [← htext]
  exact ((honoured_iff .decimal spec (-42) fun h => absurd rfl h).mpr hhonoured).symm

/-- `%5d` of 42 is shown without its padding. -/
theorem intConversion_width :
    let b : TBuffer := Buffer.empty bufferSize
    let spec : FormatSpec := { width := 5 }
    b.Appends (IntSpec.decimal.action.run { int := 42 } spec b) (cstr "42") ∧
      CPrintf.intText spec.layout .signed 42 = cstr "   42" ∧
      ¬b.Appends (IntSpec.decimal.action.run { int := 42 } spec b) (CPrintf.intText spec.layout .signed 42) := by
  intro b spec
  have hcells : b.cells.length = bufferSize := List.length_replicate
  have hshown : IntSpec.decimal.shown spec 42 = cstr "42" := numeral_42
  have happ : b.Appends (IntSpec.decimal.action.run { int := 42 } spec b) (cstr "42") := by
    rw [← hshown]
    refine appends_shown .decimal { int := 42 } spec hcells ?_
    have hlen : (IntSpec.decimal.shown spec 42).length = 2 := by rw [hshown]; rfl
    exact Nat.le_trans (Nat.le_of_eq (congrArg (b.pos + ·) hlen)) (by decide)
  have htext : CPrintf.intText spec.layout .signed 42 = cstr "   42" := by decide
  refine ⟨happ, htext, fun h => ?_⟩
  rw [htext] at h
  exact absurd (happ.unique h) (by decide)

end Minitalk.Log
