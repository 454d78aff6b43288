import Minitalk.Libft.AtoiBase
import Minitalk.Libft.Strnstr
import Minitalk.Log.Temp
import Minitalk.Printf.Numbers

/-! # The two digit converters (`conversion.c`, `format_helper.c`)

`convert_number_to_string` counts the digits and fills its string from the end, from an `unsigned long`;
`convert_to_string` (`Log/Temp`) writes the lowest digit of a `long` first. `dest` and `temp` are arrays of cells that
are written or not, as long as their caller made them. -/

namespace Minitalk.Log
open CArray CText Program CPrintf

/-! ### `conversion.c` -/

/-- The loop of `count_digits`. -/
def countLoop (turns num base : Nat) (count : Int) : Option Int := do
  let s ← whileLoop (fun s : Nat × Int => some (decide (0 < s.1))) (fun s => some (s.1 / base, s.2 + 1)) turns
    (num, count)
  some s.2

def countDigits (turns num base : Nat) : Option Int := if num = 0 then some 1 else countLoop turns num base 0

/-- A turn of the loop of `fill_number_string`: the array, `len` and what is left of the number. `str` is the cell of
    the array that the string begins at. -/
def fillTurn (base : Nat) (uppercase : Bool) (str : Int) (s : List (Option UInt8) × Int × Nat) :
    Option (List (Option UInt8) × Int × Nat) := do
  let dest ← store s.1 (str + (s.2.1 - 1)) (some (digitChar uppercase (s.2.2 % base)))
  some (dest, s.2.1 - 1, s.2.2 / base)

def fillLoop (turns : Nat) (dest : List (Option UInt8)) (str len : Int) (num base : Nat) (uppercase : Bool) :
    Option (List (Option UInt8)) := do
  let s ← whileLoop (fun s => some (decide (0 < s.2.2))) (fillTurn base uppercase str) turns (dest, len, num)
  some s.1

def fillNumberString (turns : Nat) (dest : List (Option UInt8)) (str : Int) (num base : Nat) (uppercase : Bool) :
    Option (List (Option UInt8)) := do
  let len ← countDigits turns num base
  let dest ← store dest (str + len) (some 0)
  if num = 0 then store dest str (some (chr '0')) else fillLoop turns dest str len num base uppercase

/-- The bytes that a loop reads before it comes to a cell that was not written. -/
def readable (cells : List (Option UInt8)) : List UInt8 := (cells.takeWhile Option.isSome).filterMap id

/-- The `long` is negated modulo 2^64. -/
def convertNumberToString (turns : Nat) (dest : List (Option UInt8)) (num : BitVec 64) (base : Nat) (uppercase : Bool) :
    Option (List (Option UInt8) × Nat) := do
  let negative := decide (num.toInt < 0 ∧ base = 10)
  let unum := if negative then -num else num
  let dest ← if negative then store dest 0 (some (chr '-')) else some dest
  let dest ← fillNumberString turns dest (if negative then 1 else 0) unum.toNat base uppercase
  let len ← Libft.ftStrlen (readable dest)
  some (dest, len)

/-! ### What a text denotes -/

/-- The number that the characters denote, nothing when one of them is neither a letter nor a digit. -/
def evaluate (base : Nat) (text : List UInt8) : Option Nat := (text.mapM Libft.alnumValue).map (Radix.value base)

section Numeral
variable {base n : Nat} {upper : Bool}

theorem nul_notMem_numeral (hbase : 1 < base) (hle : base ≤ 16) : 0 ∉ numeral base upper n := by
  intro h0
  exact absurd (numeral_chars hbase hle h0) (by decide)

theorem alnumValue_digitChar :
    ∀ upper, ∀ d < 16, Libft.alnumValue (CPrintf.digitChar upper d) = some d := by
  decide

theorem mapM_alnumValue {ds : List Nat} (hds : ∀ d ∈ ds, d < 16) :
    (ds.map (CPrintf.digitChar upper)).mapM Libft.alnumValue = some ds := by
  have hdigit : ∀ d ∈ ds, (Libft.alnumValue ∘ CPrintf.digitChar upper) d = some (id d) := fun d hd =>
    alnumValue_digitChar upper d (hds d hd)
  rw [List.mapM_map, mapM_some hdigit, List.map_id]

theorem evaluate_numeral (hbase : 1 < base) (hle : base ≤ 16) : evaluate base (numeral base upper n) = some n := by
  have hdigits : ∀ d ∈ Radix.digits base n, d < 16 := fun d hd => Nat.lt_of_lt_of_le (Radix.digits_lt hbase hd) hle
  rw [evaluate, Printf.numeral_eq_digits, mapM_alnumValue hdigits, Option.map_some, Radix.value_digits hbase]

end Numeral

/-! ### Counting and filling -/

section Fill
variable {base fuel turns n : Nat} {upper : Bool} {pre mid post : List (Option UInt8)} {cell : Option UInt8}

theorem length_numeral (hn : n ≠ 0) : (numeral base upper n).length = (Nat.digits base n).length := by
  rw [numeral, if_neg hn, List.length_reverse, List.length_map]

theorem countLoop_end (count : Int) : countLoop (turns + 1) 0 base count = some count := by
  rw [countLoop, whileLoop_stop]
  · rfl
  · rfl

theorem countLoop_turn (hn : 0 < n) (count : Int) :
    countLoop (turns + 1) n base count = countLoop turns (n / base) base (count + 1) := by
  rw [countLoop, whileLoop_turn]
  · rfl
  · exact congrArg some (decide_eq_true hn)

theorem countLoop_eq (hbase : 1 < base) (hn : n < base ^ fuel) (hturns : fuel < turns) (count : Int) :
    countLoop turns n base count = some (count + (Nat.digits base n).length) := by
  refine Radix.quotient_induction (motive := fun fuel n => ∀ turns, fuel < turns → ∀ count,
    countLoop turns n base count = some (count + (Nat.digits base n).length)) hbase ?_ ?_ hn turns hturns count
  · intro fuel turns hturns count
    obtain ⟨turns, rfl, -⟩ := exists_fuel hturns
    rw [countLoop_end, Nat.digits_zero, List.length_nil, Int.natCast_zero, Int.add_zero]
  · intro fuel n hpos hdigits ih turns hturns count
    obtain ⟨turns, rfl, hle⟩ := exists_fuel hturns
    rw [countLoop_turn hpos, ih turns hle, hdigits, List.length_cons, Int.add_assoc,
      Int.natCast_add, Int.add_comm 1]
    rfl

/-- The count is the length of the numeral. -/
theorem countDigits_eq (hbase : 1 < base) (hn : n < base ^ fuel) (hturns : fuel < turns) :
    countDigits turns n base = some ((numeral base upper n).length : Int) := by
  rw [countDigits]
  split
  · rename_i h0
    rw [h0]
    rfl
  · rename_i h0
    rw [countLoop_eq hbase hn hturns, length_numeral h0, Int.zero_add]

theorem fillLoop_end (dest : List (Option UInt8)) (str len : Int) :
    fillLoop (turns + 1) dest str len 0 base upper = some dest := by
  rw [fillLoop, whileLoop_stop]
  · rfl
  · rfl

theorem fillLoop_turn {dest dest' : List (Option UInt8)} {str len : Int} (hn : 0 < n)
    (hstore : store dest (str + (len - 1)) (some (digitChar upper (n % base))) = some dest') :
    fillLoop (turns + 1) dest str len n base upper = fillLoop turns dest' str (len - 1) (n / base) base upper := by
  rw [fillLoop, whileLoop_turn, fillTurn, hstore]
  · rfl
  · exact congrArg some (decide_eq_true hn)

/-- The digits are written in front of those that are there. -/
theorem fillLoop_eq (upper : Bool) (pre post : List (Option UInt8)) (hbase : 1 < base) (hn : n < base ^ fuel)
    (hturns : fuel < turns) (hmid : mid.length = (Nat.digits base n).length) :
    fillLoop turns (pre ++ (mid ++ post)) pre.length mid.length n base upper =
      some (pre ++ (((Nat.digits base n).map (digitChar upper)).reverse.map some ++ post)) := by
  refine Radix.quotient_induction (motive := fun fuel n => ∀ turns mid post, fuel < turns →
    mid.length = (Nat.digits base n).length →
      fillLoop turns (pre ++ (mid ++ post)) pre.length mid.length n base upper =
        some (pre ++ (((Nat.digits base n).map (digitChar upper)).reverse.map some ++ post)))
    hbase ?_ ?_ hn turns mid post hturns hmid
  · intro fuel turns mid post hturns hmid
    obtain ⟨turns, rfl, -⟩ := exists_fuel hturns
    rw [Nat.digits_zero, List.length_nil, List.length_eq_zero_iff] at hmid
    rw [fillLoop_end, hmid, Nat.digits_zero]
    rfl
  · intro fuel n hpos hdigits ih turns mid post hturns hmid
    obtain ⟨turns, rfl, hle⟩ := exists_fuel hturns
    rw [hdigits, List.length_cons] at hmid
    rcases List.eq_nil_or_concat' mid with rfl | ⟨mid, c, rfl⟩
    · cases hmid
    · rw [List.length_append, List.length_singleton, Nat.succ_inj] at hmid
      have hlast : ((mid ++ [c]).length : Int) - 1 = mid.length := by
        rw [List.length_append, List.length_singleton]
        omega
      have hstore := store_append_append pre mid post c (some (digitChar upper (n % base)))
      rw [← hlast] at hstore
      have hrest := ih turns mid (some (digitChar upper (n % base)) :: post) hle hmid
      rw [List.append_assoc mid, List.singleton_append, fillLoop_turn hpos hstore, hlast, hrest, hdigits]
      simp

theorem fillNumberString_eq (pre post : List (Option UInt8)) (cell : Option UInt8) (hbase : 1 < base)
    (hn : n < base ^ fuel) (hturns : fuel < turns) (hmid : mid.length = (numeral base upper n).length) :
    fillNumberString turns (pre ++ (mid ++ cell :: post)) pre.length n base upper =
      some (pre ++ ((numeral base upper n).map some ++ some 0 :: post)) := by
  rw [fillNumberString, countDigits_eq hbase hn hturns, ← hmid, Option.bind_eq_bind, Option.bind_some,
    store_append_append, Option.bind_eq_bind, Option.bind_some]
  split
  · rename_i h0
    rw [h0, numeral, if_pos rfl] at hmid ⊢
    obtain ⟨c, rfl⟩ := List.length_eq_one_iff.mp hmid
    exact store_append_length pre (some 0 :: post) c _
  · rename_i h0
    rw [length_numeral h0] at hmid
    rw [fillLoop_eq upper pre (some 0 :: post) hbase hn hturns hmid, numeral, if_neg h0]

theorem readable_map (text : List UInt8) (rest : List (Option UInt8)) :
    readable (text.map some ++ rest) = text ++ readable rest := by
  induction text with
  | nil => rfl
  | cons c text ih => exact congrArg (c :: ·) ih

theorem ftStrlen_terminated {text : List UInt8} (h0 : 0 ∉ text) (post : List (Option UInt8)) :
    Libft.ftStrlen (readable (text.map some ++ some 0 :: post)) = some text.length := by
  rw [readable_map]
  exact Libft.ftStrlen_chars h0 (readable post)

end Fill

/-! ### The two converters -/

section Converters
variable {base turns : Nat} {upper : Bool} {num : BitVec 64} {temp dest : List (Option UInt8)}

theorem lt_pow (hbase : 1 < base) {n : Nat} (hn : n < 2 ^ 64) : n < base ^ 64 :=
  Nat.lt_of_lt_of_le hn (Nat.pow_le_pow_left hbase 64)

/-- An array with room behind a text is as many cells, the cell of the NUL, and the others. -/
theorem exists_split {cells : List (Option UInt8)} {n : Nat} (hroom : n < cells.length) :
    ∃ mid cell post, cells = mid ++ cell :: post ∧ mid.length = n :=
  ⟨cells.take n, cells[n], cells.drop (n + 1), by rw [← List.drop_eq_getElem_cons hroom, List.take_append_drop],
    List.length_take_of_le (Nat.le_of_lt hroom)⟩

theorem convertToStringAt_fills (hbase : 1 < base) {n : Nat} (hn : n < 2 ^ 64) (hturns : 64 < turns)
    (hroom : (numeral base upper n).length ≤ temp.length) :
    Ends (convertToStringAt turns n temp base upper) fun s =>
      Filled temp.length (numeral base upper n).reverse s.1 ∧ s.2 = (numeral base upper n).length := by
  have htext := convertToString_reverse hbase upper (lt_pow hbase hn)
  rw [← htext, List.length_reverse] at hroom
  rw [← htext, List.length_reverse, List.reverse_reverse]
  rw [convertToString] at hroom ⊢
  rw [convertToStringAt]
  split
  · rename_i h0
    rw [if_pos h0] at hroom
    exact ((filled_nil temp).store hroom (chr '0')).bind fun temp htemp => .some ⟨htemp, rfl⟩
  · rename_i h0
    rw [if_neg h0, Int.toNat_natCast] at hroom
    refine (digits_ends (lt_pow hbase hn) (filled_nil temp) ?_ hturns).bind fun s hs => .some hs
    rwa [List.length_nil, Nat.zero_add]

/-- The digits and the NUL behind a sign, and the length that is returned. -/
theorem fillNumberString_strlen (hbase : 1 < base) (hle : base ≤ 16) (hturns : 64 < turns) {n : Nat} (hn : n < 2 ^ 64)
    {sign : List UInt8} (hsign : 0 ∉ sign) {rest : List (Option UInt8)}
    (hroom : (numeral base upper n).length < rest.length) :
    Ends (do
        let dest ← fillNumberString turns (sign.map some ++ rest) sign.length n base upper
        let len ← Libft.ftStrlen (readable dest)
        some (dest, len)) fun s =>
      Filled (sign.length + rest.length) (sign ++ numeral base upper n ++ [0]) s.1 ∧
        s.2 = (sign ++ numeral base upper n).length := by
  obtain ⟨mid, cell, post, rfl, hmid⟩ := exists_split hroom
  have hfill := fillNumberString_eq (sign.map some) post cell hbase (lt_pow hbase hn) hturns hmid
  have htext : 0 ∉ sign ++ numeral base upper n := fun h0 =>
    (List.mem_append.mp h0).elim hsign (nul_notMem_numeral hbase hle)
  have happend : sign.map some ++ ((numeral base upper n).map some ++ some 0 :: post) =
      (sign ++ numeral base upper n).map some ++ some 0 :: post := by
    rw [List.map_append, List.append_assoc]
  rw [List.length_map, happend] at hfill
  rw [hfill, Option.bind_eq_bind, Option.bind_some, ftStrlen_terminated htext]
  refine .some ⟨⟨?_, post, ?_⟩, rfl⟩
  · simp only [List.length_append, List.length_map, List.length_cons, hmid]
    omega
  · rw [List.map_append, List.append_assoc]
    rfl

theorem convertNumberToString_ends (hbase : 1 < base) (hle : base ≤ 16) (hturns : 64 < turns)
    (hnum : 0 ≤ num.toInt) (hroom : (numeral base upper num.toNat).length < dest.length) :
    Ends (convertNumberToString turns dest num base upper) fun s =>
      Filled dest.length (numeral base upper num.toNat ++ [0]) s.1 ∧ s.2 = (numeral base upper num.toNat).length := by
  have hpositive : decide (num.toInt < 0 ∧ base = 10) = false := decide_eq_false fun h => by omega
  have hends := fillNumberString_strlen hbase hle hturns num.isLt List.not_mem_nil hroom
  rw [List.length_nil, Nat.zero_add] at hends
  rw [convertNumberToString, hpositive]
  exact hends

theorem toNat_neg_of_neg (hnum : num.toInt < 0) : (-num).toNat = num.toInt.natAbs := by
  have hlt := num.isLt
  rw [BitVec.toInt_eq_toNat_cond] at hnum ⊢
  rw [BitVec.toNat_neg]
  split at hnum <;> omega

/-- A negative number in base 10, the smallest `long` with its negation modulo 2^64. -/
theorem convertNumberToString_neg (hturns : 64 < turns) (hnum : num.toInt < 0)
    (hroom : (numeral 10 upper num.toInt.natAbs).length + 1 < dest.length) :
    Ends (convertNumberToString turns dest num 10 upper) fun s =>
      Filled dest.length (chr '-' :: numeral 10 upper num.toInt.natAbs ++ [0]) s.1 ∧
        s.2 = (numeral 10 upper num.toInt.natAbs).length + 1 := by
  obtain ⟨cell, rest, rfl⟩ := List.exists_cons_of_length_pos (Nat.zero_lt_of_lt hroom)
  have hnegative : decide (num.toInt < 0 ∧ 10 = 10) = true := decide_eq_true ⟨hnum, rfl⟩
  have hsign : 0 ∉ [chr '-'] := by decide
  have hlt : num.toInt.natAbs < 2 ^ 64 := by
    rw [← toNat_neg_of_neg hnum]
    exact (-num).isLt
  have hstore : store (cell :: rest) 0 (some (chr '-')) = some ([chr '-'].map some ++ rest) :=
    store_append_length [] rest cell _
  have hends := fillNumberString_strlen (by decide) (by decide) hturns hlt hsign (Nat.lt_of_succ_lt_succ hroom)
  rw [convertNumberToString, hnegative]
  simp only [if_true, toNat_neg_of_neg hnum, hstore, Option.bind_eq_bind, Option.bind_some]
  rw [List.length_singleton, Nat.add_comm 1] at hends
  exact hends

end Converters

/-- Both converters produce the text, one of them backwards, the other with a NUL behind it, return its length, and it
    denotes the number. -/
structure Agree (base : Nat) (uppercase : Bool) (num : BitVec 64) (text : List UInt8) : Prop where
  backwards : ∀ temp : List (Option UInt8), text.length ≤ temp.length →
    Halts (fun turns => convertToStringAt turns num.toInt temp base uppercase) fun s =>
      Filled temp.length text.reverse s.1 ∧ s.2 = text.length
  forwards : ∀ dest : List (Option UInt8), text.length < dest.length →
    Halts (fun turns => convertNumberToString turns dest num base uppercase) fun s =>
      Filled dest.length (text ++ [0]) s.1 ∧ s.2 = text.length
  body : 0 ∉ text
  short : text.length < 64
  value : evaluate base text = some num.toInt.toNat

theorem length_numeral_lt {base n : Nat} (hbase : 1 < base) (upper : Bool) (hn : n < 2 ^ 63) :
    (numeral base upper n).length < 64 := by
  have hpow : n < base ^ 63 := Nat.lt_of_lt_of_le hn (Nat.pow_le_pow_left hbase 63)
  by_cases h0 : n = 0
  · rw [h0, numeral, if_pos rfl]
    decide
  · rw [length_numeral h0]
    exact Nat.lt_succ_of_le (Nat.digits_length_le_iff hbase n |>.mpr hpow)

theorem toInt_of_nonneg {num : BitVec 64} (hnum : 0 ≤ num.toInt) : num.toInt = num.toNat := by
  rw [BitVec.toInt_eq_toNat_cond] at hnum ⊢
  split at hnum <;> omega

theorem agree_numeral {base : Nat} (hbase : 2 ≤ base) (hle : base ≤ 16) (uppercase : Bool) {num : BitVec 64}
    (hnum : 0 ≤ num.toInt) : Agree base uppercase num (numeral base uppercase num.toNat) where
  backwards temp hroom := by
    rw [toInt_of_nonneg hnum]
    exact ⟨65, fun turns hturns => convertToStringAt_fills hbase num.isLt hturns hroom⟩
  forwards dest hroom := ⟨65, fun turns hturns => convertNumberToString_ends hbase hle hturns hnum hroom⟩
  body := nul_notMem_numeral hbase hle
  short := by
    have hlt := BitVec.toInt_lt (x := num)
    rw [toInt_of_nonneg hnum] at hlt
    exact length_numeral_lt hbase uppercase (by omega)
  value := by
    rw [toInt_of_nonneg hnum]
    exact evaluate_numeral hbase hle

/-- For a number that is not negative the two agree; a negative one in base 10 is a minus and the numeral of its
    magnitude. -/
theorem converters_agree {base : Nat} (hbase : 2 ≤ base) (hle : base ≤ 16) (uppercase : Bool) (num : BitVec 64) :
    (0 ≤ num.toInt → Agree base uppercase num (numeral base uppercase num.toInt.natAbs)) ∧
      (num.toInt < 0 → ∀ dest : List (Option UInt8),
        (numeral 10 uppercase num.toInt.natAbs).length + 1 < dest.length →
          Halts (fun turns => convertNumberToString turns dest num 10 uppercase) fun s =>
            Filled dest.length (chr '-' :: numeral 10 uppercase num.toInt.natAbs ++ [0]) s.1 ∧
              s.2 = (numeral 10 uppercase num.toInt.natAbs).length + 1) := by
  constructor
  · intro hnum
    rw [toInt_of_nonneg hnum, Int.natAbs_natCast]
    exact agree_numeral hbase hle uppercase hnum
  · exact fun hnum dest hroom => ⟨65, fun turns hturns => convertNumberToString_neg hturns hnum hroom⟩

theorem converters_agree_cases :
    Agree 16 false 255 (cstr "ff") ∧
      Halts (fun turns => convertNumberToString turns (List.replicate 21 none) (BitVec.intMin 64) 10 false) fun s =>
        Filled 21 (cstr "-9223372036854775808" ++ [0]) s.1 ∧ s.2 = 20 := by
  have hhex : numeral 16 false (255 : BitVec 64).toInt.natAbs = cstr "ff" := by decide
  have hmin : numeral 10 false (BitVec.intMin 64).toInt.natAbs = cstr "9223372036854775808" := by decide
  have hagree : Agree 16 false 255 (numeral 16 false (255 : BitVec 64).toInt.natAbs) :=
    (converters_agree (by decide) (by decide) false 255).1 (by decide)
  have hneg := (converters_agree (show 2 ≤ 10 by decide) (by decide) false (BitVec.intMin 64)).2 (by decide)
    (List.replicate 21 none) (by rw [hmin]; decide)
  rw [hhex] at hagree
  rw [hmin] at hneg
  exact ⟨hagree, hneg⟩

end Minitalk.Log
