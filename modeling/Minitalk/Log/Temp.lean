import Mathlib.Data.List.Induction
import Minitalk.Lib.CArray
import Minitalk.Log.Numbers

/-! # The array of `format_number` (`format_helper.c`)

`format_number` writes its text to `temp`, which has 64 cells: the digits, the lowest one first, and the sign, which it
then reverses, and a NUL. A `long` whose arithmetic overflows wraps around. -/

namespace Minitalk.Log
open CArray CText Program
open CPrintf (digitChar)

/-- A turn of the loop of `convert_to_string`: the array, the number of characters in it and what is left of the
    number. -/
def digitTurn (base : Nat) (uppercase : Bool) (s : List (Option UInt8) × Int × Int) :
    Option (List (Option UInt8) × Int × Int) := do
  let temp ← store s.1 s.2.1 (some (digitChar uppercase (s.2.2 % base).toNat))
  some (temp, s.2.1 + 1, s.2.2 / base)

def convertToStringAt (turns : Nat) (num : Int) (temp : List (Option UInt8)) (base : Nat) (uppercase : Bool) :
    Option (List (Option UInt8) × Int) := do
  if num = 0 then some (← store temp 0 (some (chr '0')), 1)
  else
    let s ← whileLoop (fun s => some (decide (0 < s.2.2))) (digitTurn base uppercase) turns (temp, 0, num)
    some (s.1, s.2.1)

def addSignPrefix (temp : List (Option UInt8)) (tempPos : Int) (spec : FormatSpec) (isNegative : Bool) :
    Option (List (Option UInt8) × Int) := do
  if isNegative then some (← store temp tempPos (some (chr '-')), tempPos + 1)
  else if spec.showSign then some (← store temp tempPos (some (chr '+')), tempPos + 1)
  else if spec.spacePrefix then some (← store temp tempPos (some (chr ' ')), tempPos + 1)
  else some (temp, tempPos)

def swapTurn (s : List (Option UInt8) × Int × Int) : Option (List (Option UInt8) × Int × Int) := do
  some (← swap s.1 s.2.1 s.2.2, s.2.1 + 1, s.2.2 - 1)

/-- The loop of `reverse_string`. -/
def reverseLoop (turns : Nat) (str : List (Option UInt8)) (first last : Int) : Option (List (Option UInt8)) := do
  let s ← whileLoop (fun s => some (decide (s.2.1 < s.2.2))) swapTurn turns (str, first, last)
  some s.1

def reverseString (turns : Nat) (str : List (Option UInt8)) (len : Int) : Option (List (Option UInt8)) :=
  reverseLoop turns str 0 (len - 1)

def formatNumberAt (turns : Nat) (num : BitVec 64) (spec : FormatSpec) (base : Nat) :
    Option (List (Option UInt8)) := do
  let isNegative := decide (num.toInt < 0) && (spec.specifier == chr 'd' || spec.specifier == chr 'i')
  let num := if isNegative then -num else num
  let (temp, tempPos) ← convertToStringAt turns num.toInt (List.replicate 64 none) base (spec.specifier == chr 'X')
  let (temp, tempPos) ← addSignPrefix temp tempPos spec isNegative
  let temp ← reverseString turns temp tempPos
  store temp tempPos (some 0)

section Digits
variable {base turns : Nat} {upper : Bool} {ds : List UInt8} {temp : List (Option UInt8)}
  {num pos : Int}

theorem length_digitLoop_le (base : Nat) (upper : Bool) (fuel n : Nat) :
    (digitLoop base upper fuel n).length ≤ fuel := by
  induction fuel generalizing n with
  | zero => exact Nat.le_refl 0
  | succ fuel ih =>
    rw [digitLoop]
    split
    · exact Nat.succ_le_succ (ih _)
    · exact Nat.zero_le _

/-- The array holds a text, and the position is behind it. -/
def Written (text : List UInt8) (s : List (Option UInt8) × Int) : Prop := Filled 64 text s.1 ∧ s.2 = text.length

theorem Written.push (h : Written ds (temp, pos)) (hroom : ds.length < 64) (c : UInt8) :
    Ends (store temp pos (some c)) fun temp => Written (ds ++ [c]) (temp, pos + 1) := by
  obtain ⟨hfilled, rfl⟩ := h
  refine (hfilled.store hroom c).mono fun temp hstored => ⟨hstored, ?_⟩
  rw [List.length_append, List.length_singleton]
  rfl

theorem digits_end (hnum : num ≤ 0) (pos : Int) :
    whileLoop (fun s => some (decide (0 < s.2.2))) (digitTurn base upper) (turns + 1) (temp, pos, num) =
      some (temp, pos, num) := by
  rw [whileLoop_stop]
  exact congrArg some (decide_eq_false (Int.not_lt.mpr hnum))

theorem digits_turn {n : Nat} (hn : 0 < n) {temp' : List (Option UInt8)}
    (hstore : store temp pos (some (digitChar upper (n % base))) = some temp') :
    whileLoop (fun s => some (decide (0 < s.2.2))) (digitTurn base upper) (turns + 1) (temp, pos, (n : Int)) =
      whileLoop (fun s => some (decide (0 < s.2.2))) (digitTurn base upper) turns
        (temp', pos + 1, (n / base : Nat)) := by
  have hdigit : ((n : Int) % base).toNat = n % base := by omega
  rw [whileLoop_turn, digitTurn, hdigit, hstore, Int.natCast_ediv]
  · rfl
  · exact congrArg some (decide_eq_true (Int.natCast_pos.mpr hn))

theorem digits_ends {fuel n size : Nat} (hn : n < base ^ fuel) (h : Filled size ds temp)
    (hroom : ds.length + (digitLoop base upper fuel n).length ≤ size) (hturns : fuel < turns) :
    Ends (whileLoop (fun s => some (decide (0 < s.2.2))) (digitTurn base upper) turns (temp, ds.length, (n : Int)))
      fun s => Filled size (ds ++ digitLoop base upper fuel n) s.1 ∧
        s.2.1 = (ds ++ digitLoop base upper fuel n).length := by
  induction fuel generalizing n ds temp turns with
  | zero =>
    obtain ⟨turns, rfl, -⟩ := exists_fuel hturns
    obtain rfl : n = 0 := Nat.lt_one_iff.mp hn
    rw [Int.natCast_zero, digits_end (Int.le_refl 0), digitLoop, List.append_nil]
    exact .some ⟨h, rfl⟩
  | succ fuel ih =>
    obtain ⟨turns, rfl, hle⟩ := exists_fuel hturns
    rcases Nat.eq_zero_or_pos n with rfl | hpos
    · rw [Int.natCast_zero, digits_end (Int.le_refl 0), digitLoop, if_neg (Nat.lt_irrefl 0), List.append_nil]
      exact .some ⟨h, rfl⟩
    · rw [digitLoop, if_pos hpos] at hroom ⊢
      rw [List.length_cons] at hroom
      obtain ⟨temp', hstore, hfilled⟩ := h.store (by omega) (digitChar upper (n % base))
      have hrest := ih (Radix.div_lt_pow hn) hfilled (by rw [List.length_append, List.length_singleton]; omega) hle
      rw [digits_turn hpos hstore]
      rwa [List.append_assoc, List.singleton_append, List.length_append, List.length_singleton] at hrest

theorem digits_lt (hbase : 8 ≤ base) {n k : Nat} (hn : n ≤ 2 ^ 63) (hk : 22 ≤ k) : n < base ^ k := by
  calc n < 8 ^ 22 := by omega
    _ ≤ 8 ^ k := Nat.pow_le_pow_right (by omega) hk
    _ ≤ base ^ k := Nat.pow_le_pow_left hbase k

/-- No number of 64 bits has more than 22 digits in these bases. -/
theorem digitLoop_short (hbase : 8 ≤ base) {n : Nat} (hn : n ≤ 2 ^ 63) :
    digitLoop base upper 64 n = digitLoop base upper 22 n := by
  rw [digitLoop_eq (by omega) upper (digits_lt hbase hn (by omega)),
    digitLoop_eq (by omega) upper (digits_lt hbase hn (Nat.le_refl 22))]

theorem convertToStringAt_ends (hbase : 8 ≤ base) (hnum : num ≤ 2 ^ 63) (hturns : 22 < turns) :
    Ends (convertToStringAt turns num (List.replicate 64 none) base upper) fun s =>
      Written (convertToString num base upper) s ∧ (convertToString num base upper).length ≤ 22 := by
  have hstart : Written [] (List.replicate 64 none, 0) := by
    refine ⟨?_, rfl⟩
    have hfilled := filled_nil (List.replicate 64 (none : Option UInt8))
    rwa [List.length_replicate] at hfilled
  rw [convertToStringAt, convertToString]
  rcases Int.lt_trichotomy num 0 with hneg | rfl | hpos
  · obtain ⟨turns, rfl, -⟩ := exists_fuel hturns
    rw [if_neg (Int.ne_of_lt hneg), if_neg (Int.ne_of_lt hneg), digits_end (Int.le_of_lt hneg),
      Int.toNat_of_nonpos (Int.le_of_lt hneg)]
    exact .some ⟨hstart, Nat.zero_le _⟩
  · rw [if_pos rfl, if_pos rfl]
    refine (hstart.push (by decide) (chr '0')).bind fun temp htemp => ?_
    exact .some ⟨htemp, by decide⟩
  · obtain ⟨n, rfl⟩ := Int.eq_ofNat_of_zero_le (Int.le_of_lt hpos)
    have hn : n ≤ 2 ^ 63 := by omega
    rw [if_neg (Int.ne_of_gt hpos), if_neg (Int.ne_of_gt hpos), Int.toNat_natCast, digitLoop_short hbase hn]
    have hshort := length_digitLoop_le base upper 22 n
    refine (digits_ends (digits_lt hbase hn (Nat.le_refl 22)) hstart.1 ?_ hturns).bind fun s hs => .some ⟨hs, hshort⟩
    exact Nat.le_trans (Nat.add_le_add_left hshort 0) (by decide)

theorem length_signPrefix_le (spec : FormatSpec) (isNegative : Bool) : (signPrefix spec isNegative).length ≤ 1 := by
  unfold signPrefix
  repeat' split
  all_goals decide

theorem addSignPrefix_ends (spec : FormatSpec) (isNegative : Bool) (h : Written ds (temp, pos))
    (hroom : ds.length < 64) :
    Ends (addSignPrefix temp pos spec isNegative) (Written (ds ++ signPrefix spec isNegative)) := by
  unfold addSignPrefix signPrefix
  split
  · exact (h.push hroom _).bind fun temp htemp => .some htemp
  · split
    · exact (h.push hroom _).bind fun temp htemp => .some htemp
    · split
      · exact (h.push hroom _).bind fun temp htemp => .some htemp
      · rw [List.append_nil]
        exact .some h

end Digits

section Reverse
variable {turns : Nat} {pre mid post : List (Option UInt8)} {first last : Int}

theorem reverseLoop_end (hle : last ≤ first) (str : List (Option UInt8)) :
    reverseLoop (turns + 1) str first last = some str := by
  rw [reverseLoop, whileLoop_stop]
  · rfl
  · exact congrArg some (decide_eq_false (Int.not_lt.mpr hle))

theorem reverseLoop_turn {str str' : List (Option UInt8)} (hlt : first < last)
    (hswap : swap str first last = some str') :
    reverseLoop (turns + 1) str first last = reverseLoop turns str' (first + 1) (last - 1) := by
  rw [reverseLoop, whileLoop_turn, swapTurn, hswap]
  · rfl
  · exact congrArg some (decide_eq_true hlt)

/-- The turns go from both ends to the middle. -/
theorem reverseLoop_eq (hlast : last = pre.length + mid.length - 1) (hturns : mid.length < turns) :
    reverseLoop turns (pre ++ (mid ++ post)) pre.length last = some (pre ++ (mid.reverse ++ post)) := by
  obtain ⟨turns, rfl, -⟩ := exists_fuel hturns
  induction mid using List.bidirectionalRec generalizing pre post last turns with
  | nil => exact reverseLoop_end (by rw [hlast, List.length_nil]; omega) _
  | singleton x => exact reverseLoop_end (by rw [hlast, List.length_singleton]; omega) _
  | cons_append x mid y ih =>
    rw [List.length_cons, List.length_append, List.length_singleton] at hlast hturns
    obtain ⟨turns, rfl, -⟩ := exists_fuel (show 0 < turns by omega)
    have hlast' : last = pre.length + mid.length + 1 := by omega
    have hswap := swap_append pre mid post x y
    rw [← hlast'] at hswap
    rw [List.cons_append, List.append_assoc, List.singleton_append, reverseLoop_turn (by omega) hswap]
    have hlen : ((pre ++ [y]).length : Int) = pre.length + 1 := by
      rw [List.length_append, List.length_singleton]
      rfl
    have hinner : last - 1 = (pre ++ [y]).length + mid.length - 1 := by omega
    have hrest : reverseLoop (turns + 1) (pre ++ [y] ++ (mid ++ x :: post)) (pre ++ [y]).length (last - 1) =
        some (pre ++ [y] ++ (mid.reverse ++ x :: post)) := ih hinner turns (by omega)
    rw [hlen] at hrest
    simpa using hrest

theorem reverseString_ends {text : List UInt8} {temp : List (Option UInt8)} {pos : Int} (h : Written text (temp, pos))
    (hturns : text.length < turns) :
    Ends (reverseString turns temp pos) fun temp => Written text.reverse (temp, pos) := by
  obtain ⟨⟨hlen, rest, rfl⟩, rfl⟩ := h
  have hlast : (text.length : Int) - 1 = ([] : List (Option UInt8)).length + (text.map some).length - 1 := by
    rw [List.length_nil, List.length_map]
    omega
  have hreverse : reverseLoop turns ([] ++ (text.map some ++ rest)) ([] : List (Option UInt8)).length
      (text.length - 1) = some ([] ++ ((text.map some).reverse ++ rest)) :=
    reverseLoop_eq hlast (by rwa [List.length_map])
  refine ⟨_, hreverse, ⟨?_, rest, ?_⟩, by rw [List.length_reverse]⟩
  · simpa using hlen
  · simp

end Reverse

theorem formatNumberAt_ends {base turns : Nat} (hbase : 8 ≤ base) (hturns : 23 < turns) (num : BitVec 64)
    (spec : FormatSpec) :
    Ends (formatNumberAt turns num spec base) (Filled 64 (formatNumber num spec base ++ [0])) := by
  unfold formatNumberAt formatNumber
  generalize (decide (num.toInt < 0) && (spec.specifier == chr 'd' || spec.specifier == chr 'i')) = isNegative
  have hnum : (if isNegative then -num else num).toInt ≤ 2 ^ 63 := Int.le_of_lt BitVec.toInt_lt
  refine (convertToStringAt_ends hbase hnum (by omega)).bind fun s ⟨hdigits, hshort⟩ => ?_
  refine (addSignPrefix_ends spec isNegative hdigits (by omega)).bind fun t hsign => ?_
  have hlen := length_signPrefix_le spec isNegative
  refine (reverseString_ends hsign (by rw [List.length_append]; omega)).bind fun temp htemp => ?_
  refine (htemp.push ?_ 0).mono fun temp hstored => hstored.1
  rw [List.length_reverse, List.length_append]
  omega

theorem intBase_ge (spec : FormatSpec) : 8 ≤ intBase spec := by
  unfold intBase
  split
  · decide
  · split <;> decide

/-- The array is not overrun: it holds the text of the number and a NUL. -/
theorem formatNumberAt_fits (num : BitVec 64) (spec : FormatSpec) :
    Halts (fun turns => formatNumberAt turns num spec (intBase spec))
      (Filled 64 (formatNumber num spec (intBase spec) ++ [0])) :=
  ⟨24, fun _ hturns => formatNumberAt_ends (intBase_ge spec) hturns num spec⟩

end Minitalk.Log
