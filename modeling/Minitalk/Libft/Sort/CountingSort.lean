import Mathlib.Data.Int.Order.Basic
import Minitalk.Lib.CArray
import Minitalk.Lib.CInt

/-! # Counting sort (`counting_sort`)

There is memory for any request that an object can have, so a request of 2^63 bytes or more is the only one that has to
fail. `zero` says whether a request of 0 bytes gives a pointer. -/

namespace Minitalk.Libft.Sort
open CArray CInt Program

/-! ### `utils.c` -/

/-- The loops of `get_min` and `get_max`. -/
def getBest (better : Int → Int → Bool) (arr : List Int) (size : Int) : Option Int :=
  if size ≤ 0 then some 0
  else do
    forUp 1 size (fun i best => do
      let x ← load arr i
      if better x best then some x else some best) (← load arr 0)

def getMin : List Int → Int → Option Int := getBest fun x min => decide (x < min)

def getMax : List Int → Int → Option Int := getBest fun x max => decide (x > max)

/-! ### Memory -/

/-- An `int` as a `size_t`. -/
def sizeT (n : Int) : Nat := (n % 2 ^ 64).toNat

/-- Whether a request for so many bytes gives a pointer. -/
def gives (zero : Bool) (bytes : Nat) : Bool := if bytes = 0 then zero else decide (bytes < 2 ^ 63)

/-- `malloc(n * sizeof(int))`: the cells are not written yet. -/
def mallocInts (zero : Bool) (n : Int) : Option (List (Option Int)) :=
  if gives zero (sizeT n * 4 % 2 ^ 64) then some (List.replicate n.toNat none) else none

/-- `calloc(n, sizeof(int))` -/
def callocInts (zero : Bool) (n : Int) : Option (List Int) :=
  if gives zero (sizeT n * 4) then some (List.replicate n.toNat 0) else none

/-! ### The sort -/

/-- `count[arr[i] - min]++` for each index of the array. -/
def countElements (arr count : List Int) (size min : Int) : Option (List Int) :=
  forUp 0 size (fun i count => do
    let k := wrap ((← load arr i) - min)
    store count k (wrap ((← load count k) + 1))) count

/-- The array, the counts and the index of the next element. -/
structure Placing where
  arr : List Int
  count : List Int
  j : Int

/-- `arr[j++] = i + min` -/
def putNext (i min : Int) (s : Placing) : Option Placing := do
  some { s with arr := ← store s.arr s.j (wrap (i + min)), j := s.j + 1 }

/-- `count[i]--` -/
def takeOne (i : Int) (s : Placing) : Option Placing := do
  some { s with count := ← store s.count i (wrap ((← load s.count i) - 1)) }

/-- `count[i] > 0` -/
def isLeft (i : Int) (s : Placing) : Option Bool := do some (decide ((← load s.count i) > 0))

def placeElements (turns : Nat) (arr count : List Int) (range min : Int) : Option (List Int) := do
  let s ← forUp 0 range (fun i => whileLoop (isLeft i) (fun s => do takeOne i (← putNext i min s)) turns)
    { arr, count, j := 0 }
  some s.arr

def countingSort (zero : Bool) (turns : Nat) (arr : List Int) (size : Int) : Option (List Int) :=
  if size ≤ 1 then some arr
  else do
    let min ← getMin arr size
    let max ← getMax arr size
    let range := wrap (max - min + 1)
    match callocInts zero range with
    | none => some arr
    | some count => do
      let count ← countElements arr count size min
      placeElements turns arr count range min

section Extremes
variable {arr : List Int} {better : Int → Int → Bool}

/-- No element is better than the result, for an order that is the one of `int` or its reverse. -/
theorem getBest_ends (h0 : arr ≠ []) (hself : ∀ x, better x x = false)
    (hone : ∀ x y, better x y = true → better y x = false)
    (htrans : ∀ x y z, better x y = false → better y z = false → better x z = false) :
    Ends (getBest better arr arr.length) fun best => best ∈ arr ∧ ∀ x ∈ arr, better x best = false := by
  have hpos := List.length_pos_iff.mpr h0
  have hin : Inside arr 0 := ⟨Int.le_refl 0, by omega⟩
  rw [getBest, if_neg (by omega), load_eq hin, Option.bind_eq_bind, Option.bind_some]
  refine (forUp_rule (fun i best => best ∈ arr ∧ ∀ k, 0 ≤ k → k < i → better (get arr k) best = false) (by omega)
    ⟨get_mem hin, fun k hk hk' => ?_⟩ ?_).mono ?_
  · obtain rfl : k = 0 := by omega
    exact hself _
  · rintro i best hi hi' ⟨hmem, hbest⟩
    have hin : Inside arr i := ⟨by omega, hi'⟩
    rw [load_eq hin, Option.bind_some]
    by_cases hx : better (get arr i) best = true
    · rw [if_pos hx]
      refine .some ⟨get_mem hin, fun k hk hk' => ?_⟩
      rcases Int.lt_or_eq_of_le (show k ≤ i by omega) with hlt | rfl
      · exact htrans _ _ _ (hbest k hk hlt) (hone _ _ hx)
      · exact hself _
    · rw [if_neg hx]
      refine .some ⟨hmem, fun k hk hk' => ?_⟩
      rcases Int.lt_or_eq_of_le (show k ≤ i by omega) with hlt | rfl
      · exact hbest k hk hlt
      · exact Bool.not_eq_true _ ▸ hx
  · rintro best ⟨hmem, hbest⟩
    refine ⟨hmem, fun x hx => ?_⟩
    rw [← segment_all arr] at hx
    obtain ⟨k, hk, hk', rfl⟩ := (mem_segment (Int.le_refl 0) (Int.le_refl _)).mp hx
    exact hbest k hk hk'

theorem getMin_ends (h0 : arr ≠ []) :
    Ends (getMin arr arr.length) fun min => min ∈ arr ∧ ∀ x ∈ arr, min ≤ x := by
  refine Ends.mono (getBest_ends h0 (fun x => ?_) (fun x y h => ?_) fun x y z h h' => ?_) fun min ⟨hmem, hmin⟩ =>
    ⟨hmem, fun x hx => ?_⟩
  · exact decide_eq_false (Int.lt_irrefl x)
  · exact decide_eq_false (Int.lt_asymm (of_decide_eq_true h))
  · have hxy := of_decide_eq_false h
    have hyz := of_decide_eq_false h'
    exact decide_eq_false (by omega)
  · exact Int.not_lt.mp (of_decide_eq_false (hmin x hx))

theorem getMax_ends (h0 : arr ≠ []) :
    Ends (getMax arr arr.length) fun max => max ∈ arr ∧ ∀ x ∈ arr, x ≤ max := by
  refine Ends.mono (getBest_ends h0 (fun x => ?_) (fun x y h => ?_) fun x y z h h' => ?_) fun max ⟨hmem, hmax⟩ =>
    ⟨hmem, fun x hx => ?_⟩
  · exact decide_eq_false (Int.lt_irrefl x)
  · exact decide_eq_false (Int.lt_asymm (of_decide_eq_true h))
  · have hxy := of_decide_eq_false h
    have hyz := of_decide_eq_false h'
    exact decide_eq_false (by omega)
  · exact Int.not_lt.mp (of_decide_eq_false (hmax x hx))

end Extremes

/-! ### The counts -/

section Counts
variable {arr count : List Int} {range min i : Int}

/-- Each cell has the number of the elements with its value. -/
def Counted (arr count : List Int) (range min : Int) : Prop :=
  count.length = range ∧ ∀ k, 0 ≤ k → k < range → get count k = arr.count (k + min)

theorem countElements_ends (hint : arr.length < 2 ^ 31) (hmin : ∀ x ∈ arr, min ≤ x ∧ x - min < range)
    (hrange : range < 2 ^ 31) (hlen : count.length = range) (hzero : ∀ k, 0 ≤ k → k < range → get count k = 0) :
    Ends (countElements arr count arr.length min) fun count => Counted arr count range min := by
  rw [countElements]
  refine (forUp_rule (fun i count => Counted (segment arr 0 i) count range min) (Int.natCast_nonneg arr.length)
    ⟨hlen, fun k hk hk' => ?_⟩ ?_).mono fun count h => ?_
  · rw [hzero k hk hk', segment_of_le (Int.le_refl 0)]
    rfl
  · rintro i count hi hi' ⟨hlen, hcount⟩
    have hin : Inside arr i := ⟨hi, hi'⟩
    obtain ⟨hlow, hhigh⟩ := hmin _ (get_mem hin)
    have hold := hcount (get arr i - min) (by omega) hhigh
    have hfew := List.count_le_length (a := get arr i - min + min) (l := segment arr 0 i)
    have hseg := length_segment (Int.le_refl 0) hi (by omega : i ≤ arr.length)
    have hin' : Inside count (get arr i - min) := ⟨by omega, by omega⟩
    rw [load_eq hin, Option.bind_eq_bind, Option.bind_some, wrap_of_fits ⟨by omega, by omega⟩]
    simp only [load_eq hin', Option.bind_some]
    rw [wrap_of_fits ⟨by omega, by omega⟩, store_eq hin']
    refine .some ⟨by rw [length_put]; exact hlen, fun k hk hk' => ?_⟩
    rw [get_put hin', segment_concat (Int.le_refl 0) hi hin.2, List.count_append, List.count_singleton]
    split
    · rename_i heq
      have hsame : get arr i = k + min := by omega
      rw [hold, ← heq, hsame, if_pos (beq_self_eq_true _), Int.natCast_add]
      rfl
    · rename_i hne
      have hother : ¬(get arr i == k + min) = true := fun heq => hne (by have := eq_of_beq heq; omega)
      rw [hcount k hk hk', if_neg hother, Nat.add_zero]
  · rwa [segment_all] at h

end Counts

/-! ### The elements in order -/

section Place
variable {arr count : List Int} {range min i v : Int} {s : Placing} {n c turns : Nat}

/-- The elements that are smaller than `v`. -/
def smaller (arr : List Int) (v : Int) : List Int := arr.filter fun x => decide (x < v)

theorem smaller_cons (x : Int) (arr : List Int) (v : Int) :
    smaller (x :: arr) v = if x < v then x :: smaller arr v else smaller arr v := by
  rw [smaller, List.filter_cons]
  simp only [decide_eq_true_eq, smaller]

theorem mem_smaller {x : Int} (hx : x ∈ smaller arr v) : x < v := of_decide_eq_true (List.mem_filter.mp hx).2

/-- The elements below the next value are those below `v` and those that equal it. -/
theorem smaller_next (arr : List Int) (v : Int) :
    (smaller arr (v + 1)).Perm (smaller arr v ++ List.replicate (arr.count v) v) := by
  induction arr with
  | nil => exact .refl _
  | cons x arr ih =>
    rw [smaller_cons, smaller_cons]
    rcases Int.lt_trichotomy x v with hlt | rfl | hgt
    · rw [if_pos (by omega), if_pos hlt, List.count_cons_of_ne (by omega)]
      exact ih.cons x
    · rw [if_pos (by omega), if_neg (Int.lt_irrefl x), List.count_cons_self, List.replicate_succ]
      exact (ih.cons x).trans List.perm_middle.symm
    · rw [if_neg (by omega), if_neg (by omega), List.count_cons_of_ne (by omega)]
      exact ih

/-- One element of the value `i + min` goes to the array. -/
def give (i min : Int) (s : Placing) : Placing where
  arr := put s.arr s.j (i + min)
  count := put s.count i (get s.count i - 1)
  j := s.j + 1

/-- Before the value `i + min`, the smaller elements are in order at the front of the array. -/
structure Ordered (arr : List Int) (range min i : Int) (s : Placing) : Prop where
  length : s.arr.length = arr.length
  size : s.count.length = range
  counts : ∀ k, i ≤ k → k < range → get s.count k = arr.count (k + min)
  index : s.j = ((smaller arr (i + min)).length : Int)
  placed : Sorts (smaller arr (i + min)) (segment s.arr 0 s.j)

/-- What the inner loop does, for any of its bodies that gives one element. -/
structure Given (s : Placing) (i v : Int) (c : Nat) (s' : Placing) : Prop where
  length : s'.arr.length = s.arr.length
  count : s'.count = put s.count i 0
  index : s'.j = s.j + c
  cells : segment s'.arr 0 s'.j = segment s.arr 0 s.j ++ List.replicate c v

theorem whileLeft_given {body : Placing → Option Placing} (hi : Inside s.count i) (hc : get s.count i = c)
    (hj : 0 ≤ s.j) (hroom : s.j + c ≤ s.arr.length) (hturns : c < turns) (hbits : s.arr.length < 2 ^ 31)
    (hbody : ∀ s, Inside s.arr s.j → Inside s.count i → 0 < get s.count i → get s.count i < 2 ^ 31 →
      body s = some (give i min s)) :
    Ends (whileLoop (isLeft i) body turns s) (Given s i (i + min) c) := by
  induction c generalizing s turns with
  | zero =>
    obtain ⟨turns, rfl⟩ := Nat.exists_eq_add_one_of_ne_zero (show turns ≠ 0 by omega)
    have hstop : isLeft i s = some false := by
      rw [isLeft, load_eq hi, hc]
      rfl
    rw [whileLoop_stop hstop]
    refine .some ⟨rfl, ?_, (Int.add_zero _).symm, (List.append_nil _).symm⟩
    have hsame := put_get hi
    rw [hc] at hsame
    exact hsame.symm
  | succ c ih =>
    obtain ⟨turns, rfl⟩ := Nat.exists_eq_add_one_of_ne_zero (show turns ≠ 0 by omega)
    have hin : Inside s.arr s.j := ⟨hj, by omega⟩
    have hgo : isLeft i s = some true := by
      rw [isLeft, load_eq hi, hc]
      exact congrArg some (decide_eq_true (by omega))
    have hloop : whileLoop (isLeft i) body (turns + 1) s = whileLoop (isLeft i) body turns (give i min s) := by
      rw [whileLoop_turn hgo, hbody s hin hi (by omega) (by omega)]
      rfl
    have hlen : (put s.arr s.j (i + min)).length = s.arr.length := length_put _ _ _
    have hleft : get (put s.count i (get s.count i - 1)) i = c := by
      rw [get_put_self hi]
      omega
    rw [hloop]
    refine (ih (s := give i min s) (inside_put.mpr hi) hleft (show 0 ≤ s.j + 1 by omega)
      (show s.j + 1 + c ≤ (put s.arr s.j (i + min)).length by omega) (by omega)
      (show (put s.arr s.j (i + min)).length < 2 ^ 31 by omega)).mono ?_
    rintro s' ⟨hlen', hcount, hindex, hcells⟩
    refine ⟨hlen'.trans hlen, ?_, ?_, ?_⟩
    · rw [hcount]
      simp only [give, put, List.set_set]
    · rw [hindex]
      simp only [give]
      omega
    · rw [hcells]
      simp only [give]
      rw [segment_put_concat (Int.le_refl 0) hj hin, List.replicate_succ, List.append_assoc]
      rfl

/-- There is room for the elements of the next value. -/
theorem length_smaller (arr : List Int) (v : Int) :
    (smaller arr (v + 1)).length = (smaller arr v).length + arr.count v ∧
      (smaller arr v).length + arr.count v ≤ arr.length := by
  have hnext := (smaller_next arr v).length_eq
  rw [List.length_append, List.length_replicate] at hnext
  have hle : (smaller arr (v + 1)).length ≤ arr.length := List.length_filter_le _ _
  omega

theorem ordered_start (hcount : Counted arr count range min) (hmin : ∀ x ∈ arr, min ≤ x) :
    Ordered arr range min 0 ⟨arr, count, 0⟩ := by
  have hnone : smaller arr (0 + min) = [] :=
    List.filter_eq_nil_iff.mpr fun x hx hlt => by
      have := of_decide_eq_true hlt
      have := hmin x hx
      omega
  refine ⟨rfl, hcount.1, hcount.2, ?_, ?_⟩
  · rw [hnone]
    rfl
  · rw [hnone, segment_of_le (Int.le_refl 0)]
    exact ⟨.nil, .refl _⟩

/-- What the inner loop gives is not smaller than what is placed. -/
theorem Ordered.step {s' : Placing} (h : Ordered arr range min i s)
    (hgiven : Given s i (i + min) (arr.count (i + min)) s') {count : List Int} (hsize : count.length = range)
    (hcounts : ∀ k, i < k → get count k = get s'.count k) (hi : Inside s.count i) :
    Ordered arr range min (i + 1) { s' with count } := by
  have hnext : i + 1 + min = i + min + 1 := by omega
  obtain ⟨hlength, -⟩ := length_smaller arr (i + min)
  refine ⟨hgiven.length.trans h.length, hsize, fun k hk hk' => ?_, ?_, ?_⟩
  · simp only
    rw [hcounts k (by omega), hgiven.count, get_put_ne hi (by omega)]
    exact h.counts k (by omega) hk'
  · simp only
    rw [hgiven.index, h.index, hnext, hlength, Int.natCast_add]
  · simp only
    rw [hgiven.cells, hnext]
    obtain ⟨hsorted, hperm⟩ := h.placed
    have hequal : (List.replicate (arr.count (i + min)) (i + min)).Pairwise (· ≤ ·) :=
      List.pairwise_replicate.mpr (Or.inr (Int.le_refl _))
    refine ⟨List.pairwise_append.mpr ⟨hsorted, hequal, fun x hx y hy => ?_⟩,
      (hperm.append_right _).trans (smaller_next arr (i + min)).symm⟩
    rw [List.eq_of_mem_replicate hy]
    exact Int.le_of_lt (mem_smaller (hperm.subset hx))

/-- When each turn of the outer loop places one value, the array is sorted at its end. -/
theorem place_sorts {inner : Int → Placing → Option Placing} (hrange : 0 ≤ range) (hcount : Counted arr count range min)
    (hmin : ∀ x ∈ arr, min ≤ x ∧ x - min < range)
    (hinner : ∀ i s, 0 ≤ i → i < range → Ordered arr range min i s → Ends (inner i s) (Ordered arr range min (i + 1))) :
    Ends (forUp 0 range inner ⟨arr, count, 0⟩) fun s => Sorts arr s.arr := by
  refine (forUp_rule (Ordered arr range min) hrange (ordered_start hcount fun x hx => (hmin x hx).1) hinner).mono ?_
  rintro s ⟨hlength, -, -, hindex, hplaced⟩
  have hall : smaller arr (range + min) = arr := List.filter_eq_self.mpr fun x hx => by
    have := hmin x hx
    exact decide_eq_true (by omega)
  rw [hall] at hindex hplaced
  rwa [hindex, ← hlength, segment_all] at hplaced

/-- Before a turn, the count and the room for its elements are there. -/
theorem Ordered.given (h : Ordered arr range min i s) (h0 : 0 ≤ i) (hi : i < range) (hturns : arr.length < turns)
    (hint : arr.length < 2 ^ 31) {body : Placing → Option Placing}
    (hbody : ∀ s, Inside s.arr s.j → Inside s.count i → 0 < get s.count i → get s.count i < 2 ^ 31 →
      body s = some (give i min s)) :
    Ends (whileLoop (isLeft i) body turns s) (Given s i (i + min) (arr.count (i + min))) := by
  obtain ⟨-, hroom⟩ := length_smaller arr (i + min)
  have hindex := h.index
  have hlength := h.length
  have hsize := h.size
  exact whileLeft_given ⟨h0, by omega⟩ (h.counts i (Int.le_refl i) hi) (by omega) (by omega) (by omega) (by omega) hbody

theorem placeElements_sorts (hrange : 0 ≤ range) (hcount : Counted arr count range min)
    (hmin : ∀ x ∈ arr, min ≤ x ∧ x - min < range) (hfits : Fits min ∧ Fits (range - 1 + min))
    (hturns : arr.length < turns) (hint : arr.length < 2 ^ 31) :
    Ends (placeElements turns arr count range min) (Sorts arr) := by
  refine (place_sorts hrange hcount hmin fun i s h0 hi h => ?_).bind fun s hs => .some hs
  obtain ⟨⟨hlow, hlow'⟩, hhigh, hhigh'⟩ := hfits
  have hin : Inside s.count i := ⟨h0, by have := h.size; omega⟩
  refine (h.given h0 hi hturns hint fun s hj hi' hpos hbits => ?_).mono fun s' hgiven => ?_
  · simp only [putNext, takeOne, store_eq hj, load_eq hi', store_eq hi', Option.bind_eq_bind, Option.bind_some]
    rw [wrap_of_fits ⟨by omega, by omega⟩, wrap_of_fits ⟨by omega, by omega⟩]
    rfl
  · refine h.step hgiven ?_ (fun _ _ => rfl) hin
    rw [hgiven.count, length_put]
    exact h.size

end Place

/-! ### The range -/

/-- The values are so close that the number of those between them is an `int`. -/
def Narrow (arr : List Int) : Prop := ∀ x ∈ arr, ∀ y ∈ arr, x - y < 2 ^ 31 - 1

/-- The counts are not outside of their memory: as an `int`, the range is 0 for a spread of 2^32 - 1. -/
def Safe (zero : Bool) (arr : List Int) : Prop := zero = false ∨ ∀ x ∈ arr, ∀ y ∈ arr, x - y < 2 ^ 32 - 1

section Range
variable {arr : List Int} {zero : Bool} {n min max : Int} {turns : Nat}

theorem gives_of_lt {bytes : Nat} (h0 : 0 < bytes) (hlt : bytes < 2 ^ 63) : gives zero bytes = true := by
  rw [gives, if_neg (Nat.ne_of_gt h0)]
  exact decide_eq_true hlt

theorem gives_of_le {bytes : Nat} (hle : 2 ^ 63 ≤ bytes) : gives zero bytes = false := by
  rw [gives, if_neg (by omega)]
  exact decide_eq_false (Nat.not_lt.mpr hle)

theorem sizeT_of_nonneg (h0 : 0 ≤ n) (hint : n < 2 ^ 31) : sizeT n = n.toNat := by
  rw [sizeT]
  omega

theorem sizeT_of_neg (h0 : n < 0) (hint : -2 ^ 31 ≤ n) : (sizeT n : Int) = n + 2 ^ 64 := by
  rw [sizeT]
  omega

theorem callocInts_of_pos (h0 : 0 < n) (hint : n < 2 ^ 31) :
    callocInts zero n = some (List.replicate n.toNat 0) := by
  rw [callocInts, sizeT_of_nonneg (Int.le_of_lt h0) hint, gives_of_lt (by omega) (by omega), if_pos rfl]

theorem callocInts_of_neg (h0 : n < 0) (hint : -2 ^ 31 ≤ n) : callocInts zero n = none := by
  have hsize := sizeT_of_neg h0 hint
  rw [callocInts, gives_of_le (by omega), if_neg Bool.false_ne_true]

theorem callocInts_zero (zero : Bool) : callocInts zero 0 = if zero then some [] else none := by
  cases zero <;> rfl

/-- The extremes, and the range as it is computed from them. -/
theorem extremes (hlen : 1 < arr.length) (hfits : ∀ x ∈ arr, Fits x) : ∃ min max,
    getMin arr arr.length = some min ∧ getMax arr arr.length = some max ∧ min ∈ arr ∧ max ∈ arr ∧
      (∀ x ∈ arr, min ≤ x ∧ x ≤ max) ∧
      (Narrow arr → max - min + 1 < 2 ^ 31 ∧ wrap (max - min + 1) = max - min + 1) ∧
      (¬Narrow arr → 2 ^ 31 ≤ max - min + 1 ∧ max - min < 2 ^ 32 ∧ wrap (max - min + 1) = max - min + 1 - 2 ^ 32) := by
  have h0 : arr ≠ [] := List.length_pos_iff.mp (by omega)
  obtain ⟨min, hmin, hmem, hleast⟩ := getMin_ends h0
  obtain ⟨max, hmax, hmem', hgreatest⟩ := getMax_ends h0
  obtain ⟨hlow, -⟩ := hfits min hmem
  obtain ⟨-, hhigh⟩ := hfits max hmem'
  have hle := hleast max hmem'
  have hbounds : ∀ x ∈ arr, min ≤ x ∧ x ≤ max := fun x hx => ⟨hleast x hx, hgreatest x hx⟩
  refine ⟨min, max, hmin, hmax, hmem, hmem', hbounds, fun hnarrow => ?_, fun hwide => ?_⟩
  · have hlt := hnarrow max hmem' min hmem
    exact ⟨by omega, wrap_of_fits ⟨by omega, by omega⟩⟩
  · have hge : 2 ^ 31 - 1 ≤ max - min := by
      refine Int.not_lt.mp fun hlt => hwide fun x hx y hy => ?_
      have := hgreatest x hx
      have := hleast y hy
      omega
    exact ⟨by omega, by omega, wrap_of_above (by omega) (by omega)⟩

/-- Where the spread is as large as it can be, the extremes have it. -/
theorem spread_of_not_safe (h : ¬Safe zero arr) (hbounds : ∀ x ∈ arr, min ≤ x ∧ x ≤ max) (hlt : max - min < 2 ^ 32) :
    zero = true ∧ max - min + 1 - 2 ^ 32 = 0 := by
  obtain ⟨hzero, hwide⟩ := not_or.mp h
  refine ⟨Bool.not_eq_false _ ▸ hzero, ?_⟩
  have hge : 2 ^ 32 - 1 ≤ max - min := by
    refine Int.not_lt.mp fun hlt => hwide fun x hx y hy => ?_
    have := hbounds x hx
    have := hbounds y hy
    omega
  omega

/-- Without counts, the first element has none. -/
theorem countElements_nil (h0 : arr ≠ []) (min : Int) : countElements arr [] arr.length min = none := by
  have hpos := List.length_pos_iff.mpr h0
  obtain ⟨n, hn⟩ := Nat.exists_eq_add_one_of_ne_zero (show arr.length ≠ 0 by omega)
  have hturns : ((arr.length : Int) - 0).toNat = n + 1 := by omega
  have hnone : ∀ k : Int, load ([] : List Int) k = none := by
    intro k
    rw [load]
    split
    · rfl
    · rfl
  rw [countElements, forUp, hturns, turnsUp, load_eq ⟨Int.le_refl 0, by omega⟩]
  simp only [hnone, Option.bind_eq_bind, Option.bind_some, Option.bind_none]

theorem narrow_of_length_le (hlen : arr.length ≤ 1) : Narrow arr := by
  intro x hx y hy
  rcases arr with _ | ⟨z, _ | ⟨w, rest⟩⟩
  · cases hx
  · rw [List.mem_singleton.mp hx, List.mem_singleton.mp hy]
    omega
  · simp only [List.length_cons] at hlen
    omega

/-- What a sort by counts does for a range that is positive, negative, or 0 when it is computed as an `int`. -/
def ByCounts (zero : Bool) (arr : List Int) (place : Int → Int → Nat → List Int → Option (List Int))
    (p : Nat → Option (List Int)) : Prop :=
  ∀ min max n, getMin arr arr.length = some min → getMax arr arr.length = some max → wrap (max - min + 1) = n →
    (0 < n → n < 2 ^ 31 → ∀ turns, p turns =
      (countElements arr (List.replicate n.toNat 0) arr.length min).bind (place n min turns)) ∧
    (n < 0 → -2 ^ 31 ≤ n → ∀ turns, p turns = some arr) ∧
    (n = 0 → ∀ turns, p turns = if zero then none else some arr)

section Counting
variable {p : Nat → Option (List Int)} {place : Int → Int → Nat → List Int → Option (List Int)}

/-- With a negative range there is no memory and the array stays as it is; with the range 0 this is so too, or there
    are no counts. -/
theorem ByCounts.wide (hp : ByCounts zero arr place p) (hlen : 1 < arr.length) (hfits : ∀ x ∈ arr, Fits x)
    (hn : ¬Narrow arr) :
    (Safe zero arr → ∀ turns, p turns = some arr) ∧ (¬Safe zero arr → ∀ turns, p turns = none) := by
  obtain ⟨min, max, hmin, hmax, hmem, hmem', hbounds, -, hwide⟩ := extremes hlen hfits
  obtain ⟨-, hneg, hzero⟩ := hp min max _ hmin hmax rfl
  obtain ⟨hge, hlt, hrange⟩ := hwide hn
  rw [hrange] at hneg hzero
  constructor
  · intro hs turns
    by_cases hfull : max - min + 1 - 2 ^ 32 = 0
    · have hfalse : zero = false := hs.resolve_right fun h => by
        have := h max hmem' min hmem
        omega
      rw [hzero hfull, hfalse, if_neg Bool.false_ne_true]
    · exact hneg (by omega) (by omega) turns
  · intro hs turns
    obtain ⟨htrue, hfull⟩ := spread_of_not_safe hs hbounds hlt
    rw [hzero hfull, htrue, if_pos rfl]

theorem ByCounts.narrow (hp : ByCounts zero arr place p) (hlen : 1 < arr.length) (hint : arr.length < 2 ^ 31)
    (hfits : ∀ x ∈ arr, Fits x) (hn : Narrow arr) (hturns : arr.length < turns)
    (hplace : ∀ n min count turns, 0 ≤ n → Counted arr count n min → (∀ x ∈ arr, min ≤ x ∧ x - min < n) →
      Fits min ∧ Fits (n - 1 + min) → arr.length < turns → Ends (place n min turns count) (Sorts arr)) :
    Ends (p turns) (Sorts arr) := by
  obtain ⟨min, max, hmin, hmax, hmem, hmem', hbounds, hnarrow, -⟩ := extremes hlen hfits
  obtain ⟨hpos, -, -⟩ := hp min max _ hmin hmax rfl
  have hle := (hbounds min hmem).2
  obtain ⟨hlt, hrange⟩ := hnarrow hn
  rw [hrange] at hpos
  have hclose : ∀ x ∈ arr, min ≤ x ∧ x - min < max - min + 1 := fun x hx => by
    have := hbounds x hx
    omega
  rw [hpos (by omega) hlt]
  refine (countElements_ends hint hclose hlt (by rw [List.length_replicate]; omega) fun k hk hk' => ?_).bind
    fun count hcount => hplace _ _ _ _ (by omega) hcount hclose ⟨hfits min hmem, ?_⟩ hturns
  · exact List.eq_of_mem_replicate (get_mem ⟨hk, by rw [List.length_replicate]; omega⟩)
  · rw [show max - min + 1 - 1 + min = max by omega]
    exact hfits max hmem'

/-- A sort by counts works for narrow arrays, and for sorted ones when it has memory. -/
theorem ByCounts.sorts_iff (hp : ByCounts zero arr place p) (hlen : 1 < arr.length) (hint : arr.length < 2 ^ 31)
    (hfits : ∀ x ∈ arr, Fits x)
    (hplace : ∀ n min count turns, 0 ≤ n → Counted arr count n min → (∀ x ∈ arr, min ≤ x ∧ x - min < n) →
      Fits min ∧ Fits (n - 1 + min) → arr.length < turns → Ends (place n min turns count) (Sorts arr)) :
    Halts p (Sorts arr) ↔ Narrow arr ∨ arr.Pairwise (· ≤ ·) ∧ Safe zero arr := by
  by_cases hn : Narrow arr
  · exact iff_of_true ⟨arr.length + 1, fun turns hturns => hp.narrow hlen hint hfits hn hturns hplace⟩ (Or.inl hn)
  obtain ⟨hsame, hnone⟩ := hp.wide hlen hfits hn
  by_cases hs : Safe zero arr
  · rw [halts_of_const 0 fun turns _ => hsame hs turns, or_iff_right hn, and_iff_left hs]
    exact ⟨fun hsorts => hsorts.sorted, fun hsorted => ⟨hsorted, .refl arr⟩⟩
  · exact iff_of_false (not_halts_of_none 0 fun turns _ => hnone hs turns) fun h => hs (h.resolve_left hn).2

end Counting

/-- An array of one element is sorted already. -/
theorem halts_of_length_le {p : Nat → Option (List Int)} (hlen : arr.length ≤ 1) (hp : ∀ turns, p turns = some arr) :
    Halts p (Sorts arr) ↔ Narrow arr ∨ arr.Pairwise (· ≤ ·) ∧ Safe zero arr :=
  iff_of_true ((halts_of_const 0 fun turns _ => hp turns).mpr (sorts_of_length_le hlen))
    (Or.inl (narrow_of_length_le hlen))

theorem countingSort_byCounts (zero : Bool) (hlen : 1 < arr.length) :
    ByCounts zero arr (fun n min turns count => placeElements turns arr count n min)
      fun turns => countingSort zero turns arr arr.length := by
  rintro min max n hmin hmax rfl
  refine ⟨fun hpos hlt turns => ?_, fun hneg hge turns => ?_, fun hzero turns => ?_⟩
  all_goals
    simp only [countingSort]
    rw [if_neg (by omega), hmin, hmax]
    simp only [Option.bind_eq_bind, Option.bind_some]
  · rw [callocInts_of_pos hpos hlt]
  · rw [callocInts_of_neg hneg hge]
  · rw [hzero, callocInts_zero]
    cases zero with
    | false => rfl
    | true =>
      have h0 : arr ≠ [] := List.length_pos_iff.mp (by omega)
      simp only [if_true, countElements_nil h0, Option.bind_none]

theorem countingSort_iff (hint : arr.length < 2 ^ 31) (hfits : ∀ x ∈ arr, Fits x) :
    Halts (fun turns => countingSort zero turns arr arr.length) (Sorts arr) ↔
      Narrow arr ∨ arr.Pairwise (· ≤ ·) ∧ Safe zero arr := by
  by_cases hlen : arr.length ≤ 1
  · exact halts_of_length_le hlen fun turns => if_pos (by omega)
  · exact (countingSort_byCounts zero (by omega)).sorts_iff (by omega) hint hfits
      fun n min count turns h0 hcount hclose hfits hturns => placeElements_sorts h0 hcount hclose hfits hturns hint

end Range
end Minitalk.Libft.Sort
