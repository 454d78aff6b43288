import Minitalk.Lib.Inversions
import Minitalk.Libft.Sort.CocktailShakerSort

/-! # Sorts that exchange neighbours (`ft_bubble_sort`, `ft_gnome_sort`, `odd_even_sort`)

No function gets a null `arr`. Every exchange is of neighbours that are out of order, so there are as many of them as
there are inversions. -/

namespace Minitalk.Libft.Sort
open CArray Program

/-! ### `bubble_sort.c` -/

/-- The loop from `i` on, with the `break` of a pass in which nothing was swapped. -/
def bubbleLoop (size i : Int) (arr : List Int) : Option (List Int) :=
  if i < size - 1 then do
    let (arr, swapped) ← forUp 0 (size - i - 1) (fun j => compareSwap j (j + 1)) (arr, false)
    if !swapped then some arr else bubbleLoop size (i + 1) arr
  else some arr
termination_by (size - 1 - i).toNat

def ftBubbleSort (arr : List Int) (size : Int) : Option (List Int) :=
  if size ≤ 1 then some arr else bubbleLoop size 0 arr

/-! ### `gnome_sort.c` -/

def gnomeTurn (s : List Int × Int) : Option (List Int × Int) := do
  let (arr, index) := s
  let index := if index = 0 then index + 1 else index
  if (← load arr (index - 1)) ≤ (← load arr index) then some (arr, index + 1)
  else some (← swap arr index (index - 1), index - 1)

def ftGnomeSort (turns : Nat) (arr : List Int) (size : Int) : Option (List Int) :=
  if size ≤ 1 then some arr
  else do
    let (arr, _) ← whileLoop (fun s => some (decide (s.2 < size))) gnomeTurn turns (arr, 0)
    some arr

/-! ### `odd_even_sort.c` -/

/-- The loop of `odd_pass` and `even_pass`, from `i` on. -/
def passFrom (size i : Int) (s : List Int × Bool) : Option (List Int × Bool) :=
  if i < size - 1 then do
    let (arr, sorted) := s
    if (← load arr (i + 1)) < (← load arr i) then passFrom size (i + 2) (← swap arr i (i + 1), false)
    else passFrom size (i + 2) (arr, sorted)
  else some s
termination_by (size - 1 - i).toNat

def oddPass (size : Int) (s : List Int × Bool) : Option (List Int × Bool) := passFrom size 1 s

def evenPass (size : Int) (s : List Int × Bool) : Option (List Int × Bool) := passFrom size 0 s

def oddEvenTurn (size : Int) (s : List Int × Bool) : Option (List Int × Bool) := do
  evenPass size (← oddPass size (s.1, true))

def oddEvenSort (turns : Nat) (arr : List Int) (size : Int) : Option (List Int) :=
  if size ≤ 1 then some arr
  else do
    let (arr, _) ← whileLoop (fun s => some !s.2) (oddEvenTurn size) turns (arr, false)
    some arr

/-! ### Bubble sort -/

section Bubble
variable {a arr : List Int} {i : Int}

/-- The greatest elements go to the last cells, one in each pass. -/
theorem bubbleLoop_sorts (hperm : a.Perm arr) (hi : 0 ≤ i) (hle : i < arr.length)
    (hfinal : FinalFrom (arr.length - i) a) :
    Ends (bubbleLoop arr.length i a) (Sorts arr) := by
  have hlen := hperm.length_eq
  induction hn : ((arr.length : Int) - 1 - i).toNat generalizing i a with
  | zero =>
    rw [bubbleLoop, if_neg (by omega)]
    have hone : (arr.length : Int) - i = 0 + 1 := by omega
    rw [hone] at hfinal
    exact .some ⟨(hfinal.sorted (finalBefore_zero a) (sortedOn_of_le (by omega))).pairwise, hperm⟩
  | succ n ih =>
    rw [bubbleLoop, if_pos (by omega)]
    refine (climb_ends (Int.le_refl 0) (by omega) (by omega)).bind ?_
    rintro ⟨b, swapped⟩ hclimb
    have hstop : (arr.length : Int) - i = arr.length - i - 1 + 1 := by omega
    rw [hstop] at hfinal
    have hb : Rearranged 0 (arr.length - i - 1 + 1) a b := hclimb.rearranged
    have hfinal' := hfinal.rearranged hb (Int.le_refl 0) (by omega)
    cases swapped with
    | false =>
      obtain ⟨rfl, hs⟩ := hclimb.still rfl
      exact .some ⟨(hfinal'.sorted (finalBefore_zero b) hs).pairwise, hperm⟩
    | true =>
      have hnext := hfinal'.shrink (finalBefore_zero b) hclimb.greatest
      have hstop' : (arr.length : Int) - i - 1 = arr.length - (i + 1) := by omega
      rw [hstop'] at hnext
      exact ih (hb.perm.trans hperm) (by omega) (by omega) hnext (by rw [hb.length, hlen]) (by omega)

theorem ftBubbleSort_sorts (arr : List Int) : Ends (ftBubbleSort arr arr.length) (Sorts arr) := by
  rw [ftBubbleSort]
  split
  · exact .some (sorts_of_length_le (by omega))
  · refine bubbleLoop_sorts (.refl arr) (Int.le_refl 0) (by omega) ?_
    rw [Int.sub_zero]
    exact finalFrom_length arr

end Bubble

/-! ### Gnome sort -/

section Gnome
variable {arr : List Int} {s : List Int × Int}

/-- The cells before `index` are in order. -/
structure Walked (arr : List Int) (s : List Int × Int) : Prop where
  perm : s.1.Perm arr
  range : 0 ≤ s.2 ∧ s.2 ≤ arr.length
  sorted : SortedOn s.1 0 s.2

/-- The cells that are still ahead, and two for each inversion: an exchange takes one step back. -/
def gnomeLeft (size : Int) (s : List Int × Int) : Nat := (size - s.2).toNat + 2 * inversions s.1

theorem Walked.step (h : Walked arr s) (hlen : 2 ≤ arr.length) (hlt : s.2 < arr.length) :
    Ends (gnomeTurn s) fun s' => Walked arr s' ∧ gnomeLeft arr.length s' < gnomeLeft arr.length s := by
  obtain ⟨a, index⟩ := s
  obtain ⟨hperm, ⟨h0, -⟩, hsorted⟩ := h
  simp only at hperm h0 hsorted hlt
  have hlena := hperm.length_eq
  simp only [gnomeTurn]
  -- at the first cell, the turn looks at the second one
  have hindex : (if index = 0 then index + 1 else index) < arr.length ∧ 0 < (if index = 0 then index + 1 else index) ∧
      index ≤ (if index = 0 then index + 1 else index) := by
    split <;> omega
  have hsorted' : SortedOn a 0 (if index = 0 then index + 1 else index) := by
    split
    · exact sortedOn_of_le (by omega)
    · exact hsorted
  generalize (if index = 0 then index + 1 else index) = i at hindex hsorted'
  obtain ⟨hi, hpos, hle⟩ := hindex
  have hin : Inside a i := ⟨by omega, by omega⟩
  have hin' : Inside a (i - 1) := ⟨by omega, by omega⟩
  simp only [load_eq hin, load_eq hin', swap_eq hin hin', Option.bind_eq_bind, Option.bind_some]
  split
  · rename_i hord
    refine .some ⟨⟨hperm, ⟨by simp only; omega, by simp only; omega⟩, ?_⟩, by simp only [gnomeLeft]; omega⟩
    intro k k' hk hlt' hk'
    rcases Int.lt_or_eq_of_le (show k' ≤ i by simp only at hk'; omega) with hk' | rfl
    · exact hsorted' k k' hk hlt' hk'
    · rcases Int.lt_or_eq_of_le (show k ≤ k' - 1 by omega) with hlt' | rfl
      · exact Int.le_trans (hsorted' k (k' - 1) hk hlt' (by omega)) hord
      · exact hord
  · rename_i hgt
    have hinv : inversions (exchange a (i - 1) (i - 1 + 1)) + 1 = inversions a :=
      inversions_exchange (by omega) (by omega) (by rw [Int.sub_add_cancel]; exact Int.not_le.mp hgt)
    rw [Int.sub_add_cancel, exchange_comm hin' hin] at hinv
    refine .some ⟨⟨(exchange_perm hin hin').trans hperm, ⟨by simp only; omega, by simp only; omega⟩, ?_⟩,
      by simp only [gnomeLeft]; omega⟩
    refine (hsorted'.mono (Int.le_refl 0) (by simp only; omega)).congr fun k hk hk' => ?_
    simp only at hk'
    rw [get_exchange hin hin', if_neg (by omega), if_neg (by omega)]

/-- The turns are no more than the cells, and two for each inversion. -/
theorem ftGnomeSort_sorts {turns : Nat} (hturns : arr.length + 2 * inversions arr < turns) :
    Ends (ftGnomeSort turns arr arr.length) (Sorts arr) := by
  simp only [ftGnomeSort]
  split
  · exact .some (sorts_of_length_le (by omega))
  · refine Ends.bind (P := fun s => Sorts arr s.1) ?_ fun s hs => .some hs
    refine whileLoop_rule (Walked arr) (gnomeLeft arr.length) (by simp only [gnomeLeft]; omega)
      ⟨.refl arr, ⟨Int.le_refl 0, by simp only; omega⟩, sortedOn_of_le (by simp only; omega)⟩ fun s hs => .some ?_
    by_cases hlt : s.2 < arr.length
    · rw [if_pos (decide_eq_true hlt)]
      exact hs.step (by omega) hlt
    · rw [if_neg (by simpa using hlt)]
      obtain ⟨hperm, ⟨-, hle⟩, hsorted⟩ := hs
      have hall : s.2 = s.1.length := by
        have hlen := hperm.length_eq
        omega
      rw [hall] at hsorted
      exact ⟨hsorted.pairwise, hperm⟩

theorem ftGnomeSort_sorts_three : Ends (ftGnomeSort 8 [3, 1, 2] ([3, 1, 2] : List Int).length) (Sorts [3, 1, 2]) :=
  ftGnomeSort_sorts (by decide)

end Gnome

/-! ### Odd-even sort -/

section OddEven
variable {size i : Int} {a b arr : List Int} {sorted : Bool}

/-- A pass from `i` on: when it exchanges nothing, every second pair of neighbours is in order. -/
structure Passed (i : Int) (a : List Int) (sorted : Bool) (s : List Int × Bool) : Prop where
  perm : s.1.Perm a
  fewer : inversions s.1 ≤ inversions a
  less : s.2 = false → sorted = true → inversions s.1 < inversions a
  still : s.2 = true → sorted = true ∧ s.1 = a ∧
    ∀ k, i ≤ k → k + 1 < a.length → (k - i) % 2 = 0 → get a k ≤ get a (k + 1)

theorem passFrom_passed (hi : 0 ≤ i) : Ends (passFrom a.length i (a, sorted)) (Passed i a sorted) := by
  induction hn : ((a.length : Int) - 1 - i).toNat using Nat.strongRecOn generalizing i a sorted with
  | ind n ih =>
    rw [passFrom]
    split
    · rename_i hlt
      have hin : Inside a i := ⟨hi, by omega⟩
      have hin' : Inside a (i + 1) := ⟨by omega, by omega⟩
      simp only [load_eq hin, load_eq hin', swap_eq hin hin', Option.bind_eq_bind, Option.bind_some]
      split
      · rename_i hgt
        have hinv := inversions_exchange hi hin'.2 hgt
        have hrest : Ends (passFrom (exchange a i (i + 1)).length (i + 2) (exchange a i (i + 1), false))
            (Passed (i + 2) (exchange a i (i + 1)) false) := ih _ (by rw [length_exchange]; omega) (by omega) rfl
        rw [length_exchange] at hrest
        refine hrest.mono fun s ⟨hperm, hfewer, _, hstill⟩ => ?_
        refine ⟨hperm.trans (exchange_perm hin hin'), by omega, fun _ _ => by omega, fun htrue => ?_⟩
        exact absurd (hstill htrue).1 Bool.false_ne_true
      · rename_i hle
        refine (ih _ (by omega) (show 0 ≤ i + 2 by omega) rfl).mono fun s ⟨hperm, hfewer, hless, hstill⟩ => ?_
        refine ⟨hperm, hfewer, hless, fun htrue => ?_⟩
        obtain ⟨hsorted, hsame, hpairs⟩ := hstill htrue
        refine ⟨hsorted, hsame, fun k hk hk' heven => ?_⟩
        by_cases hfirst : k = i
        · rw [hfirst]
          exact Int.not_lt.mp hle
        · exact hpairs k (by omega) hk' (by omega)
    · refine .some ⟨.refl a, Nat.le_refl _, fun hfalse htrue => ?_, fun htrue => ⟨htrue, rfl, fun k hk hk' => by omega⟩⟩
      exact absurd (htrue.symm.trans hfalse) (by decide)

/-- A turn after which `sorted` is set has found the array in order. -/
theorem oddEvenTurn_passed (a : List Int) (sorted : Bool) : Ends (oddEvenTurn a.length (a, sorted)) fun s =>
    s.1.Perm a ∧ if s.2 then s.1 = a ∧ SortedOn a 0 a.length else inversions s.1 < inversions a := by
  refine (passFrom_passed (i := 1) (by decide)).bind ?_
  rintro ⟨b, odd⟩ ⟨hperm, hfewer, hless, hstill⟩
  simp only at hperm hfewer hless hstill
  have heven : Ends (passFrom b.length 0 (b, odd)) (Passed 0 b odd) := passFrom_passed (Int.le_refl 0)
  rw [hperm.length_eq] at heven
  refine heven.mono ?_
  rintro ⟨c, even⟩ ⟨hperm', hfewer', hless', hstill'⟩
  simp only at hperm' hfewer' hless' hstill'
  refine ⟨hperm'.trans hperm, ?_⟩
  cases even with
  | false =>
    rw [if_neg Bool.false_ne_true]
    cases odd with
    | false => exact Nat.lt_of_le_of_lt hfewer' (hless rfl trivial)
    | true => exact Nat.lt_of_lt_of_le (hless' rfl rfl) hfewer
  | true =>
    obtain ⟨rfl, rfl, hpairs'⟩ := hstill' rfl
    obtain ⟨-, rfl, hpairs⟩ := hstill rfl
    refine ⟨rfl, sortedOn_of_neighbours fun k hk hk' => ?_⟩
    by_cases hodd : (k - 1) % 2 = 0
    · exact hpairs k (by omega) hk' hodd
    · exact hpairs' k hk hk' (by omega)

/-- The turns are at most one more than the inversions. -/
theorem oddEvenSort_sorts {turns : Nat} (hturns : inversions arr + 1 < turns) :
    Ends (oddEvenSort turns arr arr.length) (Sorts arr) := by
  simp only [oddEvenSort]
  split
  · exact .some (sorts_of_length_le (by omega))
  · refine Ends.bind (P := fun s => Sorts arr s.1) ?_ fun s hs => .some hs
    refine whileLoop_rule (fun s => s.1.Perm arr ∧ (s.2 = true → SortedOn s.1 0 s.1.length))
      (fun s => if s.2 then 0 else inversions s.1 + 1) hturns ⟨.refl arr, nofun⟩ ?_
    rintro ⟨a, sorted⟩ ⟨hperm, hsorted⟩
    refine .some ?_
    cases sorted with
    | true => exact ⟨(hsorted rfl).pairwise, hperm⟩
    | false =>
      simp only [Bool.not_false, if_true]
      have hturn := oddEvenTurn_passed a false
      rw [hperm.length_eq] at hturn
      refine hturn.mono ?_
      rintro ⟨b, sorted'⟩ ⟨hperm', hcase⟩
      cases sorted' with
      | false => exact ⟨⟨hperm'.trans hperm, nofun⟩, by simpa using hcase⟩
      | true =>
        obtain ⟨rfl, hs⟩ := hcase
        exact ⟨⟨hperm, fun _ => by rwa [← hperm.length_eq] at hs⟩, by simp⟩

theorem oddEvenSort_sorts_three : Ends (oddEvenSort 4 [3, 1, 2] ([3, 1, 2] : List Int).length) (Sorts [3, 1, 2]) :=
  oddEvenSort_sorts (by decide)

end OddEven

end Minitalk.Libft.Sort
