import Minitalk.Lib.FinalPlaces
import Minitalk.Libft.Sort.IntroSort

/-! # Sorts that select (`ft_selection_sort`, `pancake_sort`, `heap_sort`)

No function gets a null `arr`. -/

namespace Minitalk.Libft.Sort
open CArray HeapOrder Program

/-! ### `selection_sort.c` -/

def ftSelectionSort (arr : List Int) (n : Int) : Option (List Int) :=
  if n ≤ 1 then some arr
  else forUp 0 (n - 1) (fun i arr => do
    let minIdx ← forUp (i + 1) n (fun j minIdx => do
      if (← load arr j) < (← load arr minIdx) then some j else some minIdx) i
    if minIdx ≠ i then swap arr minIdx i else some arr) arr

/-! ### `pancake_sort.c` -/

/-- The loop of `flip`. -/
def flipFrom (start stop : Int) (arr : List Int) : Option (List Int) :=
  if start < stop then do flipFrom (start + 1) (stop - 1) (← swap arr start stop) else some arr
termination_by (stop - start).toNat

def flip (arr : List Int) (i : Int) : Option (List Int) := flipFrom 0 i arr

def findMaxIndex (arr : List Int) (size : Int) : Option Int :=
  forUp 1 size (fun i maxIdx => do
    if (← load arr i) > (← load arr maxIdx) then some i else some maxIdx) 0

def pancakeSort (arr : List Int) (size : Int) : Option (List Int) :=
  if size ≤ 1 then some arr
  else forDown size 1 (fun currSize arr => do
    let maxIdx ← findMaxIndex arr currSize
    if maxIdx ≠ currSize - 1 then flip (← flip arr maxIdx) (currSize - 1) else some arr) arr

/-! ### `heap_sort.c` -/

/-- It builds and empties the heap as `heap_sort_intro` does in the cells from 0 on. -/
def heapSort (fuel : Nat) (arr : List Int) (size : Int) : Option (List Int) :=
  if size ≤ 1 then some arr else heapSortIntro fuel 0 size arr

/-! ### The extreme element -/

/-- The loop that looks for the index of an element of which no other is ahead. -/
theorem select_ends (ahead : Int → Int → Prop) [DecidableRel ahead] (hasymm : ∀ x y, ahead x y → ¬ahead y x)
    (htrans : ∀ x y z, ¬ahead x y → ¬ahead y z → ¬ahead x z) {a : List Int} {i n : Int} (h0 : 0 ≤ i) (hi : i < n)
    (hn : n ≤ a.length) :
    Ends (forUp (i + 1) n (fun j m => do if ahead (← load a j) (← load a m) then some j else some m) i) fun m =>
      i ≤ m ∧ m < n ∧ ∀ k, i ≤ k → k < n → ¬ahead (get a k) (get a m) := by
  have hirrefl : ∀ x, ¬ahead x x := fun x h => hasymm x x h h
  refine forUp_rule (fun j m => i ≤ m ∧ m < j ∧ ∀ k, i ≤ k → k < j → ¬ahead (get a k) (get a m)) (by omega)
    ⟨Int.le_refl i, by omega, fun k hk hk' => ?_⟩ ?_
  · obtain rfl : k = i := by omega
    exact hirrefl _
  · rintro j m hj hj' ⟨hlow, hhigh, hall⟩
    have hin : Inside a j := ⟨by omega, by omega⟩
    have hin' : Inside a m := ⟨by omega, by omega⟩
    simp only [load_eq hin, load_eq hin', Option.bind_eq_bind, Option.bind_some]
    split
    · rename_i hahead
      refine .some ⟨by omega, by omega, fun k hk hk' => ?_⟩
      rcases Int.lt_or_eq_of_le (Int.le_of_lt_add_one hk') with hlt | rfl
      · exact htrans _ _ _ (hall k hk hlt) (hasymm _ _ hahead)
      · exact hirrefl _
    · rename_i hnot
      refine .some ⟨hlow, by omega, fun k hk hk' => ?_⟩
      rcases Int.lt_or_eq_of_le (Int.le_of_lt_add_one hk') with hlt | rfl
      · exact hall k hk hlt
      · exact hnot

/-! ### Selection sort -/

section Selection
variable {a arr : List Int} {i : Int}

/-- The smallest element from `i` on. -/
theorem minIdx_ends (h0 : 0 ≤ i) (hi : i < a.length) :
    Ends (forUp (i + 1) a.length (fun j minIdx => do
      if (← load a j) < (← load a minIdx) then some j else some minIdx) i) fun m =>
        i ≤ m ∧ m < a.length ∧ ∀ k, i ≤ k → k < a.length → get a m ≤ get a k := by
  refine (select_ends (· < ·) (fun x y => Int.lt_asymm) (fun x y z hxy hyz => ?_) h0 hi (Int.le_refl _)).mono
    fun m ⟨hlow, hhigh, hleast⟩ => ⟨hlow, hhigh, fun k hk hk' => Int.not_lt.mp (hleast k hk hk')⟩
  omega

theorem ftSelectionSort_sorts (arr : List Int) : Ends (ftSelectionSort arr arr.length) (Sorts arr) := by
  rw [ftSelectionSort]
  split
  · exact .some (sorts_of_length_le (by omega))
  · refine (forUp_rule (fun i a => a.Perm arr ∧ FinalBefore i a) (by omega)
      ⟨.refl arr, finalBefore_zero arr⟩ ?_).mono ?_
    · rintro i a hi hi' ⟨hperm, hfinal⟩
      have hlen := hperm.length_eq
      have hmin := minIdx_ends (a := a) hi (by omega)
      rw [hlen] at hmin
      refine hmin.bind ?_
      rintro m ⟨hlow, hhigh, hleast⟩
      have hin : Inside a i := ⟨hi, by omega⟩
      have hin' : Inside a m := ⟨by omega, by omega⟩
      -- with the element in its cell, those after it are not smaller
      have hgrow : ∀ b : List Int, Rearranged i arr.length a b → get b i = get a m → Ends (some b) fun b =>
          b.Perm arr ∧ FinalBefore (i + 1) b := fun b hb hcell => by
        have hlenb := hb.length
        have hnone : FinalFrom ((arr.length : Int) - 1 + 1) b := fun k k' _ _ hk' hlt => by omega
        refine .some ⟨hb.perm.trans hperm, (hfinal.rearranged hb hi (by omega)).grow hnone hi fun k hk hk' => ?_⟩
        rw [hcell]
        exact hb.forall_range hi (by omega) (P := (get a m ≤ ·)) hleast k hk (by omega)
      by_cases hne : m = i
      · rw [if_neg (not_not.mpr hne)]
        exact hgrow a (.refl _ _ a) (by rw [hne])
      · rw [if_pos hne, swap_eq hin' hin]
        refine hgrow _ (.exchange hin' hin (by omega) (by omega)) ?_
        rw [get_exchange hin' hin, if_pos rfl]
    · rintro a ⟨hperm, hfinal⟩
      refine ⟨SortedOn.pairwise fun k k' hk hlt hk' => ?_, hperm⟩
      have hlen := hperm.length_eq
      exact hfinal k k' hk (by omega) hlt hk'

end Selection

/-! ### Pancake sort -/

section Pancake
variable {a b arr : List Int} {start stop i size : Int}

/-- The cells from `start` to `stop` are reversed. -/
structure Flipped (start stop : Int) (a b : List Int) : Prop where
  perm : b.Perm a
  cells : ∀ k, get b k = if start ≤ k ∧ k ≤ stop then get a (start + stop - k) else get a k

theorem flipFrom_flipped (h0 : 0 ≤ start) (hlt : stop < a.length) :
    Ends (flipFrom start stop a) (Flipped start stop a) := by
  induction hn : (stop - start).toNat using Nat.strongRecOn generalizing start stop a with
  | ind n ih =>
    rw [flipFrom]
    split
    · rename_i hlt'
      have hin : Inside a start := ⟨h0, by omega⟩
      have hin' : Inside a stop := ⟨by omega, hlt⟩
      rw [swap_eq hin hin', Option.bind_eq_bind, Option.bind_some]
      refine (ih _ (by omega) (show 0 ≤ start + 1 by omega) (by rw [length_exchange]; omega) rfl).mono ?_
      rintro b ⟨hperm, hcells⟩
      refine ⟨hperm.trans (exchange_perm hin hin'), fun k => ?_⟩
      have hmirror : start + 1 + (stop - 1) - k = start + stop - k := by omega
      rw [hcells, hmirror]
      by_cases hinner : start + 1 ≤ k ∧ k ≤ stop - 1
      · rw [if_pos hinner, if_pos ⟨by omega, by omega⟩, get_exchange hin hin', if_neg (by omega), if_neg (by omega)]
      · rw [if_neg hinner, get_exchange hin hin']
        by_cases hlast : k = stop
        · rw [if_pos hlast, if_pos ⟨by omega, by omega⟩, hlast, Int.add_sub_cancel]
        · rw [if_neg hlast]
          by_cases hfirst : k = start
          · rw [if_pos hfirst, if_pos ⟨by omega, by omega⟩, hfirst, Int.add_comm start, Int.add_sub_cancel]
          · rw [if_neg hfirst, if_neg (by omega)]
    · refine .some ⟨.refl a, fun k => ?_⟩
      split
      · congr 1
        omega
      · rfl

theorem flip_rearranged (h : Flipped 0 i a b) (hle : i < size) : Rearranged 0 size a b :=
  ⟨h.perm, fun k hout => by rw [h.cells, if_neg (by omega)]⟩

theorem findMaxIndex_ends (h0 : 1 ≤ size) (hle : size ≤ a.length) : Ends (findMaxIndex a size) fun m =>
    0 ≤ m ∧ m < size ∧ ∀ k, 0 ≤ k → k < size → get a k ≤ get a m := by
  refine (select_ends (· > ·) (fun x y hxy => ?_) (fun x y z hxy hyz => ?_) (Int.le_refl 0)
    (by omega) hle).mono fun m ⟨hlow, hhigh, hgreatest⟩ =>
      ⟨hlow, hhigh, fun k hk hk' => Int.not_lt.mp (hgreatest k hk hk')⟩
  · omega
  · omega

/-- Two flips bring the greatest element to the front and then to its place. -/
theorem pancakeSort_sorts (arr : List Int) : Ends (pancakeSort arr arr.length) (Sorts arr) := by
  rw [pancakeSort]
  split
  · exact .some (sorts_of_length_le (by omega))
  · refine (forDown_rule (fun size a => a.Perm arr ∧ FinalFrom size a) (by omega)
      ⟨.refl arr, finalFrom_length arr⟩ ?_).mono ?_
    · rintro size a hone hsize ⟨hperm, hfinal⟩
      have hlen := hperm.length_eq
      have hrest : size = size - 1 + 1 := by omega
      rw [hrest] at hfinal
      refine (findMaxIndex_ends (by omega) (by omega)).bind ?_
      rintro m ⟨hlow, hhigh, hgreatest⟩
      have hshrink : ∀ b : List Int, Rearranged 0 size a b → get b (size - 1) = get a m → Ends (some b) fun b =>
          b.Perm arr ∧ FinalFrom (size - 1) b := fun b hb hcell => by
        have hb' := hb
        rw [hrest] at hb'
        refine .some ⟨hb.perm.trans hperm, (hfinal.rearranged hb' (Int.le_refl 0) (by omega)).shrink
          (finalBefore_zero b) fun k hk hk' => ?_⟩
        rw [hcell]
        exact hb.forall_range (Int.le_refl 0) (by omega) (P := (· ≤ get a m)) hgreatest k hk (by omega)
      by_cases hne : m = size - 1
      · rw [if_neg (not_not.mpr hne)]
        exact hshrink a (.refl _ _ a) (by rw [hne])
      · rw [if_pos hne]
        refine (flipFrom_flipped (Int.le_refl 0) (by omega)).bind fun b hb => ?_
        have hlenb := hb.perm.length_eq
        obtain ⟨c, hrun, hc⟩ := flipFrom_flipped (a := b) (Int.le_refl 0) (show size - 1 < b.length by omega)
        have hcell : get c (size - 1) = get a m := by
          rw [hc.cells, if_pos ⟨by omega, by omega⟩, Int.zero_add, Int.sub_self, hb.cells, if_pos ⟨by omega, hlow⟩,
            Int.zero_add, Int.sub_zero]
        rw [flip, hrun]
        exact hshrink c ((flip_rearranged hb hhigh).trans (flip_rearranged hc (by omega))) hcell
    · rintro a ⟨hperm, hfinal⟩
      have hone : FinalFrom (0 + 1) a := hfinal
      exact ⟨(hone.sorted (finalBefore_zero a) (sortedOn_of_le (by omega))).pairwise, hperm⟩

end Pancake

/-! ### Heap sort -/

section Heap
variable {a : List Int}

/-- The array is sorted exactly when no value sinks to a node whose children have no `int` as their index; below 2^30
    elements none does. -/
theorem heapSort_iff (hint : a.length < 2 ^ 31) :
    (Halts (fun fuel => heapSort fuel a a.length) (Sorts a) ↔ a.length ≤ 1 ∨ ¬HeapOverflows 0 a.length a) ∧
      (a.length < 2 ^ 30 → Halts (fun fuel => heapSort fuel a a.length) (Sorts a)) := by
  have hiff : Halts (fun fuel => heapSort fuel a a.length) (Sorts a) ↔ a.length ≤ 1 ∨ ¬HeapOverflows 0 a.length a := by
    simp only [heapSort]
    split
    · exact iff_of_true ⟨0, fun _ _ => .some (sorts_of_length_le (by omega))⟩ (Or.inl (by omega))
    · have hcases := fun (fuel : Nat) (hfuel : a.length < fuel) => @heapSortIntro_cases 0 a.length a fuel
        (Int.le_refl 0) (by omega) (by omega) hint (by omega)
      constructor
      · rintro ⟨enough, hends⟩
        obtain ⟨b, hb, -⟩ := hends (max enough (a.length + 1)) (Nat.le_max_left _ _)
        rcases hcases _ (Nat.le_max_right _ _) with ⟨-, hnone⟩ | ⟨hno, -⟩
        · cases hnone.symm.trans hb
        · exact Or.inr hno
      · intro hno
        refine ⟨a.length + 1, fun fuel hfuel => ?_⟩
        rcases hcases fuel hfuel with ⟨hover, -⟩ | ⟨-, hends⟩
        · exact absurd hover (hno.resolve_left (by omega))
        · refine hends.mono fun b ⟨hb, hs⟩ => hb.sorts ?_
          rwa [hb.length, ← Int.zero_add (a.length : Int)]
  refine ⟨hiff, fun hsmall => hiff.mpr ?_⟩
  by_cases hone : a.length ≤ 1
  · exact Or.inl hone
  · refine Or.inr fun hover => ?_
    have := HeapOverflows.le hover (by omega)
    omega

theorem heapSort_iff_three :
    Halts (fun fuel => heapSort fuel [3, 1, 2] ([3, 1, 2] : List Int).length) (Sorts [3, 1, 2]) :=
  (heapSort_iff (by decide)).2 (by decide)

end Heap

end Minitalk.Libft.Sort
