import Mathlib.Data.Int.Order.Basic
import Minitalk.Lib.FinalPlaces
import Minitalk.Libft.Sort.InsertionSort

/-! # Cocktail shaker sort (`cocktail_shaker_sort`) -/

namespace Minitalk.Libft.Sort
open CArray Program

/-- `if (arr[i] > arr[j])`: the elements are exchanged, and `swapped` is set. -/
def compareSwap (i j : Int) (s : List Int × Bool) : Option (List Int × Bool) := do
  let (arr, swapped) := s
  if (← load arr j) < (← load arr i) then some (← swap arr i j, true) else some (arr, swapped)

/-- `last` is `*end`. -/
def forwardPass (arr : List Int) (start last : Int) : Option (List Int × Int × Bool) := do
  let (arr, swapped) ← forUp start last (fun i => compareSwap i (i + 1)) (arr, false)
  some (arr, if swapped then last - 1 else last, swapped)

def backwardPass (arr : List Int) (start last : Int) (swapped : Bool) : Option (List Int × Int × Bool) := do
  let (arr, swapped) ← forDown last start (fun i s => do
    let (arr, swapped) := s
    if (← load arr i) < (← load arr (i - 1)) then some (← swap arr i (i - 1), true) else some (arr, swapped))
    (arr, swapped)
  some (arr, start + 1, swapped)

namespace CocktailShakerSort

/-- The array and the variables of `cocktail_shaker_sort`. -/
structure State where
  arr : List Int
  start : Int
  last : Int
  swapped : Bool

/-- One turn. The `break` is where `swapped` is false, which ends the loop as well. -/
def turn (s : State) : Option State := do
  let (arr, last, swapped) ← forwardPass s.arr s.start s.last
  if !swapped then some { arr, start := s.start, last, swapped }
  else do
    let (arr, start, swapped) ← backwardPass arr s.start last swapped
    some { arr, start, last, swapped }

/-- The states between the turns of a run. -/
inductive Reached (arr : List Int) : State → Prop
  | start : Reached arr { arr, start := 0, last := arr.length - 1, swapped := true }
  | turn {s s' : State} : Reached arr s → s.swapped = true → turn s = some s' → Reached arr s'

end CocktailShakerSort

def cocktailShakerSort (turns : Nat) (arr : List Int) (size : Int) : Option (List Int) :=
  if size ≤ 1 then some arr
  else do
    let s ← whileLoop (fun s => some s.swapped) CocktailShakerSort.turn turns
      { arr, start := 0, last := size - 1, swapped := true }
    some s.arr

/-! ### The passes -/

section Passes
variable {start last i j lo hi : Int} {a b : List Int} {swapped : Bool}

theorem compareSwap_eq (hi : Inside a i) (hj : Inside a j) :
    compareSwap i j (a, swapped) = some (if get a j < get a i then (exchange a i j, true) else (a, swapped)) := by
  simp only [compareSwap, load_eq hi, load_eq hj, swap_eq hi hj, Option.bind_eq_bind, Option.bind_some]
  split <;> rfl

/-- What holds after the turns of a forward pass up to `i`: the greatest element so far is at `i`. -/
structure Climb (a : List Int) (lo hi i : Int) (s : List Int × Bool) : Prop where
  rearranged : Rearranged lo (hi + 1) a s.1
  greatest : ∀ k, lo ≤ k → k ≤ i → get s.1 k ≤ get s.1 i
  still : s.2 = false → s.1 = a ∧ SortedOn a lo (i + 1)
  moved : s.2 = true → lo < i

theorem Climb.step {s : List Int × Bool} (h : Climb a lo hi i s) (h0 : 0 ≤ lo) (hle : lo ≤ i) (hlt : i < hi)
    (hlen : hi < a.length) : Ends (compareSwap i (i + 1) s) (Climb a lo hi (i + 1)) := by
  obtain ⟨b, swapped⟩ := s
  obtain ⟨hr, hgreatest, hstill, -⟩ := h
  simp only at hr hgreatest hstill
  have hlen' := hr.length
  have hin : Inside b i := ⟨by omega, by omega⟩
  have hin' : Inside b (i + 1) := ⟨by omega, by omega⟩
  rw [compareSwap_eq hin hin']
  refine .some ?_
  split
  · rename_i hgt
    refine ⟨hr.trans (.exchange hin hin' (by omega) (by omega)), fun k hk hk' => ?_, nofun, fun _ => by omega⟩
    rw [get_exchange hin hin', get_exchange hin hin', if_pos rfl]
    split
    · exact Int.le_refl _
    · split
      · exact Int.le_of_lt hgt
      · exact hgreatest k hk (by omega)
  · rename_i hng
    have hng := Int.not_lt.mp hng
    refine ⟨hr, fun k hk hk' => ?_, fun hfalse => ?_, fun _ => by omega⟩
    · rcases Int.lt_or_eq_of_le hk' with hlt' | rfl
      · exact Int.le_trans (hgreatest k hk (by omega)) hng
      · exact Int.le_refl _
    · obtain ⟨rfl, hs⟩ := hstill hfalse
      refine ⟨rfl, fun k k' hk hlt' hk' => ?_⟩
      rcases Int.lt_or_eq_of_le (show k' ≤ i + 1 by omega) with hk' | rfl
      · exact hs k k' hk hlt' hk'
      · exact Int.le_trans (hgreatest k hk (by omega)) hng

theorem climb_ends (h0 : 0 ≤ lo) (hle : lo ≤ hi) (hlen : hi < a.length) :
    Ends (forUp lo hi (fun i => compareSwap i (i + 1)) (a, false)) (Climb a lo hi hi) := by
  refine forUp_rule (Climb a lo hi) hle ⟨.refl _ _ a, fun k hk hk' => ?_, fun _ => ⟨rfl, ?_⟩, nofun⟩
    fun i s hi hi' hs => hs.step h0 hi hi' hlen
  · obtain rfl : k = lo := by omega
    exact Int.le_refl _
  · exact sortedOn_of_le (Int.le_refl _)

/-- What holds after the turns of a backward pass down to `i`: the smallest element so far is at `i`. -/
structure Descent (a : List Int) (lo hi i : Int) (s : List Int × Bool) : Prop where
  rearranged : Rearranged lo (hi + 1) a s.1
  smallest : ∀ k, i ≤ k → k ≤ hi → get s.1 i ≤ get s.1 k
  swapped : s.2 = true

theorem Descent.step {s : List Int × Bool} (h : Descent a lo hi i s) (h0 : 0 ≤ lo) (hlt : lo < i) (hle : i ≤ hi)
    (hlen : hi < a.length) :
    Ends (do if (← load s.1 i) < (← load s.1 (i - 1)) then some (← swap s.1 i (i - 1), true) else some s)
      (Descent a lo hi (i - 1)) := by
  obtain ⟨b, swapped⟩ := s
  obtain ⟨hr, hsmallest, hswapped⟩ := h
  simp only at hr hsmallest hswapped
  have hlen' := hr.length
  have hin : Inside b i := ⟨by omega, by omega⟩
  have hin' : Inside b (i - 1) := ⟨by omega, by omega⟩
  simp only [load_eq hin, load_eq hin', swap_eq hin hin', Option.bind_eq_bind, Option.bind_some]
  split
  · rename_i hless
    refine .some ⟨hr.trans (.exchange hin hin' (by omega) (by omega)), fun k hk hk' => ?_, rfl⟩
    rw [get_exchange hin hin', get_exchange hin hin', if_pos rfl]
    split
    · exact Int.le_refl _
    · split
      · exact Int.le_of_lt hless
      · exact hsmallest k (by omega) hk'
  · rename_i hnl
    refine .some ⟨hr, fun k hk hk' => ?_, hswapped⟩
    rcases Int.lt_or_eq_of_le hk with hlt' | rfl
    · exact Int.le_trans (Int.not_lt.mp hnl) (hsmallest k (by omega) hk')
    · exact Int.le_refl _

theorem forwardPass_ends (h0 : 0 ≤ start) (hle : start ≤ last) (hlen : last < a.length) :
    Ends (forwardPass a start last) fun s =>
      if s.2.2 then ∃ b, s = (b, last - 1, true) ∧ Climb a start last last (b, true)
      else s = (a, last, false) ∧ SortedOn a start (last + 1) := by
  refine (climb_ends h0 hle hlen).bind fun ⟨b, swapped⟩ hclimb => .some ?_
  cases swapped with
  | false =>
    obtain ⟨rfl, hs⟩ := hclimb.still rfl
    exact ⟨rfl, hs⟩
  | true => exact ⟨b, rfl, hclimb⟩

/-- A window of no cells has nothing to swap. -/
theorem forwardPass_empty (a : List Int) (hlt : last < start) : forwardPass a start last = some (a, last, false) := by
  rw [forwardPass, forUp_of_le (by omega)]
  rfl

theorem backwardPass_ends (h0 : 0 ≤ start) (hle : start ≤ last) (hlen : last < a.length) :
    Ends (backwardPass a start last true) fun s => s.2 = (start + 1, true) ∧ Rearranged start (last + 1) a s.1 ∧
      ∀ k, start ≤ k → k ≤ last → get s.1 start ≤ get s.1 k := by
  refine Ends.bind (P := Descent a start last start) ?_ fun s hs =>
    .some ⟨by rw [hs.swapped], hs.rearranged, hs.smallest⟩
  refine forDown_rule (Descent a start last) hle ⟨.refl _ _ a, fun k hk hk' => ?_, rfl⟩
    fun i s hi hi' hs => hs.step h0 hi hi' hlen
  obtain rfl : k = last := by omega
  exact Int.le_refl _

end Passes

/-! ### The loop -/

namespace CocktailShakerSort
variable {arr : List Int} {s : State}

/-- What is outside of the window is in its final place. -/
structure Window (arr : List Int) (s : State) : Prop where
  perm : s.arr.Perm arr
  low : 0 ≤ s.start
  order : s.start ≤ s.last + 1
  high : s.last < arr.length
  before : FinalBefore s.start s.arr
  behind : FinalFrom (s.last + 1) s.arr

/-- After a turn the window is smaller, or the array is sorted. -/
theorem Window.step (h : Window arr s) : Ends (turn s) fun s' => Window arr s' ∧
    if s'.swapped then s'.last - s'.start < s.last - s.start
      else s'.last - s'.start = s.last - s.start ∧ Sorts arr s'.arr := by
  obtain ⟨hperm, hlow, horder, hhigh, hbefore, hbehind⟩ := h
  have hlen := hperm.length_eq
  rcases Int.lt_or_le s.last s.start with hlt | hle
  · rw [turn, forwardPass_empty s.arr hlt]
    refine .some ⟨⟨hperm, hlow, horder, hhigh, hbefore, hbehind⟩, rfl, ?_, hperm⟩
    exact (hbehind.sorted hbefore (sortedOn_of_le (by omega))).pairwise
  · refine (forwardPass_ends hlow hle (by omega)).bind ?_
    rintro ⟨b, last, swapped⟩ hpass
    cases swapped with
    | false =>
      obtain ⟨heq, hs⟩ := hpass
      cases heq
      refine .some ⟨⟨hperm, hlow, horder, hhigh, hbefore, hbehind⟩, rfl, ?_, hperm⟩
      exact (hbehind.sorted hbefore hs).pairwise
    | true =>
      obtain ⟨b, heq, hclimb⟩ := hpass
      cases heq
      have hb : Rearranged s.start (s.last + 1) s.arr b := hclimb.rearranged
      have hlenb : b.length = s.arr.length := hb.length
      have hbefore' := hbefore.rearranged hb hlow (by omega)
      have hbehind' := (hbehind.rearranged hb hlow (by omega)).shrink hbefore' hclimb.greatest
      have hmoved : s.start < s.last := hclimb.moved rfl
      refine (backwardPass_ends hlow (show s.start ≤ s.last - 1 by omega) (by omega)).bind ?_
      rintro ⟨c, start, swapped⟩ ⟨heq, hc, hsmallest⟩
      cases heq
      have hc' : Rearranged s.start (s.last - 1 + 1) b c := hc
      have hbehind'' : FinalFrom (s.last - 1 + 1) c := by
        rw [Int.sub_add_cancel] at hc' ⊢
        exact hbehind'.rearranged hc' hlow (by omega)
      refine .some ⟨⟨hc.perm.trans (hb.perm.trans hperm), ?_, ?_, ?_, ?_, hbehind''⟩, ?_⟩
      · exact Int.le_add_one hlow
      · simp only
        omega
      · simp only
        omega
      · exact (hbefore'.rearranged hc' hlow (by omega)).grow hbehind'' hlow hsmallest
      · simp only [if_true]
        omega

theorem window_start (arr : List Int) :
    Window arr { arr, start := 0, last := arr.length - 1, swapped := true } where
  perm := .refl arr
  low := Int.le_refl 0
  order := by simp only; omega
  high := by simp only; omega
  before := finalBefore_zero arr
  behind := by
    simp only [Int.sub_add_cancel]
    exact finalFrom_length arr

theorem Reached.window (h : Reached arr s) : Window arr s := by
  induction h with
  | start => exact window_start arr
  | turn _ _ hturn ih =>
    obtain ⟨s', heq, hwindow, -⟩ := ih.step
    rw [hturn] at heq
    cases heq
    exact hwindow

/-- What is outside of the window is what the sorted array has there: the window could be sorted on its own. -/
theorem Window.final {b : List Int} {i : Int} (h : Window arr s) (hint : arr.length < 2 ^ 31) (hb : Sorts arr b)
    (hout : i < s.start ∨ s.last < i) : get s.arr i = get b i := by
  obtain ⟨hperm, hlow, horder, hhigh, hbefore, hbehind⟩ := h
  have hlen := hperm.length_eq
  rcases Int.lt_or_le s.last s.start with hlt | hle
  · have hs := hbehind.sorted hbefore (sortedOn_of_le (by omega))
    rw [Sorts.unique ⟨hs.pairwise, hperm⟩ hb]
  · obtain ⟨c, -, hc, hs⟩ := insertionSort_sorts hlow (show s.start < 2 ^ 31 - 1 by omega)
      (show s.last < s.arr.length by omega)
    have hbefore' := hbefore.rearranged hc hlow (by omega)
    have hbehind' := hbehind.rearranged hc hlow (by omega)
    have hsorted := hbehind'.sorted hbefore' hs
    rw [← hc.kept i (by omega), Sorts.unique ⟨hsorted.pairwise, hc.perm.trans hperm⟩ hb]

end CocktailShakerSort

theorem cocktailShakerSort_sorts (arr : List Int) :
    Halts (fun turns => cocktailShakerSort turns arr arr.length) (Sorts arr) := by
  refine ⟨arr.length + 2, fun turns hturns => ?_⟩
  simp only [cocktailShakerSort]
  split
  · exact .some (sorts_of_length_le (by omega))
  · refine Ends.bind (P := fun s => Sorts arr s.arr) ?_ fun s hs => .some hs
    refine whileLoop_rule (fun s => CocktailShakerSort.Window arr s ∧ (s.swapped = false → Sorts arr s.arr))
      (fun s => (s.last + 1 - s.start).toNat + s.swapped.toNat) ?_
      ⟨CocktailShakerSort.window_start arr, nofun⟩ ?_
    · simp only [Bool.toNat_true]
      omega
    · rintro s ⟨hwindow, hsorts⟩
      refine .some ?_
      cases hswapped : s.swapped with
      | false => exact hsorts hswapped
      | true =>
        refine hwindow.step.mono fun s' ⟨hwindow', hnext⟩ => ?_
        have horder := hwindow.order
        have horder' := hwindow'.order
        cases hswapped' : s'.swapped with
        | false =>
          rw [hswapped', if_neg Bool.false_ne_true] at hnext
          exact ⟨⟨hwindow', fun _ => hnext.2⟩, by simp only [Bool.toNat_false, Bool.toNat_true]; omega⟩
        | true =>
          rw [hswapped', if_pos rfl] at hnext
          exact ⟨⟨hwindow', nofun⟩, by omega⟩

end Minitalk.Libft.Sort
