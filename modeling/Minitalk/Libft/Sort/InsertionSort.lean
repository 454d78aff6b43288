import Minitalk.Lib.CArray
import Minitalk.Lib.CInt

/-! # Insertion sort (`insertion_sort`) -/

namespace Minitalk.Libft.Sort
open CArray CInt Program

/-- The inner loop: the elements that are greater than `key` move up by one cell. -/
def shiftGreater (left key j : Int) (arr : List Int) : Option (List Int × Int) :=
  if left ≤ j then do
    let x ← load arr j
    if key < x then shiftGreater left key (j - 1) (← store arr (j + 1) x) else some (arr, j)
  else some (arr, j)
termination_by (j + 1 - left).toNat

def insertionSort (arr : List Int) (left right : Int) : Option (List Int) :=
  forUp (wrap (left + 1)) (right + 1) (fun i arr => do
    let key ← load arr i
    let (arr, j) ← shiftGreater left key (i - 1) arr
    store arr (j + 1) key) arr

/-- The cell behind `j` is free for the key: the other cells up to `i` are in order, and those behind it are greater. -/
structure Hole (left i key : Int) (a : List Int) (j : Int) (b : List Int) : Prop where
  perm : (put b (j + 1) key).Perm a
  kept : ∀ k, k < left ∨ i < k → get b k = get a k
  sorted : ∀ k k', left ≤ k → k < k' → k' ≤ i → k ≠ j + 1 → k' ≠ j + 1 → get b k ≤ get b k'
  greater : ∀ k, j + 1 < k → k ≤ i → key < get b k

section Insertion
variable {left right i key j : Int} {a b : List Int}

theorem Hole.length (h : Hole left i key a j b) : b.length = a.length := by
  rw [← h.perm.length_eq, length_put]

/-- At first, the free cell is the one that the key was read from. -/
theorem hole_first (h0 : 0 ≤ left) (hleft : left ≤ i) (hi : i < a.length) (hs : SortedOn a left i) :
    Hole left i (get a i) a (i - 1) a where
  perm := by
    rw [Int.sub_add_cancel, put_get ⟨by omega, hi⟩]
  kept _ _ := rfl
  sorted k k' hk hlt hk' _ hne := hs k k' hk hlt (by omega)
  greater k hk hk' := by omega

theorem Hole.step (h : Hole left i key a j b) (h0 : 0 ≤ left) (hleft : left ≤ j) (hj : j < i) (hi : i < a.length)
    (hgt : key < get b j) : Hole left i key a (j - 1) (put b (j + 1) (get b j)) := by
  have hlen := h.length
  have hin : Inside b j := ⟨by omega, by omega⟩
  have hin' : Inside b (j + 1) := ⟨by omega, by omega⟩
  refine ⟨?_, fun k hk => ?_, fun k k' hk hlt hk' hne hne' => ?_, fun k hk hk' => ?_⟩
  · rw [Int.sub_add_cancel]
    exact (put_put_perm hin' hin (by omega) key).trans h.perm
  · rw [get_put_ne hin' (by omega)]
    exact h.kept k hk
  · rw [get_put hin', get_put hin']
    split
    · rw [if_neg (by omega)]
      exact h.sorted j k' hleft (by omega) hk' (by omega) (by omega)
    · split
      · exact h.sorted k j hk (by omega) (by omega) (by omega) (by omega)
      · exact h.sorted k k' hk hlt hk' (by omega) (by omega)
  · rw [get_put hin']
    split
    · exact hgt
    · exact h.greater k (by omega) hk'

/-- The key goes behind the elements that are not greater. -/
theorem Hole.fill (h : Hole left i key a j b) (h0 : 0 ≤ left) (hleft : left ≤ j + 1) (hj : j < i) (hi : i < a.length)
    (hle : left ≤ j → get b j ≤ key) :
    Rearranged left (i + 1) a (put b (j + 1) key) ∧ SortedOn (put b (j + 1) key) left (i + 1) := by
  have hlen := h.length
  have hin' : Inside b (j + 1) := ⟨by omega, by omega⟩
  refine ⟨⟨h.perm, fun k hk => ?_⟩, fun k k' hk hlt hk' => ?_⟩
  · rw [get_put_ne hin' (by omega)]
    exact h.kept k (by omega)
  · rw [get_put hin', get_put hin']
    split
    · rw [if_neg (by omega)]
      exact Int.le_of_lt (h.greater k' (by omega) (by omega))
    · split
      · have hj' := hle (by omega)
        rcases Int.lt_or_eq_of_le (show k ≤ j by omega) with hlt | rfl
        · exact Int.le_trans (h.sorted k j hk hlt (by omega) (by omega) (by omega)) hj'
        · exact hj'
      · exact h.sorted k k' hk hlt (by omega) (by omega) (by omega)

theorem shiftGreater_hole (h : Hole left i key a j b) (h0 : 0 ≤ left) (hleft : left ≤ j + 1) (hj : j < i)
    (hi : i < a.length) :
    Ends (shiftGreater left key j b) fun s => Hole left i key a s.2 s.1 ∧ left ≤ s.2 + 1 ∧ s.2 < i ∧
      (left ≤ s.2 → get s.1 s.2 ≤ key) := by
  induction hn : (j + 1 - left).toNat generalizing j b with
  | zero =>
    rw [shiftGreater, if_neg (by omega)]
    exact .some ⟨h, hleft, hj, fun hle => by omega⟩
  | succ n ih =>
    have hlen := h.length
    have hin : Inside b j := ⟨by omega, by omega⟩
    have hin' : Inside b (j + 1) := ⟨by omega, by omega⟩
    rw [shiftGreater, if_pos (by omega)]
    simp only [load_eq hin, store_eq hin', Option.bind_eq_bind, Option.bind_some]
    by_cases hgt : key < get b j
    · rw [if_pos hgt]
      exact ih (h.step h0 (by omega) hj hi hgt) (by omega) (by omega) (by omega)
    · rw [if_neg hgt]
      exact .some ⟨h, hleft, hj, fun _ => Int.not_lt.mp hgt⟩

/-- The range is sorted, unless the index behind its first one is no `int`. -/
theorem insertionSort_sorts (h0 : 0 ≤ left) (hint : left < 2 ^ 31 - 1) (hright : right < a.length) :
    Ends (insertionSort a left right) fun b => Rearranged left (right + 1) a b ∧ SortedOn b left (right + 1) := by
  rw [insertionSort, wrap_of_fits ⟨by omega, by omega⟩]
  rcases Int.lt_or_le right left with hlt | hle
  · rw [forUp_of_le (by omega)]
    exact .some ⟨.refl _ _ a, sortedOn_of_le (by omega)⟩
  · refine forUp_rule (fun i b => Rearranged left (right + 1) a b ∧ SortedOn b left i) (by omega)
      ⟨.refl _ _ a, sortedOn_of_le (by omega)⟩ ?_
    rintro i b hi hi' ⟨hb, hs⟩
    have hlen := hb.length
    have hin : Inside b i := ⟨by omega, by omega⟩
    rw [load_eq hin, Option.bind_eq_bind, Option.bind_some]
    refine (shiftGreater_hole (hole_first h0 (by omega) hin.2 hs) h0 (by omega) (by omega) hin.2).bind ?_
    rintro ⟨c, j⟩ ⟨hhole, hleft, hj, hle⟩
    have hlen' : c.length = b.length := hhole.length
    have hin' : Inside c (j + 1) := ⟨by simp only at hleft; omega, by simp only at hj; omega⟩
    obtain ⟨hc, hs'⟩ := hhole.fill h0 hleft hj hin.2 hle
    simp only [store_eq hin']
    exact .some ⟨hb.trans (hc.mono (Int.le_refl left) (by omega)), hs'⟩

theorem insertionSort_all (a : List Int) : Ends (insertionSort a 0 (a.length - 1)) (Sorts a) := by
  refine (insertionSort_sorts (Int.le_refl 0) (by decide) (Int.sub_one_lt_iff.mpr (Int.le_refl _))).mono ?_
  rintro b ⟨hb, hs⟩
  rw [Int.sub_add_cancel, ← hb.length] at hs
  exact hb.sorts hs

/-- Behind the greatest `int`, the first index is negative. -/
theorem insertionSort_outside (hleft : left = 2 ^ 31 - 1) (hright : -2 ^ 31 ≤ right) :
    insertionSort a left right = none := by
  have hfirst : wrap (left + 1) = -2 ^ 31 := by
    rw [wrap_of_above (by omega) (by omega)]
    omega
  have hturns : (right + 1 - -2 ^ 31).toNat = (right + 2 ^ 31).toNat + 1 := by omega
  rw [insertionSort, hfirst, forUp, hturns, turnsUp, load_of_lt (by omega)]
  rfl

end Insertion
end Minitalk.Libft.Sort
