import Minitalk.Libft.Sort.IntroSort

/-! # Quicksort (`ft_quick_sort`)

Its partition is the one of `intro_sort`. The fuel is the number of calls that are nested. -/

namespace Minitalk.Libft.Sort
open CArray CInt Program

def ftQuickSort : Nat → Int → Int → List Int → Option (List Int)
  | 0, _, _, _ => none
  | fuel + 1, low, high, arr =>
    if low < high then do
      let (arr, pivotIndex) ← partition arr low high
      let arr ← ftQuickSort fuel low (wrap (pivotIndex - 1)) arr
      ftQuickSort fuel (wrap (pivotIndex + 1)) high arr
    else some arr

section Quick
variable {low high : Int} {a : List Int} {fuel : Nat}

theorem ftQuickSort_ends (h0 : 0 ≤ low) (hlen : high < a.length) (hint : high < 2 ^ 31 - 1)
    (hfuel : high - low + 1 ≤ fuel) (hpos : 0 < fuel) :
    Ends (ftQuickSort fuel low high a) fun b => Rearranged low (high + 1) a b ∧ SortedOn b low (high + 1) := by
  induction fuel generalizing low high a with
  | zero => cases hpos
  | succ fuel ih =>
    rw [ftQuickSort]
    split
    · rename_i hlt
      refine (partition_ends h0 (Int.le_of_lt hlt) hlen).bind fun ⟨b, p⟩ hb => ?_
      obtain ⟨hlow, hhigh⟩ := hb.range
      have hlenb := hb.rearranged.length
      simp only at hlow hhigh hlenb
      dsimp only
      rw [wrap_of_fits ⟨by omega, by omega⟩, wrap_of_fits ⟨by omega, by omega⟩]
      refine (ih h0 (show p - 1 < b.length by omega) (by omega) (by omega) (by omega)).bind fun c ⟨hc, hcs⟩ => ?_
      rw [Int.sub_add_cancel] at hc hcs
      have hlenc := hc.length
      refine (ih (show 0 ≤ p + 1 by omega) (show high < c.length by omega) hint (by omega) (by omega)).mono
        fun d ⟨hd, hds⟩ => ?_
      exact hb.sorted h0 hlen hc hcs hd hds
    · exact .some ⟨.refl _ _ a, sortedOn_of_le (by omega)⟩

/-- The greatest element is taken off at each call. -/
theorem ftQuickSort_increasing (h0 : 0 ≤ low) (hlen : high < a.length) (hint : high < 2 ^ 31 - 1)
    (hincr : ∀ i j, low ≤ i → i < j → j ≤ high → get a i < get a j) (hfuel : (fuel : Int) ≤ high - low) :
    ftQuickSort fuel low high a = none := by
  induction fuel generalizing high with
  | zero => rfl
  | succ fuel ih =>
    have hpart := partition_last h0 (by omega) hlen fun k hk hk' => hincr k high hk hk' (Int.le_refl _)
    have hleft := ih (show high - 1 < a.length by omega) (by omega) (fun i j hi hij hj => hincr i j hi hij (by omega))
      (by omega)
    rw [ftQuickSort, if_pos (by omega), hpart]
    simp only [Option.bind_eq_bind, Option.bind_some, wrap_of_fits (show Fits (high - 1) from ⟨by omega, by omega⟩),
      hleft, Option.bind_none]

/-- The range is sorted by calls that are nested no deeper than it is long. Where it is increasing already, they are
    nested as deep as that. -/
theorem ftQuickSort_sorts (h0 : 0 ≤ low) (hlen : high < a.length) (hint : high < 2 ^ 31 - 1) :
    (∀ fuel : Nat, 0 < fuel → high - low + 1 ≤ fuel →
      Ends (ftQuickSort fuel low high a) fun b => Rearranged low (high + 1) a b ∧ SortedOn b low (high + 1)) ∧
    ((∀ i j, low ≤ i → i < j → j ≤ high → get a i < get a j) →
      ∀ fuel : Nat, fuel ≤ high - low → ftQuickSort fuel low high a = none) :=
  ⟨fun _ hpos hfuel => ftQuickSort_ends h0 hlen hint hfuel hpos,
    fun hincr _ => ftQuickSort_increasing h0 hlen hint hincr⟩

/-- The first element stays. -/
theorem ftQuickSort_sorts_rest : Ends (ftQuickSort 3 1 3 [9, 3, 1, 2]) fun b =>
    Rearranged 1 (3 + 1) [9, 3, 1, 2] b ∧ SortedOn b 1 (3 + 1) :=
  (ftQuickSort_sorts (by decide) (by decide) (by decide)).1 3 (by decide) (by decide)

end Quick
end Minitalk.Libft.Sort
