import Mathlib.Data.Int.Order.Basic
import Minitalk.Lib.CArray

/-! # Stooge sort (`stooge_sort`)

The lengths are at most the size of the array, so each of them is an `int`. -/

namespace Minitalk.Libft.Sort
open CArray Program

/-- `if (arr[l] > arr[h]) ft_swap(&arr[l], &arr[h], sizeof(int))` -/
def swapGreater (l h : Int) (arr : List Int) : Option (List Int) := do
  if (← load arr h) < (← load arr l) then swap arr l h else some arr

def stoogeSortRec (l h : Int) (arr : List Int) : Option (List Int) :=
  if l ≥ h then some arr
  else do
    let arr ← swapGreater l h arr
    if h - l + 1 > 2 then
      let t := (h - l + 1) / 3
      let arr ← stoogeSortRec l (h - t) arr
      let arr ← stoogeSortRec (l + t) h arr
      stoogeSortRec l (h - t) arr
    else some arr
termination_by (h - l + 1).toNat

def stoogeSort (arr : List Int) (size : Int) : Option (List Int) :=
  if size ≤ 1 then some arr else stoogeSortRec 0 (size - 1) arr

section Stooge
variable {l h m p lo hi t v : Int} {arr a b c d : List Int}

theorem swapGreater_ends (hl : Inside arr l) (hh : Inside arr h) (hlt : l < h) :
    Ends (swapGreater l h arr) fun b => Rearranged l (h + 1) arr b ∧ get b l ≤ get b h := by
  simp only [swapGreater, load_eq hl, load_eq hh, swap_eq hl hh, Option.bind_eq_bind, Option.bind_some]
  split
  · rename_i hgt
    refine .some ⟨.exchange hl hh (by omega) (by omega), ?_⟩
    rw [get_exchange hl hh, get_exchange hl hh, if_pos rfl, if_neg (by omega), if_pos rfl]
    exact Int.le_of_lt hgt
  · rename_i hle
    exact .some ⟨.refl _ _ arr, Int.not_lt.mp hle⟩

/-- No less cells than there are from `p` on had a value that is not smaller than `v`, so `p` has one of them. -/
theorem le_of_many (hb : Rearranged lo hi a b) (hs : SortedOn b lo hi) (h0 : 0 ≤ lo) (hn : hi ≤ a.length) (hm : m ≤ hi)
    (hlow : ∀ k, lo ≤ k → k < m → v ≤ get a k) (hp : lo ≤ p) (hp' : p < hi) (hmany : hi - p ≤ m - lo) :
    v ≤ get b p := by
  by_contra hlt
  have hlen := hb.length
  have hsame := (hb.segment_perm h0 (by omega) hn).countP_eq (fun x => decide (v ≤ x))
  rw [segment_append (a := a) h0 (by omega : lo ≤ m) hm, segment_append (a := b) h0 (by omega : lo ≤ p + 1) (by omega),
    List.countP_append, List.countP_append] at hsame
  have hfirst : (segment a lo m).countP (fun x => decide (v ≤ x)) = (m - lo).toNat := by
    have hlength := length_segment h0 (by omega : lo ≤ m) (by omega : m ≤ a.length)
    rw [← hlength, Int.toNat_natCast, List.countP_eq_length]
    intro x hx
    obtain ⟨k, hk, hk', rfl⟩ := (mem_segment h0 (by omega)).mp hx
    exact decide_eq_true (hlow k hk hk')
  have hnone : (segment b lo (p + 1)).countP (fun x => decide (v ≤ x)) = 0 := by
    rw [List.countP_eq_zero]
    intro x hx hle
    obtain ⟨k, hk, hk', rfl⟩ := (mem_segment h0 (by omega)).mp hx
    have hle := of_decide_eq_true hle
    rcases Int.lt_or_eq_of_le (show k ≤ p by omega) with hkp | rfl
    · exact hlt (Int.le_trans hle (hs k p hk hkp hp'))
    · exact hlt hle
  have hlast := List.countP_le_length (l := segment b (p + 1) hi) (p := fun x => decide (v ≤ x))
  have hlength := length_segment (by omega : 0 ≤ p + 1) (by omega : p + 1 ≤ hi) (by omega : hi ≤ b.length)
  omega

/-- After the second call, the last third has the greatest elements: the part that both calls sort is as long. -/
theorem second_call_last (h0 : 0 ≤ l) (hh : h < a.length) (ht : 0 < t) (hthird : 3 * t ≤ h - l + 1)
    (ha : SortedOn a l (h - t + 1)) (hb : Rearranged (l + t) (h + 1) a b) (hs : SortedOn b (l + t) (h + 1)) :
    ∀ i, l ≤ i → i < h - t + 1 → ∀ j, h - t + 1 ≤ j → j < h + 1 → get b i ≤ get b j := by
  intro i hi hi' j hj hj'
  rcases Int.lt_or_le i (l + t) with hlt | hle
  · rw [hb.kept i (Or.inl hlt)]
    refine le_of_many hb hs (by omega) (by omega) (show h - t + 1 ≤ h + 1 by omega) (fun k hk hk' => ?_) (by omega) hj'
      (by omega)
    exact ha i k hi (by omega) hk'
  · exact hs i j hle (by omega) hj'

/-- The three calls sort the range. -/
theorem calls_sorted (h0 : 0 ≤ l) (hh : h < a.length) (ht : 0 < t) (hthird : 3 * t ≤ h - l + 1)
    (ha : SortedOn a l (h - t + 1)) (hb : Rearranged (l + t) (h + 1) a b) (hs : SortedOn b (l + t) (h + 1))
    (hc : Rearranged l (h - t + 1) b c) (hs' : SortedOn c l (h - t + 1)) : SortedOn c l (h + 1) := by
  have hlast := second_call_last h0 hh ht hthird ha hb hs
  have hlen := hb.length
  intro i j hi hij hj
  rcases Int.lt_or_le j (h - t + 1) with hlt | hle
  · exact hs' i j hi hij hlt
  · rw [hc.kept j (Or.inr hle)]
    rcases Int.lt_or_le i (h - t + 1) with hlt' | hle'
    · exact hc.forall_range h0 (by omega) (P := (· ≤ get b j)) (fun k hk hk' => hlast k hk hk' j hle hj) i hi hlt'
    · rw [hc.kept i (Or.inr hle')]
      exact hs i j (by omega) hij hj

theorem stoogeSortRec_sorts (h0 : 0 ≤ l) (hh : h < arr.length) :
    Ends (stoogeSortRec l h arr) fun b => Rearranged l (h + 1) arr b ∧ SortedOn b l (h + 1) := by
  induction hn : (h - l + 1).toNat using Nat.strongRecOn generalizing l h arr with
  | ind n ih =>
    rw [stoogeSortRec]
    split
    · rename_i hge
      exact .some ⟨.refl _ _ arr, sortedOn_of_le (by omega)⟩
    · rename_i hlt
      refine (swapGreater_ends ⟨h0, by omega⟩ ⟨by omega, hh⟩ (Int.not_le.mp hlt)).bind fun a ⟨ha, hle⟩ => ?_
      have hlena := ha.length
      split
      · obtain ⟨t, ht⟩ : ∃ t, (h - l + 1) / 3 = t := ⟨_, rfl⟩
        simp only [ht]
        refine (ih (h - t - l + 1).toNat (by omega) h0 (by omega) rfl).bind fun b ⟨hb, hbs⟩ => ?_
        have hlenb := hb.length
        refine (ih (h - (l + t) + 1).toNat (by omega) (by omega) (by omega) rfl).bind fun c ⟨hc, hcs⟩ => ?_
        have hlenc := hc.length
        refine (ih (h - t - l + 1).toNat (by omega) h0 (by omega) rfl).mono fun d ⟨hd, hds⟩ => ⟨?_, ?_⟩
        · have hfirst := ha.trans (hb.mono (Int.le_refl l) (by omega))
          exact (hfirst.trans (hc.mono (by omega) (Int.le_refl _))).trans (hd.mono (Int.le_refl l) (by omega))
        · exact calls_sorted h0 (by omega) (by omega) (by omega) hbs hc hcs hd hds
      · refine .some ⟨ha, fun i j hi hij hj => ?_⟩
        obtain rfl : i = l := by omega
        obtain rfl : j = h := by omega
        exact hle

/-- A range of any length is sorted, and so is the array. -/
theorem stooge_sort_sorts (arr : List Int) :
    (∀ l h : Int, 0 ≤ l → h < arr.length →
      Ends (stoogeSortRec l h arr) fun b => Rearranged l (h + 1) arr b ∧ SortedOn b l (h + 1)) ∧
      Ends (stoogeSort arr arr.length) (Sorts arr) := by
  refine ⟨fun l h h0 hh => stoogeSortRec_sorts h0 hh, ?_⟩
  rw [stoogeSort]
  split
  · exact .some (sorts_of_length_le (by omega))
  · refine (stoogeSortRec_sorts (Int.le_refl 0) (by omega)).mono fun b ⟨hb, hs⟩ => hb.sorts ?_
    rwa [hb.length, ← Int.sub_add_cancel (arr.length : Int) 1]

end Stooge

/-- All but the first of five elements, in three calls that overlap. -/
theorem stooge_sort_sorts_tail :
    Ends (stoogeSortRec 1 4 [5, 4, 3, 2, 1]) fun b => Rearranged 1 (4 + 1) [5, 4, 3, 2, 1] b ∧ SortedOn b 1 (4 + 1) :=
  (stooge_sort_sorts [5, 4, 3, 2, 1]).1 1 4 (by decide) (by decide)

end Minitalk.Libft.Sort
