import Minitalk.Lib.CInt
import Minitalk.Libft.Sort.CocktailShakerSort

/-! # Comb sort (`comb_sort`) -/

namespace Minitalk.Libft.Sort
open CArray CInt Program

def getNextGap (gap : Int) : Int :=
  let gap := (wrap (gap * 10)).tdiv 13
  if gap < 1 then 1 else gap

/-- One turn of the outer loop, from `gap` and whatever `swapped` was. -/
def combPass (size : Int) (s : List Int × Int × Bool) : Option (List Int × Int × Bool) := do
  let (arr, gap, _) := s
  let gap := getNextGap gap
  let (arr, swapped) ← forUp 0 (size - gap) (fun i => compareSwap i (i + gap)) (arr, false)
  some (arr, gap, swapped)

def combSort (turns : Nat) (arr : List Int) (size : Int) : Option (List Int) :=
  if size ≤ 1 then some arr
  else do
    let (arr, _) ← whileLoop (fun s => some (decide (s.2.1 ≠ 1) || s.2.2)) (combPass size) turns (arr, size, true)
    some arr

section Comb
variable {size gap stop : Int} {arr a b : List Int} {swapped : Bool}

theorem getNextGap_of_lt (h0 : 0 < gap) (hint : gap < 2 ^ 27) :
    0 < getNextGap gap ∧ getNextGap gap ≤ gap ∧ (1 < gap → getNextGap gap < gap) := by
  rw [getNextGap, wrap_of_fits ⟨by omega, by omega⟩, Int.tdiv_eq_ediv_of_nonneg (by omega)]
  split <;> omega

/-- A pass with any gap rearranges the array. -/
theorem gapPass_perm (hgap : 0 < gap) (hle : gap ≤ a.length) :
    Ends (forUp 0 (a.length - gap) (fun i => compareSwap i (i + gap)) (a, false)) fun s => s.1.Perm a := by
  refine forUp_rule (fun _ (s : List Int × Bool) => s.1.Perm a) (by omega) (.refl a) ?_
  rintro i ⟨b, swapped⟩ hi hi' hperm
  have hlen : b.length = a.length := hperm.length_eq
  have hin : Inside b i := ⟨hi, by omega⟩
  have hin' : Inside b (i + gap) := ⟨by omega, by omega⟩
  rw [compareSwap_eq hin hin']
  refine .some ?_
  split
  · exact (exchange_perm hin hin').trans hperm
  · exact hperm

/-- The elements that are in their final place are not swapped. -/
theorem pass_finalFrom (h : FinalFrom stop a) (h0 : 0 < stop) (hle : stop ≤ a.length) :
    Ends (forUp (stop - 1) (a.length - 1) (fun i => compareSwap i (i + 1)) (a, swapped)) (· = (a, swapped)) := by
  refine forUp_rule (fun _ s => s = (a, swapped)) (by omega) rfl ?_
  rintro i _ hi hi' rfl
  have hfinal := h i (i + 1) (by omega) (by omega) (by omega) (by omega)
  rw [compareSwap_eq ⟨by omega, by omega⟩ ⟨by omega, by omega⟩, if_neg (Int.not_lt.mpr hfinal)]
  exact .some rfl

/-- A pass with the gap 1 puts one more element in its final place, or does nothing since the array is sorted. -/
theorem lastPass_final (h : FinalFrom stop a) (h0 : 0 < stop) (hle : stop ≤ a.length) :
    Ends (forUp 0 (a.length - 1) (fun i => compareSwap i (i + 1)) (a, false)) fun s => s.1.Perm a ∧
      if s.2 then 1 < stop ∧ FinalFrom (stop - 1) s.1 else s.1 = a ∧ SortedOn s.1 0 s.1.length := by
  rw [forUp_split (show 0 ≤ stop - 1 by omega) (show stop - 1 ≤ a.length - 1 by omega)]
  refine (climb_ends (Int.le_refl 0) (show 0 ≤ stop - 1 by omega) (by omega)).bind ?_
  rintro ⟨b, swapped⟩ hclimb
  have hb : Rearranged 0 (stop - 1 + 1) a b := hclimb.rearranged
  have hfinal : FinalFrom (stop - 1 + 1) b := by
    rw [Int.sub_add_cancel] at hb ⊢
    exact h.rearranged hb (Int.le_refl 0) hle
  have hlen := hb.length
  have hstop : FinalFrom stop b := by rwa [Int.sub_add_cancel] at hfinal
  have hpass := @pass_finalFrom stop b swapped hstop h0 (by omega)
  rw [hlen] at hpass
  refine hpass.mono ?_
  rintro _ rfl
  refine ⟨hb.perm, ?_⟩
  cases swapped with
  | false =>
    obtain ⟨rfl, hs⟩ := hclimb.still rfl
    exact ⟨rfl, hfinal.sorted (finalBefore_zero b) hs⟩
  | true =>
    have hmoved := hclimb.moved rfl
    exact ⟨by omega, hfinal.shrink (finalBefore_zero b) hclimb.greatest⟩

/-- What holds before a turn: as long as the gap is not 1, no element needs to be in its final place. The number
    bounds the turns that are left. -/
structure Stage (arr : List Int) (n : Nat) (s : List Int × Int × Bool) : Prop where
  perm : s.1.Perm arr
  gap : 0 < s.2.1 ∧ s.2.1 ≤ arr.length
  final : ∃ stop, 0 < stop ∧ stop ≤ (arr.length : Int) ∧ FinalFrom stop s.1 ∧ (s.2.1 ≠ 1 → stop = arr.length) ∧
    n = 2 * s.2.1 + stop + s.2.2.toNat
  sorted : s.2.1 = 1 → s.2.2 = false → Sorts arr s.1

theorem Stage.step {n : Nat} (h : Stage arr n (a, gap, swapped)) (hint : arr.length < 2 ^ 27)
    (hgo : gap ≠ 1 ∨ swapped = true) :
    Ends (combPass arr.length (a, gap, swapped)) fun s => ∃ m, m < n ∧ Stage arr m s := by
  obtain ⟨hperm, ⟨h0, hle⟩, ⟨stop, hstop, hstop', hfinal, hall, hn⟩, -⟩ := h
  simp only at hperm h0 hle hfinal hall hn
  have hlen : a.length = arr.length := hperm.length_eq
  obtain ⟨hnext, hnext', hless⟩ := getNextGap_of_lt h0 (by omega)
  have hflag : gap = 1 → swapped.toNat = 1 := fun hone => by
    rw [hgo.resolve_left (fun hne => hne hone), Bool.toNat_true]
  simp only [combPass]
  rw [← hlen]
  by_cases hone : getNextGap gap = 1
  · rw [hone]
    refine (lastPass_final hfinal hstop (by omega)).bind ?_
    rintro ⟨b, swapped'⟩ ⟨hb, hpass⟩
    have hgap : 0 < (1 : Int) ∧ (1 : Int) ≤ arr.length := ⟨Int.one_pos, by omega⟩
    cases swapped' with
    | false =>
      obtain ⟨heq, hs⟩ := hpass
      simp only at hb heq hs
      have hfinal' : FinalFrom stop b := by rwa [heq]
      refine .some ⟨(2 * 1 + stop + 0).toNat, by omega, hb.trans hperm, hgap,
        ⟨stop, hstop, hstop', hfinal', fun hne => absurd rfl hne, ?_⟩, fun _ _ => ⟨hs.pairwise, hb.trans hperm⟩⟩
      simp only [Bool.toNat_false]
      omega
    | true =>
      obtain ⟨hlt, hfinal'⟩ := hpass
      refine .some ⟨(2 * 1 + (stop - 1) + 1).toNat, by omega, hb.trans hperm, hgap,
        ⟨stop - 1, by omega, by omega, hfinal', fun hne => absurd rfl hne, ?_⟩, nofun⟩
      simp only [Bool.toNat_true]
      omega
  · have hgreat := hall (by omega)
    refine (gapPass_perm hnext (by omega)).bind ?_
    rintro ⟨b, swapped'⟩ hb
    have hperm' : b.Perm arr := hb.trans hperm
    have hfinal' : FinalFrom arr.length b := by
      rw [← hperm'.length_eq]
      exact finalFrom_length b
    have hbit := Bool.toNat_le swapped'
    refine .some ⟨(2 * getNextGap gap + arr.length + swapped'.toNat).toNat, by omega, hperm',
      ⟨hnext, show getNextGap gap ≤ (arr.length : Int) by omega⟩,
      ⟨arr.length, by omega, Int.le_refl _, hfinal', fun _ => rfl, ?_⟩, fun heq => absurd heq hone⟩
    simp only
    omega

theorem combSort_sorts (hint : arr.length < 2 ^ 27) :
    Halts (fun turns => combSort turns arr arr.length) (Sorts arr) := by
  refine ⟨3 * arr.length + 2, fun turns hturns => ?_⟩
  simp only [combSort]
  split
  · exact .some (sorts_of_length_le (by omega))
  · refine Ends.bind (P := fun s => Sorts arr s.1) ?_ fun s hs => .some hs
    refine whileLoop_countdown (Stage arr) (show 3 * arr.length + 1 < turns by omega)
      ⟨.refl arr, ⟨by simp only; omega, Int.le_refl _⟩, ⟨arr.length, by omega, Int.le_refl _, finalFrom_length arr,
        fun _ => rfl, by simp only [Bool.toNat_true]; omega⟩, nofun⟩ ?_
    rintro n ⟨a, gap, swapped⟩ h
    refine .some ?_
    by_cases hgo : gap ≠ 1 ∨ swapped = true
    · rw [if_pos (by simpa using hgo)]
      exact h.step hint hgo
    · rw [if_neg (by simpa using hgo)]
      obtain ⟨hone, hswapped⟩ := not_or.mp hgo
      exact h.sorted (not_not.mp hone) (Bool.not_eq_true _ ▸ hswapped)

/-- Both loops end with the sorted array, and what is outside of the window is what that one has there. -/
theorem comb_and_cocktail_sort (hint : arr.length < 2 ^ 27) :
    Halts (fun turns => combSort turns arr arr.length) (Sorts arr) ∧
      Halts (fun turns => cocktailShakerSort turns arr arr.length) (Sorts arr) ∧
      ∀ s b i, CocktailShakerSort.Reached arr s → Sorts arr b → i < s.start ∨ s.last < i → get s.arr i = get b i :=
  ⟨combSort_sorts hint, cocktailShakerSort_sorts arr,
    fun _ _ _ hs hb hout => hs.window.final (by omega) hb hout⟩

end Comb

/-- After one turn, the window has the second of three cells. -/
theorem comb_and_cocktail_sort_three :
    (Halts (fun turns => combSort turns [3, 2, 1] ([3, 2, 1] : List Int).length) (Sorts [3, 2, 1]) ∧
      Halts (fun turns => cocktailShakerSort turns [3, 2, 1] ([3, 2, 1] : List Int).length) (Sorts [3, 2, 1])) ∧
      get ([1, 2, 3] : List Int) 0 = 1 := by
  have h := @comb_and_cocktail_sort [3, 2, 1] (by decide)
  refine ⟨⟨h.1, h.2.1⟩, ?_⟩
  have hturn : CocktailShakerSort.Reached [3, 2, 1] ⟨[1, 2, 3], 1, 1, true⟩ := .turn .start rfl rfl
  exact (h.2.2 _ [1, 2, 3] 0 hturn ⟨by decide, by decide⟩ (Or.inl (by decide))).trans rfl

end Minitalk.Libft.Sort
