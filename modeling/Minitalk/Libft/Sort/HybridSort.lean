import Minitalk.Libft.Sort.CountingSort
import Minitalk.Libft.Sort.InsertionSort

/-! # Hybrid sort (`hybrid_sort`)

The copy that `tag_array_sort` sorts is freed again. A shift by the width of an `int` or more has no result. -/

namespace Minitalk.Libft.Sort
open CArray CInt Program

def tagArraySort (arr : List Int) (size : Int) : Option (List Int) := do
  let sorted ← forUp 0 size (fun i sorted => do store sorted i (some (← load arr i))) (List.replicate size.toNat none)
  forUp 0 (size - 1) (fun i sorted =>
    forUp (i + 1) size (fun j sorted => do
      if (← load sorted i) > (← load sorted j) then swap sorted i j else some sorted) sorted) (← written sorted)

/-- `x >> bits` -/
def shiftRight (x bits : Int) : Option Int := if 0 ≤ bits ∧ bits < 32 then some (x >>> bits.toNat) else none

def radixSortHybrid (zero : Bool) (turns : Nat) (arr : List Int) (size : Int) : Option (List Int) := do
  let max ← getMax arr size
  let maxBits ← whileLoop (fun bits => do some (decide ((← shiftRight max bits) ≠ 0))) (fun bits => some (bits + 1))
    turns (0 : Int)
  forUp 0 maxBits (fun _ arr => countingSort zero turns arr size) arr

/-- Its loops are those of `insertion_sort` for the whole array. -/
def insertionSortHybrid (arr : List Int) (size : Int) : Option (List Int) := insertionSort arr 0 (size - 1)

def hybridSort (zero : Bool) (turns : Nat) (arr : List Int) (size : Int) : Option (List Int) := do
  let _ ← tagArraySort arr size
  if size ≤ 5 then insertionSortHybrid arr size else radixSortHybrid zero turns arr size

section Hybrid
variable {arr : List Int} {max bits : Int} {turns : Nat} {zero : Bool}

theorem tagArraySort_ends (arr : List Int) : Ends (tagArraySort arr arr.length) fun _ => True := by
  have hcopy : forUp 0 arr.length (fun i sorted => do store sorted i (some (← load arr i)))
      (List.replicate (arr.length : Int).toNat none) = some (arr.map some) := by
    have hloop : forUp 0 (arr.map some).length (fun i sorted => do store sorted i (some (← load arr i)))
        (List.replicate arr.length none) = some (arr.map some) := by
      refine forUp_copy (by simp) fun i a hi hi' => ?_
      rw [List.length_map] at hi'
      have hin : Inside arr i := ⟨hi, hi'⟩
      have hget : CArray.get (arr.map some) i = some (CArray.get arr i) := by
        rw [CArray.get, load_map hin]
        rfl
      rw [hget, load_eq hin]
      rfl
    rwa [List.length_map] at hloop
  rw [tagArraySort, hcopy]
  simp only [Option.bind_eq_bind, Option.bind_some, written_map]
  rcases Int.lt_or_le 0 arr.length with hpos | hle
  · refine (forUp_rule (fun _ sorted => sorted.length = arr.length) (by omega) rfl ?_).mono fun _ _ => trivial
    intro i sorted hi hi' hlen
    refine (forUp_rule (fun _ (sorted : List Int) => sorted.length = arr.length) (by omega) hlen ?_).mono
      fun _ h => h
    intro j sorted hj hj' hlen
    have hin : Inside sorted i := ⟨hi, by omega⟩
    have hin' : Inside sorted j := ⟨by omega, by omega⟩
    rw [load_eq hin, load_eq hin', swap_eq hin hin']
    simp only [Option.bind_some]
    split
    · exact .some ((length_exchange sorted i j).trans hlen)
    · exact .some hlen
  · rw [forUp_of_le (by omega)]
    exact .some trivial

theorem insertionSortHybrid_ends (arr : List Int) : Ends (insertionSortHybrid arr arr.length) (Sorts arr) :=
  insertionSort_all arr

/-! ### The number of passes -/

theorem shiftRight_eq (h0 : 0 ≤ bits) (hlt : bits < 32) : shiftRight max bits = some (max / 2 ^ bits.toNat) := by
  rw [shiftRight, if_pos ⟨h0, hlt⟩, Int.shiftRight_eq_div_pow]
  rfl

/-- A maximum that is not negative has at most 31 bits, and none if it is 0. -/
theorem maxBits_ends (h0 : 0 ≤ max) (hmax : max < 2 ^ 31) (hturns : 32 < turns) :
    Ends (whileLoop (fun bits => do some (decide ((← shiftRight max bits) ≠ 0))) (fun bits => some (bits + 1)) turns
      (0 : Int)) fun bits => 0 ≤ bits ∧ (bits = 0 ↔ max = 0) := by
  refine whileLoop_rule (fun bits => 0 ≤ bits ∧ bits < 32 ∧ (max = 0 → bits = 0)) (fun bits => (32 - bits).toNat)
    (by omega) ⟨Int.le_refl 0, by decide, fun _ => rfl⟩ ?_
  rintro bits ⟨hlow, hhigh, hzero⟩
  rw [shiftRight_eq hlow hhigh, Option.bind_eq_bind, Option.bind_some]
  refine .some ?_
  by_cases hshift : max / 2 ^ bits.toNat = 0
  · rw [if_neg (by simpa using hshift)]
    refine ⟨hlow, fun hbits => ?_, hzero⟩
    rwa [hbits, Int.toNat_zero, Int.pow_zero, Int.ediv_one] at hshift
  · rw [if_pos (by simpa using hshift)]
    have hne : bits ≠ 31 := by
      rintro rfl
      exact hshift (Int.ediv_eq_zero_of_lt h0 hmax)
    refine .some ⟨⟨by omega, by omega, fun hmax => ?_⟩, by omega⟩
    rw [hmax, Int.zero_ediv] at hshift
    exact absurd rfl hshift

/-- The shifts of a negative maximum never come to 0. -/
theorem maxBits_negative (hneg : max < 0) (h0 : 0 ≤ bits) :
    whileLoop (fun bits => do some (decide ((← shiftRight max bits) ≠ 0))) (fun bits => some (bits + 1)) turns bits =
      none := by
  induction turns generalizing bits with
  | zero => rfl
  | succ turns ih =>
    rw [whileLoop]
    rcases Int.lt_or_le bits 32 with hlt | hle
    · have hshift : max / 2 ^ bits.toNat ≠ 0 := Int.ne_of_lt (Int.ediv_neg_of_neg_of_pos hneg (Int.pow_pos (by decide)))
      rw [shiftRight_eq h0 hlt]
      simp only [Option.bind_eq_bind, Option.bind_some]
      rw [if_pos (by simpa using hshift)]
      exact ih (by omega)
    · rw [shiftRight, if_neg (by omega)]
      rfl

/-! ### The passes -/

theorem Narrow.perm {b : List Int} (h : Narrow arr) (hb : b.Perm arr) : Narrow b :=
  fun x hx y hy => h x (hb.subset hx) y (hb.subset hy)

/-- Where the values are close, the first pass sorts the array and the others keep it so. -/
theorem passes_narrow (hpos : 0 < bits) (hlen : 1 < arr.length) (hint : arr.length < 2 ^ 31) (hfits : ∀ x ∈ arr, Fits x)
    (hn : Narrow arr) (hturns : arr.length < turns) :
    Ends (forUp 0 bits (fun _ arr' => countingSort zero turns arr' arr.length) arr) (Sorts arr) := by
  refine (forUp_rule (fun i a => a.Perm arr ∧ (0 < i → a.Pairwise (· ≤ ·))) (Int.le_of_lt hpos)
    ⟨.refl arr, fun h => absurd h (Int.lt_irrefl 0)⟩ ?_).mono fun a ⟨hperm, hsorted⟩ => ⟨hsorted hpos, hperm⟩
  rintro i a _ _ ⟨hperm, -⟩
  have hsame := hperm.length_eq
  have hlen' : 1 < a.length := by omega
  have hpass : Ends (countingSort zero turns a a.length) (Sorts a) :=
    (countingSort_byCounts zero hlen').narrow hlen' (by omega) (fun x hx => hfits x (hperm.subset hx)) (hn.perm hperm)
      (by omega) fun n min count turns h0 hcount hclose hfits hturns =>
        placeElements_sorts h0 hcount hclose hfits hturns (by omega)
  rw [hsame] at hpass
  exact hpass.mono fun b hb => ⟨hb.perm.trans hperm, fun _ => hb.sorted⟩

theorem radixSortHybrid_eq (zero : Bool) (hmax : getMax arr arr.length = some max) (h0 : 0 ≤ max) (hint : max < 2 ^ 31)
    (hturns : 32 < turns) : ∃ bits, 0 ≤ bits ∧ (bits = 0 ↔ max = 0) ∧
      radixSortHybrid zero turns arr arr.length =
        forUp 0 bits (fun _ arr' => countingSort zero turns arr' arr.length) arr := by
  obtain ⟨bits, hbits, hlow, hzero⟩ := maxBits_ends h0 hint hturns
  exact ⟨bits, hlow, hzero, by rw [radixSortHybrid, hmax, Option.bind_eq_bind, Option.bind_some, hbits]; rfl⟩

/-- A positive maximum has bits, so there is a first pass. -/
theorem radixSortHybrid_positive (hmax : getMax arr arr.length = some max) (hpos : 0 < max) (hbound : max < 2 ^ 31)
    (hlen : 1 < arr.length) (hint : arr.length < 2 ^ 31) (hfits : ∀ x ∈ arr, Fits x) :
    Halts (fun turns => radixSortHybrid zero turns arr arr.length) (Sorts arr) ↔
      Narrow arr ∨ arr.Pairwise (· ≤ ·) ∧ Safe zero arr := by
  by_cases hn : Narrow arr
  · refine iff_of_true ⟨arr.length + 33, fun turns hturns => ?_⟩ (Or.inl hn)
    obtain ⟨bits, hlow, hzero, heq⟩ := radixSortHybrid_eq zero hmax (Int.le_of_lt hpos) hbound
      (show 32 < turns by omega)
    simp only [heq]
    exact passes_narrow (by omega) hlen hint hfits hn (by omega)
  obtain ⟨hsame, hnone⟩ := (countingSort_byCounts zero hlen).wide hlen hfits hn
  by_cases hs : Safe zero arr
  · have hkept : ∀ turns bits, 0 ≤ bits →
        forUp 0 bits (fun _ arr' => countingSort zero turns arr' arr.length) arr = some arr := by
      intro turns bits hbits
      have hloop : Ends (forUp 0 bits (fun _ arr' => countingSort zero turns arr' arr.length) arr) (· = arr) := by
        refine forUp_rule (fun _ a => a = arr) hbits rfl ?_
        rintro i _ _ _ rfl
        exact ⟨_, hsame hs turns, rfl⟩
      obtain ⟨a, ha, rfl⟩ := hloop
      exact ha
    have hresult : ∀ turns, 33 ≤ turns → radixSortHybrid zero turns arr arr.length = some arr := by
      intro turns hturns
      obtain ⟨bits, hlow, -, heq⟩ := radixSortHybrid_eq zero hmax (Int.le_of_lt hpos) hbound hturns
      rw [heq, hkept turns bits hlow]
    rw [halts_of_const 33 hresult, or_iff_right hn, and_iff_left hs]
    exact ⟨fun hsorts => hsorts.sorted, fun hsorted => ⟨hsorted, .refl arr⟩⟩
  · refine iff_of_false (not_halts_of_none 33 fun turns hturns => ?_) fun h => hs (h.resolve_left hn).2
    obtain ⟨bits, hlow, hzero, heq⟩ := radixSortHybrid_eq zero hmax (Int.le_of_lt hpos) hbound hturns
    have hcount : (bits - 0).toNat = (bits - 1).toNat + 1 := by omega
    rw [heq, forUp, hcount, turnsUp, hnone hs, Option.bind_none]

/-- The maximum 0 has no bits, so there is no pass. -/
theorem radixSortHybrid_zero (hmax : getMax arr arr.length = some 0) :
    Halts (fun turns => radixSortHybrid zero turns arr arr.length) (Sorts arr) ↔ arr.Pairwise (· ≤ ·) := by
  have hresult : ∀ turns, 33 ≤ turns → radixSortHybrid zero turns arr arr.length = some arr := by
    intro turns hturns
    obtain ⟨bits, -, hzero, heq⟩ := radixSortHybrid_eq zero hmax (Int.le_refl 0) (by decide) hturns
    rw [heq, hzero.mpr rfl]
    rfl
  rw [halts_of_const 33 hresult]
  exact ⟨fun hsorts => hsorts.sorted, fun hsorted => ⟨hsorted, .refl arr⟩⟩

theorem radixSortHybrid_negative (hmax : getMax arr arr.length = some max) (hneg : max < 0) (turns : Nat) :
    radixSortHybrid zero turns arr arr.length = none := by
  rw [radixSortHybrid, hmax, Option.bind_eq_bind, Option.bind_some, maxBits_negative hneg (Int.le_refl 0)]
  rfl

/-- What decides between the paths of `hybrid_sort`: more than five elements are only sorted by `counting_sort`, which
    is called when the maximum is positive. -/
def HybridWorks (zero : Bool) (arr : List Int) : Prop :=
  arr.length ≤ 5 ∨ (∃ x ∈ arr, 0 < x) ∧ (Narrow arr ∨ arr.Pairwise (· ≤ ·) ∧ Safe zero arr) ∨
    (0 ∈ arr ∧ ∀ x ∈ arr, x ≤ 0) ∧ arr.Pairwise (· ≤ ·)

theorem hybridSort_eq (arr : List Int) (turns : Nat) : hybridSort zero turns arr arr.length =
    if arr.length ≤ 5 then insertionSortHybrid arr arr.length else radixSortHybrid zero turns arr arr.length := by
  obtain ⟨_, htag, -⟩ := tagArraySort_ends arr
  rw [hybridSort, htag, Option.bind_eq_bind, Option.bind_some]
  exact if_congr (by omega) rfl rfl

theorem hybrid_sort_iff (zero : Bool) (hint : arr.length < 2 ^ 31) (hfits : ∀ x ∈ arr, Fits x) :
    Halts (fun turns => hybridSort zero turns arr arr.length) (Sorts arr) ↔ HybridWorks zero arr := by
  simp only [hybridSort_eq]
  by_cases hlen : arr.length ≤ 5
  · simp only [if_pos hlen]
    exact iff_of_true ⟨0, fun _ _ => insertionSortHybrid_ends arr⟩ (Or.inl hlen)
  simp only [if_neg hlen]
  have hne : arr ≠ [] := List.length_pos_iff.mp (by omega)
  obtain ⟨max, hmax, hmem, hgreatest⟩ := getMax_ends hne
  have hbound := (hfits max hmem).2
  rw [HybridWorks, or_iff_right hlen]
  rcases Int.lt_trichotomy max 0 with hneg | rfl | hpos
  · refine iff_of_false (not_halts_of_none 0 fun turns _ => radixSortHybrid_negative hmax hneg turns) ?_
    rintro (⟨⟨x, hx, hpos⟩, -⟩ | ⟨⟨hzero, -⟩, -⟩)
    · have := hgreatest x hx
      omega
    · have := hgreatest 0 hzero
      omega
  · have hnot : ¬∃ x ∈ arr, 0 < x := by
      rintro ⟨x, hx, hpos⟩
      have := hgreatest x hx
      omega
    rw [radixSortHybrid_zero hmax, or_iff_right fun h => hnot h.1, and_iff_right ⟨hmem, hgreatest⟩]
  · have hnot : ¬∀ x ∈ arr, x ≤ 0 := fun hall => by
      have := hall max hmem
      omega
    rw [radixSortHybrid_positive hmax hpos hbound (by omega) hint hfits]
    constructor
    · exact fun hcounting => Or.inl ⟨⟨max, hmem, hpos⟩, hcounting⟩
    · rintro (⟨-, hcounting⟩ | ⟨⟨-, hall⟩, -⟩)
      · exact hcounting
      · exact absurd hall hnot

end Hybrid

/-- Six elements are sorted by their counts. -/
theorem hybrid_sort_iff_six :
    Halts (fun turns => hybridSort true turns [3, 1, 2, -1, 3, 0] ([3, 1, 2, -1, 3, 0] : List Int).length)
      (Sorts [3, 1, 2, -1, 3, 0]) :=
  have hnarrow : Narrow [3, 1, 2, -1, 3, 0] := by
    unfold Narrow
    decide
  have hworks : HybridWorks true [3, 1, 2, -1, 3, 0] :=
    Or.inr (Or.inl ⟨⟨3, by decide, by decide⟩, Or.inl hnarrow⟩)
  (hybrid_sort_iff true (by decide) (by simp [Fits])).mpr hworks

/-- The loop that counts the bits of -1 does not end. -/
theorem hybrid_sort_negative : ¬∀ (zero : Bool) (arr : List Int), arr ≠ [] → arr.length < 2 ^ 31 → (∀ x ∈ arr, Fits x) →
    Halts (fun turns => hybridSort zero turns arr arr.length) (Sorts arr) := by
  intro h
  have hmax : getMax [-1, -1, -1, -1, -1, -2] ([-1, -1, -1, -1, -1, -2] : List Int).length = some (-1) := rfl
  have hnone : ∀ turns, hybridSort true turns [-1, -1, -1, -1, -1, -2]
      ([-1, -1, -1, -1, -1, -2] : List Int).length = none := fun turns => by
    rw [hybridSort_eq, if_neg (by decide)]
    exact radixSortHybrid_negative hmax (by decide) turns
  exact not_halts_of_none 0 (fun turns _ => hnone turns)
    (h true [-1, -1, -1, -1, -1, -2] nofun (by decide) (by simp [Fits]))

end Minitalk.Libft.Sort
