import Minitalk.Libft.Sort.CountingSort

/-! # Pigeonhole sort (`pigeonhole_sort`)

The counts are the holes of the source. -/

namespace Minitalk.Libft.Sort
open CArray CInt Program

def initializeHoles (holes : List (Option Int)) (range : Int) : Option (List (Option Int)) :=
  forUp 0 range (fun i holes => store holes i (some 0)) holes

namespace PigeonholeSort

/-- The count goes down before each element, and once more where the loop ends. -/
def placeElements (turns : Nat) (arr holes : List Int) (range min : Int) : Option (List Int) := do
  let s ← forUp 0 range (fun i s => do
    let s ← whileLoop (isLeft i) (fun s => do putNext i min (← takeOne i s)) turns s
    takeOne i s) { arr, count := holes, j := 0 }
  some s.arr

end PigeonholeSort

def pigeonholeSort (zero : Bool) (turns : Nat) (arr : List Int) (size : Int) : Option (List Int) :=
  if size ≤ 1 then some arr
  else do
    let min ← getMin arr size
    let max ← getMax arr size
    let range := wrap (max - min + 1)
    match mallocInts zero range with
    | none => some arr
    | some holes => do
      let holes ← written (← initializeHoles holes range)
      let holes ← countElements arr holes size min
      PigeonholeSort.placeElements turns arr holes range min

section Holes
variable {arr count : List Int} {zero : Bool} {range n min : Int} {turns : Nat}

theorem mallocInts_of_pos (h0 : 0 < n) (hint : n < 2 ^ 31) :
    mallocInts zero n = some (List.replicate n.toNat none) := by
  rw [mallocInts, sizeT_of_nonneg (Int.le_of_lt h0) hint, gives_of_lt (by omega) (by omega), if_pos rfl]

theorem mallocInts_of_neg (h0 : n < 0) (hint : -2 ^ 31 ≤ n) : mallocInts zero n = none := by
  have hsize := sizeT_of_neg h0 hint
  rw [mallocInts, gives_of_le (by omega), if_neg Bool.false_ne_true]

theorem mallocInts_zero (zero : Bool) : mallocInts zero 0 = if zero then some [] else none := by
  cases zero <;> rfl

theorem initializeHoles_ends (h0 : 0 ≤ range) :
    Ends (initializeHoles (List.replicate range.toNat none) range) (· = List.replicate range.toNat (some 0)) := by
  refine (forUp_rule (fun i holes => holes.length = range.toNat ∧ ∀ k, 0 ≤ k → k < i → get holes k = some 0) h0
    ⟨List.length_replicate, fun k hk hk' => by omega⟩ ?_).mono ?_
  · rintro i holes hi hi' ⟨hlen, hzero⟩
    have hin : Inside holes i := ⟨hi, by omega⟩
    rw [store_eq hin]
    refine .some ⟨(length_put holes i _).trans hlen, fun k hk hk' => ?_⟩
    rw [get_put hin]
    split
    · rfl
    · exact hzero k hk (by omega)
  · rintro holes ⟨hlen, hzero⟩
    rw [← hlen]
    exact eq_replicate fun k hk hk' => hzero k hk (by omega)

theorem PigeonholeSort.placeElements_sorts (hrange : 0 ≤ range) (hcount : Counted arr count range min)
    (hmin : ∀ x ∈ arr, min ≤ x ∧ x - min < range) (hfits : Fits min ∧ Fits (range - 1 + min))
    (hturns : arr.length < turns) (hint : arr.length < 2 ^ 31) :
    Ends (placeElements turns arr count range min) (Sorts arr) := by
  refine (place_sorts hrange hcount hmin fun i s h0 hi h => ?_).bind fun s hs => .some hs
  obtain ⟨⟨hlow, hlow'⟩, hhigh, hhigh'⟩ := hfits
  have hin : Inside s.count i := ⟨h0, by have := h.size; omega⟩
  refine (h.given h0 hi hturns hint fun s hj hi' hpos hbits => ?_).bind fun s' hgiven => ?_
  · simp only [putNext, takeOne, store_eq hj, load_eq hi', store_eq hi', Option.bind_eq_bind, Option.bind_some]
    rw [wrap_of_fits ⟨by omega, by omega⟩, wrap_of_fits ⟨by omega, by omega⟩]
    rfl
  · have hin' : Inside s'.count i := by
      rw [hgiven.count]
      exact inside_put.mpr hin
    have hzero : get s'.count i = 0 := by rw [hgiven.count, get_put_self hin]
    simp only [takeOne, load_eq hin', store_eq hin', Option.bind_eq_bind, Option.bind_some]
    refine .some (h.step hgiven ?_ (fun k hk => get_put_ne hin' (by omega)) hin)
    rw [length_put, hgiven.count, length_put]
    exact h.size

theorem pigeonholeSort_byCounts (zero : Bool) (hlen : 1 < arr.length) :
    ByCounts zero arr (fun n min turns count => PigeonholeSort.placeElements turns arr count n min)
      fun turns => pigeonholeSort zero turns arr arr.length := by
  rintro min max n hmin hmax rfl
  refine ⟨fun hpos hlt turns => ?_, fun hneg hge turns => ?_, fun hzero turns => ?_⟩
  all_goals
    simp only [pigeonholeSort]
    rw [if_neg (by omega), hmin, hmax]
    simp only [Option.bind_eq_bind, Option.bind_some]
  · obtain ⟨holes, hholes, rfl⟩ := initializeHoles_ends (Int.le_of_lt hpos)
    rw [mallocInts_of_pos hpos hlt]
    simp only [hholes, Option.bind_some, written_replicate]
  · rw [mallocInts_of_neg hneg hge]
  · rw [hzero, mallocInts_zero]
    cases zero with
    | false => rfl
    | true =>
      have h0 : arr ≠ [] := List.length_pos_iff.mp (by omega)
      have hholes : initializeHoles [] 0 = some [] := rfl
      have hwritten : written ([] : List (Option Int)) = some [] := rfl
      simp only [if_true, hholes, hwritten, Option.bind_some, countElements_nil h0, Option.bind_none]

theorem pigeonholeSort_iff (hint : arr.length < 2 ^ 31) (hfits : ∀ x ∈ arr, Fits x) :
    Halts (fun turns => pigeonholeSort zero turns arr arr.length) (Sorts arr) ↔
      Narrow arr ∨ arr.Pairwise (· ≤ ·) ∧ Safe zero arr := by
  by_cases hlen : arr.length ≤ 1
  · exact halts_of_length_le hlen fun turns => if_pos (by omega)
  · exact (pigeonholeSort_byCounts zero (by omega)).sorts_iff (by omega) hint hfits
      fun n min count turns h0 hcount hclose hfits hturns =>
        PigeonholeSort.placeElements_sorts h0 hcount hclose hfits hturns hint

/-- Both sorts work when the values are close. Otherwise they get no memory for the counts, or none that they stay in,
    so at most a sorted array is right. -/
theorem counting_sorts_iff (zero : Bool) (hint : arr.length < 2 ^ 31) (hfits : ∀ x ∈ arr, Fits x) :
    (Halts (fun turns => countingSort zero turns arr arr.length) (Sorts arr) ↔
        Narrow arr ∨ arr.Pairwise (· ≤ ·) ∧ Safe zero arr) ∧
      (Halts (fun turns => pigeonholeSort zero turns arr arr.length) (Sorts arr) ↔
        Narrow arr ∨ arr.Pairwise (· ≤ ·) ∧ Safe zero arr) :=
  ⟨countingSort_iff hint hfits, pigeonholeSort_iff hint hfits⟩

end Holes

theorem counting_sorts_iff_two :
    (Halts (fun turns => countingSort true turns [2, 1] ([2, 1] : List Int).length) (Sorts [2, 1]) ↔
        Narrow [2, 1] ∨ ([2, 1] : List Int).Pairwise (· ≤ ·) ∧ Safe true [2, 1]) ∧
      (Halts (fun turns => pigeonholeSort true turns [2, 1] ([2, 1] : List Int).length) (Sorts [2, 1]) ↔
        Narrow [2, 1] ∨ ([2, 1] : List Int).Pairwise (· ≤ ·) ∧ Safe true [2, 1]) :=
  counting_sorts_iff true (by decide) (by simp [Fits])

/-- The range of 2147483647 and 0 is 2^31, so it is negative as an `int`. -/
theorem counting_sorts_fail : ¬∀ (zero : Bool) (arr : List Int), arr.length < 2 ^ 31 → (∀ x ∈ arr, Fits x) →
    Halts (fun turns => countingSort zero turns arr arr.length) (Sorts arr) ∧
      Halts (fun turns => pigeonholeSort zero turns arr arr.length) (Sorts arr) := by
  intro h
  have hfits : ∀ x ∈ ([2147483647, 0] : List Int), Fits x := by simp [Fits]
  obtain ⟨hcounting, -⟩ := h true [2147483647, 0] (by decide) hfits
  rcases (countingSort_iff (by decide) hfits).mp hcounting with hnarrow | ⟨hsorted, -⟩
  · exact absurd (hnarrow 2147483647 (by simp) 0 (by simp)) (by decide)
  · exact absurd hsorted (by decide)

end Minitalk.Libft.Sort
