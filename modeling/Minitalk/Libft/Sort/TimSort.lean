import Minitalk.Libft.Sort.InsertionSort
import Minitalk.Libft.Sort.MergeSort

/-! # Tim sort (`tim_sort`)

`turns` is the fuel of the loops, and `ok` says which calls of `malloc` succeed. -/

namespace Minitalk.Libft.Sort
open CArray CInt Heap Program

/-- `RUN` -/
def RUN : Int := 32

def ftMin (a b : Int) : Int := if a < b then a else b

def timSortRuns (turns : Nat) (arr : List Int) (n : Int) : Option (List Int) := do
  let (arr, _) ← whileLoop (fun s => some (decide (s.2 < n)))
    (fun s => do
      let (arr, i) := s
      let arr ← insertionSort arr i (ftMin (wrap (i + RUN - 1)) (n - 1))
      some (arr, wrap (i + RUN))) turns (arr, (0 : Int))
  some arr

/-- A run and its neighbour, if there is one. -/
def mergeRuns (ok : Nat → Bool) (n size left : Int) (s : Memory) : Option Memory :=
  let mid := wrap (left + size - 1)
  let right := ftMin (wrap (left + size * 2 - 1)) (n - 1)
  if mid < right then merge ok left mid right s else some s

/-- The inner loop of `tim_sort_merge`. -/
def mergeNeighbours (ok : Nat → Bool) (turns : Nat) (n size : Int) (s : Memory) : Option Memory := do
  let (s, _) ← whileLoop (fun s => some (decide (s.2 < n - 1)))
    (fun s => do
      let (s, left) := s
      some (← mergeRuns ok n size left s, wrap (left + size * 2))) turns (s, (0 : Int))
  some s

def timSortMerge (ok : Nat → Bool) (turns : Nat) (n : Int) (s : Memory) : Option Memory := do
  let (s, _) ← whileLoop (fun s => some (decide (s.2 < n)))
    (fun s => do
      let (s, size) := s
      some (← mergeNeighbours ok turns n size s, wrap (size * 2))) turns (s, RUN)
  some s

def timSort (ok : Nat → Bool) (turns : Nat) (arr : List Int) (n : Int) (heap : Heap Int) : Option Memory := do
  let arr ← timSortRuns turns arr n
  timSortMerge ok turns n { arr, heap, calls := 0 }

/-- The runs that begin in a range are sorted; the last run of the array may be short. -/
def SortedRuns (size n lo hi : Int) (arr : List Int) : Prop :=
  ∀ i, lo ≤ i → i < hi → size ∣ i → SortedOn arr i (min (i + size) n)

section Runs
variable {size n lo hi left right i : Int} {arr a b : List Int}

theorem ftMin_eq (a b : Int) : ftMin a b = min a b := by
  rw [ftMin]
  split <;> omega

/-- A multiple before another one is before it by a whole step. -/
theorem add_le_of_dvd (hi : size ∣ i) (hleft : size ∣ left) (hlt : i < left) : i + size ≤ left := by
  have := Int.le_of_dvd (by omega) (Int.dvd_sub hleft hi)
  omega

/-- The run at `left` was sorted. -/
theorem SortedRuns.next (h : SortedRuns size n 0 left a) (hleft : size ∣ left) (hb : Rearranged left right a b)
    (hs : SortedOn b left (min (left + size) n)) : SortedRuns size n 0 (left + size) b := by
  intro i h0 hi hdvd
  rcases Int.lt_trichotomy i left with hlt | rfl | hgt
  · have hend := add_le_of_dvd hdvd hleft hlt
    exact (h i h0 hlt hdvd).congr fun k _ hk => hb.kept k (by omega)
  · exact hs
  · have hend := add_le_of_dvd hleft hdvd hgt
    omega

/-- The runs behind those that were merged are as they were. -/
theorem SortedRuns.rest (h : SortedRuns size n left hi a) (hb : Rearranged left right a b) (hright : right ≤ lo)
    (hlo : left ≤ lo) : SortedRuns size n lo hi b := by
  intro i hi hlt hdvd
  exact (h i (by omega) hlt hdvd).congr fun k hk _ => hb.kept k (by omega)

theorem SortedRuns.sorted (h : SortedRuns size n 0 n arr) (hsize : n ≤ size) : SortedOn arr 0 n := by
  intro i j hi hij hj
  exact h 0 (Int.le_refl 0) (by omega) (Int.dvd_zero size) i j hi hij (by omega)

theorem timSortRuns_sorted {turns : Nat} (hint : arr.length < 2 ^ 29) (hturns : arr.length < turns) :
    Ends (timSortRuns turns arr arr.length) fun b => b.Perm arr ∧ SortedRuns RUN arr.length 0 arr.length b := by
  refine Ends.bind (P := fun s => s.1.Perm arr ∧ SortedRuns RUN arr.length 0 arr.length s.1) ?_ fun s hs => .some hs
  refine whileLoop_rule (fun s => s.1.Perm arr ∧ 0 ≤ s.2 ∧ RUN ∣ s.2 ∧ SortedRuns RUN arr.length 0 s.2 s.1)
    (fun s => ((arr.length : Int) - s.2).toNat) (by simp only; omega)
    ⟨List.Perm.refl arr, Int.le_refl 0, Int.dvd_zero RUN, fun i h0 hi => by omega⟩ ?_
  rintro ⟨b, i⟩ ⟨hperm, h0, hdvd, hruns⟩
  simp only at hperm h0 hdvd hruns
  have hlen := hperm.length_eq
  refine .some ?_
  rw [if_congr decide_eq_true_iff rfl rfl]
  split
  · rename_i hlt
    simp only at hlt
    simp only [RUN, ftMin_eq] at hruns hdvd ⊢
    rw [wrap_of_fits ⟨by omega, by omega⟩, wrap_of_fits ⟨by omega, by omega⟩]
    refine (insertionSort_sorts h0 (by omega) (by omega)).bind fun c ⟨hc, hs⟩ => ?_
    refine .some ⟨⟨hc.perm.trans hperm, by omega, Int.dvd_add hdvd (Int.dvd_refl 32), hruns.next hdvd hc ?_⟩, by omega⟩
    exact hs.mono (Int.le_refl i) (by omega)
  · rename_i hge
    simp only at hge
    exact ⟨hperm, fun i h0 hi => hruns i h0 (by omega)⟩

end Runs

/-! ### The merges -/

/-- The array was rearranged, and the blocks of the merges were freed. -/
structure Kept (blocks : Nat) (arr : List Int) (s : Memory) : Prop where
  perm : s.arr.Perm arr
  owns : OwnsAll blocks [] s.heap
  old : blocks ≤ s.heap.blocks.length

section Merges
variable {blocks turns : Nat} {arr : List Int} {s s' : Memory} {n size left r : Int} {ok : Nat → Bool}

theorem Kept.merge (h : Kept blocks arr s) (hs : MergeKeeps blocks left r s s') : Kept blocks arr s' :=
  ⟨hs.rearranged.perm.trans h.perm, hs.owns, hs.blocks⟩

/-- Before the index `left` the runs are of twice the size. -/
structure Level (ok : Nat → Bool) (blocks : Nat) (arr : List Int) (n size : Int) (s : Memory × Int) : Prop where
  kept : Kept blocks arr s.1
  low : 0 ≤ s.2
  turn : size * 2 ∣ s.2
  done : (∀ k, ok k = true) → SortedRuns (size * 2) n 0 s.2 s.1.arr
  rest : (∀ k, ok k = true) → SortedRuns size n s.2 n s.1.arr

/-- One turn: two neighbouring runs become one, and a run without a neighbour is one already. -/
theorem Level.step (h : Level ok blocks arr n size (s, left)) (hn : n = arr.length) (hint : n < 2 ^ 29)
    (hsize : 0 < size) (hlt : size < n) (hleft : left < n - 1) :
    Ends (mergeRuns ok n size left s) fun s' => Level ok blocks arr n size (s', left + size * 2) := by
  obtain ⟨hkept, hlow, hturn, hdone, hrest⟩ := h
  simp only at hkept hlow hturn hdone hrest
  have hlen := hkept.perm.length_eq
  have hdvd : size ∣ left := Int.dvd_trans (Int.dvd_mul_right size 2) hturn
  have hturn' : size * 2 ∣ left + size * 2 := Int.dvd_add hturn (Int.dvd_refl _)
  simp only [mergeRuns]
  rw [ftMin_eq, wrap_of_fits ⟨by omega, by omega⟩, wrap_of_fits ⟨by omega, by omega⟩]
  split
  · rename_i hmid
    refine (merge_ends hkept.owns hkept.old hlow (by omega) hmid (by omega)).mono fun s' ⟨hs', hsorts⟩ => ?_
    refine ⟨hkept.merge hs', by omega, hturn', fun hok => ?_, fun hok => ?_⟩
    · refine (hdone hok).next hturn hs'.rearranged ((hsorts hok ?_ ?_).mono (Int.le_refl left) (by omega))
      · exact (hrest hok left (Int.le_refl left) (by omega) hdvd).mono (Int.le_refl left) (by omega)
      · exact (hrest hok (left + size) (by omega) (by omega) (Int.dvd_add hdvd (Int.dvd_refl size))).mono (by omega)
          (by omega)
    · exact (hrest hok).rest hs'.rearranged (by omega) (by omega)
  · refine .some ⟨hkept, by omega, hturn', fun hok => ?_, fun hok => ?_⟩
    · refine (hdone hok).next hturn (.refl left left s.arr) ?_
      exact (hrest hok left (Int.le_refl left) (by omega) hdvd).mono (Int.le_refl left) (by omega)
    · exact (hrest hok).rest (.refl left left s.arr) (by omega) (by omega)

/-- At the end, the runs of the whole array are of twice the size. -/
theorem Level.finished (h : Level ok blocks arr n size (s, left)) (hend : n - 1 ≤ left) (hok : ∀ k, ok k = true) :
    SortedRuns (size * 2) n 0 n s.arr := by
  intro i h0 hi hdvd
  rcases Int.lt_or_le i left with hlt | hle
  · exact h.done hok i h0 hlt hdvd
  · exact sortedOn_of_le (by omega)

theorem mergeNeighbours_ends (hn : n = arr.length) (hint : n < 2 ^ 29) (hsize : 0 < size) (hlt : size < n)
    (hturns : arr.length < turns) (hkept : Kept blocks arr s)
    (hruns : (∀ k, ok k = true) → SortedRuns size n 0 n s.arr) :
    Ends (mergeNeighbours ok turns n size s) fun s' => Kept blocks arr s' ∧
      ((∀ k, ok k = true) → SortedRuns (size * 2) n 0 n s'.arr) := by
  refine Ends.bind (P := fun s' => Level ok blocks arr n size s' ∧ n - 1 ≤ s'.2) ?_
    fun s' ⟨h, hend⟩ => .some ⟨h.kept, h.finished hend⟩
  refine whileLoop_rule (Level ok blocks arr n size) (fun s => (n - s.2).toNat)
    (show (n - 0).toNat < turns by omega) ⟨hkept, Int.le_refl 0, Int.dvd_zero _, fun _ i h0 hi => by omega, hruns⟩ ?_
  rintro ⟨s, left⟩ h
  have hlow := h.low
  refine .some ?_
  rw [if_congr decide_eq_true_iff rfl rfl]
  simp only at hlow ⊢
  split
  · rename_i hgo
    rw [wrap_of_fits ⟨by omega, by omega⟩]
    exact (h.step hn hint hsize hlt hgo).bind fun s' hs' => .some ⟨hs', by omega⟩
  · exact ⟨h, Int.not_lt.mp ‹_›⟩

theorem timSortMerge_ends (hn : n = arr.length) (hint : n < 2 ^ 29) (hturns : arr.length < turns)
    (hkept : Kept blocks arr s) (hruns : SortedRuns RUN n 0 n s.arr) :
    Ends (timSortMerge ok turns n s) fun s' => Kept blocks arr s' ∧
      ((∀ k, ok k = true) → SortedOn s'.arr 0 n) := by
  refine Ends.bind (P := fun s' => Kept blocks arr s'.1 ∧ ((∀ k, ok k = true) → SortedOn s'.1.arr 0 n)) ?_
    fun s' hs' => .some hs'
  refine whileLoop_rule (fun s => Kept blocks arr s.1 ∧ 0 < s.2 ∧ ((∀ k, ok k = true) → SortedRuns s.2 n 0 n s.1.arr))
    (fun s => (n - s.2).toNat) (show (n - RUN).toNat < turns by rw [RUN]; omega)
    ⟨hkept, (by decide : (0 : Int) < RUN), fun _ => hruns⟩ ?_
  rintro ⟨s, size⟩ ⟨hkept, hsize, hruns⟩
  simp only at hkept hsize hruns
  refine .some ?_
  rw [if_congr decide_eq_true_iff rfl rfl]
  simp only
  split
  · rename_i hgo
    refine (mergeNeighbours_ends hn hint hsize hgo hturns hkept hruns).bind fun s' ⟨hkept', hruns'⟩ => ?_
    rw [wrap_of_fits ⟨by omega, by omega⟩]
    exact .some ⟨⟨hkept', by omega, hruns'⟩, by omega⟩
  · exact ⟨hkept, fun hok => (hruns hok).sorted (by omega)⟩

/-- Whatever calls of `malloc` succeed, the array is rearranged and all blocks are freed; when all succeed, it is
    sorted. -/
theorem tim_sort_ends {heap : Heap Int} (hint : arr.length < 2 ^ 29) (hheap : heap.fault = false) (ok : Nat → Bool) :
    Halts (fun turns => timSort ok turns arr arr.length heap) fun s =>
      s.arr.Perm arr ∧ s.heap.fault = false ∧ FreedFrom heap.blocks.length s.heap ∧
        ((∀ k, ok k = true) → Sorts arr s.arr) := by
  refine ⟨arr.length + 1, fun turns hturns => ?_⟩
  refine (timSortRuns_sorted hint hturns).bind fun b ⟨hperm, hruns⟩ => ?_
  refine (timSortMerge_ends rfl (by omega) hturns ⟨hperm, .start hheap, Nat.le_refl _⟩ hruns).mono
    fun s ⟨hkept, hsorted⟩ => ⟨hkept.perm, hkept.owns.sound, hkept.owns.freedFrom, fun hok => ⟨?_, hkept.perm⟩⟩
  have hs := hsorted hok
  rw [← hkept.perm.length_eq] at hs
  exact hs.pairwise

end Merges

/-- Two runs, of 32 elements and of 1, and no memory for the copy of the second one. -/
theorem tim_sort_ends_refused :
    let arr : List Int := (List.range 33).reverse.map Int.ofNat
    Halts (fun turns => timSort (fun k => decide (k ≠ 1)) turns arr arr.length {}) fun s =>
      s.arr.Perm arr ∧ s.heap.fault = false ∧ FreedFrom 0 s.heap := by
  intro arr
  have hlen : arr.length < 2 ^ 29 := by decide
  have hsound : ({} : Heap Int).fault = false := rfl
  exact (tim_sort_ends hlen hsound fun k => decide (k ≠ 1)).mono fun _ h => ⟨h.1, h.2.1, h.2.2.1⟩

end Minitalk.Libft.Sort
