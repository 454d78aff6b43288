import Minitalk.Lib.Inversions
import Minitalk.Libft.Sort.InsertionSort

/-! # Sorts that insert (`shell_sort`, `ksort`)

No function gets a null `arr`. -/

namespace Minitalk.Libft.Sort
open CArray CInt Program

/-! ### `shell_sort.c` -/

/-- `while (j >= gap && arr[j - gap] > temp)` -/
def shiftGap (gap : Int) (hgap : 0 < gap) (temp j : Int) (arr : List Int) : Option (List Int × Int) :=
  if gap ≤ j then do
    let x ← load arr (j - gap)
    if temp < x then shiftGap gap hgap temp (j - gap) (← store arr j x) else some (arr, j)
  else some (arr, j)
termination_by j.toNat

/-- The turns of the outer loop for one `gap`. -/
def gapPass (size gap : Int) (hgap : 0 < gap) (arr : List Int) : Option (List Int) :=
  forUp gap size (fun i arr => do
    let temp ← load arr i
    let (arr, j) ← shiftGap gap hgap temp i arr
    store arr j temp) arr

def shellLoop (size gap : Int) (arr : List Int) : Option (List Int) :=
  if hgap : 0 < gap then do shellLoop size (gap / 2) (← gapPass size gap hgap arr) else some arr
termination_by gap.toNat

def shellSort (arr : List Int) (size : Int) : Option (List Int) :=
  if size ≤ 1 then some arr else shellLoop size (size / 2) arr

/-! ### `ksort.c` -/

def simpleInsertionSort (arr : List Int) (n : Int) : Option (List Int) :=
  forUp 1 n (fun i arr => do
    let key ← load arr i
    let (arr, j) ← shiftGreater 0 key (i - 1) arr
    store arr (j + 1) key) arr

def kWayInsertionSort (arr : List Int) (n k : Int) : Option (List Int) :=
  forUp 1 n (fun i arr => do
    let key ← load arr i
    let start := if i - k < 0 then 0 else i - k
    let (arr, j) ← shiftGreater start key (i - 1) arr
    store arr (j + 1) key) arr

def ksort (arr : List Int) (n k : Int) : Option (List Int) :=
  if n ≤ 1 ∨ k ≤ 0 then some arr
  else if n - 1 ≤ k then simpleInsertionSort arr n
  else do simpleInsertionSort (← kWayInsertionSort arr n k) n

/-! ### Shell sort -/

section Shell
variable {gap i j key size : Int} {a b arr : List Int}

/-- No element is smaller than the one `gap` cells before it. -/
def GapSorted (gap hi : Int) (a : List Int) : Prop := ∀ k, gap ≤ k → k < hi → get a (k - gap) ≤ get a k

/-- The cell `j` is free for the key; the one `gap` cells behind it has a greater element. -/
structure GapHole (gap i key : Int) (a : List Int) (j : Int) (b : List Int) : Prop where
  perm : (put b j key).Perm a
  sorted : ∀ k, gap ≤ k → k ≤ i → k ≠ j → k - gap ≠ j → get b (k - gap) ≤ get b k
  bridge : gap ≤ j → j + gap ≤ i → get b (j - gap) ≤ get b (j + gap)
  greater : j + gap ≤ i → key < get b (j + gap)

theorem gapHole_first (hin : Inside a i) (hgap : 0 < gap) (hs : GapSorted gap i a) :
    GapHole gap i (get a i) a i a where
  perm := by rw [put_get hin]
  sorted k hk hk' hne _ := hs k hk (by omega)
  bridge := by omega
  greater := by omega

theorem GapHole.step (h : GapHole gap i key a j b) (hgap : 0 < gap) (hj : gap ≤ j) (hi : j ≤ i) (hlen : i < a.length)
    (hgt : key < get b (j - gap)) : GapHole gap i key a (j - gap) (put b j (get b (j - gap))) := by
  have hlenb : b.length = a.length := by rw [← h.perm.length_eq, length_put]
  have hin : Inside b j := ⟨by omega, by omega⟩
  have hin' : Inside b (j - gap) := ⟨by omega, by omega⟩
  refine ⟨(put_put_perm hin hin' (by omega) key).trans h.perm, fun k hk hk' hne hne' => ?_, fun hj' _ => ?_,
    fun _ => ?_⟩
  · have hne'' : k ≠ j := by omega
    by_cases hkj : k - gap = j
    · have hk : k = j + gap := by omega
      rw [hkj, get_put_self hin, get_put_ne hin hne'', hk]
      exact h.bridge hj (by omega)
    · rw [get_put_ne hin hkj, get_put_ne hin hne'']
      exact h.sorted k hk hk' (by omega) hkj
  · rw [Int.sub_add_cancel, get_put_self hin, get_put_ne hin (by omega)]
    exact h.sorted (j - gap) hj' (by omega) (by omega) (by omega)
  · rwa [Int.sub_add_cancel, get_put_self hin]

theorem GapHole.fill (h : GapHole gap i key a j b) (hgap : 0 < gap) (hin : Inside b j)
    (hle : gap ≤ j → get b (j - gap) ≤ key) : GapSorted gap (i + 1) (put b j key) := by
  intro k hk hk'
  rw [get_put hin, get_put hin]
  split
  · rename_i hkj
    have hk : k = j + gap := by omega
    rw [if_neg (by omega), hk]
    exact Int.le_of_lt (h.greater (by omega))
  · rename_i hkj
    split
    · rename_i heq
      rw [heq] at hk ⊢
      exact hle hk
    · rename_i hne
      exact h.sorted k hk (by omega) hne hkj

theorem shiftGap_hole (h : GapHole gap i key a j b) (hgap : 0 < gap) (h0 : 0 ≤ j) (hi : j ≤ i) (hlen : i < a.length) :
    Ends (shiftGap gap hgap key j b) fun s => GapHole gap i key a s.2 s.1 ∧ Inside s.1 s.2 ∧
      (gap ≤ s.2 → get s.1 (s.2 - gap) ≤ key) := by
  induction hn : j.toNat using Nat.strongRecOn generalizing j b with
  | ind n ih =>
    have hlenb : b.length = a.length := by rw [← h.perm.length_eq, length_put]
    have hin : Inside b j := ⟨h0, by omega⟩
    rw [shiftGap]
    split
    · rename_i hj
      have hin' : Inside b (j - gap) := ⟨by omega, by omega⟩
      simp only [load_eq hin', store_eq hin, Option.bind_eq_bind, Option.bind_some]
      split
      · rename_i hgt
        exact ih _ (by omega) (h.step hgap hj hi hlen hgt) (by omega) (by omega) rfl
      · rename_i hng
        exact .some ⟨h, hin, fun _ => Int.not_lt.mp hng⟩
    · rename_i hj
      exact .some ⟨h, hin, fun hle => absurd hle hj⟩

theorem gapPass_ends (hgap : 0 < gap) (hle : gap ≤ a.length) :
    Ends (gapPass a.length gap hgap a) fun b => b.Perm a ∧ GapSorted gap a.length b := by
  refine forUp_rule (fun i b => b.Perm a ∧ GapSorted gap i b) hle ⟨.refl a, fun k hk hk' => by omega⟩ ?_
  rintro i b hi hi' ⟨hperm, hs⟩
  have hlen := hperm.length_eq
  have hin : Inside b i := ⟨by omega, by omega⟩
  rw [load_eq hin, Option.bind_eq_bind, Option.bind_some]
  refine (shiftGap_hole (gapHole_first hin hgap hs) hgap hin.1 (Int.le_refl i) hin.2).bind ?_
  rintro ⟨c, j⟩ ⟨hhole, hin', hstop⟩
  simp only [store_eq hin']
  exact .some ⟨hhole.perm.trans hperm, hhole.fill hgap hin' hstop⟩

/-- The last gap is 1, after which neighbours are in order. -/
theorem shellLoop_sorts (hperm : a.Perm arr) (hgap : 0 < gap) (hle : gap ≤ arr.length) :
    Ends (shellLoop arr.length gap a) (Sorts arr) := by
  induction hn : gap.toNat using Nat.strongRecOn generalizing gap a with
  | ind n ih =>
    rw [shellLoop, dif_pos hgap]
    have hpass := gapPass_ends (a := a) hgap (by rw [hperm.length_eq]; exact hle)
    rw [hperm.length_eq] at hpass
    refine hpass.bind fun b ⟨hb, hs⟩ => ?_
    by_cases hone : gap = 1
    · subst hone
      rw [shellLoop, dif_neg (by decide)]
      refine .some ⟨SortedOn.pairwise (sortedOn_of_neighbours fun k hk hk' => ?_), hb.trans hperm⟩
      have hlen := (hb.trans hperm).length_eq
      have hnext := hs (k + 1) (by omega) (by omega)
      rwa [Int.add_sub_cancel] at hnext
    · exact ih _ (by omega) (hb.trans hperm) (show 0 < gap / 2 by omega) (by omega) rfl

theorem shellSort_sorts (arr : List Int) : Ends (shellSort arr arr.length) (Sorts arr) := by
  rw [shellSort]
  split
  · exact .some (sorts_of_length_le (by omega))
  · exact shellLoop_sorts (.refl arr) (by omega) (by omega)

end Shell

/-! ### The sort of nearly sorted arrays -/

section KSort
variable {left i key j n k : Int} {a b arr : List Int}

theorem simpleInsertionSort_eq (arr : List Int) : simpleInsertionSort arr n = insertionSort arr 0 (n - 1) := by
  rw [insertionSort, Int.sub_add_cancel]
  rfl

/-- From wherever the elements move up, the key goes to a free cell. -/
theorem shiftGreater_perm (hlen : b.length = a.length) (h0 : 0 ≤ left) (hleft : left ≤ j + 1) (hj : j + 1 < b.length)
    (hperm : (put b (j + 1) key).Perm a) :
    Ends (shiftGreater left key j b) fun s => Inside s.1 (s.2 + 1) ∧ (put s.1 (s.2 + 1) key).Perm a := by
  induction hn : (j + 1 - left).toNat generalizing j b with
  | zero =>
    rw [shiftGreater, if_neg (by omega)]
    exact .some ⟨⟨by simp only; omega, hj⟩, hperm⟩
  | succ m ih =>
    have hin : Inside b j := ⟨by omega, by omega⟩
    have hin' : Inside b (j + 1) := ⟨by omega, hj⟩
    rw [shiftGreater, if_pos (by omega)]
    simp only [load_eq hin, store_eq hin', Option.bind_eq_bind, Option.bind_some]
    split
    · refine ih (by rw [length_put]; exact hlen) (by omega) (by rw [length_put]; omega) ?_ (by omega)
      rw [Int.sub_add_cancel]
      exact (put_put_perm hin' hin (by omega) key).trans hperm
    · exact .some ⟨hin', hperm⟩

/-- Where a turn of the pass starts to look. -/
theorem start_le (hk : 0 < k) (hi : 1 ≤ i) :
    0 ≤ (if i - k < 0 then 0 else i - k) ∧ (if i - k < 0 then 0 else i - k) ≤ i - 1 + 1 := by
  split <;> omega

theorem kWayInsertionSort_perm (hk : 0 < k) (hn : 1 ≤ a.length) :
    Ends (kWayInsertionSort a a.length k) fun b => b.Perm a := by
  refine forUp_rule (fun _ (b : List Int) => b.Perm a) (by omega) (.refl a) ?_
  rintro i b hi hi' hperm
  have hlen := hperm.length_eq
  have hin : Inside b i := ⟨by omega, by omega⟩
  rw [load_eq hin, Option.bind_eq_bind, Option.bind_some]
  obtain ⟨hstart, hstart'⟩ := start_le hk hi
  refine (shiftGreater_perm (a := b) rfl hstart hstart' (by omega) ?_).bind ?_
  · rw [Int.sub_add_cancel, put_get hin]
  · rintro ⟨c, j⟩ ⟨hin', hperm'⟩
    simp only [store_eq hin']
    exact .some (hperm'.trans hperm)

/-- No element is smaller than one that is more than `k` cells before it. -/
def Nearly (k : Int) (a : List Int) : Prop := ∀ m i, 0 ≤ m → m + k < i → i < a.length → get a m ≤ get a i

/-- In the sorted front, what is more than `k` cells before an element is not greater. -/
theorem Nearly.le (h : Nearly k a) (hk : 0 < k) (hb : Rearranged 0 i a b) (hs : SortedOn b 0 i) (hi : i < a.length)
    {p : Int} (hp : 0 ≤ p) (hpi : p + k < i) : get b p ≤ get a i := by
  have hlen := hb.length
  by_contra hgt
  have hfront : (segment a 0 (i - k)).countP (fun x => decide (x ≤ get a i)) = (segment a 0 (i - k)).length := by
    refine List.countP_eq_length.mpr fun x hx => ?_
    obtain ⟨m, hm, hm', rfl⟩ := (mem_segment (Int.le_refl 0) (by omega)).mp hx
    exact decide_eq_true (h m i hm (by omega) hi)
  have hback : (segment b p i).countP (fun x => decide (x ≤ get a i)) = 0 := by
    refine List.countP_eq_zero.mpr fun x hx => ?_
    obtain ⟨q, hq, hq', rfl⟩ := (mem_segment hp (by omega)).mp hx
    have hle : get b p ≤ get b q := by
      rcases Int.lt_or_eq_of_le hq with hlt | rfl
      · exact hs p q hp hlt hq'
      · exact Int.le_refl _
    rw [decide_eq_true_eq]
    omega
  have hcount := (hb.segment_perm (Int.le_refl 0) (by omega) (by omega)).countP_eq fun x => decide (x ≤ get a i)
  rw [segment_append (Int.le_refl 0) hp (show p ≤ i by omega),
    segment_append (Int.le_refl 0) (show 0 ≤ i - k by omega) (show i - k ≤ i by omega), List.countP_append,
    List.countP_append, hfront, hback] at hcount
  have hless : (segment b 0 p).countP (fun x => decide (x ≤ get a i)) ≤ (segment b 0 p).length := List.countP_le_length
  have hlenp := length_segment (Int.le_refl 0) hp (show p ≤ b.length by omega)
  have hlenk := length_segment (Int.le_refl 0) (show 0 ≤ i - k by omega) (show i - k ≤ a.length by omega)
  omega

/-- It makes no difference where the search ends among elements that are not greater. -/
theorem shiftGreater_from (h0 : 0 ≤ left) (hleft : left ≤ j + 1) (hj : j < b.length)
    (hle : ∀ p, 0 ≤ p → p < left → get b p ≤ key) : shiftGreater left key j b = shiftGreater 0 key j b := by
  induction hn : (j + 1 - left).toNat generalizing j b with
  | zero =>
    obtain rfl : left = j + 1 := by omega
    rw [shiftGreater, if_neg (by omega), shiftGreater]
    split
    · have hin : Inside b j := ⟨by omega, hj⟩
      simp only [load_eq hin, Option.bind_eq_bind, Option.bind_some, if_neg (Int.not_lt.mpr (hle j hin.1 (by omega)))]
    · rfl
  | succ m ih =>
    have hin : Inside b j := ⟨by omega, hj⟩
    rw [shiftGreater, if_pos (by omega), shiftGreater, if_pos (by omega)]
    simp only [load_eq hin, Option.bind_eq_bind, Option.bind_some]
    split
    · rcases Int.lt_or_le (j + 1) b.length with hlt | hge
      · have hin' : Inside b (j + 1) := ⟨by omega, hlt⟩
        rw [store_eq hin', Option.bind_some, Option.bind_some]
        refine ih (by omega) (by rw [length_put]; omega) (fun p hp hp' => ?_) (by omega)
        rw [get_put_ne hin' (by omega)]
        exact hle p hp hp'
      · rw [store, if_neg (by omega)]
        rfl
    · rfl

/-- The first pass alone sorts such an array. -/
theorem kWayInsertionSort_sorts (hk : 0 < k) (hn : 1 ≤ a.length) (h : Nearly k a) :
    Ends (kWayInsertionSort a a.length k) (Sorts a) := by
  refine (forUp_rule (fun i b => Rearranged 0 i a b ∧ SortedOn b 0 i) (by omega)
    ⟨.refl _ _ a, sortedOn_of_le (by decide)⟩ ?_).mono fun b ⟨hb, hs⟩ => hb.sorts (by rwa [hb.length])
  rintro i b hi hi' ⟨hb, hs⟩
  have hlen := hb.length
  have hin : Inside b i := ⟨by omega, by omega⟩
  have hkey : get b i = get a i := hb.kept i (Or.inr (Int.le_refl i))
  obtain ⟨hstart, hstart'⟩ := start_le hk hi
  rw [load_eq hin, Option.bind_eq_bind, Option.bind_some]
  simp only
  rw [shiftGreater_from hstart hstart' (by omega) fun p hp hp' => by
    rw [hkey]
    exact h.le hk hb hs hi' hp (by split at hp' <;> omega)]
  refine (shiftGreater_hole (hole_first (Int.le_refl 0) (by omega) hin.2 hs) (Int.le_refl 0) (by omega) (by omega)
    hin.2).bind ?_
  rintro ⟨c, j⟩ ⟨hhole, hleft, hj, hle⟩
  have hlenc : c.length = b.length := hhole.length
  simp only at hleft hj hle
  have hin' : Inside c (j + 1) := ⟨by omega, by omega⟩
  obtain ⟨hc, hs'⟩ := hhole.fill (Int.le_refl 0) hleft hj hin.2 hle
  simp only [store_eq hin']
  exact .some ⟨(hb.mono (Int.le_refl 0) (by omega)).trans hc, hs'⟩

/-- Whatever `k` is, the array gets sorted, unless `k` is not positive: then it stays. When no element is more than `k`
    cells behind a greater one, the first pass is enough. -/
theorem ksort_sorts (arr : List Int) (k : Int) :
    Ends (ksort arr arr.length k) (fun b => if 0 < k then Sorts arr b else b = arr) ∧
      (0 < k → 1 ≤ arr.length → Nearly k arr → Ends (kWayInsertionSort arr arr.length k) (Sorts arr)) := by
  refine ⟨?_, kWayInsertionSort_sorts⟩
  have hsimple : ∀ b : List Int, b.Perm arr → Ends (simpleInsertionSort b arr.length) (Sorts arr) := fun b hb => by
    rw [← hb.length_eq, simpleInsertionSort_eq]
    exact (insertionSort_all b).mono fun c hc => ⟨hc.sorted, hc.perm.trans hb⟩
  rw [ksort]
  by_cases hk : 0 < k
  · simp only [if_pos hk]
    split
    · exact .some (sorts_of_length_le (by omega))
    · split
      · exact hsimple arr (.refl arr)
      · exact (kWayInsertionSort_perm hk (by omega)).bind hsimple
  · rw [if_pos (Or.inr (by omega))]
    exact .some (by rw [if_neg hk])

theorem ksort_sorts_three : Ends (kWayInsertionSort [2, 1, 3] ([2, 1, 3] : List Int).length 1) (Sorts [2, 1, 3]) := by
  refine (ksort_sorts [2, 1, 3] 1).2 (by decide) (by decide) fun m i hm hmi hi => ?_
  simp only [List.length_cons, List.length_nil] at hi
  obtain ⟨rfl, rfl⟩ : m = 0 ∧ i = 2 := by omega
  decide

end KSort

end Minitalk.Libft.Sort
