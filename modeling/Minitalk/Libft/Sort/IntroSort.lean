import Mathlib.Data.Int.Order.Basic
import Minitalk.Lib.HeapOrder
import Minitalk.Libft.Sort.InsertionSort

/-! # Introsort (`intro_sort`)

A pointer into the array is the index of its cell, so `arr + low` is `low`. In a heap of 2^30 elements or more, a
node's children may have no `int` as their index. -/

namespace Minitalk.Libft.Sort
open CArray CInt HeapOrder Program

def partition (arr : List Int) (low high : Int) : Option (List Int × Int) := do
  let pivot ← load arr high
  let (arr, i) ← forUp low high (fun j (arr, i) => do
    if (← load arr j) < pivot then some (← swap arr (i + 1) j, i + 1) else some (arr, i)) (arr, low - 1)
  some (← swap arr (i + 1) high, i + 1)

/-- `if (c < n && arr[c] > arr[largest]) largest = c` -/
def compareChild (base n : Int) (arr : List Int) (c largest : Int) : Option Int := do
  if c < n then
    if (← load arr (base + largest)) < (← load arr (base + c)) then some c else some largest
  else some largest

def heapify (base n : Int) : Nat → Int → List Int → Option (List Int)
  | 0, _, _ => none
  | fuel + 1, i, arr => do
    let l := wrap (2 * i + 1)
    let r := wrap (2 * i + 2)
    let largest ← compareChild base n arr l i
    let largest ← compareChild base n arr r largest
    if largest ≠ i then heapify base n fuel largest (← swap arr (base + i) (base + largest)) else some arr

def heapSortIntro (fuel : Nat) (base n : Int) (arr : List Int) : Option (List Int) := do
  let arr ← forDown (n / 2 - 1) (-1) (heapify base n fuel) arr
  forDown (n - 1) 0 (fun i arr => do heapify base i fuel 0 (← swap arr base (base + i))) arr

def introSortRec (fuel : Nat) (depthLimit : Nat) (low high : Int) (arr : List Int) : Option (List Int) :=
  if high - low < 16 then insertionSort arr low high
  else
    match depthLimit with
    | 0 => heapSortIntro fuel low (high - low + 1) arr
    | depthLimit + 1 => do
      let (arr, p) ← partition arr low high
      let arr ← introSortRec fuel depthLimit low (p - 1) arr
      introSortRec fuel depthLimit (p + 1) high arr

/-! ### The partition -/

section Partition
variable {low high i j : Int} {a b : List Int}

/-- The cells before `j` that are smaller than the pivot are those up to `i`. -/
structure Split (low high : Int) (a : List Int) (j : Int) (s : List Int × Int) : Prop where
  rearranged : Rearranged low high a s.1
  range : low - 1 ≤ s.2 ∧ s.2 < j
  smaller : ∀ k, low ≤ k → k ≤ s.2 → get s.1 k < get a high
  others : ∀ k, s.2 < k → k < j → get a high ≤ get s.1 k

theorem Split.step {s : List Int × Int} (h : Split low high a j s) (h0 : 0 ≤ low) (hj : low ≤ j) (hlt : j < high)
    (hlen : high < a.length) :
    if get s.1 j < get a high then Split low high a (j + 1) (exchange s.1 (s.2 + 1) j, s.2 + 1)
    else Split low high a (j + 1) s := by
  obtain ⟨hr, hrange, hsmaller, hothers⟩ := h
  have hlen' := hr.length
  split
  · rename_i hless
    have hin : Inside s.1 (s.2 + 1) := ⟨by omega, by omega⟩
    have hin' : Inside s.1 j := ⟨by omega, by omega⟩
    refine ⟨hr.trans (.exchange hin hin' (by omega) (by omega)), ⟨by omega, by omega⟩, fun k hk hk' => ?_,
      fun k hk hk' => ?_⟩
    · simp only at hk'
      simp only [get_exchange hin hin']
      split
      · rename_i heq
        by_cases hfirst : s.2 + 1 = j
        · rwa [hfirst]
        · omega
      · split
        · exact hless
        · exact hsmaller k hk (by omega)
    · simp only at hk
      simp only [get_exchange hin hin']
      split
      · exact hothers (s.2 + 1) (by omega) (by omega)
      · rw [if_neg (by omega)]
        exact hothers k (by omega) (by omega)
  · rename_i hnot
    refine ⟨hr, ⟨hrange.1, by omega⟩, hsmaller, fun k hk hk' => ?_⟩
    rcases Int.lt_or_eq_of_le (Int.le_of_lt_add_one hk') with hlt | rfl
    · exact hothers k hk hlt
    · exact Int.not_lt.mp hnot

/-- Smaller elements than the one at `p` are before it, and no smaller ones behind it. -/
structure Partitioned (low high : Int) (a b : List Int) (p : Int) : Prop where
  rearranged : Rearranged low (high + 1) a b
  range : low ≤ p ∧ p ≤ high
  smaller : ∀ k, low ≤ k → k < p → get b k < get b p
  others : ∀ k, p < k → k ≤ high → get b p ≤ get b k

/-- The pivot, which is still in the last cell, goes between the two parts. -/
theorem Split.partitioned {i : Int} (h : Split low high a high (b, i)) (h0 : 0 ≤ low) (hlen : high < a.length) :
    Partitioned low high a (exchange b (i + 1) high) (i + 1) := by
  obtain ⟨hr, hrange, hsmaller, hothers⟩ := h
  have hlen' := hr.length
  simp only at hlen' hrange hsmaller hothers
  have hini : Inside b (i + 1) := ⟨by omega, by omega⟩
  have hinh : Inside b high := ⟨by omega, by omega⟩
  have hpivot : get b high = get a high := hr.kept high (by omega)
  have hget : ∀ k, get (exchange b (i + 1) high) k =
      if k = high then get b (i + 1) else if k = i + 1 then get a high else get b k := fun k => by
    rw [get_exchange hini hinh, hpivot]
  have hp : get (exchange b (i + 1) high) (i + 1) = get a high := by
    rw [hget]
    split
    · rename_i heq
      rw [heq, hpivot]
    · exact if_pos rfl
  have hswap : Rearranged low (high + 1) b (exchange b (i + 1) high) := .exchange hini hinh (by omega) (by omega)
  refine ⟨(hr.mono (Int.le_refl low) (by omega)).trans hswap, by omega, fun k hk hk' => ?_, fun k hk hk' => ?_⟩
  · rw [hp, hget, if_neg (by omega), if_neg (by omega)]
    exact hsmaller k hk (by omega)
  · rw [hp, hget]
    split
    · exact hothers (i + 1) (by omega) (by omega)
    · rw [if_neg (by omega)]
      exact hothers k (by omega) (by omega)

theorem partition_ends (h0 : 0 ≤ low) (hle : low ≤ high) (hlen : high < a.length) :
    Ends (partition a low high) fun s => Partitioned low high a s.1 s.2 := by
  have hin : Inside a high := ⟨by omega, hlen⟩
  rw [partition, load_eq hin, Option.bind_eq_bind, Option.bind_some]
  refine (forUp_rule (Split low high a) hle ⟨.refl _ _ a, ⟨by simp only; omega, by simp only; omega⟩,
    fun k hk hk' => by simp only at hk'; omega, fun k hk hk' => by simp only at hk; omega⟩ ?_).bind ?_
  · rintro j ⟨b, i⟩ hj hlt hsplit
    have hlen' := hsplit.rearranged.length
    have hrange := hsplit.range
    simp only at hlen' hrange
    have hstep := hsplit.step h0 hj hlt hlen
    have hinj : Inside b j := ⟨by omega, by omega⟩
    have hini : Inside b (i + 1) := ⟨by omega, by omega⟩
    simp only [load_eq hinj, Option.bind_eq_bind, Option.bind_some, swap_eq hini hinj]
    split
    · rename_i hless
      rw [if_pos hless] at hstep
      exact .some hstep
    · rename_i hless
      rw [if_neg hless] at hstep
      exact .some hstep
  · rintro ⟨b, i⟩ hsplit
    have hlen' := hsplit.rearranged.length
    have hrange := hsplit.range
    simp only at hlen' hrange
    have hini : Inside b (i + 1) := ⟨by omega, by omega⟩
    have hinh : Inside b high := ⟨by omega, by omega⟩
    simp only [swap_eq hini hinh, Option.bind_eq_bind, Option.bind_some]
    exact .some (hsplit.partitioned h0 hlen)

end Partition

/-! ### The heap -/

/-- The first node whose children are not all numbered by an `int`. -/
def LAST_NODE : Int := 2 ^ 30 - 1

/-- The heap that the first loop builds. -/
def built (base n : Int) (a : List Int) : List Int := stepsDown (sift base n) (n / 2).toNat (n / 2 - 1) a

/-- The root goes behind the heap. -/
def extractRoot (base i : Int) (a : List Int) : List Int := sift base i 0 (exchange a base (base + i))

/-- A sift of the first loop gets too far down. -/
def BuildOverflows (base n : Int) (a : List Int) : Prop :=
  AnyDown (fun i a => Reaches base n LAST_NODE i a) (sift base n) (n / 2).toNat (n / 2 - 1) a

/-- A sift of the second loop does. -/
def ExtractOverflows (base n : Int) (a : List Int) : Prop :=
  AnyDown (fun i a => Reaches base i LAST_NODE 0 (exchange a base (base + i))) (extractRoot base) (n - 1).toNat
    (n - 1) a

def HeapOverflows (base n : Int) (a : List Int) : Prop :=
  BuildOverflows base n a ∨ ExtractOverflows base n (built base n a)

section Heap
variable {base n i : Int} {a b : List Int} {fuel : Nat}

theorem compareChild_eq {c largest : Int} (hc : c < n → Inside a (base + c)) (hl : Inside a (base + largest)) :
    compareChild base n a c largest = some (HeapOrder.larger base n a c largest) := by
  unfold compareChild HeapOrder.larger
  split
  · rename_i hlt
    simp only [load_eq hl, load_eq (hc hlt), Option.bind_eq_bind, Option.bind_some]
    by_cases hless : get a (base + largest) < get a (base + c)
    · rw [if_pos hless, if_pos ⟨hlt, hless⟩]
    · rw [if_neg hless, if_neg fun hand => hless hand.2]
  · rename_i hlt
    rw [if_neg fun hand => hlt hand.1]

/-- Where the children have an `int` as their index, one call goes one step down. -/
theorem heapify_step (h0 : 0 ≤ base) (hlen : base + n ≤ a.length) (hi : 0 ≤ i) (hin : i < n) (hint : i < LAST_NODE) :
    heapify base n (fuel + 1) i a = if largestOf base n a i ≠ i then
      heapify base n fuel (largestOf base n a i) (exchange a (base + i) (base + largestOf base n a i)) else some a := by
  rw [LAST_NODE] at hint
  have hini : Inside a (base + i) := ⟨by omega, by omega⟩
  have hchild : ∀ c, 0 ≤ c → c < n → Inside a (base + c) := fun c hc hcn => ⟨by omega, by omega⟩
  have hlarger := (larger_cases base n a (2 * i + 1) i).2.2
  rw [heapify, wrap_of_fits ⟨by omega, by omega⟩, wrap_of_fits ⟨by omega, by omega⟩,
    compareChild_eq (hchild (2 * i + 1) (by omega)) hini, Option.bind_eq_bind, Option.bind_some,
    compareChild_eq (hchild (2 * i + 2) (by omega)) (hchild _ (by omega) (by omega)), Option.bind_eq_bind,
    Option.bind_some, ← largestOf]
  by_cases hne : largestOf base n a i ≠ i
  · have hc := largestOf_child hne
    rw [if_pos hne, if_pos hne, swap_eq hini (hchild _ (by omega) hc.1)]
    rfl
  · rw [if_neg hne, if_neg hne]

/-- Beyond, an index is negative. -/
theorem heapify_outside (h0 : 0 ≤ base) (hlen : base + n ≤ a.length) (hint : a.length < 2 ^ 31) (hi : LAST_NODE ≤ i)
    (hin : i < n) : heapify base n fuel i a = none := by
  rw [LAST_NODE] at hi
  cases fuel with
  | zero => rfl
  | succ fuel =>
    have hini : Inside a (base + i) := ⟨by omega, by omega⟩
    have hr : wrap (2 * i + 2) = 2 * i + 2 - 2 ^ 32 := wrap_of_above (by omega) (by omega)
    have hright : ∀ m, Inside a (base + m) → compareChild base n a (2 * i + 2 - 2 ^ 32) m = none := fun m hm => by
      rw [compareChild, if_pos (by omega), load_eq hm, load_of_lt (by omega)]
      rfl
    rw [heapify, hr]
    rcases Int.lt_or_eq_of_le hi with hlt | heq
    · rw [wrap_of_above (by omega) (by omega), compareChild, if_pos (by omega), load_eq hini, load_of_lt (by omega)]
      rfl
    · rw [wrap_of_fits ⟨by omega, by omega⟩, compareChild, if_neg (by omega), Option.bind_eq_bind, Option.bind_some,
        hright i hini]
      rfl

theorem heapify_reaches (h : Reaches base n LAST_NODE i a) (h0 : 0 ≤ base) (hlen : base + n ≤ a.length)
    (hint : a.length < 2 ^ 31) (hi : 0 ≤ i) (hin : i < n) : heapify base n fuel i a = none := by
  induction h generalizing fuel with
  | here hle => exact heapify_outside h0 hlen hint hle hin
  | @deeper i a hne _ ih =>
    have hchild := largestOf_child hne
    cases fuel with
    | zero => rfl
    | succ fuel =>
      rcases Int.lt_or_le i LAST_NODE with hlt | hle
      · rw [heapify_step h0 hlen hi hin hlt, if_pos hne]
        exact ih (by rwa [length_exchange]) (by rwa [length_exchange]) (by omega) hchild.1
      · exact heapify_outside h0 hlen hint hle hin

theorem heapify_sift (h : ¬Reaches base n LAST_NODE i a) (h0 : 0 ≤ base) (hlen : base + n ≤ a.length)
    (hi : 0 ≤ i) (hin : i < n) (hfuel : (n - i).toNat < fuel) : heapify base n fuel i a = some (sift base n i a) := by
  induction fuel generalizing i a with
  | zero => omega
  | succ fuel ih =>
    have hlt : i < LAST_NODE := Int.not_le.mp fun hle => h (.here hle)
    rw [heapify_step h0 hlen hi hin hlt, sift]
    by_cases hne : largestOf base n a i ≠ i
    · have hchild := largestOf_child hne
      rw [if_pos hne, if_pos ⟨hi, hne⟩]
      exact ih (fun hr => h (.deeper hne hr)) (by rwa [length_exchange]) (by omega) hchild.1 (by omega)
    · rw [if_neg hne, if_neg fun hand => hne hand.2]

/-- The first `i + 1` nodes are a heap, and the cells behind it are in order and not smaller. -/
structure Extracted (base n : Int) (a : List Int) (i : Int) (b : List Int) : Prop where
  rearranged : Rearranged base (base + n) a b
  heap : HeapFrom base (i + 1) 0 b
  sorted : SortedOn b (base + i + 1) (base + n)
  greater : ∀ k k', 0 ≤ k → k ≤ i → i < k' → k' < n → get b (base + k) ≤ get b (base + k')

theorem Extracted.step (h : Extracted base n a i b) (h0 : 0 ≤ base) (hlen : base + n ≤ a.length) (hi : 0 < i)
    (hin : i < n) : Extracted base n a (i - 1) (extractRoot base i b) := by
  unfold extractRoot
  obtain ⟨hr, hheap, hsorted, hgreater⟩ := h
  have hlen' := hr.length
  have hroot : Inside b base := ⟨h0, by omega⟩
  have hlast : Inside b (base + i) := ⟨by omega, by omega⟩
  have hswap : Rearranged base (base + n) b (exchange b base (base + i)) := .exchange hroot hlast (by omega) (by omega)
  have hsift : Rearranged base (base + i) (exchange b base (base + i)) (sift base i 0 (exchange b base (base + i))) :=
    sift_rearranged h0 (by rw [length_exchange]; omega) (Int.le_refl 0) hi
  have hmax : ∀ m, 0 ≤ m → m < i → get (exchange b base (base + i)) (base + m) ≤ get b base := fun m hm hmi => by
    rw [get_exchange hroot hlast, if_neg (by omega)]
    split
    · exact hheap.le_root (Int.le_of_lt hi) (by omega)
    · exact hheap.le_root hm (by omega)
  -- what is behind the heap now
  have htail : ∀ k, i ≤ k → get (sift base i 0 (exchange b base (base + i))) (base + k) =
      if k = i then get b base else get b (base + k) := fun k hk => by
    rw [hsift.kept (base + k) (by omega), get_exchange hroot hlast]
    by_cases hki : k = i
    · rw [if_pos (by omega), if_pos hki]
    · rw [if_neg (by omega), if_neg hki, if_neg (by omega)]
  have hlow : ∀ k, i ≤ k → k < n → get b base ≤ get (sift base i 0 (exchange b base (base + i))) (base + k) :=
    fun k hk hkn => by
      rw [htail k hk]
      split
      · exact Int.le_refl _
      · have hle := hgreater 0 k (Int.le_refl 0) (by omega) (by omega) hkn
        rwa [Int.add_zero] at hle
  refine ⟨hr.trans (hswap.trans (hsift.mono (Int.le_refl base) (by omega))), ?_, fun k k' hk hlt hk' => ?_,
    fun k k' hk hki hk' hkn => ?_⟩
  · rw [Int.sub_add_cancel]
    exact sift_heap (hheap.except_root h0 (by omega) hi) h0 (by rw [length_exchange]; omega) (Int.le_refl 0)
  · have hcell : k = base + (k - base) ∧ k' = base + (k' - base) := by omega
    by_cases hfirst : k = base + i
    · rw [hcell.2, hfirst, htail i (Int.le_refl i), if_pos rfl]
      exact hlow _ (by omega) (by omega)
    · rw [hcell.1, hcell.2, htail _ (by omega), htail _ (by omega), if_neg (by omega), if_neg (by omega), ← hcell.1,
        ← hcell.2]
      exact hsorted k k' (by omega) hlt hk'
  · refine Int.le_trans ?_ (hlow k' (by omega) hkn)
    refine hsift.forall_range h0 (by rw [length_exchange]; omega) (P := (· ≤ get b base)) (fun j hj hji => ?_)
      (base + k) (by omega) (by omega)
    have hle := hmax (j - base) (by omega) (by omega)
    have hcell : base + (j - base) = j := by omega
    rwa [hcell] at hle

theorem build_cases (h0 : 0 ≤ base) (hn : 0 < n) (hlen : base + n ≤ a.length) (hint : a.length < 2 ^ 31)
    (hfuel : n.toNat < fuel) :
    (BuildOverflows base n a ∧
        turnsDown (heapify base n fuel) (n / 2).toNat (n / 2 - 1) a = none) ∨
      (¬BuildOverflows base n a ∧
        turnsDown (heapify base n fuel) (n / 2).toNat (n / 2 - 1) a = some (built base n a) ∧
        Rearranged base (base + n) a (built base n a) ∧ HeapFrom base n (-1 + 1) (built base n a)) := by
  refine turnsDown_cases (I := fun i b => Rearranged base (base + n) a b ∧ HeapFrom base n (i + 1) b) (by omega)
    ⟨.refl _ _ a, fun c hc hcn hle => by omega⟩ ?_ ?_
  · rintro i b hi hin ⟨hb, -⟩ hbad
    exact heapify_reaches hbad h0 (by rw [hb.length]; omega) (by rw [hb.length]; omega) (by omega) (by omega)
  · rintro i b hi hin ⟨hb, hheap⟩ hgood
    have hlen' : base + n ≤ b.length := by rw [hb.length]; omega
    refine ⟨heapify_sift hgood h0 hlen' (by omega) (by omega) (by omega),
      hb.trans (sift_rearranged h0 hlen' (by omega) (by omega)), ?_⟩
    rw [Int.sub_add_cancel]
    exact sift_heap hheap.except h0 hlen' (by omega)

theorem extract_cases (h0 : 0 ≤ base) (hn : 0 < n) (hlen : base + n ≤ a.length) (hint : a.length < 2 ^ 31)
    (hfuel : n.toNat < fuel) (h : Extracted base n a (n - 1) b) :
    (ExtractOverflows base n b ∧
        turnsDown (fun i arr => do heapify base i fuel 0 (← swap arr base (base + i))) (n - 1).toNat (n - 1) b = none) ∨
      (¬ExtractOverflows base n b ∧
        turnsDown (fun i arr => do heapify base i fuel 0 (← swap arr base (base + i))) (n - 1).toNat (n - 1) b =
          some (stepsDown (extractRoot base) (n - 1).toNat (n - 1) b) ∧
        Extracted base n a 0 (stepsDown (extractRoot base) (n - 1).toNat (n - 1) b)) := by
  have hbody : ∀ i c, 0 < i → i ≤ n - 1 → Extracted base n a i c →
      (do heapify base i fuel 0 (← swap c base (base + i))) = heapify base i fuel 0 (exchange c base (base + i)) :=
    fun i c hi hin hc => by
      have hlen' := hc.rearranged.length
      rw [swap_eq ⟨h0, by omega⟩ ⟨by omega, by omega⟩, Option.bind_eq_bind, Option.bind_some]
  have hroom : ∀ i c, i ≤ n - 1 → Extracted base n a i c → base + i ≤ (exchange c base (base + i)).length :=
    fun i c hin hc => by
      rw [length_exchange, hc.rearranged.length]
      omega
  refine turnsDown_cases (by omega) h ?_ ?_
  · intro i c hi hin hc hbad
    rw [hbody i c hi hin hc]
    exact heapify_reaches hbad h0 (hroom i c hin hc) (by rw [length_exchange, hc.rearranged.length]; omega)
      (Int.le_refl 0) hi
  · intro i c hi hin hc hgood
    rw [hbody i c hi hin hc]
    exact ⟨heapify_sift hgood h0 (hroom i c hin hc) (Int.le_refl 0) hi (by omega), hc.step h0 hlen hi (by omega)⟩

/-- The heap sort has no result exactly when a sift gets too far down, and otherwise it sorts. -/
theorem heapSortIntro_cases (h0 : 0 ≤ base) (hn : 0 < n) (hlen : base + n ≤ a.length) (hint : a.length < 2 ^ 31)
    (hfuel : n.toNat < fuel) :
    (HeapOverflows base n a ∧ heapSortIntro fuel base n a = none) ∨
      (¬HeapOverflows base n a ∧
        Ends (heapSortIntro fuel base n a) fun b => Rearranged base (base + n) a b ∧ SortedOn b base (base + n)) := by
  have hturns : (n / 2 - 1 - -1).toNat = (n / 2).toNat := by omega
  rw [heapSortIntro, forDown, hturns]
  rcases build_cases h0 hn hlen hint hfuel with ⟨hany, hnone⟩ | ⟨hany, hsome, hb, hheap⟩
  · rw [hnone]
    exact Or.inl ⟨Or.inl hany, rfl⟩
  · rw [hsome, Option.bind_eq_bind, Option.bind_some, forDown, Int.sub_zero]
    have hstart : Extracted base n a (n - 1) (built base n a) :=
      ⟨hb, by rwa [Int.sub_add_cancel], sortedOn_of_le (by omega), fun k k' _ _ hk hk' => by omega⟩
    rcases extract_cases h0 hn hlen hint hfuel hstart with ⟨hany', hnone⟩ | ⟨hany', hsome', hend⟩
    · exact Or.inl ⟨Or.inr hany', hnone⟩
    · refine Or.inr ⟨fun hor => hor.elim hany hany', _, hsome', hend.rearranged, fun k k' hk hlt hk' => ?_⟩
      by_cases hfirst : k = base
      · have hle := hend.greater 0 (k' - base) (Int.le_refl 0) (Int.le_refl 0) (by omega) (by omega)
        have hcell : base + (k' - base) = k' := by omega
        rw [Int.add_zero, hcell] at hle
        rwa [hfirst]
      · exact hend.sorted k k' (by omega) hlt hk'

end Heap

/-! ### The recursion -/

/-- An index of the run overflows: the first one of an insertion sort, or one in a heap sort. After a partition, it
    may be in the part before the pivot, or in the part behind it, once the part before it is sorted. -/
def Overflows : Nat → Int → Int → List Int → Prop
  | depthLimit, low, high, a =>
    if high - low < 16 then low = 2 ^ 31 - 1
    else
      match depthLimit with
      | 0 => HeapOverflows low (high - low + 1) a
      | depthLimit + 1 => ∃ b p, partition a low high = some (b, p) ∧
          (Overflows depthLimit low (p - 1) b ∨
            ∃ c, Rearranged low p b c ∧ SortedOn c low p ∧ Overflows depthLimit (p + 1) high c)

section Recursion
variable {low high p : Int} {a b c d : List Int} {fuel depthLimit : Nat}

/-- Three sorted stretches around the pivot. -/
theorem Partitioned.sorted (h : Partitioned low high a b p) (h0 : 0 ≤ low) (hlen : high < a.length)
    (hc : Rearranged low p b c) (hcs : SortedOn c low p) (hd : Rearranged (p + 1) (high + 1) c d)
    (hds : SortedOn d (p + 1) (high + 1)) :
    Rearranged low (high + 1) a d ∧ SortedOn d low (high + 1) := by
  obtain ⟨hb, ⟨hlow, hhigh⟩, hsmaller, hothers⟩ := h
  have hlenb := hb.length
  have hlenc := hc.length
  refine ⟨hb.trans ((hc.mono (Int.le_refl low) (by omega)).trans (hd.mono (by omega) (Int.le_refl _))), ?_⟩
  have hpivot : get d p = get b p := (hd.kept p (by omega)).trans (hc.kept p (by omega))
  have hfront : ∀ k, low ≤ k → k < p → get d k ≤ get b p := fun k hk hkp => by
    rw [hd.kept k (by omega)]
    exact hc.forall_range h0 (by omega) (P := (· ≤ get b p)) (fun j hj hjp => Int.le_of_lt (hsmaller j hj hjp)) k hk hkp
  have hback : ∀ k, p + 1 ≤ k → k < high + 1 → get b p ≤ get d k := by
    refine hd.forall_range (by omega) (by omega) (P := (get b p ≤ ·)) fun j hj hjh => ?_
    rw [hc.kept j (by omega)]
    exact hothers j (by omega) (by omega)
  intro k k' hk hlt hk'
  rcases Int.lt_trichotomy k' p with hless | rfl | hgreater
  · rw [hd.kept k (by omega), hd.kept k' (by omega)]
    exact hcs k k' hk hlt hless
  · rw [hpivot]
    exact hfront k hk hlt
  · rcases Int.lt_trichotomy k p with hless | rfl | hgreater'
    · exact Int.le_trans (hfront k hk hless) (hback k' (by omega) hk')
    · rw [hpivot]
      exact hback k' (by omega) hk'
    · exact hds k k' (by omega) hlt hk'

theorem insertion_cases (h0 : 0 ≤ low) (hle : low ≤ high + 1) (hlen : high < a.length) (hint : a.length < 2 ^ 31) :
    (low = 2 ^ 31 - 1 ∧ insertionSort a low high = none) ∨
      (¬low = 2 ^ 31 - 1 ∧ Ends (insertionSort a low high) fun b =>
        Rearranged low (high + 1) a b ∧ SortedOn b low (high + 1)) := by
  by_cases hlow : low = 2 ^ 31 - 1
  · exact Or.inl ⟨hlow, insertionSort_outside hlow (by omega)⟩
  · exact Or.inr ⟨hlow, insertionSort_sorts h0 (by omega) hlen⟩

/-- The run has no result exactly when an index overflows, and otherwise it sorts. -/
theorem introSortRec_cases (h0 : 0 ≤ low) (hle : low ≤ high + 1) (hlen : high < a.length) (hint : a.length < 2 ^ 31)
    (hfuel : a.length < fuel) :
    (Overflows depthLimit low high a ∧ introSortRec fuel depthLimit low high a = none) ∨
      (¬Overflows depthLimit low high a ∧ Ends (introSortRec fuel depthLimit low high a) fun b =>
        Rearranged low (high + 1) a b ∧ SortedOn b low (high + 1)) := by
  induction depthLimit generalizing low high a with
  | zero =>
    unfold introSortRec Overflows
    split
    · exact insertion_cases h0 hle hlen hint
    · have hend : low + (high - low + 1) = high + 1 := by omega
      have hroom : (high - low + 1).toNat < fuel := by omega
      have hcases := heapSortIntro_cases (a := a) h0 (by omega) (by omega) hint hroom
      rwa [hend] at hcases
  | succ depthLimit ih =>
    unfold introSortRec Overflows
    split
    · exact insertion_cases h0 hle hlen hint
    · obtain ⟨⟨b, p⟩, hpart, hb⟩ := partition_ends h0 (by omega) hlen
      obtain ⟨hlow, hhigh⟩ := hb.range
      have hlenb := hb.rearranged.length
      simp only at hlow hhigh hlenb
      dsimp only
      rw [hpart, Option.bind_eq_bind, Option.bind_some]
      rcases ih h0 (show low ≤ p - 1 + 1 by omega) (show p - 1 < b.length by omega) (by omega) (by omega) with
        ⟨hover, hnone⟩ | ⟨hleft, c, hsome, hc, hcs⟩
      · simp only [hnone]
        exact Or.inl ⟨⟨b, p, rfl, Or.inl hover⟩, rfl⟩
      · rw [Int.sub_add_cancel] at hc hcs
        have hlenc := hc.length
        simp only [hsome]
        rcases ih (by omega) (show p + 1 ≤ high + 1 by omega) (show high < c.length by omega) (by omega) (by omega) with
          ⟨hover, hnone⟩ | ⟨hright, hends⟩
        · exact Or.inl ⟨⟨b, p, rfl, Or.inr ⟨c, hc, hcs, hover⟩⟩, hnone⟩
        · refine Or.inr ⟨?_, hends.mono fun d ⟨hd, hds⟩ => hb.sorted h0 hlen hc hcs hd hds⟩
          rintro ⟨b', p', heq, hover⟩
          obtain ⟨rfl, rfl⟩ : b = b' ∧ p = p' := by simpa using heq
          rcases hover with hover | ⟨c', hc', hcs', hover⟩
          · exact hleft hover
          · -- the part before the pivot is sorted in one way only
            obtain rfl := hc.sorted_unique hc' h0 hlow (by omega) hcs hcs'
            exact hright hover

theorem HeapOverflows.le {base n : Int} (h : HeapOverflows base n a) (hn : 0 < n) : 2 ^ 30 ≤ n := by
  rcases h with h | h
  · obtain ⟨i, b, -, hi, hreach⟩ := h.exists
    have hlt := hreach.lt (by omega)
    rw [LAST_NODE] at hlt
    omega
  · obtain ⟨i, b, hpos, hi, hreach⟩ := h.exists
    have hlt := hreach.lt (by omega)
    rw [LAST_NODE] at hlt
    omega

/-- A segment is one element shorter after each partition, and only the last cell of an array of `INT_MAX` elements has
    no cell behind it with an `int` as its index. -/
theorem Overflows.le (h : Overflows depthLimit low high a) (h0 : 0 ≤ low) (hle : low ≤ high + 1)
    (hlen : high < a.length) (hint : a.length < 2 ^ 31) :
    2 ^ 30 + (depthLimit : Int) ≤ high - low + 1 ∨ high = 2 ^ 31 - 2 := by
  induction depthLimit generalizing low high a with
  | zero =>
    unfold Overflows at h
    split at h
    · omega
    · have := HeapOverflows.le h (by omega)
      omega
  | succ depthLimit ih =>
    unfold Overflows at h
    split at h
    · omega
    · obtain ⟨b, p, hpart, hover⟩ := h
      obtain ⟨s, hs, hb⟩ := partition_ends h0 (by omega) hlen
      obtain rfl : (b, p) = s := Option.some.inj (hpart.symm.trans hs)
      obtain ⟨hlow, hhigh⟩ := hb.range
      have hlenb := hb.rearranged.length
      simp only at hlow hhigh hlenb
      rcases hover with hover | ⟨c, hc, -, hover⟩
      · have := ih hover h0 (by omega) (by omega) (by omega)
        omega
      · have hlenc := hc.length
        have := ih hover (by omega) (by omega) (by omega) (by omega)
        omega

theorem no_result_of_overflows (hint : a.length < 2 ^ 31) (hover : Overflows depthLimit 0 (a.length - 1) a) :
    ¬Halts (fun fuel => introSortRec fuel depthLimit 0 (a.length - 1) a) (Sorts a) := by
  rintro ⟨enough, h⟩
  obtain ⟨b, hb, -⟩ := h (max enough (a.length + 1)) (Nat.le_max_left _ _)
  rcases introSortRec_cases (Int.le_refl 0) (by omega) (Int.sub_one_lt_iff.mpr (Int.le_refl _)) hint
    (Nat.le_max_right enough (a.length + 1)) with ⟨-, hnone⟩ | ⟨hno, -⟩
  · cases hnone.symm.trans hb
  · exact hno hover

theorem sorts_of_not_overflows (hint : a.length < 2 ^ 31) (hno : ¬Overflows depthLimit 0 (a.length - 1) a) :
    Halts (fun fuel => introSortRec fuel depthLimit 0 (a.length - 1) a) (Sorts a) := by
  refine ⟨a.length + 1, fun fuel hfuel => ?_⟩
  rcases introSortRec_cases (Int.le_refl 0) (by omega) (show (a.length : Int) - 1 < a.length by omega) hint hfuel with
    ⟨hover, -⟩ | ⟨-, hends⟩
  · exact absurd hover hno
  · refine hends.mono fun b ⟨hb, hs⟩ => hb.sorts ?_
    rwa [hb.length, ← Int.sub_add_cancel (a.length : Int) 1]

/-! ### Where an index overflows -/

/-- The last element stays when it is the greatest. -/
theorem partition_last (h0 : 0 ≤ low) (hle : low ≤ high) (hlen : high < a.length)
    (hlast : ∀ k, low ≤ k → k < high → get a k < get a high) : partition a low high = some (a, high) := by
  have hin : Inside a high := ⟨by omega, hlen⟩
  have hends : Ends (partition a low high) fun s => s = (a, high) := by
    rw [partition, load_eq hin, Option.bind_eq_bind, Option.bind_some]
    refine (forUp_rule (fun j s => s = (a, j - 1)) hle rfl ?_).bind ?_
    · rintro j s hj hlt rfl
      have hinj : Inside a j := ⟨by omega, by omega⟩
      simp only [load_eq hinj, Option.bind_eq_bind, Option.bind_some, if_pos (hlast j hj hlt), Int.sub_add_cancel,
        swap_eq hinj hinj, exchange_self hinj, Int.add_sub_cancel]
      exact .some rfl
    · rintro s rfl
      simp only [Int.sub_add_cancel, swap_eq hin hin, exchange_self hin, Option.bind_eq_bind, Option.bind_some]
      exact .some rfl
  obtain ⟨s, hs, rfl⟩ := hends
  exact hs

/-- The sifts before the one of node 2^29 - 1 change nothing, and this one goes down to the last node with a child. -/
theorem heap_overflows {n : Int} (hn : 2 ^ 30 ≤ n)
    (hlate : ∀ c, 2 ^ 30 ≤ c → c < n → get a c ≤ get a ((c - 1) / 2))
    (hgreater : get a (2 ^ 29 - 1) < get a (2 ^ 30 - 1)) : HeapOverflows 0 n a := by
  refine Or.inl (AnyDown.of_stays (j := 2 ^ 29 - 1) ?_ (by omega) (by omega) fun i hi hin => ?_)
  · have hlast : LAST_NODE = 2 * (2 ^ 29 - 1) + 1 := by rw [LAST_NODE]; omega
    rw [hlast]
    refine .of_child (c := 2 ^ 30 - 1) (by omega) (Or.inl (by omega)) ?_
    rwa [Int.zero_add, Int.zero_add]
  · refine sift_of_le fun c hc hchild => ?_
    have hparent : (c - 1) / 2 = i := by omega
    rw [Int.zero_add, Int.zero_add, ← hparent]
    exact hlate c (by omega) hc

/-- The greatest elements at the end are taken off one by one, and the heap sort gets the others. -/
theorem overflows_of_heap (hsize : 2 ^ 30 + (depthLimit : Int) ≤ high + 1) (hlen : high < a.length)
    (hrise : ∀ k i, 0 ≤ k → k < i → high - depthLimit < i → i ≤ high → get a k < get a i)
    (hover : HeapOverflows 0 (high - depthLimit + 1) a) : Overflows depthLimit 0 high a := by
  induction depthLimit generalizing high with
  | zero =>
    unfold Overflows
    rw [if_neg (by omega)]
    simpa only [Int.sub_zero, Int.natCast_zero] using hover
  | succ depthLimit ih =>
    unfold Overflows
    rw [if_neg (by omega)]
    have hpart : partition a 0 high = some (a, high) := partition_last (Int.le_refl 0) (by omega) hlen
      fun k hk hlt => hrise k high hk hlt (by omega) (Int.le_refl high)
    have hrest : high - 1 - (depthLimit : Int) = high - (depthLimit + 1 : Nat) := by omega
    refine ⟨a, high, hpart, Or.inl (ih (by omega) (by omega) (fun k i hk hlt hi hle => ?_) (by rwa [hrest]))⟩
    exact hrise k i hk hlt (by omega) (by omega)

/-- Behind the last of `INT_MAX` cells, a segment without elements begins at `INT_MAX`. -/
theorem overflows_of_last (hlen : a.length = 2 ^ 31 - 1)
    (hlast : ∀ k, 0 ≤ k → k < 2 ^ 31 - 2 → get a k < get a (2 ^ 31 - 2)) :
    Overflows (depthLimit + 1) 0 (2 ^ 31 - 2) a := by
  have hpart : partition a 0 (2 ^ 31 - 2) = some (a, 2 ^ 31 - 2) :=
    partition_last (Int.le_refl 0) (by omega) (by omega) hlast
  unfold Overflows
  rw [if_neg (by omega)]
  have hhigh : (2 : Int) ^ 31 - 2 - 1 < a.length := by omega
  rcases introSortRec_cases (Int.le_refl 0) (by omega) hhigh (by omega) (Nat.lt_succ_self a.length) with
    ⟨hover, -⟩ | ⟨-, c, -, hc, hcs⟩
  · exact ⟨a, _, hpart, Or.inl hover⟩
  · refine ⟨a, _, hpart, Or.inr ⟨c, hc, hcs, ?_⟩⟩
    unfold Overflows
    rw [if_pos (by omega)]
    omega

end Recursion

/-- All elements are 0 but the one in cell 2^30 - 1, which is 1, and the last `d`, which are their indices. -/
def rising (n d : Nat) : List Int :=
  (List.range n).map fun i => if i + 1 = 2 ^ 30 then 1 else if n ≤ i + d then i else 0

theorem length_rising (n d : Nat) : (rising n d).length = n := by rw [rising, List.length_map, List.length_range]

theorem get_rising {n d : Nat} {i : Int} (h0 : 0 ≤ i) (hi : i < n) :
    get (rising n d) i = if i + 1 = 2 ^ 30 then 1 else if n ≤ i + d then i else 0 := by
  obtain ⟨k, rfl⟩ := Int.eq_ofNat_of_zero_le h0
  have hk : k < (List.range n).length := by rw [List.length_range]; omega
  rw [get_natCast, rising, List.getD_eq_getElem?_getD, List.getElem?_map, List.getElem?_eq_getElem hk,
    List.getElem_range]
  norm_cast

theorem rising_overflows {n d : Nat} (hint : n < 2 ^ 31) (h : ¬(n < 2 ^ 30 + d ∧ n ≠ 2 ^ 31 - 1)) :
    Overflows d 0 ((rising n d).length - 1) (rising n d) := by
  have hrise : ∀ k i : Int, 0 ≤ k → k < i → (n : Int) - 1 - d < i → i ≤ n - 1 → 2 ^ 30 ≤ i →
      get (rising n d) k < get (rising n d) i := fun k i hk hlt hlast hi hbig => by
    rw [get_rising hk (by omega), get_rising (by omega) (by omega), if_neg (show ¬i + 1 = 2 ^ 30 by omega),
      if_pos (show n ≤ i + d by omega)]
    split
    · omega
    · split <;> omega
  rw [length_rising]
  by_cases hsize : 2 ^ 30 + d ≤ n
  · refine overflows_of_heap (by omega) (by rw [length_rising]; omega)
      (fun k i hk hlt hlast hi => hrise k i hk hlt hlast hi (by omega))
      (heap_overflows (by omega) (fun c hc hcn => ?_) ?_)
    · rw [get_rising (by omega) (by omega), get_rising (by omega) (by omega), if_neg (by omega), if_neg (by omega)]
      split
      · omega
      · split <;> omega
    · rw [get_rising (by omega) (by omega), get_rising (by omega) (by omega), if_neg (by omega), if_neg (by omega),
        if_pos (by omega)]
      exact Int.zero_lt_one
  · obtain ⟨m, rfl⟩ : ∃ m, d = m + 1 := ⟨d - 1, by omega⟩
    have hlen : (rising n (m + 1)).length = 2 ^ 31 - 1 := by rw [length_rising]; omega
    have hhigh : (n : Int) - 1 = 2 ^ 31 - 2 := by omega
    rw [hhigh]
    exact overflows_of_last hlen fun k hk hlt => hrise k _ hk hlt (by omega) (by omega) (by omega)

/-- Every array of this size is sorted exactly when each heap sort gets less than 2^30 elements, and no segment begins
    behind the cell `INT_MAX - 1`. -/
theorem intro_sort_iff {n depthLimit : Nat} (hint : n < 2 ^ 31) :
    (∀ a : List Int, a.length = n → Halts (fun fuel => introSortRec fuel depthLimit 0 (a.length - 1) a) (Sorts a)) ↔
      n < 2 ^ 30 + depthLimit ∧ n ≠ 2 ^ 31 - 1 := by
  constructor
  · intro h
    by_contra hnot
    exact no_result_of_overflows (by rwa [length_rising]) (rising_overflows hint hnot)
      (h _ (length_rising n depthLimit))
  · rintro ⟨hsize, hmax⟩ a rfl
    refine sorts_of_not_overflows hint fun hover => ?_
    have := hover.le (Int.le_refl 0) (by omega) (by omega) hint
    omega

/-- Twenty elements go to the heap sort at once. -/
theorem intro_sort_iff_twenty :
    let a := [3, 1, 4, 1, 5, 9, 2, 6, 5, 3, 5, 8, 9, 7, 9, 3, 2, 3, 8, 4]
    Halts (fun fuel => introSortRec fuel 0 0 (a.length - 1) a) (Sorts a) :=
  (intro_sort_iff (show 20 < 2 ^ 31 by decide)).mpr ⟨by decide, by decide⟩ _ rfl

/-- With the depth limit 0, an array of 2^30 elements may be read far outside. -/
theorem intro_sort_outside : ¬∀ (a : List Int) (depthLimit : Nat), a.length < 2 ^ 31 →
    Halts (fun fuel => introSortRec fuel depthLimit 0 (a.length - 1) a) (Sorts a) := by
  intro h
  obtain ⟨n, hn⟩ : ∃ n : Nat, n = 2 ^ 30 := ⟨_, rfl⟩
  have hint : (rising n 0).length < 2 ^ 31 := by rw [length_rising]; omega
  exact no_result_of_overflows hint (rising_overflows (by omega) (by omega)) (h (rising n 0) 0 hint)

end Minitalk.Libft.Sort
