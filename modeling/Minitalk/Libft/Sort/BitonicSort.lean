import Mathlib.Data.Int.Order.Basic
import Minitalk.Lib.Bitonic
import Minitalk.Lib.CArray
import Minitalk.Lib.CInt

/-! # Bitonic sort (`bitonic_sort`)

A cell of the padded copy is not read before it is written; the `malloc` of the copy succeeds. -/

namespace Minitalk.Libft.Sort
open Bitonic CArray CInt Program

/-- `if ((dir && arr[i] > arr[j]) || (!dir && arr[i] < arr[j]))`: the elements are exchanged. -/
def compareDir (dir : Bool) (i j : Int) (arr : List Int) : Option (List Int) := do
  let x ← load arr i
  let y ← load arr j
  if dir ∧ x > y ∨ !dir ∧ x < y then swap arr i j else some arr

def bitonicMerge (low cnt : Int) (dir : Bool) (arr : List Int) : Option (List Int) :=
  if cnt > 1 then do
    let k := cnt / 2
    let arr ← forUp low (low + k) (fun i => compareDir dir i (i + k)) arr
    let arr ← bitonicMerge low k dir arr
    bitonicMerge (low + k) k dir arr
  else some arr
termination_by cnt.toNat

def bitonicSortRec (low cnt : Int) (dir : Bool) (arr : List Int) : Option (List Int) :=
  if cnt > 1 then do
    let k := cnt / 2
    let arr ← bitonicSortRec low k true arr
    let arr ← bitonicSortRec (low + k) k false arr
    bitonicMerge low cnt dir arr
  else some arr
termination_by cnt.toNat

def copyAndPadArray (arr : List Int) (padded : List (Option Int)) (size powerOf2 : Int) :
    Option (List (Option Int)) := do
  let padded ← forUp 0 size (fun i padded => do store padded i (some (← load arr i))) padded
  forUp 0 powerOf2 (fun i padded => store padded i (some 2147483647)) padded

def copyBackArray (arr padded : List Int) (size : Int) : Option (List Int) :=
  forUp 0 size (fun i arr => do store arr i (← load padded i)) arr

def bitonicSort (turns : Nat) (arr : List Int) (size : Int) : Option (List Int) :=
  if size ≤ 1 then some arr
  else do
    let powerOf2 ← whileLoop (fun p => some (decide (p < size))) (fun p => some (wrap (p * 2))) turns (1 : Int)
    if powerOf2 = size then bitonicSortRec 0 size true arr
    else do
      let padded ← copyAndPadArray arr (List.replicate powerOf2.toNat none) size powerOf2
      let padded ← bitonicSortRec 0 powerOf2 true (← written padded)
      copyBackArray arr padded size

/-! ### The network -/

/-- The order of two cells, the first of them before the second. -/
def InOrder (dir : Bool) (x y : Int) : Prop := if dir then x ≤ y else y ≤ x

/-- The cells from `lo` on that are before `hi` are in order, or in the reverse order. -/
def OrderedOn (dir : Bool) (a : List Int) (lo hi : Int) : Prop :=
  ∀ i j, lo ≤ i → i < j → j < hi → InOrder dir (get a i) (get a j)

/-- Each threshold cuts the cells into a bitonic sequence. -/
def BitonicOn (a : List Int) (lo cnt : Int) : Prop := ∀ v, IsBitonic cnt fun i => v ≤ get a (lo + i)

/-- What the first one of two cells becomes. -/
def firstOf (dir : Bool) (x y : Int) : Int := if dir then min x y else max x y

section Network
variable {dir : Bool} {low cnt k i j p q : Int} {a b c : List Int}

theorem compareDir_ends (hi : Inside a i) (hj : Inside a j) (hne : i ≠ j) :
    Ends (compareDir dir i j a) fun b => b.Perm a ∧ get b i = firstOf dir (get a i) (get a j) ∧
      get b j = firstOf (!dir) (get a i) (get a j) ∧ ∀ m, m ≠ i → m ≠ j → get b m = get a m := by
  simp only [compareDir, load_eq hi, load_eq hj, swap_eq hi hj, Option.bind_eq_bind, Option.bind_some]
  split
  · rename_i hswap
    refine .some ⟨exchange_perm hi hj, ?_, ?_, fun m hm hm' => ?_⟩
    · rw [get_exchange hi hj, if_neg hne, if_pos rfl]
      cases dir <;> simp [firstOf] at hswap ⊢ <;> omega
    · rw [get_exchange hi hj, if_pos rfl]
      cases dir <;> simp [firstOf] at hswap ⊢ <;> omega
    · rw [get_exchange hi hj, if_neg hm', if_neg hm]
  · rename_i hkeep
    refine .some ⟨.refl a, ?_, ?_, fun _ _ _ => rfl⟩
    · cases dir <;> simp [firstOf] at hkeep ⊢ <;> omega
    · cases dir <;> simp [firstOf] at hkeep ⊢ <;> omega

/-- The cells up to `m` were compared with those at the distance `k`. -/
structure Compared (dir : Bool) (low k m : Int) (a b : List Int) : Prop where
  rearranged : Rearranged low (low + k + k) a b
  done : ∀ i, low ≤ i → i < m → get b i = firstOf dir (get a i) (get a (i + k)) ∧
    get b (i + k) = firstOf (!dir) (get a i) (get a (i + k))
  rest : ∀ i, m ≤ i → i < low + k → get b i = get a i ∧ get b (i + k) = get a (i + k)

theorem Compared.step {m : Int} (h : Compared dir low k m a b) (h0 : 0 ≤ low) (hm : low ≤ m) (hlt : m < low + k)
    (hlen : low + k + k ≤ a.length) :
    Ends (compareDir dir m (m + k) b) (Compared dir low k (m + 1) a) := by
  have hlen' := h.rearranged.length
  refine (compareDir_ends ⟨by omega, by omega⟩ ⟨by omega, by omega⟩ (by omega)).mono ?_
  rintro c ⟨hperm, hfirst, hsecond, hothers⟩
  obtain ⟨hat, hat'⟩ := h.rest m (Int.le_refl m) hlt
  rw [hat, hat'] at hfirst hsecond
  refine ⟨h.rearranged.trans ⟨hperm, fun i hi => hothers i (by omega) (by omega)⟩, fun i hi hi' => ?_,
    fun i hi hi' => ?_⟩
  · rcases Int.lt_or_eq_of_le (show i ≤ m by omega) with hlt' | rfl
    · rw [hothers i (by omega) (by omega), hothers (i + k) (by omega) (by omega)]
      exact h.done i hi hlt'
    · exact ⟨hfirst, hsecond⟩
  · rw [hothers i (by omega) (by omega), hothers (i + k) (by omega) (by omega)]
    exact h.rest i (by omega) hi'

theorem compare_ends (h0 : 0 ≤ low) (hk : 0 ≤ k) (hlen : low + k + k ≤ a.length) :
    Ends (forUp low (low + k) (fun i => compareDir dir i (i + k)) a) (Compared dir low k (low + k) a) :=
  forUp_rule (fun m => Compared dir low k m a) (by omega)
    ⟨.refl _ _ a, fun _ hi hi' => by omega, fun _ _ _ => ⟨rfl, rfl⟩⟩
    fun _ _ hm hlt h => h.step h0 hm hlt hlen

/-- The cells from `p` on have the smaller one of each pair, and those from `q` on the greater one. -/
theorem halves_bitonic (h : BitonicOn a low (k + k))
    (hmin : ∀ i, 0 ≤ i → i < k → get b (p + i) = min (get a (low + i)) (get a (low + (i + k))))
    (hmax : ∀ i, 0 ≤ i → i < k → get b (q + i) = max (get a (low + i)) (get a (low + (i + k)))) :
    BitonicOn b p k ∧ BitonicOn b q k ∧
      ∀ i j, p ≤ i → i < p + k → q ≤ j → j < q + k → get b i ≤ get b j := by
  refine ⟨fun v => (h v).halves_and.congr fun i hi hi' => ?_, fun v => (h v).halves_or.congr fun i hi hi' => ?_, ?_⟩
  · rw [hmin i hi hi']
    omega
  · rw [hmax i hi hi']
    omega
  · intro i j hi hi' hj hj'
    have hleft := hmin (i - p) (by omega) (by omega)
    have hright := hmax (j - q) (by omega) (by omega)
    rw [show p + (i - p) = i by omega] at hleft
    rw [show q + (j - q) = j by omega] at hright
    have hclean := (h (get b i)).clean (show 0 ≤ i - p ∧ i - p < k by omega) (show 0 ≤ j - q ∧ j - q < k by omega)
      (by omega)
    omega

theorem Compared.bitonic (h : Compared dir low k (low + k) a b) (ha : BitonicOn a low (k + k)) :
    BitonicOn b low k ∧ BitonicOn b (low + k) k ∧
      ∀ i j, low ≤ i → i < low + k → low + k ≤ j → j < low + k + k → InOrder dir (get b i) (get b j) := by
  have hfirst : ∀ i, 0 ≤ i → i < k → get b (low + i) = firstOf dir (get a (low + i)) (get a (low + (i + k))) := by
    intro i hi hi'
    rw [(h.done (low + i) (by omega) (by omega)).1, Int.add_assoc]
  have hsecond : ∀ i, 0 ≤ i → i < k →
      get b (low + k + i) = firstOf (!dir) (get a (low + i)) (get a (low + (i + k))) := by
    intro i hi hi'
    rw [show low + k + i = low + i + k by omega, (h.done (low + i) (by omega) (by omega)).2, Int.add_assoc]
  cases dir with
  | true => exact halves_bitonic ha hfirst hsecond
  | false =>
    obtain ⟨hmin, hmax, hcross⟩ := halves_bitonic ha hsecond hfirst
    exact ⟨hmax, hmin, fun i j hi hi' hj hj' => hcross j i hj hj' hi hi'⟩

theorem BitonicOn.congr (h : BitonicOn a low cnt) (heq : ∀ i, low ≤ i → i < low + cnt → get b i = get a i) :
    BitonicOn b low cnt := fun v => (h v).congr fun i h0 hi => by rw [heq (low + i) (by omega) (by omega)]

theorem OrderedOn.congr {lo hi : Int} (h : OrderedOn dir a lo hi) (heq : ∀ i, lo ≤ i → i < hi → get b i = get a i) :
    OrderedOn dir b lo hi := by
  intro i j hi hij hj
  rw [heq i hi (by omega), heq j (by omega) hj]
  exact h i j hi hij hj

/-- Two ordered ranges, the one before the other. -/
theorem OrderedOn.append {lo m hi : Int} (h : OrderedOn dir a lo m) (h' : OrderedOn dir a m hi)
    (hcross : ∀ i j, lo ≤ i → i < m → m ≤ j → j < hi → InOrder dir (get a i) (get a j)) : OrderedOn dir a lo hi := by
  intro i j hi hij hj
  rcases Int.lt_or_le j m with hlt | hle
  · exact h i j hi hij hlt
  · rcases Int.lt_or_le i m with hlt' | hle'
    · exact hcross i j hi hlt' hle hj
    · exact h' i j hle' hij hj

/-- The two halves of a range of 2^(m + 1) cells. -/
theorem two_pow_halves (m : Nat) : (2 : Int) ^ (m + 1) = 2 ^ m + 2 ^ m ∧ (2 : Int) ^ (m + 1) / 2 = 2 ^ m ∧
    (0 : Int) < 2 ^ m := by
  have hpos : (0 : Int) < 2 ^ m := Int.pow_pos (by decide)
  have hsucc : (2 : Int) ^ (m + 1) = 2 ^ m * 2 := Int.pow_succ 2 m
  omega

theorem bitonicMerge_orders {m : Nat} (h : BitonicOn a low (2 ^ m)) (h0 : 0 ≤ low) (hlen : low + 2 ^ m ≤ a.length) :
    Ends (bitonicMerge low (2 ^ m) dir a) fun b =>
      Rearranged low (low + 2 ^ m) a b ∧ OrderedOn dir b low (low + 2 ^ m) := by
  induction m generalizing low a with
  | zero =>
    rw [bitonicMerge, if_neg (by decide)]
    exact .some ⟨.refl _ _ a, fun i j hi hij hj => by omega⟩
  | succ m ih =>
    obtain ⟨hsum, hhalf, hpos⟩ := two_pow_halves m
    rw [bitonicMerge, if_pos (by omega), hhalf]
    rw [hsum] at h hlen ⊢
    generalize (2 : Int) ^ m = k at *
    refine (compare_ends h0 (Int.le_of_lt hpos) (by omega)).bind fun b hcompared => ?_
    have hb := hcompared.rearranged
    have hlenb := hb.length
    obtain ⟨hleft, hright, hcross⟩ := hcompared.bitonic h
    refine (ih hleft h0 (by omega)).bind ?_
    rintro c ⟨hc, hcs⟩
    have hlenc := hc.length
    have hright' : BitonicOn c (low + k) k := hright.congr fun i hi _ => hc.kept i (Or.inr hi)
    refine (ih hright' (by omega) (by omega)).mono ?_
    rintro d ⟨hd, hds⟩
    rw [← Int.add_assoc]
    refine ⟨(hb.trans (hc.mono (Int.le_refl low) (by omega))).trans (hd.mono (by omega) (Int.le_refl _)), ?_⟩
    refine (hcs.congr fun i _ hi => hd.kept i (Or.inl hi)).append hds fun i j hi hi' hj hj' => ?_
    -- each call rearranges its own half
    rw [hd.kept i (Or.inl hi')]
    refine hd.forall_range (by omega) (by omega) (P := InOrder dir (get c i)) (fun j hj hj' => ?_) j hj hj'
    have hbefore : ∀ i, low ≤ i → i < low + k → InOrder dir (get b i) (get b j) := fun i hi hi' =>
      hcross i j hi hi' hj hj'
    rw [hc.kept j (Or.inr hj)]
    exact hc.forall_range h0 (by omega) (P := fun x => InOrder dir x (get b j)) hbefore i hi hi'

/-- An ascending half and a descending one make a bitonic range. -/
theorem bitonicOn_of_halves (hk : 0 ≤ k) (h : OrderedOn true a low (low + k))
    (h' : OrderedOn false a (low + k) (low + k + k)) : BitonicOn a low (k + k) := by
  refine fun v => isBitonic_of_rise_fall hk (fun i j hi hij hj hle => ?_) fun i j hi hij hj hle => ?_
  · exact Int.le_trans hle (h (low + i) (low + j) (by omega) (by omega) (by omega))
  · exact Int.le_trans hle (h' (low + i) (low + j) (by omega) (by omega) (by omega))

theorem bitonicSortRec_orders {m : Nat} (h0 : 0 ≤ low) (hlen : low + 2 ^ m ≤ a.length) :
    Ends (bitonicSortRec low (2 ^ m) dir a) fun b =>
      Rearranged low (low + 2 ^ m) a b ∧ OrderedOn dir b low (low + 2 ^ m) := by
  induction m generalizing low a dir with
  | zero =>
    rw [bitonicSortRec, if_neg (by decide)]
    exact .some ⟨.refl _ _ a, fun i j hi hij hj => by omega⟩
  | succ m ih =>
    obtain ⟨hsum, hhalf, hpos⟩ := two_pow_halves m
    rw [bitonicSortRec, if_pos (by omega), hhalf]
    refine (ih h0 (by omega)).bind ?_
    rintro b ⟨hb, hbs⟩
    have hlenb := hb.length
    refine (ih (by omega) (by omega)).bind ?_
    rintro c ⟨hc, hcs⟩
    have hlenc := hc.length
    have hbitonic : BitonicOn c low (2 ^ (m + 1)) := by
      rw [hsum]
      exact bitonicOn_of_halves (Int.le_of_lt hpos) (hbs.congr fun i _ hi => hc.kept i (Or.inl hi)) hcs
    refine (bitonicMerge_orders hbitonic h0 (by omega)).mono ?_
    rintro d ⟨hd, hds⟩
    exact ⟨((hb.mono (Int.le_refl low) (by omega)).trans (hc.mono (by omega) (by omega))).trans hd, hds⟩

end Network

/-! ### The sort -/

section Padding
variable {arr a : List Int} {size p v : Int} {turns m : Nat}

/-- The least power of two that is not below the size. -/
theorem powerOf2_ends (h1 : 1 < size) (hint : size ≤ 2 ^ 30) (hturns : size.toNat ≤ turns) :
    Ends (whileLoop (fun p => some (decide (p < size))) (fun p => some (wrap (p * 2))) turns (1 : Int)) fun p =>
      (∃ m : Nat, p = 2 ^ m) ∧ size ≤ p ∧ p < 2 * size := by
  refine whileLoop_rule (fun p => (∃ m : Nat, p = 2 ^ m) ∧ 0 < p ∧ p < 2 * size) (fun p => (size - p).toNat) (by omega)
    ⟨⟨0, rfl⟩, Int.one_pos, by omega⟩ ?_
  rintro p ⟨⟨m, hm⟩, hpos, hlt⟩
  refine .some ?_
  rw [if_congr decide_eq_true_iff rfl rfl]
  split
  · rw [wrap_of_fits ⟨by omega, by omega⟩]
    refine .some ⟨⟨⟨m + 1, ?_⟩, by omega, by omega⟩, by omega⟩
    rw [hm, Int.pow_succ]
  · exact ⟨⟨m, hm⟩, by omega, hlt⟩

/-- It is the size when that is a power of two. -/
theorem powerOf2_eq {k : Nat} (hsize : size = 2 ^ k) (hle : size ≤ 2 ^ m) (hlt : (2 : Int) ^ m < 2 * size) :
    (2 : Int) ^ m = size := by
  subst hsize
  rcases Nat.lt_trichotomy m k with hmk | rfl | hkm
  · have := Int.pow_lt_pow_of_lt (show (1 : Int) < 2 by decide) hmk
    omega
  · rfl
  · have hsucc : (2 : Int) ^ (k + 1) = 2 ^ k * 2 := Int.pow_succ 2 k
    rcases Nat.lt_or_eq_of_le (show k + 1 ≤ m from hkm) with hlt' | rfl
    · have := Int.pow_lt_pow_of_lt (show (1 : Int) < 2 by decide) hlt'
      omega
    · omega

/-- The second loop overwrites what the first one copied. -/
theorem copyAndPadArray_ends (hsize : arr.length ≤ p) :
    Ends (copyAndPadArray arr (List.replicate p.toNat none) arr.length p)
      (· = List.replicate p.toNat (some 2147483647)) := by
  rw [copyAndPadArray]
  refine Ends.bind (P := fun c : List (Option Int) => c.length = p.toNat) ?_ fun c hc => ?_
  · refine forUp_rule (fun _ (c : List (Option Int)) => c.length = p.toNat) (by omega) List.length_replicate ?_
    intro i c hi hi' hc
    rw [load_eq ⟨hi, hi'⟩, Option.bind_eq_bind, Option.bind_some, store_eq ⟨hi, by omega⟩]
    exact .some ((length_put c i _).trans hc)
  · have hp : (p.toNat : Int) = p := Int.toNat_of_nonneg (by omega)
    rw [← hp]
    exact ⟨_, forUp_fill hc fun i d _ _ => rfl, rfl⟩

theorem copyBackArray_ends (hlen : arr.length ≤ m) :
    Ends (copyBackArray arr (List.replicate m v) arr.length) (· = List.replicate arr.length v) := by
  refine ⟨_, forUp_fill rfl fun i b hi hi' => ?_, rfl⟩
  have hin : Inside (List.replicate m v) i := ⟨hi, by rw [List.length_replicate]; omega⟩
  rw [load_eq hin, List.eq_of_mem_replicate (get_mem hin)]
  rfl

end Padding

section Sizes
variable {arr : List Int} {m : Nat}

theorem bitonicSort_of_pow (hlen : arr.length = 2 ^ m) (hint : arr.length ≤ 2 ^ 30) :
    Halts (fun turns => bitonicSort turns arr arr.length) (Sorts arr) := by
  refine ⟨arr.length, fun turns hturns => ?_⟩
  simp only [bitonicSort]
  split
  · exact .some (sorts_of_length_le (by omega))
  · have hsize : (arr.length : Int) = 2 ^ m := by
      rw [hlen, Int.natCast_pow]
      rfl
    refine (powerOf2_ends (by omega) (by omega) (by omega)).bind ?_
    rintro p ⟨⟨k, rfl⟩, hle, hlt⟩
    rw [if_pos (powerOf2_eq hsize hle hlt), hsize]
    refine (bitonicSortRec_orders (Int.le_refl 0) (by omega)).mono ?_
    rintro b ⟨hb, hs⟩
    rw [Int.zero_add, ← hsize, ← hb.length] at hs
    exact hb.sorts hs

/-- Any other array gets the padding back. -/
theorem bitonicSort_of_not_pow (hlen : ∀ m, arr.length ≠ 2 ^ m) (h0 : arr ≠ []) (hint : arr.length ≤ 2 ^ 30) :
    Halts (fun turns => bitonicSort turns arr arr.length) (· = List.replicate arr.length 2147483647) := by
  refine ⟨arr.length, fun turns hturns => ?_⟩
  have hpos := List.length_pos_iff.mpr h0
  have hone : arr.length ≠ 1 := hlen 0
  simp only [bitonicSort]
  rw [if_neg (by omega)]
  refine (powerOf2_ends (by omega) (by omega) (by omega)).bind ?_
  rintro p ⟨⟨k, rfl⟩, hle, hlt⟩
  have hne : (2 : Int) ^ k ≠ arr.length := by
    intro heq
    refine hlen k ?_
    rw [← Int.natCast_inj, Int.natCast_pow]
    exact heq.symm
  rw [if_neg hne]
  refine (copyAndPadArray_ends hle).bind ?_
  rintro _ rfl
  rw [written_replicate, Option.bind_eq_bind, Option.bind_some]
  have hcells : ((List.replicate ((2 : Int) ^ k).toNat (2147483647 : Int)).length : Int) = 2 ^ k := by
    rw [List.length_replicate]
    omega
  refine (bitonicSortRec_orders (Int.le_refl 0) (by omega)).bind ?_
  rintro b ⟨hb, -⟩
  rw [List.perm_replicate.mp hb.perm]
  exact copyBackArray_ends (by omega)

/-- The sort works for the sizes that are powers of two; any other array becomes as many greatest `int`s. -/
theorem bitonic_sort_iff (hint : arr.length ≤ 2 ^ 30) :
    Halts (fun turns => bitonicSort turns arr arr.length) (Sorts arr) ↔
      (∃ m, arr.length = 2 ^ m) ∨ ∀ x ∈ arr, x = 2147483647 := by
  by_cases h0 : arr = []
  · subst h0
    refine ⟨fun _ => Or.inr nofun, fun _ => ⟨0, fun turns _ => ?_⟩⟩
    exact .some (sorts_of_length_le (by decide))
  by_cases hpow : ∃ m, arr.length = 2 ^ m
  · obtain ⟨m, hlen⟩ := hpow
    exact ⟨fun _ => Or.inl ⟨m, hlen⟩, fun _ => bitonicSort_of_pow hlen hint⟩
  · have hpadded := bitonicSort_of_not_pow (not_exists.mp hpow) h0 hint
    constructor
    · intro hsorts
      obtain ⟨b, hb, rfl⟩ := hsorts.both hpadded
      exact Or.inr fun x hx => List.eq_of_mem_replicate (hb.perm.symm.subset hx)
    · intro hall
      have hsame := List.eq_replicate_of_mem (hall.resolve_left hpow)
      refine hpadded.mono ?_
      rintro b rfl
      exact ⟨List.pairwise_replicate.mpr (Or.inr (Int.le_refl _)), List.Perm.of_eq hsame.symm⟩

end Sizes

theorem bitonic_sort_iff_three :
    Halts (fun turns => bitonicSort turns [3, 1, 2] ([3, 1, 2] : List Int).length) (Sorts [3, 1, 2]) ↔
      (∃ m, ([3, 1, 2] : List Int).length = 2 ^ m) ∨ ∀ x ∈ ([3, 1, 2] : List Int), x = 2147483647 :=
  bitonic_sort_iff (by decide)

/-- The array 3, 1, 2 becomes three times the greatest `int`. -/
theorem bitonic_sort_loses : ¬∀ arr : List Int, arr.length ≤ 2 ^ 30 →
    Halts (fun turns => bitonicSort turns arr arr.length) (Sorts arr) := by
  intro h
  have hlen : ∀ m, ([3, 1, 2] : List Int).length ≠ 2 ^ m := by
    intro m hm
    rcases m with _ | m
    · cases hm
    · rw [Nat.pow_succ] at hm
      simp only [List.length_cons, List.length_nil] at hm
      omega
  obtain ⟨b, hb, rfl⟩ := (h [3, 1, 2] (by decide)).both (bitonicSort_of_not_pow hlen nofun (by decide))
  exact absurd (hb.perm.symm.subset List.mem_cons_self) (by decide)

end Minitalk.Libft.Sort
