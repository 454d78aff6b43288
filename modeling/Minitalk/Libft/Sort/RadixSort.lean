import Minitalk.Lib.StableSort
import Minitalk.Libft.Sort.CountingSort

/-! # Binary radix sort (`radix_sort`)

Each pass splits the array by one bit, the lowest first. The `malloc` of the output succeeds; a cell of it is not read
before it is written. -/

namespace Minitalk.Libft.Sort
open CArray Program StableSort

/-- `(x >> bit) & 1` -/
def bitAt (x bit : Int) : Int := (x >>> bit.toNat) % 2

/-- The loop of `get_max_bits`. -/
def getMaxBitsFrom (bits maxNum : Int) : Int :=
  if maxNum > 0 then getMaxBitsFrom (bits + 1) (maxNum >>> (1 : Nat)) else bits
termination_by maxNum.toNat
decreasing_by
  rw [Int.shiftRight_eq_div_pow]
  omega

def getMaxBits : Int → Int := getMaxBitsFrom 0

/-- `output[idx++] = arr[i]` for the elements that have this bit. -/
def collect (arr : List Int) (bit value : Int) (i : Int) (s : List (Option Int) × Int) :
    Option (List (Option Int) × Int) := do
  let x ← load arr i
  if bitAt x bit = value then some (← store s.1 s.2 (some x), s.2 + 1) else some s

def collectZeros (arr : List Int) (output : List (Option Int)) (size bit : Int) : Option (List (Option Int)) := do
  let (output, _) ← forUp 0 size (collect arr bit 0) (output, 0)
  some output

def collectOnes (arr : List Int) (output : List (Option Int)) (size bit : Int) : Option (List (Option Int)) := do
  let idx ← forUp 0 size (fun i idx => do if bitAt (← load arr i) bit = 0 then some (idx + 1) else some idx) (0 : Int)
  let (output, _) ← forUp 0 size (collect arr bit 1) (output, idx)
  some output

def copyBack (arr : List Int) (output : List (Option Int)) (size : Int) : Option (List Int) :=
  forUp 0 size (fun i arr => do store arr i (← (← load output i))) arr

/-- One turn of the loop of `radix_sort`. -/
def radixPass (size bit : Int) (s : List Int × List (Option Int)) : Option (List Int × List (Option Int)) := do
  let output ← collectZeros s.1 s.2 size bit
  let output ← collectOnes s.1 output size bit
  some (← copyBack s.1 output size, output)

def radixSort (arr : List Int) (size maxBits : Int) : Option (List Int) := do
  let (arr, _) ← forUp 0 maxBits (radixPass size) (arr, List.replicate size.toNat none)
  some arr

section Passes
variable {arr vs : List Int} {output : List (Option Int)} {bit value i x y : Int} {bits : Nat}

theorem bitAt_cases (x bit : Int) : bitAt x bit = 0 ∨ bitAt x bit = 1 := by
  have := Int.emod_nonneg (x >>> bit.toNat) (show (2 : Int) ≠ 0 by decide)
  have := Int.emod_lt_of_pos (x >>> bit.toNat) (show (0 : Int) < 2 by decide)
  rw [bitAt]
  omega

/-- The elements with this bit. -/
def withBit (bit value : Int) (arr : List Int) : List Int := arr.filter fun x => decide (bitAt x bit = value)

/-- What a collection wrote before the index `i`, behind what was there already. -/
structure Collected (arr vs : List Int) (bit value i : Int) (s : List (Option Int) × Int) : Prop where
  filled : Filled arr.length (vs ++ withBit bit value (segment arr 0 i)) s.1
  index : s.2 = ((vs ++ withBit bit value (segment arr 0 i)).length : Int)

theorem Collected.step {s : List (Option Int) × Int} (h : Collected arr vs bit value i s) (hin : Inside arr i)
    (hroom : vs.length + (withBit bit value arr).length ≤ arr.length) :
    Ends (collect arr bit value i s) (Collected arr vs bit value (i + 1)) := by
  obtain ⟨output, idx⟩ := s
  obtain ⟨hfill, hidx⟩ := h
  simp only at hfill hidx
  have hnext : withBit bit value (segment arr 0 (i + 1)) =
      withBit bit value (segment arr 0 i) ++ withBit bit value [get arr i] := by
    rw [segment_concat (Int.le_refl 0) hin.1 hin.2, withBit, List.filter_append]
    rfl
  have hcount := ((segment_sublist arr 0 (i + 1)).filter fun x => decide (bitAt x bit = value)).length_le
  change (withBit bit value _).length ≤ (withBit bit value arr).length at hcount
  rw [hnext, List.length_append] at hcount
  simp only [collect, load_eq hin, Option.bind_eq_bind, Option.bind_some]
  split
  · rename_i hbit
    have hlast : withBit bit value [get arr i] = [get arr i] := by simp [withBit, hbit]
    rw [hlast, List.length_singleton] at hcount
    rw [hlast] at hnext
    rw [hidx]
    refine (hfill.store (by rw [List.length_append]; omega) (get arr i)).bind fun output' hfill' => .some ⟨?_, ?_⟩
    · rw [hnext, ← List.append_assoc]
      exact hfill'
    · rw [hnext, ← List.append_assoc]
      simp only [List.length_append, List.length_singleton, Int.natCast_add]
      rfl
  · rename_i hbit
    have hlast : withBit bit value [get arr i] = [] := by simp [withBit, hbit]
    rw [hlast, List.append_nil] at hnext
    exact .some ⟨hnext ▸ hfill, hnext ▸ hidx⟩

/-- The elements that have this bit go behind what is written already. -/
theorem collect_ends (hfill : Filled arr.length vs output)
    (hroom : vs.length + (withBit bit value arr).length ≤ arr.length) :
    Ends (forUp 0 arr.length (collect arr bit value) (output, (vs.length : Int))) fun s =>
      Filled arr.length (vs ++ withBit bit value arr) s.1 := by
  have hnone : vs ++ withBit bit value (segment arr 0 0) = vs := by
    rw [segment_of_le (Int.le_refl 0)]
    exact List.append_nil vs
  refine (forUp_rule (Collected arr vs bit value) (Int.natCast_nonneg arr.length)
    ⟨hnone.symm ▸ hfill, hnone.symm ▸ rfl⟩ fun i s hi hi' h => h.step ⟨hi, hi'⟩ hroom).mono ?_
  rintro s ⟨hfill, -⟩
  rwa [segment_all] at hfill

/-- The number of the elements without the bit. -/
theorem countZeros_ends (arr : List Int) (bit : Int) :
    Ends (forUp 0 arr.length (fun i idx => do if bitAt (← load arr i) bit = 0 then some (idx + 1) else some idx)
      (0 : Int)) (· = ((withBit bit 0 arr).length : Int)) := by
  refine (forUp_rule (fun i (idx : Int) => idx = (withBit bit 0 (segment arr 0 i)).length)
    (Int.natCast_nonneg arr.length) ?_ ?_).mono ?_
  · rw [segment_of_le (Int.le_refl 0)]
    rfl
  · rintro i _ hi hi' rfl
    rw [load_eq ⟨hi, hi'⟩, Option.bind_eq_bind, Option.bind_some, segment_concat (Int.le_refl 0) hi hi', withBit,
      withBit, List.filter_append, List.length_append]
    split
    · rename_i hbit
      exact .some (by simp [hbit])
    · rename_i hbit
      exact .some (by simp [hbit])
  · rintro _ rfl
    rw [segment_all]

theorem collectZeros_ends (hlen : output.length = arr.length) (bit : Int) :
    Ends (collectZeros arr output arr.length bit) (Filled arr.length (withBit bit 0 arr)) := by
  have hfill : Filled arr.length [] output := hlen ▸ filled_nil output
  refine (collect_ends hfill ?_).bind fun s hs => .some hs
  exact (Nat.zero_add _).le.trans (List.length_filter_le _ _)

/-- A collection of both bits splits the array. -/
theorem withBit_append (bit : Int) (arr : List Int) :
    withBit bit 0 arr ++ withBit bit 1 arr = splitBy (fun x => decide (bitAt x bit = 1)) arr := by
  have hzeros : withBit bit 0 arr = arr.filter fun x => !decide (bitAt x bit = 1) := by
    refine List.filter_congr fun x _ => ?_
    rcases bitAt_cases x bit with h | h
    · simp [h]
    · simp [h]
  rw [hzeros]
  rfl

theorem collectOnes_ends (hfill : Filled arr.length (withBit bit 0 arr) output) :
    Ends (collectOnes arr output arr.length bit)
      (· = (splitBy (fun x => decide (bitAt x bit = 1)) arr).map some) := by
  have hsplit := withBit_append bit arr
  have hlen := (splitBy_perm (fun x => decide (bitAt x bit = 1)) arr).length_eq
  refine (countZeros_ends arr bit).bind ?_
  rintro _ rfl
  have hroom : (withBit bit 0 arr).length + (withBit bit 1 arr).length ≤ arr.length := by
    rw [← List.length_append, hsplit, hlen]
  refine (collect_ends hfill hroom).bind fun s hs => .some ?_
  rw [hsplit] at hs
  exact hs.full hlen

theorem copyBack_eq (hlen : arr.length = vs.length) : copyBack arr (vs.map some) arr.length = some vs := by
  rw [copyBack, hlen, forUp_written hlen]

/-- A pass splits the array by one bit. -/
theorem radixPass_ends (hlen : output.length = arr.length) (bit : Int) :
    Ends (radixPass arr.length bit (arr, output)) fun s =>
      s.1 = splitBy (fun x => decide (bitAt x bit = 1)) arr ∧ s.2.length = s.1.length := by
  have hsame := (splitBy_perm (fun x => decide (bitAt x bit = 1)) arr).length_eq
  refine (collectZeros_ends hlen bit).bind fun output hzeros => ?_
  refine (collectOnes_ends hzeros).bind ?_
  rintro _ rfl
  rw [copyBack_eq hsame.symm]
  exact .some ⟨rfl, List.length_map _⟩

/-! ### The passes -/

/-- What is below a bit. -/
def lowBits (bits : Nat) (x : Int) : Int := x % 2 ^ bits

theorem lowBits_succ (bits : Nat) (x : Int) : lowBits (bits + 1) x = lowBits bits x + 2 ^ bits * bitAt x bits := by
  have hpos : (0 : Int) < 2 ^ bits := Int.pow_pos (by decide)
  have hlow := Int.emod_nonneg x hpos.ne'
  have hlow' := Int.emod_lt_of_pos x hpos
  have hshift : x >>> bits = x / 2 ^ bits := by rw [Int.shiftRight_eq_div_pow]; rfl
  have hsplit : x % 2 ^ bits + 2 ^ bits * ((x / 2 ^ bits) % 2) + 2 ^ bits * 2 * (x / 2 ^ bits / 2) = x := by
    rw [Int.mul_assoc, Int.add_assoc, ← Int.mul_add, Int.emod_add_mul_ediv, Int.emod_add_mul_ediv]
  rw [lowBits, lowBits, bitAt, Int.toNat_natCast, hshift, Int.pow_succ]
  refine ((Int.ediv_emod_unique (by omega)).mpr ⟨hsplit, ?_⟩).2
  rcases Int.emod_two_eq (x / 2 ^ bits) with h | h
  · rw [h]
    omega
  · rw [h]
    omega

theorem above_lowBits (bits : Nat) :
    Above (fun x => decide (bitAt x bits = 1)) (lowBits bits) (lowBits (bits + 1)) := by
  intro x y
  have hpos : (0 : Int) < 2 ^ bits := Int.pow_pos (by decide)
  have hx := Int.emod_nonneg x hpos.ne'
  have hx' := Int.emod_lt_of_pos x hpos
  have hy := Int.emod_nonneg y hpos.ne'
  have hy' := Int.emod_lt_of_pos y hpos
  rw [lowBits_succ, lowBits_succ, lowBits, lowBits, Bool.lt_iff, decide_eq_false_iff_not, decide_eq_true_iff,
    decide_eq_decide]
  rcases bitAt_cases x bits with hbx | hbx
  · rcases bitAt_cases y bits with hby | hby
    · rw [hbx, hby]
      omega
    · rw [hbx, hby]
      omega
  · rcases bitAt_cases y bits with hby | hby
    · rw [hbx, hby]
      omega
    · rw [hbx, hby]
      omega

/-- After the passes for some bits, the array is sorted by what is below them. -/
theorem radixPasses_ends (arr : List Int) (bits : Nat) :
    Ends (forUp 0 bits (radixPass arr.length) (arr, List.replicate arr.length none)) fun s =>
      StablySorted (lowBits bits) arr s.1 := by
  refine (forUp_rule (fun i s => StablySorted (lowBits i.toNat) arr s.1 ∧ s.2.length = s.1.length)
    (Int.natCast_nonneg bits) ⟨stablySorted_start (fun x y => ?_) arr, List.length_replicate⟩ ?_).mono ?_
  · rw [Int.toNat_zero, lowBits, lowBits, Int.pow_zero, Int.emod_one, Int.emod_one]
  · rintro i ⟨a, output⟩ hi _ ⟨hsorted, hlen⟩
    have hnext : (i + 1).toNat = i.toNat + 1 := by omega
    have hbit : ((i.toNat : Nat) : Int) = i := Int.toNat_of_nonneg hi
    have habove := above_lowBits i.toNat
    rw [hbit] at habove
    rw [← hsorted.perm.length_eq]
    refine (radixPass_ends hlen i).mono ?_
    rintro s ⟨hsplit, hlen'⟩
    rw [hnext, hsplit]
    exact ⟨hsorted.splitBy habove, by rw [hlen', hsplit]⟩
  · rintro s ⟨hsorted, -⟩
    rwa [Int.toNat_natCast] at hsorted

/-- The number of bits, of which the last one is set. -/
theorem getMaxBitsFrom_lt (bits maxNum : Int) :
    bits ≤ getMaxBitsFrom bits maxNum ∧ maxNum < 2 ^ (getMaxBitsFrom bits maxNum - bits).toNat := by
  fun_induction getMaxBitsFrom bits maxNum with
  | case1 bits maxNum h ih =>
    obtain ⟨hle, hlt⟩ := ih
    have hcount : (getMaxBitsFrom (bits + 1) (maxNum >>> (1 : Nat)) - bits).toNat =
        (getMaxBitsFrom (bits + 1) (maxNum >>> (1 : Nat)) - (bits + 1)).toNat + 1 := by omega
    have hhalf : maxNum >>> (1 : Nat) = maxNum / 2 := Int.shiftRight_eq_div_pow maxNum 1
    rw [hcount, Int.pow_succ]
    omega
  | case2 bits maxNum h =>
    rw [Int.sub_self, Int.toNat_zero, Int.pow_zero]
    omega

theorem getMaxBits_lt (maxNum : Int) : 0 ≤ getMaxBits maxNum ∧ maxNum < 2 ^ (getMaxBits maxNum).toNat := by
  have h := getMaxBitsFrom_lt 0 maxNum
  rwa [Int.sub_zero] at h

/-- The order of the values is the one of the bits that are counted, and where these are equal the one that the
    elements have already. -/
def OrderedBits (bits : Nat) (arr : List Int) : Prop :=
  arr.Pairwise fun x y => if lowBits bits y < lowBits bits x then y ≤ x else x ≤ y

instance (bits : Nat) (arr : List Int) : Decidable (OrderedBits bits arr) :=
  inferInstanceAs (Decidable (arr.Pairwise _))

theorem radixSort_ends (arr : List Int) {bits : Int} (h0 : 0 ≤ bits) :
    Ends (radixSort arr arr.length bits) (StablySorted (lowBits bits.toNat) arr) := by
  have hpasses := radixPasses_ends arr bits.toNat
  rw [Int.toNat_of_nonneg h0] at hpasses
  exact hpasses.bind fun s hs => .some hs

/-- The array is sorted when the bits of the greatest element order it. -/
theorem radix_sort_iff (arr : List Int) : ∃ max, getMax arr arr.length = some max ∧
    (Ends (radixSort arr arr.length (getMaxBits max)) (Sorts arr) ↔ OrderedBits (getMaxBits max).toNat arr) := by
  obtain ⟨max, hmax⟩ : ∃ max, getMax arr arr.length = some max := by
    by_cases h0 : arr = []
    · exact ⟨0, by rw [h0]; rfl⟩
    · obtain ⟨max, hmax, -⟩ := getMax_ends h0
      exact ⟨max, hmax⟩
  refine ⟨max, hmax, ?_⟩
  obtain ⟨b, hb, hsorted⟩ := radixSort_ends arr (getMaxBits_lt max).1
  rw [hb, OrderedBits, ← hsorted.pairwise_iff]
  constructor
  · rintro ⟨b', hb', hsorts⟩
    cases hb'
    exact hsorts.sorted
  · exact fun h => ⟨b, rfl, h, hsorted.perm⟩

/-- Without negative elements, the bits above those of the greatest one do not matter. -/
theorem orderedBits_of_nonneg {max : Int} (hmax : ∀ x ∈ arr, x ≤ max) (h : ∀ x ∈ arr, 0 ≤ x) :
    OrderedBits (getMaxBits max).toNat arr := by
  have hlow : ∀ x ∈ arr, lowBits (getMaxBits max).toNat x = x := fun x hx =>
    Int.emod_eq_of_lt (h x hx) (Int.lt_of_le_of_lt (hmax x hx) (getMaxBits_lt max).2)
  refine List.pairwise_of_forall_mem_list fun x hx y hy => ?_
  rw [hlow x hx, hlow y hy]
  split
  · rename_i hlt
    exact Int.le_of_lt hlt
  · rename_i hnot
    exact Int.not_lt.mp hnot

end Passes

/-- The last bits of 1 and -1 are the same, so 1 stays before -1. -/
theorem radix_sort_negative : ¬∀ arr : List Int, arr ≠ [] → ∃ max, getMax arr arr.length = some max ∧
    Ends (radixSort arr arr.length (getMaxBits max)) (Sorts arr) := by
  intro h
  obtain ⟨max, hmax, hsorts⟩ := h [1, -1] nofun
  have hone : getMax [1, -1] ([1, -1] : List Int).length = some 1 := rfl
  obtain rfl : 1 = max := Option.some.inj (hone.symm.trans hmax)
  have hbits : getMaxBits 1 = 1 := by
    rw [getMaxBits, getMaxBitsFrom, if_pos (by decide), getMaxBitsFrom, if_neg (by decide)]
    rfl
  obtain ⟨b, hb, hsorted⟩ := hsorts
  rw [hbits] at hb
  obtain rfl : [1, -1] = b := Option.some.inj hb
  exact absurd hsorted.sorted (by decide)

end Minitalk.Libft.Sort
