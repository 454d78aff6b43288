import Mathlib.Data.List.Nodup
import Mathlib.Data.List.Perm.Subperm
import Minitalk.Lib.Halving
import Minitalk.Libft.Sort.InsertionSort

/-! # The other hybrid sort (`hybrid2_sort`)

It leaves tags, which are indices into the sorted array. `qsort` is a parameter, and each `malloc` succeeds. A `memcpy`
of a cell that was not written has no result. -/

namespace Minitalk.Libft.Sort
open CArray CInt Program

namespace Hybrid2

/-- The search for the tag of `arr[i]`. -/
def searchAndTag (sorted : List Int) (i : Int) : Nat → List Int → Int → Int → Option (List Int)
  | 0, _, _, _ => none
  | turns + 1, arr, left, right =>
    if left ≤ right then do
      let mid := (wrap (left + right)).tdiv 2
      let value ← load sorted mid
      let key ← load arr i
      if value = key then store arr i mid
      else if value < key then searchAndTag sorted i turns arr (mid + 1) right
      else searchAndTag sorted i turns arr left (mid - 1)
    else some arr

def binarySearchAndTag (turns : Nat) (sorted arr : List Int) (size : Int) : Option (List Int) :=
  forUp 0 size (fun i arr => searchAndTag sorted i turns arr 0 (size - 1)) arr

/-- The tags, and the values that they stand for. -/
def tagArray (qsort : List Int → List Int) (turns : Nat) (arr : List Int) (size : Int) (tagToValue : List Int) :
    Option (List Int × List Int) := do
  let sorted := qsort (segment arr 0 size)
  let tagToValue ← forUp 0 size (fun i tagToValue => do store tagToValue i (← load sorted i)) tagToValue
  some (← binarySearchAndTag turns sorted arr size, tagToValue)

/-- `result`, `used` and `chunk_params[2]` -/
structure Picking where
  result : List (Option Int)
  used : List Int
  pos : Int

/-- The inner loop of `process_chunk`, from `i` on. -/
def pick (arr : List Int) (size tag : Int) : Nat → Int → Picking → Option Picking
  | 0, _, _ => none
  | turns + 1, i, s =>
    if i < size then do
      let used ← load s.used i
      let value ← load arr i
      if used = 0 ∧ value = tag then some ⟨← store s.result s.pos (some value), ← store s.used i 1, s.pos + 1⟩
      else pick arr size tag turns (i + 1) s
    else some s

def processChunk (turns : Nat) (arr : List Int) (size first limit : Int) (s : Picking) : Option Picking :=
  forUp first limit (fun tag s => pick arr size tag turns 0 s) s

def greedyChunkSort (turns : Nat) (arr : List Int) (size chunkCount : Int) : Option (List Int) := do
  let chunkSize := (wrap (size + chunkCount - 1)).tdiv chunkCount
  let s ← forUp 0 chunkCount (fun c s =>
    let limit := wrap ((c + 1) * chunkSize)
    processChunk turns arr size (wrap (c * chunkSize)) (if limit > size then size else limit) s)
    ⟨List.replicate size.toNat none, List.replicate size.toNat 0, 0⟩
  written s.result

end Hybrid2

open Hybrid2 in
/-- For at most five elements, its loops are those of `insertion_sort` for the whole array. -/
def hybrid2Sort (qsort : List Int → List Int) (turns : Nat) (arr : List Int) (size : Int) (tagToValue : List Int) :
    Option (List Int × List Int) := do
  let (arr, tagToValue) ← tagArray qsort turns arr size tagToValue
  if size ≤ 5 then return (← insertionSort arr 0 (size - 1), tagToValue)
  else if size ≤ 100 then return (← greedyChunkSort turns arr size 5, tagToValue)
  else return (← greedyChunkSort turns arr size 11, tagToValue)

/-- The tags are indices in order, and stand for the elements in order. -/
structure Tagged (arr : List Int) (r : List Int × List Int) : Prop where
  inside : ∀ t ∈ r.1, 0 ≤ t ∧ t < arr.length
  sorted : r.1.Pairwise (· ≤ ·)
  decoded : Sorts arr (r.1.map (get r.2))

namespace Hybrid2

/-! ### Tags -/

section Tags
variable {sorted arr : List Int} {left right i x : Int} {turns : Nat}

/-- What becomes of a value. -/
def tagOf (sorted : List Int) (turns : Nat) (right x : Int) : Option Int :=
  (Halving.search sorted x turns 0 right).map (Option.getD · x)

/-- The tag of an element depends on its value only. -/
theorem searchAndTag_eq (hi : Inside arr i) : searchAndTag sorted i turns arr left right =
    ((Halving.search sorted (get arr i) turns left right).map (Option.getD · (get arr i))).bind (store arr i) := by
  induction turns generalizing left right with
  | zero => rfl
  | succ turns ih =>
    rw [searchAndTag, Halving.search]
    split
    · simp only [load_eq hi, Option.bind_eq_bind, Option.bind_some]
      cases load sorted ((wrap (left + right)).tdiv 2) with
      | none => rfl
      | some value =>
        simp only [Option.bind_some]
        split
        · rfl
        · split
          · exact ih
          · exact ih
    · rw [Option.map_some, Option.bind_some, Option.getD_none, store_eq hi, put_get hi]

theorem binarySearchAndTag_eq (sorted arr : List Int) (turns : Nat) :
    binarySearchAndTag turns sorted arr arr.length = arr.mapM (tagOf sorted turns (arr.length - 1)) :=
  forUp_mapM (fun _ _ hin => searchAndTag_eq hin) arr

end Tags

/-! ### Chunks -/

section Chunks
variable {arr vs : List Int} {size tag i T : Int} {turns : Nat} {s : Picking}

/-- The first element with the tag is picked, where none of these is used. -/
theorem pick_eq (hlen : s.used.length = arr.length) (hfresh : ∀ j, Inside arr j → get arr j = tag → get s.used j = 0)
    (h0 : 0 ≤ i) (hi : i ≤ arr.length) (hturns : (arr.length : Int) - i < turns) :
    ((∀ j, i ≤ j → Inside arr j → get arr j ≠ tag) ∧ pick arr arr.length tag turns i s = some s) ∨
      ∃ j, Inside arr j ∧ get arr j = tag ∧ pick arr arr.length tag turns i s =
        (store s.result s.pos (some tag)).bind fun result => some ⟨result, put s.used j 1, s.pos + 1⟩ := by
  induction turns generalizing i with
  | zero => omega
  | succ turns ih =>
    rw [pick]
    rcases Int.lt_or_eq_of_le hi with hlt | rfl
    · have hin : Inside arr i := ⟨h0, hlt⟩
      have hin' : Inside s.used i := ⟨h0, by omega⟩
      rw [if_pos hlt, load_eq hin, load_eq hin', store_eq hin']
      simp only [Option.bind_eq_bind, Option.bind_some]
      by_cases htag : get arr i = tag
      · rw [if_pos ⟨hfresh i hin htag, htag⟩, htag]
        exact Or.inr ⟨i, hin, htag, rfl⟩
      · rw [if_neg fun h => htag h.2]
        rcases ih (show 0 ≤ i + 1 by omega) (by omega) (by omega) with ⟨hnone, heq⟩ | hsome
        · refine Or.inl ⟨fun j hj hjin => ?_, heq⟩
          rcases Int.lt_or_eq_of_le hj with hlt' | rfl
          · exact hnone j hlt' hjin
          · exact htag
        · exact Or.inr hsome
    · rw [if_neg (Int.lt_irrefl _)]
      exact Or.inl ⟨fun j hj hjin => absurd hjin.2 (by omega), rfl⟩

/-- The tags below `T` that occur were picked. -/
structure Picked (arr : List Int) (T : Int) (vs : List Int) (s : Picking) : Prop where
  sorted : vs.Pairwise (· < ·)
  values : ∀ v, v ∈ vs ↔ v ∈ arr ∧ 0 ≤ v ∧ v < T
  result : s.result = vs.map some ++ List.replicate (arr.length - vs.length) none
  pos : s.pos = vs.length
  used : s.used.length = arr.length
  fresh : ∀ j, Inside arr j → T ≤ get arr j → get s.used j = 0

theorem Picked.length_le (h : Picked arr T vs s) : vs.length ≤ arr.length :=
  (List.subperm_of_subset (h.sorted.imp fun hlt => Int.ne_of_lt hlt) fun v hv => ((h.values v).mp hv).1).length_le

/-- One more tag that occurs. -/
theorem Picked.values_concat (h : Picked arr T vs s) (h0 : 0 ≤ T) (hmem : T ∈ arr) :
    (vs ++ [T]).Pairwise (· < ·) ∧ ∀ v, v ∈ vs ++ [T] ↔ v ∈ arr ∧ 0 ≤ v ∧ v < T + 1 := by
  refine ⟨List.pairwise_append.mpr ⟨h.sorted, List.pairwise_singleton _ _, fun v hv w hw => ?_⟩, fun v => ?_⟩
  · rw [List.mem_singleton.mp hw]
    exact ((h.values v).mp hv).2.2
  · rw [List.mem_append, List.mem_singleton, h.values]
    constructor
    · rintro (⟨hv, hlo, hhi⟩ | rfl)
      · exact ⟨hv, hlo, by omega⟩
      · exact ⟨hmem, h0, by omega⟩
    · rintro ⟨hv, hlo, hhi⟩
      rcases Int.lt_or_eq_of_le (Int.le_of_lt_add_one hhi) with hlt | heq
      · exact Or.inl ⟨hv, hlo, hlt⟩
      · exact Or.inr heq

theorem Picked.turn (h : Picked arr T vs s) (h0 : 0 ≤ T) (hturns : arr.length < turns) :
    Ends (pick arr arr.length T turns 0 s) fun s' => ∃ vs, Picked arr (T + 1) vs s' := by
  have hcases := pick_eq h.used (fun j hj heq => h.fresh j hj (Int.le_of_eq heq.symm)) (Int.le_refl 0)
    (Int.natCast_nonneg _) (show (arr.length : Int) - 0 < turns by omega)
  rcases hcases with ⟨hnone, heq⟩ | ⟨j, hj, htag, heq⟩
  · rw [heq]
    refine .some ⟨vs, h.sorted, fun v => ?_, h.result, h.pos, h.used, fun j hj hle => h.fresh j hj (by omega)⟩
    rw [h.values]
    refine ⟨fun ⟨hv, hlo, hhi⟩ => ⟨hv, hlo, by omega⟩, fun ⟨hv, hlo, hhi⟩ => ⟨hv, hlo, ?_⟩⟩
    rcases Int.lt_or_eq_of_le (Int.le_of_lt_add_one hhi) with hlt | rfl
    · exact hlt
    · obtain ⟨j, hj, htag⟩ := exists_get hv
      exact absurd htag (hnone j hj.1 hj)
  · obtain ⟨hsorted, hvalues⟩ := h.values_concat h0 (htag ▸ get_mem hj)
    have hroom : (vs ++ [T]).length ≤ arr.length :=
      (List.subperm_of_subset (hsorted.imp fun hlt => Int.ne_of_lt hlt) fun v hv => ((hvalues v).mp hv).1).length_le
    rw [List.length_append, List.length_singleton] at hroom
    have hcells : arr.length - vs.length = arr.length - (vs.length + 1) + 1 := by omega
    have hstore : store s.result s.pos (some T) =
        some ((vs ++ [T]).map some ++ List.replicate (arr.length - (vs ++ [T]).length) none) := by
      have hin := inside_append_length (vs.map some) (List.replicate (arr.length - (vs.length + 1)) none) none
      have hput := put_append_length (vs.map some) (List.replicate (arr.length - (vs.length + 1)) none) none (some T)
      rw [List.length_map] at hin hput
      rw [h.result, h.pos, hcells, List.replicate_succ, store_eq hin, hput]
      simp
    have hin : Inside s.used j := ⟨hj.1, by rw [h.used]; exact hj.2⟩
    rw [heq, hstore, Option.bind_some]
    refine .some ⟨vs ++ [T], hsorted, hvalues, rfl, ?_, (length_put _ _ _).trans h.used, fun k hk hle => ?_⟩
    · rw [h.pos, List.length_append, List.length_singleton]
      rfl
    · rw [get_put_ne hin fun hkj => ?_]
      · exact h.fresh k hk (by omega)
      · rw [hkj, htag] at hle
        omega

theorem picked_nil (arr : List Int) :
    Picked arr 0 [] ⟨List.replicate arr.length none, List.replicate arr.length 0, 0⟩ where
  sorted := .nil
  values v := ⟨nofun, fun ⟨_, hlo, hhi⟩ => by omega⟩
  result := rfl
  pos := rfl
  used := List.length_replicate
  fresh j hj _ := by
    have hin : Inside (List.replicate arr.length (0 : Int)) j := ⟨hj.1, by rw [List.length_replicate]; exact hj.2⟩
    exact List.eq_of_mem_replicate (get_mem hin)

/-- Chunk by chunk, the tags are run through once. -/
theorem chunks_eq {cs : Int} (hcs : 0 ≤ cs) (hsize : 0 ≤ size) (body : Int → Picking → Option Picking) (count : Nat)
    (hint : count * cs < 2 ^ 31) (s : Picking) :
    forUp 0 count (fun c s =>
      forUp (wrap (c * cs)) (if wrap ((c + 1) * cs) > size then size else wrap ((c + 1) * cs)) body s) s =
      forUp 0 (min (count * cs) size) body s := by
  induction count with
  | zero =>
    rw [Int.natCast_zero, Int.zero_mul, Int.min_eq_left hsize, forUp_of_le (Int.le_refl 0), forUp_of_le (Int.le_refl 0)]
  | succ count ih =>
    have h0 : 0 ≤ (count : Int) * cs := Int.mul_nonneg (Int.natCast_nonneg _) hcs
    have hnext : ((count : Int) + 1) * cs = count * cs + cs := by rw [Int.add_mul, Int.one_mul]
    rw [Int.natCast_add, Int.natCast_one, hnext] at hint
    rw [Int.natCast_add, Int.natCast_one, forUp_split (Int.natCast_nonneg count) (by omega), ih (by omega),
      forUp_single, hnext, wrap_of_fits ⟨by omega, by omega⟩, wrap_of_fits ⟨by omega, hint⟩]
    rcases Int.le_total (count * cs) size with hle | hle
    · rw [Int.min_eq_left hle]
      split
      · rename_i hgt
        rw [Int.min_eq_right (Int.le_of_lt hgt), ← forUp_split h0 hle]
      · rename_i hnot
        rw [Int.min_eq_left (Int.not_lt.mp hnot), ← forUp_split h0 (by omega)]
    · have hempty : ∀ s,
          forUp (count * cs) (if count * cs + cs > size then size else count * cs + cs) body s = some s :=
        fun s => forUp_of_le (by split <;> omega) body s
      simp only [hempty, Option.bind_fun_some]
      rw [Int.min_eq_right hle, Int.min_eq_right (by omega)]

/-- Where the rounding overflows, every chunk is empty. -/
theorem chunks_empty {cs : Int} (hcs : cs ≤ 0) (hlo : -2 ^ 31 ≤ 11 * cs) (hsize : 0 ≤ size)
    (body : Int → Picking → Option Picking) (s : Picking) :
    forUp 0 11 (fun c s =>
      forUp (wrap (c * cs)) (if wrap ((c + 1) * cs) > size then size else wrap ((c + 1) * cs)) body s) s = some s := by
  have hloop : Ends (forUp 0 11 (fun c s =>
      forUp (wrap (c * cs)) (if wrap ((c + 1) * cs) > size then size else wrap ((c + 1) * cs)) body s) s) (· = s) := by
    refine forUp_rule (fun _ s' => s' = s) (by decide) rfl ?_
    rintro c _ h0 hc rfl
    have hnext : (c + 1) * cs = c * cs + cs := by rw [Int.add_mul, Int.one_mul]
    have hle : c * cs ≤ 0 * cs := Int.mul_le_mul_of_nonpos_right h0 hcs
    have hge : 11 * cs ≤ (c + 1) * cs := Int.mul_le_mul_of_nonpos_right (by omega) hcs
    rw [hnext] at hge ⊢
    rw [wrap_of_fits ⟨by omega, by omega⟩, wrap_of_fits ⟨by omega, by omega⟩, if_neg (by omega), forUp_of_le (by omega)]
    exact .some rfl
  obtain ⟨_, hs, rfl⟩ := hloop
  exact hs

/-- The tags that occur, in order, are all that is written. -/
theorem picked_ends (arr : List Int) (hturns : arr.length < turns) :
    Ends (forUp 0 arr.length (fun tag s => pick arr arr.length tag turns 0 s)
      ⟨List.replicate arr.length none, List.replicate arr.length 0, 0⟩) fun s => ∃ vs, Picked arr arr.length vs s := by
  refine forUp_rule (fun T s => ∃ vs, Picked arr T vs s) (Int.natCast_nonneg _) ⟨[], picked_nil arr⟩ ?_
  rintro T s h0 _ ⟨vs, h⟩
  exact h.turn h0 hturns

/-- The result is copied back when each element was picked, and then the tags are all different. -/
theorem Picked.written (h : Picked arr arr.length vs s) :
    (vs.length = arr.length ∧ CArray.written s.result = some vs) ∨
      (vs.length < arr.length ∧ CArray.written s.result = none) := by
  rcases Nat.lt_or_eq_of_le h.length_le with hlt | heq
  · refine Or.inr ⟨hlt, written_of_none ?_⟩
    rw [h.result]
    exact List.mem_append.mpr (Or.inr (List.mem_replicate.mpr ⟨by omega, rfl⟩))
  · refine Or.inl ⟨heq, ?_⟩
    rw [h.result, heq, Nat.sub_self, List.replicate_zero, List.append_nil, written_map]

theorem greedyChunkSort_eq {count : Nat} (hcount : 0 < count) (hint : arr.length + count - 1 < 2 ^ 31) :
    greedyChunkSort turns arr arr.length count =
      (forUp 0 arr.length (fun tag s => pick arr arr.length tag turns 0 s)
        ⟨List.replicate arr.length none, List.replicate arr.length 0, 0⟩).bind fun s => CArray.written s.result := by
  have hpos : (0 : Int) < count := by omega
  have hle : count * (((arr.length : Int) + count - 1) / count) ≤ arr.length + count - 1 :=
    Int.mul_ediv_self_le (by omega)
  have hlt : (arr.length : Int) + count - 1 < count * (((arr.length : Int) + count - 1) / count) + count :=
    Int.lt_mul_ediv_self_add hpos
  have h0 : 0 ≤ ((arr.length : Int) + count - 1) / count := Int.ediv_nonneg (by omega) (by omega)
  have hchunks := chunks_eq h0 (Int.natCast_nonneg arr.length) (fun tag s => pick arr arr.length tag turns 0 s) count
    (by omega) ⟨List.replicate arr.length none, List.replicate arr.length 0, 0⟩
  rw [Int.min_eq_right (by omega)] at hchunks
  rw [← hchunks, greedyChunkSort, wrap_of_fits ⟨by omega, by omega⟩, Int.tdiv_eq_ediv_of_nonneg (by omega)]
  rfl

theorem greedyChunkSort_wide (hne : arr ≠ []) (hlen : arr.length < 2 ^ 31) (hint : 2 ^ 31 ≤ arr.length + 10) :
    greedyChunkSort turns arr arr.length 11 = none := by
  have hpos := List.length_pos_iff.mpr hne
  have hwrap : wrap ((arr.length : Int) + 11 - 1) = -(2 ^ 32 - (arr.length + 10)) := by
    rw [wrap_of_above (by omega) (by omega)]
    omega
  have hneg : (wrap ((arr.length : Int) + 11 - 1)).tdiv 11 = -((2 ^ 32 - ((arr.length : Int) + 10)) / 11) := by
    rw [hwrap, Int.neg_tdiv, Int.tdiv_eq_ediv_of_nonneg (by omega)]
  have hchunks := chunks_empty (show -((2 ^ 32 - ((arr.length : Int) + 10)) / 11) ≤ 0 by omega) (by omega)
    (Int.natCast_nonneg arr.length) (fun tag s => pick arr arr.length tag turns 0 s)
    ⟨List.replicate arr.length none, List.replicate arr.length 0, 0⟩
  have hnone : CArray.written (List.replicate arr.length (none : Option Int)) = none :=
    written_of_none (List.mem_replicate.mpr ⟨by omega, rfl⟩)
  rw [greedyChunkSort, hneg, ← hnone]
  exact congrArg (Option.bind · fun s : Picking => CArray.written s.result) hchunks

/-- The chunks sort exactly the indices that are all different. -/
theorem greedyChunkSort_cases (count : Nat) (hcount : 0 < count) (hint : arr.length + count - 1 < 2 ^ 31)
    (hturns : arr.length < turns) :
    (greedyChunkSort turns arr arr.length count = none ∧ ¬(arr.Nodup ∧ ∀ v ∈ arr, 0 ≤ v ∧ v < arr.length)) ∨
      ∃ vs, greedyChunkSort turns arr arr.length count = some vs ∧ arr.Nodup ∧ Sorts arr vs := by
  obtain ⟨s, hs, vs, h⟩ := picked_ends arr hturns
  have hnodup : vs.Nodup := h.sorted.imp fun hlt => Int.ne_of_lt hlt
  rw [greedyChunkSort_eq hcount hint, hs, Option.bind_some]
  rcases h.written with ⟨hlen, hwritten⟩ | ⟨hlen, hwritten⟩
  · have hsub : vs.Subperm arr := List.subperm_of_subset hnodup fun v hv => ((h.values v).mp hv).1
    have hperm := hsub.perm_of_length_le (Nat.le_of_eq hlen.symm)
    exact Or.inr ⟨vs, hwritten, hperm.nodup_iff.mp hnodup, h.sorted.imp fun hlt => Int.le_of_lt hlt, hperm⟩
  · refine Or.inl ⟨hwritten, fun ⟨harr, hinside⟩ => ?_⟩
    have hperm : vs.Perm arr := (List.perm_ext_iff_of_nodup hnodup harr).mpr fun v =>
      ⟨fun hv => ((h.values v).mp hv).1, fun hv => (h.values v).mpr ⟨hv, hinside v hv⟩⟩
    have := hperm.length_eq
    omega

end Chunks

/-! ### Runs -/

section Run
variable {arr sorted tagToValue tags r : List Int} {turns : Nat}

theorem sortedOn_of_sorts (h : Sorts arr sorted) : SortedOn sorted 0 sorted.length :=
  (sortedOn_iff_pairwise (Int.le_refl 0) (Int.le_refl _)).mpr (by rw [segment_all]; exact h.sorted)

/-- Each tag is an index of its value. -/
def Marks (sorted arr : List Int) (tag : Int → Int) : Prop :=
  ∀ x ∈ arr, Inside sorted (tag x) ∧ get sorted (tag x) = x

theorem tags_ends (h : Sorts arr sorted) (hint : arr.length ≤ 2 ^ 30) (hturns : arr.length < turns) :
    ∃ tag, Marks sorted arr tag ∧ binarySearchAndTag turns sorted arr arr.length = some (arr.map tag) := by
  have hlen := h.perm.length_eq
  have hfound : ∀ x ∈ arr, ∃ t, tagOf sorted turns (arr.length - 1) x = some t ∧ Inside sorted t ∧
      get sorted t = x := by
    intro x hx
    obtain ⟨k, hk, rfl⟩ := exists_get (h.perm.mem_iff.mpr hx)
    have hk' := hk.2
    obtain ⟨t, hland, hin, hget⟩ := Halving.search_found (sortedOn_of_sorts h) (by omega) (Int.le_refl 0) hk.1
      (show k ≤ (arr.length : Int) - 1 by omega) (by omega) (show (arr.length : Int) - 1 + 1 - 0 < turns by omega)
    exact ⟨t, by rw [tagOf, hland]; rfl, hin, hget⟩
  refine ⟨fun x => (tagOf sorted turns (arr.length - 1) x).getD 0, fun x hx => ?_, ?_⟩
  · obtain ⟨t, ht, hin, hget⟩ := hfound x hx
    simp only [ht]
    exact ⟨hin, hget⟩
  · rw [binarySearchAndTag_eq]
    refine mapM_some fun x hx => ?_
    obtain ⟨t, ht, -⟩ := hfound x hx
    rw [ht]
    rfl

/-- Equal elements get the same tag. -/
theorem tags_eq (h : binarySearchAndTag turns sorted arr arr.length = some tags) : ∃ tag, tags = arr.map tag := by
  rw [binarySearchAndTag_eq] at h
  have hsome : ∀ x ∈ arr, tagOf sorted turns (arr.length - 1) x =
      some ((tagOf sorted turns (arr.length - 1) x).getD 0) := by
    intro x hx
    cases htag : tagOf sorted turns (arr.length - 1) x with
    | none => rw [mapM_none hx htag] at h; cases h
    | some t => rfl
  rw [mapM_some hsome] at h
  exact ⟨_, (Option.some.inj h).symm⟩

theorem tags_none (h : Sorts arr sorted) (harr : arr.Nodup) (hlen : 2 ^ 30 < arr.length) (hint : arr.length < 2 ^ 31) :
    binarySearchAndTag turns sorted arr arr.length = none := by
  have hsame := h.perm.length_eq
  have hstrict : sorted.Pairwise (· < ·) := (h.sorted.and (h.perm.nodup_iff.mpr harr)).imp fun ⟨hle, hne⟩ =>
    Int.lt_iff_le_and_ne.mpr ⟨hle, hne⟩
  have hin : Inside sorted (sorted.length - 1) := ⟨by omega, by omega⟩
  rw [binarySearchAndTag_eq]
  refine mapM_none (h.perm.mem_iff.mp (get_mem hin)) ?_
  rw [tagOf, ← hsame, Halving.search_none (by omega) (by omega) (fun j h0 hj => get_rel hstrict h0 hj hin.2)
    (Int.le_refl 0) (by omega)]
  rfl

/-- The loop of `tag_array` that fills `tag_to_value`. -/
theorem tagToValue_ends (hlen : sorted.length = arr.length) (hroom : arr.length ≤ tagToValue.length) :
    Ends (forUp 0 arr.length (fun i tagToValue => do store tagToValue i (← load sorted i)) tagToValue) fun values =>
      ∀ t, Inside sorted t → get values t = get sorted t := by
  refine (forUp_rule (fun i values => values.length = tagToValue.length ∧
      ∀ t, 0 ≤ t → t < i → get values t = get sorted t)
    (Int.natCast_nonneg _) ⟨rfl, fun t h0 ht => by omega⟩ ?_).mono fun values ⟨_, h⟩ t ht => h t ht.1 (hlen ▸ ht.2)
  rintro i values h0 hi ⟨hsame, h⟩
  have hin : Inside values i := ⟨h0, by omega⟩
  rw [load_eq ⟨h0, by omega⟩, Option.bind_eq_bind, Option.bind_some, store_eq hin]
  refine .some ⟨(length_put _ _ _).trans hsame, fun t ht hlt => ?_⟩
  rw [get_put hin]
  split
  · rename_i heq
    rw [heq]
  · exact h t ht (by omega)

/-- In order, the tags stand for the elements in order. -/
theorem tagged_of_sorts {tag : Int → Int} {values : List Int} (h : Sorts arr sorted) (htag : Marks sorted arr tag)
    (hvalues : ∀ t, Inside sorted t → get values t = get sorted t) (hr : Sorts (arr.map tag) r) :
    Tagged arr (r, values) := by
  have hinside : ∀ t ∈ r, Inside sorted t := by
    intro t ht
    obtain ⟨x, hx, rfl⟩ := List.mem_map.mp (hr.perm.mem_iff.mp ht)
    exact (htag x hx).1
  have hdecode : r.map (get values) = r.map (get sorted) := List.map_congr_left fun t ht => hvalues t (hinside t ht)
  have hback : (arr.map tag).map (get sorted) = arr := by
    rw [List.map_map]
    exact (List.map_congr_left fun x hx => (htag x hx).2).trans (List.map_id _)
  refine ⟨fun t ht => ?_, hr.sorted, ?_⟩
  · have hin := hinside t ht
    rwa [Inside, h.perm.length_eq] at hin
  · rw [hdecode]
    refine ⟨List.pairwise_map.mpr (hr.sorted.imp_of_mem fun {t u} ht hu hle => ?_), ?_⟩
    · rcases Int.lt_or_eq_of_le hle with hlt | rfl
      · exact get_rel h.sorted (hinside t ht).1 hlt (hinside u hu).2
      · exact Int.le_refl _
    · have hperm := hr.perm.map (get sorted)
      rwa [hback] at hperm

/-- Where the tags go from there. -/
theorem hybrid2Sort_eq {qsort : List Int → List Int} (hqsort : ∀ l, Sorts l (qsort l))
    (hroom : arr.length ≤ tagToValue.length) :
    ∃ values, (∀ t, Inside (qsort arr) t → get values t = get (qsort arr) t) ∧
      ∀ turns, hybrid2Sort qsort turns arr arr.length tagToValue =
        (binarySearchAndTag turns (qsort arr) arr arr.length).bind fun tags =>
          (if arr.length ≤ 5 then insertionSort tags 0 (arr.length - 1)
          else if arr.length ≤ 100 then greedyChunkSort turns tags arr.length 5
          else greedyChunkSort turns tags arr.length 11).map fun r => (r, values) := by
  obtain ⟨values, hloop, hvalues⟩ := tagToValue_ends (hqsort arr).perm.length_eq hroom
  refine ⟨values, hvalues, fun turns => ?_⟩
  rw [hybrid2Sort, tagArray, segment_all, hloop]
  simp only [Option.bind_eq_bind, Option.bind_some]
  cases binarySearchAndTag turns (qsort arr) arr arr.length with
  | none => rfl
  | some tags =>
    simp only [Option.bind_some]
    by_cases hfive : arr.length ≤ 5
    · rw [if_pos hfive, if_pos (by omega)]
      exact Option.map_eq_bind.symm
    · rw [if_neg hfive, if_neg (by omega)]
      by_cases hhundred : arr.length ≤ 100
      · rw [if_pos hhundred, if_pos (by omega)]
        exact Option.map_eq_bind.symm
      · rw [if_neg hhundred, if_neg (by omega)]
        exact Option.map_eq_bind.symm

/-- More than five tags are sorted in chunks, which takes that they are all different. -/
theorem chunks_cases (tags : List Int) (hfive : 5 < tags.length) (hint : tags.length < 2 ^ 31)
    (hturns : tags.length < turns) :
    ((if tags.length ≤ 100 then greedyChunkSort turns tags tags.length 5
        else greedyChunkSort turns tags tags.length 11) = none ∧
      ¬(tags.length ≤ 2 ^ 30 ∧ tags.Nodup ∧ ∀ v ∈ tags, 0 ≤ v ∧ v < tags.length)) ∨
    ∃ vs, (if tags.length ≤ 100 then greedyChunkSort turns tags tags.length 5
        else greedyChunkSort turns tags tags.length 11) = some vs ∧ tags.Nodup ∧ Sorts tags vs := by
  split
  · rcases greedyChunkSort_cases 5 (by decide) (by omega) hturns with ⟨hnone, hnot⟩ | hsome
    · exact Or.inl ⟨hnone, fun h => hnot h.2⟩
    · exact Or.inr hsome
  · rcases Nat.lt_or_ge (tags.length + 10) (2 ^ 31) with hlt | hge
    · rcases greedyChunkSort_cases 11 (by decide) (by omega) hturns with ⟨hnone, hnot⟩ | hsome
      · exact Or.inl ⟨hnone, fun h => hnot h.2⟩
      · exact Or.inr hsome
    · exact Or.inl ⟨greedyChunkSort_wide (List.length_pos_iff.mp (by omega)) hint (by omega), fun h => by omega⟩

variable {qsort : List Int → List Int}

theorem hybrid2Sort_few (hqsort : ∀ l, Sorts l (qsort l)) (hfive : arr.length ≤ 5)
    (hroom : arr.length ≤ tagToValue.length) (hturns : arr.length < turns) :
    Ends (hybrid2Sort qsort turns arr arr.length tagToValue) (Tagged arr) := by
  obtain ⟨values, hvalues, heq⟩ := hybrid2Sort_eq hqsort hroom
  obtain ⟨tag, hmarks, htags⟩ := tags_ends (hqsort arr) (by omega) hturns
  obtain ⟨r, hr, hrsorts⟩ := insertionSort_all (arr.map tag)
  rw [List.length_map] at hr
  rw [heq, htags, Option.bind_some, if_pos hfive, hr]
  exact .some (tagged_of_sorts (hqsort arr) hmarks hvalues hrsorts)

theorem hybrid2Sort_distinct (hqsort : ∀ l, Sorts l (qsort l)) (hfive : 5 < arr.length) (harr : arr.Nodup)
    (hint : arr.length ≤ 2 ^ 30) (hroom : arr.length ≤ tagToValue.length) (hturns : arr.length < turns) :
    Ends (hybrid2Sort qsort turns arr arr.length tagToValue) (Tagged arr) := by
  obtain ⟨values, hvalues, heq⟩ := hybrid2Sort_eq hqsort hroom
  obtain ⟨tag, hmarks, htags⟩ := tags_ends (hqsort arr) hint hturns
  have hlen : (arr.map tag).length = arr.length := List.length_map tag
  have hnodup : (arr.map tag).Nodup := by
    refine List.Nodup.map_on (fun x hx y hy htag => ?_) harr
    rw [← (hmarks x hx).2, ← (hmarks y hy).2, htag]
  have hinside : ∀ v ∈ arr.map tag, 0 ≤ v ∧ v < (arr.map tag).length := by
    intro v hv
    obtain ⟨x, hx, rfl⟩ := List.mem_map.mp hv
    have hin := (hmarks x hx).1
    rwa [Inside, (hqsort arr).perm.length_eq, ← hlen] at hin
  rw [heq, htags, Option.bind_some, if_neg (by omega)]
  rcases chunks_cases (arr.map tag) (by omega) (by omega) (hlen ▸ hturns) with ⟨-, hnot⟩ | ⟨r, hr, -, hrsorts⟩
  · exact absurd ⟨by omega, hnodup, hinside⟩ hnot
  · rw [hlen] at hr
    rw [hr]
    exact .some (tagged_of_sorts (hqsort arr) hmarks hvalues hrsorts)

/-- An element that shares its tag is left out, and a search among too many elements reads outside of them. -/
theorem hybrid2Sort_none (hqsort : ∀ l, Sorts l (qsort l)) (hfive : 5 < arr.length)
    (hbad : ¬(arr.Nodup ∧ arr.length ≤ 2 ^ 30)) (hint : arr.length < 2 ^ 31) (hroom : arr.length ≤ tagToValue.length)
    (hturns : arr.length < turns) : hybrid2Sort qsort turns arr arr.length tagToValue = none := by
  obtain ⟨values, hvalues, heq⟩ := hybrid2Sort_eq hqsort hroom
  rw [heq]
  cases htags : binarySearchAndTag turns (qsort arr) arr arr.length with
  | none => rfl
  | some tags =>
    obtain ⟨tag, rfl⟩ := tags_eq htags
    have hlen : (arr.map tag).length = arr.length := List.length_map tag
    have hcases := chunks_cases (arr.map tag) (by omega) (by omega) (hlen ▸ hturns)
    rw [hlen] at hcases
    rw [Option.bind_some, if_neg (by omega)]
    rcases hcases with ⟨hnone, -⟩ | ⟨r, -, hnodup, -⟩
    · rw [hnone]
      rfl
    · -- then the elements are different, so they are too many for the search
      have harr := List.Nodup.of_map tag hnodup
      have hlarge : 2 ^ 30 < arr.length := Nat.lt_of_not_le fun hle => hbad ⟨harr, hle⟩
      rw [tags_none (hqsort arr) harr hlarge hint] at htags
      cases htags

end Run

end Hybrid2

open Hybrid2

theorem hybrid2_sort_iff (qsort : List Int → List Int) (hqsort : ∀ l, Sorts l (qsort l)) (arr tagToValue : List Int)
    (hint : arr.length < 2 ^ 31) (hroom : arr.length ≤ tagToValue.length) :
    Halts (fun turns => hybrid2Sort qsort turns arr arr.length tagToValue) (Tagged arr) ↔
      arr.length ≤ 5 ∨ arr.Nodup ∧ arr.length ≤ 2 ^ 30 := by
  rcases Nat.lt_or_ge 5 arr.length with hfive | hfive
  · rw [or_iff_right (Nat.not_le_of_lt hfive)]
    by_cases hgood : arr.Nodup ∧ arr.length ≤ 2 ^ 30
    · exact iff_of_true ⟨arr.length + 1, fun turns hturns =>
        hybrid2Sort_distinct hqsort hfive hgood.1 hgood.2 hroom hturns⟩ hgood
    · exact iff_of_false (not_halts_of_none (arr.length + 1) fun turns hturns =>
        hybrid2Sort_none hqsort hfive hgood hint hroom hturns) hgood
  · exact iff_of_true ⟨arr.length + 1, fun turns hturns => hybrid2Sort_few hqsort hfive hroom hturns⟩ (Or.inl hfive)

/-- Six elements are tagged and put into chunks. -/
theorem hybrid2_sort_iff_six :
    Halts (fun turns => hybrid2Sort (fun l => l.mergeSort fun x y => decide (x ≤ y)) turns [6, 2, 5, -4, 1, 3]
      ([6, 2, 5, -4, 1, 3] : List Int).length [0, 0, 0, 0, 0, 0]) (Tagged [6, 2, 5, -4, 1, 3]) :=
  (hybrid2_sort_iff _ sorts_mergeSort [6, 2, 5, -4, 1, 3] [0, 0, 0, 0, 0, 0] (by decide) (by decide)).mpr
    (Or.inr ⟨by decide, by decide⟩)

/-- Six elements, two of them equal. -/
theorem hybrid2_sort_equal : ¬∀ (qsort : List Int → List Int) (arr tagToValue : List Int), (∀ l, Sorts l (qsort l)) →
    arr ≠ [] → arr.length < 2 ^ 31 → arr.length ≤ tagToValue.length →
    Halts (fun turns => hybrid2Sort qsort turns arr arr.length tagToValue) (Tagged arr) := fun h =>
  not_halts_of_none 7 (fun turns hturns =>
    hybrid2Sort_none sorts_mergeSort (by decide) (by decide) (by decide) (by decide) hturns)
    (h _ [1, 2, 3, 4, 5, 5] [0, 0, 0, 0, 0, 0] sorts_mergeSort nofun (by decide) (by decide))

end Minitalk.Libft.Sort
