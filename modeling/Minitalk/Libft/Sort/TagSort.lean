import Mathlib.Data.List.Sort
import Mathlib.Data.Prod.Lex
import Mathlib.Data.Int.Order.Basic
import Minitalk.Lib.Ranks

/-! # Sorting by ranks (`tag_sort`)

An element is tagged with the number of those that go before it, where of two equal elements the first one does.
`ok` says which of the two calls of `malloc` succeed. -/

namespace Minitalk.Libft.Sort
open CArray Program Ranks

structure TaggedElement where
  value : Int
  tag : Int

/-- The inner loop of `create_tagged_array`. -/
def rankOf (arr : List Int) (size i : Int) : Option Int :=
  forUp 0 size (fun j rank => do
    let x ← load arr j
    let y ← load arr i
    if x < y ∨ x = y ∧ j < i then some (rank + 1) else some rank) 0

def createTaggedArray (arr : List Int) (size : Int) : Option (List (Option TaggedElement)) :=
  forUp 0 size (fun i tag => do
    let rank ← rankOf arr size i
    store tag i (some { value := ← load arr i, tag := rank })) (List.replicate size.toNat none)

def placeByTags (ok : Bool) (arr : List Int) (tagged : List (Option TaggedElement)) (size : Int) : Option (List Int) :=
  if !ok then some arr
  else do
    let tempArr ← forUp 0 size (fun i tempArr => do
      let t ← (← load tagged i)
      if 0 ≤ t.tag ∧ t.tag < size then store tempArr t.tag (some t.value) else some tempArr)
      (List.replicate size.toNat none)
    forUp 0 size (fun i arr => do store arr i (← (← load tempArr i))) arr

def tagSort (ok : Nat → Bool) (arr : List Int) (size : Int) : Option (List Int) :=
  if !ok 0 then some arr else do placeByTags (ok 1) arr (← createTaggedArray arr size) size

section Tags
variable {a : List Int} {i : Int}

/-- The elements with their indices, as they are compared. -/
def keyed (a : List Int) (n : Nat) : List (Int ×ₗ Int) := (List.range n).map fun j : Nat => toLex (get a j, (j : Int))

/-- The number of elements that go before the one at `i`. -/
def rank (a : List Int) (i : Int) : Nat := below (keyed a a.length) (toLex (get a i, i))

theorem rankOf_eq (hin : Inside a i) : rankOf a a.length i = some (rank a i : Int) := by
  have hends : Ends (rankOf a a.length i) fun r =>
      r = (below (keyed a (a.length : Int).toNat) (toLex (get a i, i)) : Int) := by
    refine forUp_rule (fun j r => r = (below (keyed a j.toNat) (toLex (get a i, i)) : Int)) (Int.natCast_nonneg _)
      rfl ?_
    rintro j _ hj hj' rfl
    have hinj : Inside a j := ⟨hj, hj'⟩
    obtain ⟨n, rfl⟩ := Int.eq_ofNat_of_zero_le hj
    have hnext : keyed a ((n : Int) + 1).toNat = keyed a n ++ [toLex (get a n, (n : Int))] := by
      rw [show ((n : Int) + 1).toNat = n + 1 by omega, keyed, List.range_succ, List.map_append]
      rfl
    simp only [load_eq hinj, load_eq hin, Option.bind_eq_bind, Option.bind_some]
    rw [hnext, below_append, below_cons, Int.toNat_natCast]
    split
    · rename_i hlt
      rw [if_pos (Prod.Lex.toLex_lt_toLex.mpr hlt)]
      exact .some (by simp [below])
    · rename_i hnot
      rw [if_neg fun hlt => hnot (Prod.Lex.toLex_lt_toLex.mp hlt)]
      exact .some (by simp [below])
  obtain ⟨_, hrun, rfl⟩ := hends
  rw [hrun, Int.toNat_natCast]
  rfl

/-- The ranks are the indices in the sorted array, and each index is one of them. -/
structure Ranked (a s : List Int) : Prop where
  sorts : Sorts a s
  range : ∀ i, Inside a i → rank a i < a.length
  placed : ∀ i, Inside a i → get s (rank a i) = get a i
  reached : ∀ k, Inside a k → ∃ i, Inside a i ∧ rank a i = k

theorem keyed_nodup (a : List Int) (n : Nat) : (keyed a n).Nodup := by
  refine List.Nodup.map (fun j j' heq => ?_) List.nodup_range
  have hsecond : ((j : Nat) : Int) = (j' : Nat) := congrArg (fun p : Int ×ₗ Int => (ofLex p).2) heq
  omega

theorem map_keyed (a : List Int) : (keyed a a.length).map (fun p => (ofLex p).1) = a := by
  refine List.ext_getElem (by simp [keyed]) fun n hn hn' => ?_
  simp only [keyed, List.map_map, List.getElem_map, List.getElem_range]
  exact get_eq_getElem ⟨Int.natCast_nonneg n, by omega⟩ hn'

theorem mem_keyed {p : Int ×ₗ Int} : p ∈ keyed a a.length ↔ ∃ i, Inside a i ∧ p = toLex (get a i, i) := by
  rw [keyed, List.mem_map]
  constructor
  · rintro ⟨n, hn, rfl⟩
    exact ⟨n, ⟨Int.natCast_nonneg n, by have := List.mem_range.mp hn; omega⟩, rfl⟩
  · rintro ⟨i, ⟨h0, hlt⟩, rfl⟩
    obtain ⟨n, rfl⟩ := Int.eq_ofNat_of_zero_le h0
    exact ⟨n, List.mem_range.mpr (by omega), rfl⟩

theorem exists_ranked (a : List Int) : ∃ s, Ranked a s := by
  have hperm : ((keyed a a.length).insertionSort (· ≤ ·)).Perm (keyed a a.length) := List.perm_insertionSort _ _
  have hle := List.pairwise_insertionSort (α := Int ×ₗ Int) (· ≤ ·) (keyed a a.length)
  have hnodup := hperm.nodup_iff.mpr (keyed_nodup a a.length)
  generalize (keyed a a.length).insertionSort (· ≤ ·) = m at hperm hle hnodup
  have hlt : m.Pairwise (· < ·) := (hle.and hnodup).imp fun ⟨hle, hne⟩ => lt_of_le_of_ne hle hne
  have hlen : m.length = a.length := by rw [hperm.length_eq, keyed, List.length_map, List.length_range]
  have hrank : ∀ i (k : Nat) (hk : k < m.length), m[k] = toLex (get a i, i) → rank a i = k := fun i k hk heq => by
    rw [rank, ← heq, ← below_perm hperm, below_getElem hlt hk]
  have hcell : ∀ i (k : Nat) (hk : k < m.length), m[k] = toLex (get a i, i) →
      get (m.map fun p => (ofLex p).1) k = get a i := fun i k hk heq => by
    rw [get_natCast, List.getD_eq_getElem?_getD, List.getElem?_map, List.getElem?_eq_getElem hk, heq]
    rfl
  have hindex : ∀ i, Inside a i → ∃ (k : Nat) (hk : k < m.length), m[k] = toLex (get a i, i) := fun i hin => by
    obtain ⟨k, hk, heq⟩ := List.getElem_of_mem (hperm.mem_iff.mpr (mem_keyed.mpr ⟨i, hin, rfl⟩))
    exact ⟨k, hk, heq⟩
  refine ⟨m.map fun p => (ofLex p).1, ⟨?_, ?_⟩, fun i hin => ?_, fun i hin => ?_, fun k hin => ?_⟩
  · refine List.pairwise_map.mpr (hlt.imp fun {p q} hpq => ?_)
    rcases Prod.Lex.toLex_lt_toLex.mp (show toLex (ofLex p) < toLex (ofLex q) from hpq) with hless | ⟨heq, -⟩
    · exact Int.le_of_lt hless
    · exact Int.le_of_eq heq
  · have hmap := hperm.map fun p => (ofLex p).1
    rwa [map_keyed] at hmap
  · obtain ⟨k, hk, heq⟩ := hindex i hin
    rw [hrank i k hk heq]
    omega
  · obtain ⟨k, hk, heq⟩ := hindex i hin
    rw [hrank i k hk heq, hcell i k hk heq]
  · obtain ⟨n, rfl⟩ := Int.eq_ofNat_of_zero_le hin.1
    have hn : n < m.length := by have := hin.2; omega
    obtain ⟨i, hin', heq⟩ := mem_keyed.mp (hperm.mem_iff.mp (List.getElem_mem hn))
    exact ⟨i, hin', congrArg Int.ofNat (hrank i n hn heq)⟩

/-- The tags that `create_tagged_array` gives. -/
def tagsOf (a : List Int) : List (Option TaggedElement) :=
  (List.range a.length).map fun i : Nat => some { value := get a i, tag := rank a i }

@[simp] theorem length_tagsOf (a : List Int) : (tagsOf a).length = a.length := by simp [tagsOf]

theorem get_tagsOf (hin : Inside a i) : get (tagsOf a) i = some { value := get a i, tag := rank a i } := by
  obtain ⟨n, rfl⟩ := Int.eq_ofNat_of_zero_le hin.1
  have hn : n < a.length := by have := hin.2; omega
  rw [get_natCast, List.getD_eq_getElem?_getD, tagsOf, List.getElem?_map, List.getElem?_range hn]
  rfl

theorem createTaggedArray_eq (a : List Int) : createTaggedArray a a.length = some (tagsOf a) := by
  have hcopy : forUp 0 (tagsOf a).length (fun i tag => do
      let rank ← rankOf a a.length i
      store tag i (some { value := ← load a i, tag := rank })) (List.replicate (a.length : Int).toNat none) =
      some (tagsOf a) := forUp_copy (by simp) fun i tag hi hi' => by
    have hin : Inside a i := ⟨hi, by simpa using hi'⟩
    simp only [rankOf_eq hin, load_eq hin, get_tagsOf hin, Option.bind_eq_bind, Option.bind_some]
  rw [length_tagsOf] at hcopy
  exact hcopy

/-- Each rank's cell gets the element that the sorted array has there. -/
theorem place_ends {s : List Int} (h : Ranked a s) : Ends (forUp 0 a.length (fun i tempArr => do
    let t ← (← load (tagsOf a) i)
    if 0 ≤ t.tag ∧ t.tag < a.length then store tempArr t.tag (some t.value) else some tempArr)
    (List.replicate (a.length : Int).toNat none)) (· = s.map some) := by
  have hlens : s.length = a.length := h.sorts.perm.length_eq
  refine (forUp_rule (fun i (t : List (Option Int)) => t.length = a.length ∧
    ∀ j, 0 ≤ j → j < i → get t (rank a j) = some (get a j)) (Int.natCast_nonneg _)
    ⟨by simp, fun j h0 hj => by omega⟩ ?_).mono ?_
  · rintro i t hi hi' ⟨hlent, hcells⟩
    have hin : Inside a i := ⟨hi, hi'⟩
    have hrange := h.range i hin
    have hin' : Inside t (rank a i) := ⟨Int.natCast_nonneg _, by omega⟩
    have hload : load (tagsOf a) i = some (some { value := get a i, tag := rank a i }) := by
      rw [load_eq ⟨hi, by simpa using hi'⟩, get_tagsOf hin]
    simp only [hload, Option.bind_eq_bind, Option.bind_some]
    rw [if_pos ⟨Int.natCast_nonneg _, by omega⟩, store_eq hin']
    refine .some ⟨(length_put t _ _).trans hlent, fun j h0 hj => ?_⟩
    rw [get_put hin']
    split
    · -- equal ranks are of equal elements
      rename_i heq
      rw [← h.placed i hin, ← h.placed j ⟨h0, by omega⟩, heq]
    · rename_i hne
      refine hcells j h0 ?_
      rcases Int.lt_or_eq_of_le (Int.le_of_lt_add_one hj) with hlt | rfl
      · exact hlt
      · exact absurd rfl hne
  · rintro t ⟨hlent, hcells⟩
    refine List.ext_getElem (by rw [hlent, List.length_map, hlens]) fun n hn hn' => ?_
    obtain ⟨i, hin, heq⟩ := h.reached n ⟨Int.natCast_nonneg n, by omega⟩
    have hcell := hcells i hin.1 hin.2
    have hplaced := h.placed i hin
    rw [heq] at hcell hplaced
    rw [get_eq_getElem ⟨Int.natCast_nonneg n, by omega⟩ (by omega)] at hcell hplaced
    rw [List.getElem_map]
    simp only [Int.toNat_natCast] at hcell hplaced
    rw [hcell, hplaced]

/-- Without memory for the tags, or for the array that they are placed in, nothing is done. -/
theorem tagSort_sorts (ok : Nat → Bool) (arr : List Int) :
    Ends (tagSort ok arr arr.length) fun b => if ok 0 && ok 1 then Sorts arr b else b = arr := by
  rw [tagSort]
  cases ok 0 with
  | false => exact .some rfl
  | true =>
    rw [if_neg (by decide), createTaggedArray_eq, Option.bind_eq_bind, Option.bind_some, placeByTags]
    cases ok 1 with
    | false => exact .some rfl
    | true =>
      rw [if_neg (by decide)]
      obtain ⟨s, hs⟩ := exists_ranked arr
      obtain ⟨t, htemp, rfl⟩ := place_ends hs
      have hlen : s.length = arr.length := hs.sorts.perm.length_eq
      have hcopy : forUp 0 s.length (fun i b => do store b i (← (← load (s.map some) i))) arr = some s :=
        forUp_written hlen.symm
      rw [hlen] at hcopy
      rw [htemp, Option.bind_eq_bind, Option.bind_some, hcopy]
      exact .some hs.sorts

end Tags

end Minitalk.Libft.Sort
