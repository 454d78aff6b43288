import Mathlib.Data.Int.Order.Basic
import Minitalk.Lib.CArray
import Minitalk.Lib.Merging
import Minitalk.Lib.Ownership

/-! # The merge of two ranges (`merge`)

The array is a list, and the two copies are blocks on a heap. `ok` says which calls of `malloc` succeed, in the order of
the calls. -/

namespace Minitalk.Libft.Sort
open CArray Heap Merging Program

/-- The array, the heap and the number of calls of `malloc` so far. -/
structure Memory where
  arr : List Int
  heap : Heap Int
  calls : Nat

/-- `p[i]` -/
def cell (heap : Heap Int) (p : Ptr) (i : Int) : Option Int := if 0 ≤ i then heap.peek p i.toNat else none

/-- `count` elements from `start` on, behind the first cell of a copy. -/
def fill (arr : List Int) (p : Ptr) (start count : Int) (heap : Heap Int) : Option (Heap Int) :=
  forUp 0 count (fun i heap => do some (heap.store p (i + 1).toNat (← load arr (start + i)))) heap

def fillLeft (arr : List Int) (left : Ptr) (l m : Int) (heap : Heap Int) : Option (Heap Int) :=
  fill arr left l (m - l + 1) heap

def fillRight (arr : List Int) (right : Ptr) (m r : Int) (heap : Heap Int) : Option (Heap Int) :=
  fill arr right (m + 1) (r - m) heap

/-- The first loop of `merge_arrays`. -/
def mergeBoth (heap : Heap Int) (left right : Ptr) (len1 len2 : Int) (arr : List Int) (i j k : Int) :
    Option (List Int × Int × Int × Int) :=
  if i ≤ len1 ∧ j ≤ len2 then do
    let x ← cell heap left i
    let y ← cell heap right j
    if x ≤ y then mergeBoth heap left right len1 len2 (← store arr k x) (i + 1) j (k + 1)
    else mergeBoth heap left right len1 len2 (← store arr k y) i (j + 1) (k + 1)
  else some (arr, i, j, k)
termination_by (len1 + 1 - i).toNat + (len2 + 1 - j).toNat

/-- One of the loops that copy what is left. -/
def copyRest (heap : Heap Int) (p : Ptr) (len : Int) (arr : List Int) (i k : Int) : Option (List Int × Int) :=
  if i ≤ len then do
    let x ← cell heap p i
    copyRest heap p len (← store arr k x) (i + 1) (k + 1)
  else some (arr, k)
termination_by (len + 1 - i).toNat

/-- The other two, from where the first one ends. -/
def copyRests (heap : Heap Int) (left right : Ptr) (len1 len2 : Int) (s : List Int × Int × Int × Int) :
    Option (List Int) := do
  let (arr, i, j, k) := s
  let (arr, k) ← copyRest heap left len1 arr i k
  let (arr, _) ← copyRest heap right len2 arr j k
  some arr

def mergeArrays (heap : Heap Int) (arr : List Int) (left right : Ptr) (l : Int) : Option (List Int) := do
  let len1 ← cell heap left 0
  let len2 ← cell heap right 0
  copyRests heap left right len1 len2 (← mergeBoth heap left right len1 len2 arr 1 1 l)

/-- What follows when both copies were allocated. -/
def mergeCopies (heap : Heap Int) (arr : List Int) (left right : Ptr) (l m r : Int) :
    Option (List Int × Heap Int) := do
  let heap := (heap.store left 0 (m - l + 1)).store right 0 (r - m)
  let heap ← fillLeft arr left l m heap
  let heap ← fillRight arr right m r heap
  let arr ← mergeArrays heap arr left right l
  some (arr, (heap.free left).free right)

def merge (ok : Nat → Bool) (l m r : Int) (s : Memory) : Option Memory :=
  let len1 := m - l + 1
  let len2 := r - m
  let (heap, left) := s.heap.tryMalloc (ok s.calls) (len1 + 1).toNat
  let (heap, right) := heap.tryMalloc (ok (s.calls + 1)) (len2 + 1).toNat
  if left = none ∨ right = none then
    some { s with heap := release right (release left heap), calls := s.calls + 2 }
  else do
    let (arr, heap) ← mergeCopies heap s.arr left right l m r
    some { arr, heap, calls := s.calls + 2 }

def ftMergeSort (ok : Nat → Bool) (l r : Int) (s : Memory) : Option Memory :=
  if l < r then do
    let m := l + (r - l) / 2
    let s ← ftMergeSort ok l m s
    let s ← ftMergeSort ok (m + 1) r s
    merge ok l m r s
  else some s
termination_by (r - l).toNat

section Merge
variable {arr b : List Int} {heap heap' : Heap Int} {p q n : Nat} {l m r start count i k : Int}
  {xs ys pre post : List Int}

/-- A copy: its length, and its elements. -/
def copyOf (len : Int) (xs : List Int) : List (Option Int) := some len :: xs.map some

theorem cell_copyOf {len x : Int} (hat : heap.At (some p) (copyOf len (pre ++ x :: xs))) (hi : i = pre.length + 1) :
    cell heap (some p) i = some x := by
  have hindex : i.toNat = pre.length + 1 := by omega
  rw [cell, if_pos (by omega), hindex]
  refine hat.peek_of_getElem? ?_
  rw [copyOf, List.getElem?_cons_succ, List.map_append, List.getElem?_append_right (by simp)]
  simp

/-- The elements are copied behind the length. -/
theorem fill_ends {len : Int} (hat : heap.At (some p) (some len :: List.replicate count.toNat none)) (h0 : 0 ≤ start)
    (hcount : 0 ≤ count) (hlen : start + count ≤ arr.length) :
    Ends (fill arr (some p) start count heap) fun heap' =>
      heap'.At (some p) (copyOf len (segment arr start (start + count))) ∧ KeepsOff [p] heap heap' ∧
        ∀ as, OwnsAll n as heap → OwnsAll n as heap' := by
  refine (forUp_rule (fun i heap' => heap'.At (some p)
    (some len :: (segment arr start (start + i)).map some ++ List.replicate (count - i).toNat none) ∧
    KeepsOff [p] heap heap' ∧ ∀ as, OwnsAll n as heap → OwnsAll n as heap') hcount ?_ ?_).mono ?_
  · rw [Int.add_zero, segment_of_le (Int.le_refl start), Int.sub_zero]
    exact ⟨hat, fun _ _ _ h => h, fun _ h => h⟩
  · rintro i heap' hi hlt ⟨hat', hkeep, howns⟩
    have hin : Inside arr (start + i) := ⟨by omega, by omega⟩
    have hseg := length_segment h0 (by omega : start ≤ start + i) (by omega : start + i ≤ arr.length)
    have hindex : (some len :: (segment arr start (start + i)).map some).length = (i + 1).toNat := by
      rw [List.length_cons, List.length_map]
      omega
    have hrest : (count - i).toNat = (count - (i + 1)).toNat + 1 := by omega
    rw [hrest, List.replicate_succ] at hat'
    have hstore := hat'.stores _ (get arr (start + i))
    rw [hindex] at hstore
    rw [load_eq hin, Option.bind_eq_bind, Option.bind_some]
    refine .some ⟨?_, hkeep.trans hstore.2, fun as h => (howns as h).store hat' ?_ _⟩
    · rw [← Int.add_assoc, segment_concat h0 (by omega) hin.2, List.map_append, ← List.cons_append]
      simpa using hstore.1
    · rw [← hindex]
      simp
  · rintro heap' ⟨hat', hkeep, howns⟩
    rw [Int.sub_self, Int.toNat_zero, List.replicate_zero, List.append_nil] at hat'
    exact ⟨hat', hkeep, howns⟩

/-- These elements were written, from the cell `k` on. -/
structure Wrote (b : List Int) (k : Int) (vs : List Int) (b' : List Int) : Prop where
  length : b'.length = b.length
  kept : ∀ c, c < k ∨ k + vs.length ≤ c → get b' c = get b c
  cells : segment b' k (k + vs.length) = vs

theorem wrote_nil (b : List Int) (k : Int) : Wrote b k [] b :=
  ⟨rfl, fun _ _ => rfl, segment_of_le (by rw [List.length_nil]; omega)⟩

theorem Wrote.cons {b' vs : List Int} {v : Int} (h : Wrote (put b k v) (k + 1) vs b') (hin : Inside b k)
    (hroom : k + 1 + vs.length ≤ b.length) : Wrote b k (v :: vs) b' := by
  obtain ⟨hlen, hkept, hcells⟩ := h
  rw [length_put] at hlen
  have hnext : k + ((v :: vs).length : Int) = k + 1 + vs.length := by
    rw [List.length_cons]
    omega
  refine ⟨hlen, fun c hc => ?_, ?_⟩
  · rw [hkept c (by omega), get_put_ne hin (by omega)]
  · rw [hnext, segment_cons hin.1 (by omega) (by omega), hcells, hkept k (Or.inl (by omega)), get_put_self hin]

theorem Wrote.append {b' b'' vs ws : List Int} (h : Wrote b k vs b') (h' : Wrote b' (k + vs.length) ws b'') (hk : 0 ≤ k)
    (hroom : k + vs.length + ws.length ≤ b.length) : Wrote b k (vs ++ ws) b'' := by
  have hend : k + ((vs ++ ws).length : Int) = k + vs.length + ws.length := by
    rw [List.length_append]
    omega
  have hlen := h.length
  have hlen' := h'.length
  refine ⟨hlen'.trans hlen, fun c hc => ?_, ?_⟩
  · rw [h'.kept c (by omega), h.kept c (by omega)]
  · have hsame : segment b'' k (k + vs.length) = vs := by
      rw [segment_congr hlen' hk (by omega) fun c _ hc => h'.kept c (Or.inl hc), h.cells]
    rw [hend, segment_append hk (by omega : k ≤ k + vs.length) (by omega), hsame, h'.cells]

/-- What is left of a copy goes out. -/
theorem copyRest_wrote {len : Int} (hat : heap.At (some p) (copyOf len (pre ++ xs))) (hlen : len = (pre ++ xs).length)
    (hi : i = pre.length + 1) (hk : 0 ≤ k) (hroom : k + xs.length ≤ b.length) :
    Ends (copyRest heap (some p) len b i k) fun s => s.2 = k + xs.length ∧ Wrote b k xs s.1 := by
  induction xs generalizing pre b i k with
  | nil =>
    rw [List.append_nil] at hlen
    rw [copyRest, if_neg (by omega)]
    exact .some ⟨(Int.add_zero k).symm, wrote_nil b k⟩
  | cons x xs ih =>
    have hin : Inside b k := ⟨hk, by simp only [List.length_cons] at hroom; omega⟩
    have hgoes : i ≤ len := by
      simp only [List.length_append, List.length_cons] at hlen
      omega
    have hpre : pre ++ x :: xs = (pre ++ [x]) ++ xs := by simp
    simp only [List.length_cons] at hroom ⊢
    rw [copyRest, if_pos hgoes]
    simp only [cell_copyOf hat hi, store_eq hin, Option.bind_eq_bind, Option.bind_some]
    rw [hpre] at hat hlen
    refine (ih hat hlen (by rw [List.length_append, List.length_singleton]; omega) (by omega)
      (by rw [length_put]; omega)).mono fun s ⟨hend, hwrote⟩ => ⟨by omega, hwrote.cons hin (by omega)⟩

section Loops
variable {len1 len2 j : Int} {qre : List Int}

theorem copyRests_wrote (hleft : heap.At (some p) (copyOf len1 (pre ++ xs)))
    (hright : heap.At (some q) (copyOf len2 (qre ++ ys))) (hlen1 : len1 = (pre ++ xs).length)
    (hlen2 : len2 = (qre ++ ys).length) (hi : i = pre.length + 1) (hj : j = qre.length + 1) (hk : 0 ≤ k)
    (hroom : k + xs.length + ys.length ≤ b.length) :
    Ends (copyRests heap (some p) (some q) len1 len2 (b, i, j, k)) (Wrote b k (xs ++ ys)) := by
  refine (copyRest_wrote hleft hlen1 hi hk (by omega)).bind ?_
  rintro ⟨c, k'⟩ ⟨rfl, hwrote⟩
  have hlen : c.length = b.length := hwrote.length
  refine (copyRest_wrote hright hlen2 hj (by omega) (by omega)).bind ?_
  rintro ⟨d, _⟩ ⟨-, hwrote'⟩
  exact .some (hwrote.append hwrote' hk hroom)

/-- The first loop stops when one copy went out. -/
theorem mergeBoth_stop (hlen1 : len1 = (pre ++ xs).length) (hlen2 : len2 = (qre ++ ys).length)
    (hi : i = pre.length + 1) (hj : j = qre.length + 1) (hempty : xs = [] ∨ ys = []) :
    mergeBoth heap (some p) (some q) len1 len2 b i j k = some (b, i, j, k) := by
  rcases hempty with rfl | rfl
  · rw [mergeBoth, if_neg (by rw [List.append_nil] at hlen1; omega)]
  · rw [mergeBoth, if_neg (by rw [List.append_nil] at hlen2; omega)]

/-- The loops write the merge of what is left of both copies. -/
theorem mergeBoth_wrote (hleft : heap.At (some p) (copyOf len1 (pre ++ xs)))
    (hright : heap.At (some q) (copyOf len2 (qre ++ ys))) (hlen1 : len1 = (pre ++ xs).length)
    (hlen2 : len2 = (qre ++ ys).length) (hi : i = pre.length + 1) (hj : j = qre.length + 1) (hk : 0 ≤ k)
    (hroom : k + xs.length + ys.length ≤ b.length) :
    Ends ((mergeBoth heap (some p) (some q) len1 len2 b i j k).bind (copyRests heap (some p) (some q) len1 len2))
      (Wrote b k (mergeBy id xs ys)) := by
  induction hn : xs.length + ys.length generalizing pre qre xs ys b i j k with
  | zero =>
    obtain rfl : xs = [] := List.eq_nil_of_length_eq_zero (by omega)
    rw [mergeBoth_stop hlen1 hlen2 hi hj (Or.inl rfl), mergeBy_nil_left]
    exact copyRests_wrote hleft hright hlen1 hlen2 hi hj hk hroom
  | succ n ih =>
    cases xs with
    | nil =>
      rw [mergeBoth_stop hlen1 hlen2 hi hj (Or.inl rfl), mergeBy_nil_left]
      exact copyRests_wrote hleft hright hlen1 hlen2 hi hj hk hroom
    | cons x xs =>
      cases ys with
      | nil =>
        have hrests := copyRests_wrote hleft hright hlen1 hlen2 hi hj hk hroom
        rw [List.append_nil] at hrests
        rwa [mergeBoth_stop hlen1 hlen2 hi hj (Or.inr rfl), mergeBy_nil_right]
      | cons y ys =>
        simp only [List.length_cons] at hroom hn
        have hin : Inside b k := ⟨hk, by omega⟩
        have hgoes : i ≤ len1 ∧ j ≤ len2 := by
          simp only [List.length_append, List.length_cons] at hlen1 hlen2
          omega
        have hpre : pre ++ x :: xs = (pre ++ [x]) ++ xs := by simp
        have hqre : qre ++ y :: ys = (qre ++ [y]) ++ ys := by simp
        rw [mergeBoth, if_pos hgoes]
        simp only [cell_copyOf hleft hi, cell_copyOf hright hj, store_eq hin, Option.bind_eq_bind, Option.bind_some]
        by_cases hle : x ≤ y
        · have hcount := (mergeBy_perm id xs (y :: ys)).length_eq
          rw [List.length_append, List.length_cons] at hcount
          rw [if_pos hle, mergeBy_left (show id x ≤ id y from hle)]
          rw [hpre] at hleft hlen1
          refine (ih hleft hright hlen1 hlen2 (by rw [List.length_append, List.length_singleton]; omega) hj (by omega)
            (by rw [length_put, List.length_cons]; omega) (by rw [List.length_cons]; omega)).mono fun b' h => ?_
          exact h.cons hin (by omega)
        · have hcount := (mergeBy_perm id (x :: xs) ys).length_eq
          rw [List.length_append, List.length_cons] at hcount
          rw [if_neg hle, mergeBy_right (show ¬id x ≤ id y from hle)]
          rw [hqre] at hright hlen2
          refine (ih hleft hright hlen1 hlen2 hi (by rw [List.length_append, List.length_singleton]; omega) (by omega)
            (by rw [length_put, List.length_cons]; omega) (by rw [List.length_cons]; omega)).mono fun b' h => ?_
          exact h.cons hin (by omega)

theorem mergeArrays_wrote (hleft : heap.At (some p) (copyOf xs.length xs))
    (hright : heap.At (some q) (copyOf ys.length ys)) (hl : 0 ≤ l) (hroom : l + xs.length + ys.length ≤ arr.length) :
    Ends (mergeArrays heap arr (some p) (some q) l) (Wrote arr l (mergeBy id xs ys)) := by
  have hlen1 : cell heap (some p) 0 = some xs.length := hleft.peek_of_getElem? rfl
  have hlen2 : cell heap (some q) 0 = some ys.length := hright.peek_of_getElem? rfl
  rw [mergeArrays, hlen1, hlen2]
  exact mergeBoth_wrote (show heap.At (some p) (copyOf xs.length ([] ++ xs)) from hleft)
    (show heap.At (some q) (copyOf ys.length ([] ++ ys)) from hright) rfl rfl rfl rfl hl hroom

end Loops

/-- What a merge keeps, whether its calls of `malloc` succeed or not. -/
structure MergeKeeps (n : Nat) (l r : Int) (s s' : Memory) : Prop where
  rearranged : Rearranged l (r + 1) s.arr s'.arr
  owns : OwnsAll n [] s'.heap
  blocks : n ≤ s'.heap.blocks.length

/-- The length is written to the first cell of a block. -/
theorem store_length {heap : Heap Int} {a : Nat} (len : Int)
    (hat : heap.At (some a) (List.replicate (k + 1).toNat none)) (hk : 0 ≤ k) :
    (heap.store (some a) 0 len).At (some a) (some len :: List.replicate k.toNat none) ∧
      KeepsOff [a] heap (heap.store (some a) 0 len) ∧
      ∀ as, OwnsAll n as heap → OwnsAll n as (heap.store (some a) 0 len) := by
  have hcells : (k + 1).toNat = k.toNat + 1 := by omega
  rw [hcells, List.replicate_succ] at hat
  obtain ⟨hat', hkeep⟩ := At.stores [] hat len
  exact ⟨hat', hkeep, fun as h => h.store hat (Nat.succ_pos _) len⟩

/-- The range becomes the merge of its two parts, and the copies are freed. -/
theorem mergeCopies_wrote {heap : Heap Int} {a b : Nat} (howns : OwnsAll n [b, a] heap) (hab : a ≠ b)
    (hleft : heap.At (some a) (List.replicate (m - l + 1 + 1).toNat none))
    (hright : heap.At (some b) (List.replicate (r - m + 1).toNat none)) (hl : 0 ≤ l) (hlm : l ≤ m) (hmr : m < r)
    (hr : r < arr.length) :
    Ends (mergeCopies heap arr (some a) (some b) l m r) fun s =>
      Wrote arr l (mergeBy id (segment arr l (m + 1)) (segment arr (m + 1) (r + 1))) s.1 ∧ OwnsAll n [] s.2 ∧
        n ≤ s.2.blocks.length := by
  have hoff : b ∉ [a] := fun h => hab (List.mem_singleton.mp h).symm
  have hoff' : a ∉ [b] := fun h => hab (List.mem_singleton.mp h)
  obtain ⟨hleft₁, hkeep₁, howns₁⟩ := store_length (n := n) (m - l + 1) hleft (by omega)
  obtain ⟨hright₂, hkeep₂, howns₂⟩ := store_length (n := n) (r - m) (hkeep₁ b hoff _ hright) (by omega)
  refine (fill_ends (n := n) (hkeep₂ a hoff' _ hleft₁) hl (by omega) (by omega)).bind
    fun heap₃ ⟨hleft₃, hkeep₃, howns₃⟩ => ?_
  refine (fill_ends (n := n) (hkeep₃ b hoff _ hright₂) (by omega) (by omega) (by omega)).bind
    fun heap₄ ⟨hright₄, hkeep₄, howns₄⟩ => ?_
  have hend : l + (m - l + 1) = m + 1 ∧ m + 1 + (r - m) = r + 1 := by omega
  have hlen := length_segment hl (by omega : l ≤ m + 1) (by omega : m + 1 ≤ arr.length)
  have hlen' := length_segment (by omega : 0 ≤ m + 1) (by omega : m + 1 ≤ r + 1) (by omega : r + 1 ≤ arr.length)
  have hleft₄ := hkeep₄ a hoff' _ hleft₃
  rw [hend.1, (by omega : m - l + 1 = (segment arr l (m + 1)).length)] at hleft₄
  rw [hend.2, (by omega : r - m = (segment arr (m + 1) (r + 1)).length)] at hright₄
  refine (mergeArrays_wrote hleft₄ hright₄ hl (by omega)).bind fun b' hwrote => ?_
  have hsame : ∀ i, i ∈ [b, a] ↔ i ∈ [a, b] := by
    intro i
    simp only [List.mem_cons, List.not_mem_nil, or_false]
    exact or_comm
  have hall := (howns₄ _ (howns₃ _ (howns₂ _ (howns₁ _ howns)))).congr hsame
  have hfree := hall.free fun h => hab (List.mem_singleton.mp h)
  obtain ⟨hn, hlt⟩ := hfree.inside b List.mem_cons_self
  refine .some ⟨hwrote, hfree.free List.not_mem_nil, ?_⟩
  rw [length_free]
  omega

/-- What was written to the whole range is what is in it now. -/
theorem Wrote.rearranged {b' vs : List Int} (h : Wrote arr l vs b') (hl : 0 ≤ l) (hlr : l ≤ r) (hr : r < arr.length)
    (hperm : vs.Perm (segment arr l (r + 1))) :
    Rearranged l (r + 1) arr b' ∧ (vs.Pairwise (· ≤ ·) → SortedOn b' l (r + 1)) := by
  have hlen := h.length
  have hcount := length_segment hl (by omega : l ≤ r + 1) (by omega : r + 1 ≤ arr.length)
  have hend : l + (vs.length : Int) = r + 1 := by
    rw [hperm.length_eq, hcount]
    omega
  have hkept := h.kept
  have hcells := h.cells
  rw [hend] at hkept hcells
  refine ⟨.of_segment hlen hl (by omega) (by omega) hkept (hcells ▸ hperm), fun hs => ?_⟩
  rw [sortedOn_iff_pairwise hl (by omega), hcells]
  exact hs

/-- Without both copies, the array stays as it is and the one that there is gets freed. -/
theorem merge_fails {ok : Nat → Bool} {s : Memory} (howns : OwnsAll n [] s.heap) (hn : n ≤ s.heap.blocks.length)
    (hone : ok s.calls = false ∨ ok (s.calls + 1) = false) : Ends (merge ok l m r s) (MergeKeeps n l r s) := by
  rcases hone with hfail | hfail
  · obtain ⟨howns', hn'⟩ := howns.release_tryMalloc hn (ok (s.calls + 1)) (r - m + 1).toNat
    have hmerge : merge ok l m r s = some { s with
        heap := release (s.heap.tryMalloc (ok (s.calls + 1)) (r - m + 1).toNat).2
          (s.heap.tryMalloc (ok (s.calls + 1)) (r - m + 1).toNat).1
        calls := s.calls + 2 } := by
      simp only [merge, hfail]
      rfl
    exact ⟨_, hmerge, .refl _ _ s.arr, howns', hn'⟩
  · obtain ⟨howns', hn'⟩ := howns.release_tryMalloc hn (ok s.calls) (m - l + 1 + 1).toNat
    have hmerge : merge ok l m r s = some { s with
        heap := release (s.heap.tryMalloc (ok s.calls) (m - l + 1 + 1).toNat).2
          (s.heap.tryMalloc (ok s.calls) (m - l + 1 + 1).toNat).1
        calls := s.calls + 2 } := by
      simp only [merge, hfail]
      exact if_pos (Or.inr rfl)
    exact ⟨_, hmerge, .refl _ _ s.arr, howns', hn'⟩

/-- A merge with both copies sorts two sorted ranges, and one without them does nothing. -/
theorem merge_ends {ok : Nat → Bool} {s : Memory} (howns : OwnsAll n [] s.heap) (hn : n ≤ s.heap.blocks.length)
    (hl : 0 ≤ l) (hlm : l ≤ m) (hmr : m < r) (hr : r < s.arr.length) :
    Ends (merge ok l m r s) fun s' => MergeKeeps n l r s s' ∧
      ((∀ k, ok k = true) → SortedOn s.arr l (m + 1) → SortedOn s.arr (m + 1) (r + 1) → SortedOn s'.arr l (r + 1)) := by
  by_cases hboth : ok s.calls = true ∧ ok (s.calls + 1) = true
  · obtain ⟨h₁, hmalloc₁, hleft, hold₁, -, hlen₁⟩ := exists_malloc howns.sound (m - l + 1 + 1).toNat
    obtain ⟨h₂, hmalloc₂, hright, hold₂, -, hlen₂⟩ := exists_malloc hleft.sound (r - m + 1).toNat
    obtain ⟨hleft', hne⟩ := hold₂ _ _ hleft
    have howns₁ := howns.malloc hn (m - l + 1 + 1).toNat
    rw [hmalloc₁] at howns₁
    have howns₂ := howns₁.malloc (show n ≤ h₁.blocks.length by omega) (r - m + 1).toNat
    rw [hmalloc₂] at howns₂
    have hmerge : merge ok l m r s =
        (mergeCopies h₂ s.arr (some s.heap.blocks.length) (some h₁.blocks.length) l m r).bind
          fun x => some { arr := x.1, heap := x.2, calls := s.calls + 2 } := by
      simp only [merge, tryMalloc, hboth, if_true, hmalloc₁, hmalloc₂, reduceCtorEq, or_self, if_false]
      rfl
    rw [hmerge]
    refine (mergeCopies_wrote howns₂ (fun h => hne (congrArg some h)) hleft' hright hl hlm hmr hr).bind
      fun ⟨b, heap⟩ ⟨hwrote, hend, hblocks⟩ => ?_
    have hperm := mergeBy_perm id (segment s.arr l (m + 1)) (segment s.arr (m + 1) (r + 1))
    rw [← segment_append hl (by omega : l ≤ m + 1) (by omega)] at hperm
    obtain ⟨hr', hs⟩ := hwrote.rearranged hl (by omega) hr hperm
    refine .some ⟨⟨hr', hend, hblocks⟩, fun _ hs₁ hs₂ => hs (mergeBy_sorted ?_ ?_)⟩
    · exact (sortedOn_iff_pairwise hl (by omega)).mp hs₁
    · exact (sortedOn_iff_pairwise (by omega) (by omega)).mp hs₂
  · have hone : ok s.calls = false ∨ ok (s.calls + 1) = false := by
      simpa only [not_and_or, Bool.not_eq_true] using hboth
    exact (merge_fails howns hn hone).mono fun s' h => ⟨h, fun hall => absurd ⟨hall _, hall _⟩ hboth⟩

end Merge

/-! ### The recursion -/

section Recursion
variable {ok : Nat → Bool} {n : Nat} {l r : Int} {s : Memory}

theorem ftMergeSort_ends (howns : OwnsAll n [] s.heap) (hn : n ≤ s.heap.blocks.length) (hl : 0 ≤ l)
    (hr : r < s.arr.length) :
    Ends (ftMergeSort ok l r s) fun s' => MergeKeeps n l r s s' ∧
      ((∀ k, ok k = true) → SortedOn s'.arr l (r + 1)) := by
  induction hsize : (r - l).toNat using Nat.strongRecOn generalizing l r s with
  | ind size ih =>
    rw [ftMergeSort]
    split
    · rename_i hlt
      have hlm : l ≤ l + (r - l) / 2 := by omega
      have hmr : l + (r - l) / 2 < r := by omega
      generalize l + (r - l) / 2 = m at hlm hmr
      refine (ih _ (by omega) howns hn hl (show m < s.arr.length by omega) rfl).bind ?_
      rintro s₁ ⟨⟨hb₁, howns₁, hn₁⟩, hs₁⟩
      have hlen₁ := hb₁.length
      refine (ih _ (by omega) howns₁ hn₁ (show 0 ≤ m + 1 by omega) (show r < s₁.arr.length by omega) rfl).bind ?_
      rintro s₂ ⟨⟨hb₂, howns₂, hn₂⟩, hs₂⟩
      have hlen₂ := hb₂.length
      refine (merge_ends howns₂ hn₂ hl hlm hmr (by omega)).mono ?_
      rintro s₃ ⟨⟨hb₃, howns₃, hn₃⟩, hs₃⟩
      refine ⟨⟨?_, howns₃, hn₃⟩, fun hok => hs₃ hok ?_ (hs₂ hok)⟩
      · exact ((hb₁.mono (Int.le_refl l) (by omega)).trans (hb₂.mono (by omega) (Int.le_refl _))).trans hb₃
      · exact (hs₁ hok).congr fun i _ hi => hb₂.kept i (by omega)
    · exact .some ⟨⟨.refl _ _ s.arr, howns, hn⟩, fun _ => sortedOn_of_le (by omega)⟩

/-- Whichever allocations fail, the range keeps its elements, the other cells stay as they are, and nothing stays
    allocated; when none fails, the range is sorted. -/
theorem ft_merge_sort_ends {arr : List Int} {heap : Heap Int} (hheap : heap.fault = false) (hl : 0 ≤ l)
    (hr : r < arr.length) (ok : Nat → Bool) :
    Ends (ftMergeSort ok l r { arr, heap, calls := 0 }) fun s => Rearranged l (r + 1) arr s.arr ∧
      OwnsAll heap.blocks.length [] s.heap ∧ ((∀ k, ok k = true) → SortedOn s.arr l (r + 1)) :=
  (ftMergeSort_ends (.start hheap) (Nat.le_refl _) hl hr).mono fun _ ⟨⟨hb, howns, _⟩, hs⟩ => ⟨hb, howns, hs⟩

/-- Of three elements, the two first ones are not merged. -/
theorem ft_merge_sort_ends_three :
    Ends (ftMergeSort (fun k => k != 1) 0 2 { arr := [3, 2, 1], heap := {}, calls := 0 }) fun s =>
      Rearranged 0 (2 + 1) [3, 2, 1] s.arr ∧ OwnsAll 0 [] s.heap :=
  (ft_merge_sort_ends rfl (by decide) (by decide) fun k => k != 1).mono fun _ ⟨hb, howns, _⟩ => ⟨hb, howns⟩

end Recursion
end Minitalk.Libft.Sort
