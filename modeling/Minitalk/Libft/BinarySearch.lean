import Minitalk.Lib.CInt
import Minitalk.Lib.Program
import Minitalk.Libft.Vector

/-! # Binary search in a vector (`ft_vector_binary_search`)

The bounds are `size_t`, so the one that goes down stops before it would pass 0. A read that is not of one of the
`size` elements has no result. -/

namespace Minitalk.Libft.Vector
open Heap Program

/-- `vec->data[i]` -/
def element (m : Memory) (i : Nat) : Option Ptr := if i < m.size then m.heap.peek m.data i else none

/-- The loop, and the -1 behind it. -/
def searchLoop (cmp : Ptr → Ptr → Int) (target : Ptr) (m : Memory) (left right : Nat) : Option Int :=
  if left ≤ right then do
    let mid := left + (right - left) / 2
    let result := cmp (← element m mid) target
    if result = 0 then some (BitVec.ofNat 32 mid).toInt
    else if result < 0 then searchLoop cmp target m (mid + 1) right
    else if mid = 0 then some (-1)
    else searchLoop cmp target m left (mid - 1)
  else some (-1)
termination_by right + 1 - left

def ftVectorBinarySearch (m : Memory) (target : Ptr) (cmp : Ptr → Ptr → Int) : Option Int :=
  if target = none ∨ m.size = 0 then some (-1) else searchLoop cmp target m 0 (m.size - 1)

/-- The sign of the result orders the elements, and one that compares equal may be another element. -/
structure TotalPreorder (cmp : Ptr → Ptr → Int) : Prop where
  flip : ∀ x y, 0 < cmp y x ↔ cmp x y < 0
  trans : ∀ x y z, cmp x y ≤ 0 → cmp y z ≤ 0 → cmp x z ≤ 0

/-- The index of an element that compares equal to the target, or -1 when there is none. -/
def Found (cmp : Ptr → Ptr → Int) (target : Ptr) (xs : List Ptr) (index : Int) : Prop :=
  (∃ (i : Nat) (x : Ptr), index = i ∧ xs[i]? = some x ∧ cmp x target = 0) ∨
    (index = -1 ∧ ∀ x ∈ xs, cmp x target ≠ 0)

/-- Every element outside of the window is known to be below or above the target. -/
structure Window (cmp : Ptr → Ptr → Int) (target : Ptr) (xs : List Ptr) (left right : Nat) : Prop where
  inside : right < xs.length
  before : ∀ i x, i < left → xs[i]? = some x → cmp x target < 0
  after : ∀ i x, right < i → xs[i]? = some x → 0 < cmp x target

section Search
variable {cmp : Ptr → Ptr → Int} {target x y : Ptr} {m : Memory} {xs : List Ptr} {left right mid i j : Nat}

namespace TotalPreorder

theorem lt_of_le_of_lt (hcmp : TotalPreorder cmp) (hxy : cmp x y ≤ 0) (hy : cmp y target < 0) :
    cmp x target < 0 := by
  have hle := hcmp.trans x y target hxy (Int.le_of_lt hy)
  rcases Int.lt_or_eq_of_le hle with hlt | heq
  · exact hlt
  · -- the target would be at most `x`, so at most `y`
    have htx : cmp target x ≤ 0 := Int.not_lt.mp fun hlt => by
      have := (hcmp.flip x target).mp hlt
      omega
    have hty := hcmp.trans target x y htx hxy
    have := (hcmp.flip y target).mpr hy
    omega

theorem lt_of_lt_of_le (hcmp : TotalPreorder cmp) (hx : 0 < cmp x target) (hxy : cmp x y ≤ 0) :
    0 < cmp y target := by
  refine Int.not_le.mp fun hle => ?_
  have := hcmp.trans x y target hxy hle
  omega

end TotalPreorder

theorem Refines.element_eq (h : Refines m xs) (hx : xs[i]? = some x) : element m i = some x := by
  obtain ⟨hlt, hget⟩ := List.getElem?_eq_some_iff.mp hx
  obtain ⟨pre, y, post, rest, rfl, rfl, hat, hload, hsize, -⟩ := h.split i hlt
  rw [List.getElem_append_right (Nat.le_refl _)] at hget
  simp only [Nat.sub_self, List.getElem_cons_zero] at hget
  rw [element, if_pos (by omega), peek, hload, hget]
  exact if_neg (by rw [hat.sound]; exact Bool.false_ne_true)

/-- In a sorted vector, what stands before an element is at most that element. -/
theorem le_of_sorted (hsorted : xs.Pairwise fun x y => cmp x y ≤ 0) (hij : i < j) (hi : xs[i]? = some x)
    (hj : xs[j]? = some y) : cmp x y ≤ 0 := by
  obtain ⟨hi', rfl⟩ := List.getElem?_eq_some_iff.mp hi
  obtain ⟨hj', rfl⟩ := List.getElem?_eq_some_iff.mp hj
  exact List.pairwise_iff_getElem.mp hsorted i j hi' hj' hij

/-- An element below the target has no greater one before it. -/
theorem below_of_below (hcmp : TotalPreorder cmp) (hsorted : xs.Pairwise fun x y => cmp x y ≤ 0)
    (hmid : xs[mid]? = some y) (hy : cmp y target < 0) : ∀ i x, i < mid + 1 → xs[i]? = some x → cmp x target < 0 := by
  intro i x hi hx
  rcases Nat.lt_or_eq_of_le (Nat.le_of_lt_succ hi) with hlt | rfl
  · exact hcmp.lt_of_le_of_lt (le_of_sorted hsorted hlt hx hmid) hy
  · rw [hmid] at hx
    cases hx
    exact hy

theorem above_of_above (hcmp : TotalPreorder cmp) (hsorted : xs.Pairwise fun x y => cmp x y ≤ 0)
    (hmid : xs[mid]? = some y) (hy : 0 < cmp y target) : ∀ i x, mid ≤ i → xs[i]? = some x → 0 < cmp x target := by
  intro i x hi hx
  rcases Nat.lt_or_eq_of_le hi with hlt | rfl
  · exact hcmp.lt_of_lt_of_le hy (le_of_sorted hsorted hlt hmid hx)
  · rw [hmid] at hx
    cases hx
    exact hy

/-- When every element is below or above the target, none compares equal. -/
theorem found_none (h : ∀ (i : Nat) x, xs[i]? = some x → cmp x target < 0 ∨ 0 < cmp x target) :
    Found cmp target xs (-1) := by
  refine Or.inr ⟨rfl, fun x hx => ?_⟩
  obtain ⟨i, hi⟩ := List.mem_iff_getElem?.mp hx
  have := h i x hi
  omega

theorem searchLoop_found (hcmp : TotalPreorder cmp) (h : Refines m xs) (hlen : xs.length ≤ 2 ^ 31 - 1)
    (hsorted : xs.Pairwise fun x y => cmp x y ≤ 0) (hw : Window cmp target xs left right) :
    Ends (searchLoop cmp target m left right) (Found cmp target xs) := by
  induction hn : right + 1 - left using Nat.strongRecOn generalizing left right with
  | ind n ih =>
    obtain ⟨hright, hbefore, hafter⟩ := hw
    rw [searchLoop]
    by_cases hle : left ≤ right
    · rw [if_pos hle]
      obtain ⟨mid, hmid, hlo, hhi⟩ : ∃ mid, mid = left + (right - left) / 2 ∧ left ≤ mid ∧ mid ≤ right :=
        ⟨_, rfl, by omega, by omega⟩
      obtain ⟨x, hx⟩ : ∃ x, xs[mid]? = some x := ⟨_, List.getElem?_eq_getElem (by omega)⟩
      simp only [← hmid, h.element_eq hx, Option.bind_eq_bind, Option.bind_some]
      rcases Int.lt_trichotomy (cmp x target) 0 with hneg | hzero | hpos
      · rw [if_neg (by omega), if_pos hneg]
        exact ih (right + 1 - (mid + 1)) (by omega) ⟨hright, below_of_below hcmp hsorted hx hneg, hafter⟩ rfl
      · rw [if_pos hzero, CInt.toInt_ofNat (by omega)]
        exact .some (Or.inl ⟨mid, x, rfl, hx, hzero⟩)
      · have habove := above_of_above hcmp hsorted hx hpos
        rw [if_neg (by omega), if_neg (by omega)]
        by_cases hfirst : mid = 0
        · rw [if_pos hfirst]
          exact .some (found_none fun i y hy => Or.inr (habove i y (by omega) hy))
        · rw [if_neg hfirst]
          exact ih (mid - 1 + 1 - left) (by omega)
            ⟨by omega, hbefore, fun i y hi hy => habove i y (by omega) hy⟩ rfl
    · rw [if_neg hle]
      refine .some (found_none fun i y hy => ?_)
      rcases Nat.lt_or_ge i left with hlt | hge
      · exact Or.inl (hbefore i y hlt hy)
      · exact Or.inr (hafter i y (by omega) hy)

/-- The search ends and reads elements only. It finds one that compares equal to the target if there is one. -/
theorem binary_search_exact (hcmp : TotalPreorder cmp) (h : Refines m xs) (hlen : xs.length ≤ 2 ^ 31 - 1)
    (hsorted : xs.Pairwise fun x y => cmp x y ≤ 0) (htarget : target ≠ none) :
    Ends (ftVectorBinarySearch m target cmp) (Found cmp target xs) := by
  have hsize := h.size
  unfold ftVectorBinarySearch
  by_cases hempty : m.size = 0
  · rw [if_pos (Or.inr hempty)]
    obtain rfl : xs = [] := List.eq_nil_of_length_eq_zero (by omega)
    exact .some (found_none fun i x hx => by cases hx)
  · rw [if_neg fun hor => hor.elim htarget hempty]
    refine searchLoop_found hcmp h hlen hsorted ⟨by omega, fun i x hi => absurd hi (Nat.not_lt_zero i), ?_⟩
    intro i x hi hx
    rw [List.getElem?_eq_none (by omega)] at hx
    cases hx

end Search

/-- In a vector of two elements that are compared by their addresses, the second one is found. -/
theorem binary_search_exact_second :
    Ends (ftVectorBinarySearch
        ⟨{ blocks := [⟨[some (some 1), some (some 3), none], 0⟩] }, some 0, 2, 3⟩ (some 3)
        fun x y => (x.getD 0 : Int) - y.getD 0)
      (Found (fun x y => (x.getD 0 : Int) - y.getD 0) (some 3) [some 1, some 3]) :=
  binary_search_exact ⟨fun x y => by omega, fun x y z hxy hyz => by omega⟩
    ⟨rfl, by simp, [none], ⟨rfl, rfl⟩, rfl⟩ (by simp) (by simp) (by simp)

end Minitalk.Libft.Vector
