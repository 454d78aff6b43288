import Mathlib.Order.Lattice
import Minitalk.Lib.CArray

/-! # Binary heaps in arrays

A heap of `n` nodes lies in the cells from `base` on, and the children of its node `i` are `2 * i + 1` and `2 * i + 2`.
`sift` moves the value of a node down until no child of it is greater. -/

namespace HeapOrder
open CArray
variable {α : Type} [LinearOrder α] [Inhabited α]

/-- The node `c`, if there is one, when its value is greater. -/
def larger (base n : Int) (a : List α) (c largest : Int) : Int :=
  if c < n ∧ get a (base + largest) < get a (base + c) then c else largest

/-- A node or the child of it that has the largest value of the three. -/
def largestOf (base n : Int) (a : List α) (i : Int) : Int :=
  larger base n a (2 * i + 2) (larger base n a (2 * i + 1) i)

section Largest
variable {base n i : Int} {a : List α}

theorem larger_cases (base n : Int) (a : List α) (c m : Int) :
    get a (base + m) ≤ get a (base + larger base n a c m) ∧
      (c < n → get a (base + c) ≤ get a (base + larger base n a c m)) ∧
      (larger base n a c m = m ∨ larger base n a c m = c ∧ c < n) := by
  unfold larger
  split
  · rename_i h
    exact ⟨le_of_lt h.2, fun _ => le_refl _, Or.inr ⟨rfl, h.1⟩⟩
  · rename_i h
    exact ⟨le_refl _, fun hc => not_lt.mp fun hlt => h ⟨hc, hlt⟩, Or.inl rfl⟩

/-- It is no smaller than its node and its children. -/
theorem largestOf_cases (base n : Int) (a : List α) (i : Int) :
    get a (base + i) ≤ get a (base + largestOf base n a i) ∧
      (∀ c, c < n → c = 2 * i + 1 ∨ c = 2 * i + 2 → get a (base + c) ≤ get a (base + largestOf base n a i)) ∧
      (largestOf base n a i = i ∨ largestOf base n a i < n ∧
        (largestOf base n a i = 2 * i + 1 ∨ largestOf base n a i = 2 * i + 2)) := by
  obtain ⟨hself, hleft, hcase⟩ := larger_cases base n a (2 * i + 1) i
  obtain ⟨hself', hright, hcase'⟩ := larger_cases base n a (2 * i + 2) (larger base n a (2 * i + 1) i)
  refine ⟨le_trans hself hself', fun c hc hchild => ?_, ?_⟩
  · rcases hchild with rfl | rfl
    · exact le_trans (hleft hc) hself'
    · exact hright hc
  · rw [largestOf]
    rcases hcase' with h | ⟨h, hlt⟩
    · rw [h]
      rcases hcase with h | ⟨h, hlt⟩
      · exact Or.inl h
      · rw [h]
        exact Or.inr ⟨hlt, Or.inl rfl⟩
    · rw [h]
      exact Or.inr ⟨hlt, Or.inr rfl⟩

/-- A node that a value moves down to is a child. -/
theorem largestOf_child (hne : largestOf base n a i ≠ i) :
    largestOf base n a i < n ∧ (largestOf base n a i = 2 * i + 1 ∨ largestOf base n a i = 2 * i + 2) :=
  (largestOf_cases base n a i).2.2.resolve_left hne

end Largest

def sift (base n i : Int) (a : List α) : List α :=
  let c := largestOf base n a i
  if 0 ≤ i ∧ c ≠ i then sift base n c (exchange a (base + i) (base + c)) else a
termination_by (n - i).toNat
decreasing_by
  have := largestOf_child (by assumption : 0 ≤ i ∧ largestOf base n a i ≠ i).2
  omega

/-- The sift gets down to the node `limit`, or one behind it. -/
inductive Reaches (base n limit : Int) : Int → List α → Prop
  | here {i : Int} {a : List α} (h : limit ≤ i) : Reaches base n limit i a
  | deeper {i : Int} {a : List α} (hne : largestOf base n a i ≠ i)
      (h : Reaches base n limit (largestOf base n a i) (exchange a (base + i) (base + largestOf base n a i))) :
      Reaches base n limit i a

/-- The nodes from `lo` on have no greater child. -/
def HeapFrom (base n lo : Int) (a : List α) : Prop :=
  ∀ c, 0 < c → c < n → lo ≤ (c - 1) / 2 → get a (base + c) ≤ get a (base + (c - 1) / 2)

/-- Only the node `i` may have a greater child, and none of its children is greater than its parent. -/
structure HeapExcept (base n lo i : Int) (a : List α) : Prop where
  others : ∀ c, 0 < c → c < n → lo ≤ (c - 1) / 2 → (c - 1) / 2 ≠ i → get a (base + c) ≤ get a (base + (c - 1) / 2)
  bridge : ∀ c, 0 < c → c < n → (c - 1) / 2 = i → 0 < i → lo ≤ (i - 1) / 2 →
    get a (base + c) ≤ get a (base + (i - 1) / 2)

section Sift
variable {base n lo i : Int} {a : List α}

/-- One step down. -/
theorem HeapExcept.step (h : HeapExcept base n lo i a) (h0 : 0 ≤ base) (hlen : base + n ≤ a.length) (hi : 0 ≤ i)
    (hne : largestOf base n a i ≠ i) :
    HeapExcept base n lo (largestOf base n a i) (exchange a (base + i) (base + largestOf base n a i)) := by
  obtain ⟨hself, hchildren, -⟩ := largestOf_cases base n a i
  obtain ⟨hlt, hchild⟩ := largestOf_child hne
  generalize largestOf base n a i = c at *
  have hin : Inside a (base + i) := ⟨by omega, by omega⟩
  have hin' : Inside a (base + c) := ⟨by omega, by omega⟩
  have hget : ∀ k, get (exchange a (base + i) (base + c)) (base + k) =
      if k = c then get a (base + i) else if k = i then get a (base + c) else get a (base + k) := fun k => by
    rw [get_exchange hin hin']
    simp only [Int.add_right_inj]
  refine ⟨fun d hd hdn hlo hpar => ?_, fun d hd hdn hpar hc hlo => ?_⟩
  · rw [hget, hget, if_neg hpar]
    by_cases hdc : d = c
    · rw [if_pos hdc, if_pos (by omega)]
      exact hself
    · rw [if_neg hdc]
      by_cases hdi : d = i
      · rw [if_pos hdi, if_neg (by omega), hdi]
        exact h.bridge c (by omega) hlt (by omega) (by omega) (hdi ▸ hlo)
      · rw [if_neg hdi]
        by_cases hpi : (d - 1) / 2 = i
        · rw [if_pos hpi]
          exact hchildren d hdn (by omega)
        · rw [if_neg hpi]
          exact h.others d hd hdn hlo hpi
  · rw [hget, hget, if_neg (by omega), if_neg (by omega), if_neg (by omega), if_pos (by omega)]
    have hle := h.others d hd hdn (by omega) (by omega)
    rwa [hpar] at hle

/-- A sift from the only node that may have a greater child makes the heap whole. -/
theorem sift_heap (h : HeapExcept base n lo i a) (h0 : 0 ≤ base) (hlen : base + n ≤ a.length) (hi : 0 ≤ i) :
    HeapFrom base n lo (sift base n i a) := by
  induction hn : (n - i).toNat using Nat.strongRecOn generalizing i a with
  | ind m ih =>
    rw [sift]
    by_cases hne : largestOf base n a i ≠ i
    · have hchild := largestOf_child hne
      rw [if_pos ⟨hi, hne⟩]
      exact ih _ (by omega) (h.step h0 hlen hi hne) (by rwa [length_exchange]) (by omega) rfl
    · rw [if_neg fun hor => hne hor.2]
      intro c hc hcn hlo
      by_cases hpar : (c - 1) / 2 = i
      · have hle := (largestOf_cases base n a i).2.1 c hcn (by omega)
        rwa [not_not.mp hne, ← hpar] at hle
      · exact h.others c hc hcn hlo hpar

theorem sift_rearranged (h0 : 0 ≤ base) (hlen : base + n ≤ a.length) (hi : 0 ≤ i) (hin : i < n) :
    Rearranged base (base + n) a (sift base n i a) := by
  induction hn : (n - i).toNat using Nat.strongRecOn generalizing i a with
  | ind m ih =>
    rw [sift]
    by_cases hne : largestOf base n a i ≠ i
    · have hchild := largestOf_child hne
      rw [if_pos ⟨hi, hne⟩]
      have hswap : Rearranged base (base + n) a (exchange a (base + i) (base + largestOf base n a i)) :=
        .exchange ⟨by omega, by omega⟩ ⟨by omega, by omega⟩ (by omega) (by omega)
      exact hswap.trans (ih _ (by omega) (by rwa [length_exchange]) (by omega) hchild.1 rfl)
    · rw [if_neg fun hor => hne hor.2]
      exact .refl _ _ a

/-- A sift stays among the nodes. -/
theorem Reaches.lt {limit : Int} (h : Reaches base n limit i a) (hi : i < n) : limit < n := by
  induction h with
  | here hle => omega
  | deeper hne _ ih => exact ih (largestOf_child hne).1

/-- A child with a greater value takes the sift down. -/
theorem Reaches.of_child {c : Int} (hc : c < n) (hchild : c = 2 * i + 1 ∨ c = 2 * i + 2)
    (hlt : get a (base + i) < get a (base + c)) : Reaches base n (2 * i + 1) i a := by
  obtain ⟨-, hchildren, hcase⟩ := largestOf_cases base n a i
  have hle := hchildren c hc hchild
  have hne : largestOf base n a i ≠ i := fun heq => not_le_of_gt hlt (by rwa [heq] at hle)
  exact .deeper hne (.here (by omega))

/-- A node without a greater child stays where it is. -/
theorem sift_of_le (h : ∀ c, c < n → c = 2 * i + 1 ∨ c = 2 * i + 2 → get a (base + c) ≤ get a (base + i)) :
    sift base n i a = a := by
  have hleft : larger base n a (2 * i + 1) i = i :=
    if_neg fun ⟨hc, hlt⟩ => not_lt_of_ge (h _ hc (Or.inl rfl)) hlt
  have hstays : largestOf base n a i = i := by
    rw [largestOf, hleft]
    exact if_neg fun ⟨hc, hlt⟩ => not_lt_of_ge (h _ hc (Or.inr rfl)) hlt
  rw [sift, hstays]
  exact if_neg fun hand => hand.2 rfl

/-- The root has the largest value. -/
theorem HeapFrom.le_root (h : HeapFrom base n 0 a) {c : Int} (hc : 0 ≤ c) (hcn : c < n) :
    get a (base + c) ≤ get a base := by
  induction hm : c.toNat using Nat.strongRecOn generalizing c with
  | ind m ih =>
    by_cases hroot : c = 0
    · rw [hroot, Int.add_zero]
    · exact le_trans (h c (by omega) hcn (by omega)) (ih _ (by omega) (by omega) (by omega) rfl)

/-- A heap from the next node on is one from this node on, except for this node. -/
theorem HeapFrom.except (h : HeapFrom base n (i + 1) a) : HeapExcept base n i i a where
  others c hc hcn hlo hne := h c hc hcn (by omega)
  bridge c hc hcn hpar hi hlo := by omega

/-- The last value goes to the root, and the heap ends before it. -/
theorem HeapFrom.except_root (h : HeapFrom base (n + 1) 0 a) (h0 : 0 ≤ base) (hlen : base + (n + 1) ≤ a.length)
    (hn : 0 < n) : HeapExcept base n 0 0 (exchange a base (base + n)) where
  others c hc hcn hlo hne := by
    have hin : Inside a base := ⟨h0, by omega⟩
    have hin' : Inside a (base + n) := ⟨by omega, by omega⟩
    rw [get_exchange hin hin', get_exchange hin hin', if_neg (by omega), if_neg (by omega), if_neg (by omega),
      if_neg (by omega)]
    exact h c hc (by omega) hlo
  bridge c hc hcn hpar hi hlo := by omega

end Sift
end HeapOrder
