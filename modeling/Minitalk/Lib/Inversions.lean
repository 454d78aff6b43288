import Mathlib.Order.Lattice
import Minitalk.Lib.CArray

/-! # Neighbours that are out of order

An inversion is a pair of elements of which the first one is greater. When two neighbours are exchanged that are out of
order, there is one inversion less. -/

namespace CArray
variable {α : Type} [LinearOrder α]

def inversions : List α → Nat
  | [] => 0
  | x :: xs => xs.countP (fun y => decide (y < x)) + inversions xs

theorem inversions_append (xs zs : List α) {x y : α} (hlt : y < x) :
    inversions (xs ++ y :: x :: zs) + 1 = inversions (xs ++ x :: y :: zs) := by
  induction xs with
  | nil =>
    simp only [List.nil_append, inversions, List.countP_cons, hlt, not_lt_of_gt hlt, decide_true, decide_false, if_true,
      Bool.false_eq_true, if_false]
    omega
  | cons w xs ih =>
    have hperm : (xs ++ y :: x :: zs).Perm (xs ++ x :: y :: zs) := (List.Perm.swap x y zs).append_left xs
    rw [List.cons_append, List.cons_append, inversions, inversions, hperm.countP_eq]
    omega

variable [Inhabited α] {a : List α} {i j lo hi : Int}

omit [LinearOrder α] in
theorem exchange_comm (hi : Inside a i) (hj : Inside a j) : exchange a i j = exchange a j i := by
  obtain ⟨hi0, -⟩ := hi
  obtain ⟨hj0, -⟩ := hj
  by_cases heq : i = j
  · rw [heq]
  · rw [exchange, exchange, put, put, put, put, List.set_comm _ _ (by omega)]

omit [LinearOrder α] [Inhabited α] in
theorem exists_neighbours (h0 : 0 ≤ i) (hlt : i + 1 < a.length) :
    ∃ xs x y zs, a = xs ++ x :: y :: zs ∧ i = (xs.length : Nat) := by
  have hlen : i.toNat < a.length := by omega
  have hlen' : i.toNat + 1 < a.length := by omega
  refine ⟨a.take i.toNat, a[i.toNat], a[i.toNat + 1], a.drop (i.toNat + 1 + 1), ?_, ?_⟩
  · rw [← List.drop_eq_getElem_cons hlen', ← List.drop_eq_getElem_cons hlen, List.take_append_drop]
  · rw [List.length_take]
    omega

theorem inversions_exchange (h0 : 0 ≤ i) (hn : i + 1 < a.length) (hlt : get a (i + 1) < get a i) :
    inversions (exchange a i (i + 1)) + 1 = inversions a := by
  obtain ⟨xs, x, y, zs, rfl, rfl⟩ := exists_neighbours h0 hn
  have hin : Inside (xs ++ x :: y :: zs) xs.length := ⟨h0, by omega⟩
  have hin' : Inside (xs ++ x :: y :: zs) (xs.length + 1) := ⟨by omega, hn⟩
  have hswap := swap_append xs [] zs x y
  rw [List.nil_append, List.nil_append, List.length_nil, Int.natCast_zero, Int.add_zero, swap_eq hin hin'] at hswap
  have hx : get (xs ++ x :: y :: zs) xs.length = x := get_append_length xs (y :: zs) x
  have hy : get (xs ++ x :: y :: zs) (xs.length + 1) = y := by
    have hget := get_append_length (xs ++ [x]) zs y
    rwa [List.append_assoc, List.singleton_append, List.length_append, List.length_singleton, Int.natCast_add,
      Int.natCast_one] at hget
  rw [hx, hy] at hlt
  rw [Option.some.inj hswap, inversions_append xs zs hlt]

/-- A range is in order when its neighbours are. -/
theorem sortedOn_of_neighbours (h : ∀ k, lo ≤ k → k + 1 < hi → get a k ≤ get a (k + 1)) : SortedOn a lo hi := by
  intro i j hi' hij hj
  induction hn : (j - i - 1).toNat generalizing j with
  | zero =>
    obtain rfl : j = i + 1 := by omega
    exact h i hi' hj
  | succ n ih =>
    have hlast := h (j - 1) (by omega) (by omega)
    rw [Int.sub_add_cancel] at hlast
    exact le_trans (ih (j - 1) (by omega) (by omega) (by omega)) hlast

end CArray
