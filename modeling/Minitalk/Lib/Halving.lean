import Mathlib.Order.Lattice
import Minitalk.Lib.CArray
import Minitalk.Lib.CInt

/-! # Binary search with `int` indices

A range is halved at `(left + right) / 2`, a sum that overflows behind the index 2^30. -/

namespace Halving
open CArray CInt
variable {α : Type} [LinearOrder α] [Inhabited α]

/-- An index of the value from `left` to `right`, `some none` when the range gets empty. -/
def search (a : List α) (v : α) : Nat → Int → Int → Option (Option Int)
  | 0, _, _ => none
  | fuel + 1, left, right =>
    if left ≤ right then do
      let mid := (wrap (left + right)).tdiv 2
      let x ← load a mid
      if x = v then some (some mid)
      else if x < v then search a v fuel (mid + 1) right
      else search a v fuel left (mid - 1)
    else some none

section Search
variable {a : List α} {v : α} {left right : Int} {fuel : Nat}

theorem middle_eq (h0 : 0 ≤ left) (h0' : 0 ≤ right) (hint : left + right < 2 ^ 31) :
    (wrap (left + right)).tdiv 2 = (left + right) / 2 := by
  rw [wrap_of_fits ⟨by omega, hint⟩, Int.tdiv_eq_ediv_of_nonneg (by omega)]

theorem middle_neg (hlo : 2 ^ 31 ≤ left + right) (hhi : left + right < 2 ^ 32 - 1) :
    (wrap (left + right)).tdiv 2 < 0 := by
  have hneg : left + right - 2 ^ 32 = -(2 ^ 32 - (left + right)) := by omega
  rw [wrap_of_above hlo (by omega), hneg, Int.neg_tdiv, Int.tdiv_eq_ediv_of_nonneg (by omega)]
  omega

/-- One turn, where the sum does not overflow. -/
theorem search_step (h0 : 0 ≤ left) (hle : left ≤ right) (hlen : right < a.length) (hint : left + right < 2 ^ 31) :
    search a v (fuel + 1) left right =
      if get a ((left + right) / 2) = v then some (some ((left + right) / 2))
      else if get a ((left + right) / 2) < v then search a v fuel ((left + right) / 2 + 1) right
      else search a v fuel left ((left + right) / 2 - 1) := by
  have hin : Inside a ((left + right) / 2) := ⟨by omega, by omega⟩
  rw [search, if_pos hle]
  simp only [middle_eq h0 (by omega) hint, load_eq hin, Option.bind_eq_bind, Option.bind_some]

/-- Without an overflow, a value that is there is found. -/
theorem search_found (hsorted : SortedOn a 0 a.length) (hint : a.length ≤ 2 ^ 30) {k : Int} (h0 : 0 ≤ left)
    (hleft : left ≤ k) (hright : k ≤ right) (hlen : right < a.length) (hfuel : right + 1 - left < fuel) :
    ∃ m, search a (get a k) fuel left right = some (some m) ∧ Inside a m ∧ get a m = get a k := by
  induction fuel generalizing left right with
  | zero => omega
  | succ fuel ih =>
    have hin : Inside a ((left + right) / 2) := ⟨by omega, by omega⟩
    rw [search_step h0 (by omega) hlen (by omega)]
    split
    · rename_i heq
      exact ⟨_, rfl, hin, heq⟩
    · rename_i hne
      split
      · rename_i hlt
        refine ih (by omega) ?_ hright hlen (by omega)
        by_contra hle
        rcases Int.lt_or_eq_of_le (show k ≤ (left + right) / 2 by omega) with hbefore | rfl
        · exact not_lt_of_ge (hsorted k _ (by omega) hbefore hin.2) hlt
        · exact hne rfl
      · rename_i hge
        refine ih h0 hleft ?_ (by omega) (by omega)
        by_contra hle
        rcases Int.lt_or_eq_of_le (show (left + right) / 2 ≤ k by omega) with hbehind | heq
        · exact hge (lt_of_le_of_ne (hsorted _ k (by omega) hbehind (by omega)) hne)
        · exact hne (by rw [heq])

/-- The search for the greatest value goes to the right until the sum of the bounds overflows. -/
theorem search_none (hlen : 2 ^ 30 < a.length) (hlen' : a.length < 2 ^ 31)
    (hgreatest : ∀ j, 0 ≤ j → j < (a.length : Int) - 1 → get a j < v) (h0 : 0 ≤ left)
    (hleft : left ≤ (a.length : Int) - 1) : search a v fuel left (a.length - 1) = none := by
  induction fuel generalizing left with
  | zero => rfl
  | succ fuel ih =>
    rcases Int.lt_or_le (left + (a.length - 1)) (2 ^ 31) with hlt | hle
    · have hless := hgreatest ((left + ((a.length : Int) - 1)) / 2) (by omega) (by omega)
      rw [search_step h0 hleft (by omega) hlt, if_neg (ne_of_lt hless), if_pos hless]
      exact ih (by omega) (by omega)
    · rw [search, if_pos hleft]
      simp only [load_of_lt (middle_neg hle (by omega)), Option.bind_eq_bind, Option.bind_none]

end Search
end Halving
