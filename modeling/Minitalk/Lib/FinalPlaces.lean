import Minitalk.Lib.CArray

/-! # Elements in their final place

A sort that works from the ends of an array leaves a window between the elements that are in their final place. -/

namespace CArray
variable {α : Type} [Inhabited α]

/-- The elements before `start` are in their final place. -/
def FinalBefore [LE α] (start : Int) (a : List α) : Prop :=
  ∀ i j, 0 ≤ i → i < start → i < j → j < a.length → get a i ≤ get a j

/-- The elements from `stop` on are in their final place. -/
def FinalFrom [LE α] (stop : Int) (a : List α) : Prop :=
  ∀ i j, 0 ≤ i → i < j → stop ≤ j → j < a.length → get a i ≤ get a j

section Final
variable [LE α] {lo hi : Int} {a b : List α}

theorem finalBefore_zero (a : List α) : FinalBefore 0 a := fun i j h0 hi => by omega

theorem finalFrom_length (a : List α) : FinalFrom a.length a := fun i j _ _ hle hj => by omega

theorem FinalBefore.rearranged (h : FinalBefore lo a) (hb : Rearranged lo hi a b) (hlo : 0 ≤ lo)
    (hhi : hi ≤ a.length) : FinalBefore lo b := by
  intro i j h0 hi' hij hj
  have hlen := hb.length
  rw [hb.kept i (Or.inl hi')]
  rcases Int.lt_or_le j lo with hlt | hle
  · rw [hb.kept j (Or.inl hlt)]
    exact h i j h0 hi' hij (by omega)
  · rcases Int.lt_or_le j hi with hlt' | hle'
    · exact hb.forall_range hlo hhi (P := (get a i ≤ ·)) (fun k hk hk' => h i k h0 hi' (by omega) (by omega)) j hle hlt'
    · rw [hb.kept j (Or.inr hle')]
      exact h i j h0 hi' hij (by omega)

/-- An element that is not smaller than those before the window goes into it. -/
theorem FinalBefore.put {p : Int} {v : α} (h : FinalBefore lo a) (hp : Inside a p) (hlo : lo ≤ p)
    (hv : ∀ i, 0 ≤ i → i < lo → get a i ≤ v) : FinalBefore lo (put a p v) := by
  intro i j h0 hi hij hj
  rw [length_put] at hj
  rw [get_put_ne hp (by omega), get_put hp]
  split
  · exact hv i h0 hi
  · exact h i j h0 hi hij hj

theorem FinalFrom.rearranged (h : FinalFrom hi a) (hb : Rearranged lo hi a b) (hlo : 0 ≤ lo) (hhi : hi ≤ a.length) :
    FinalFrom hi b := by
  intro i j h0 hij hle hj
  have hlen := hb.length
  rw [hb.kept j (Or.inr hle)]
  rcases Int.lt_or_le i lo with hlt | hle'
  · rw [hb.kept i (Or.inl hlt)]
    exact h i j h0 hij hle (by omega)
  · rcases Int.lt_or_le i hi with hlt' | hge
    · exact hb.forall_range hlo hhi (P := (· ≤ get a j)) (fun k hk hk' => h k j (by omega) (by omega) hle (by omega)) i
        hle' hlt'
    · rw [hb.kept i (Or.inr hge)]
      exact h i j h0 hij hle (by omega)

/-- The greatest element of the window is in its last cell. -/
theorem FinalFrom.shrink (h : FinalFrom (hi + 1) a) (h' : FinalBefore lo a)
    (hmax : ∀ k, lo ≤ k → k ≤ hi → get a k ≤ get a hi) : FinalFrom hi a := by
  intro i j h0 hij hle hj
  rcases Int.lt_or_le i lo with hlt | hge
  · exact h' i j h0 hlt hij hj
  · rcases Int.lt_or_eq_of_le hle with hlt | rfl
    · exact h i j h0 hij hlt hj
    · exact hmax i hge (by omega)

theorem FinalBefore.grow (h : FinalBefore lo a) (h' : FinalFrom (hi + 1) a) (h0 : 0 ≤ lo)
    (hmin : ∀ k, lo ≤ k → k ≤ hi → get a lo ≤ get a k) : FinalBefore (lo + 1) a := by
  intro i j hi' hlt hij hj
  rcases Int.lt_or_le hi j with hgt | hle
  · exact h' i j hi' hij hgt hj
  · rcases Int.lt_or_eq_of_le (show i ≤ lo by omega) with hlt | rfl
    · exact h i j hi' hlt hij hj
    · exact hmin j (by omega) hle

/-- When the window is sorted, the array is. -/
theorem FinalFrom.sorted (h : FinalFrom (hi + 1) a) (h' : FinalBefore lo a) (hs : SortedOn a lo (hi + 1)) :
    SortedOn a 0 a.length := by
  intro i j h0 hij hj
  rcases Int.lt_or_le i lo with hlt | hge
  · exact h' i j h0 hlt hij hj
  · rcases Int.lt_or_le j (hi + 1) with hlt | hle
    · exact hs i j hge hij hlt
    · exact h i j h0 hij hle hj

end Final

end CArray
