import Mathlib.Logic.Basic

/-! # Bitonic sequences of truth values

A sequence is bitonic when the indices where it holds are one block of its range, or those where it does not hold are.
The halves of such a sequence, joined cell by cell by `∧` and by `∨`, are bitonic, and one of them is the same
everywhere. -/

namespace Bitonic
variable {s t : Int → Prop} {n k i j : Int}

/-- The indices below `n` where `s` holds are those from some index to another one. -/
def OneBlock (n : Int) (s : Int → Prop) : Prop := ∃ p q : Int, ∀ i, 0 ≤ i → i < n → (s i ↔ p ≤ i ∧ i < q)

def IsBitonic (n : Int) (s : Int → Prop) : Prop := OneBlock n s ∨ OneBlock n fun i => ¬s i

theorem IsBitonic.congr (h : IsBitonic n s) (heq : ∀ i, 0 ≤ i → i < n → (s i ↔ t i)) : IsBitonic n t := by
  rcases h with ⟨p, q, h⟩ | ⟨p, q, h⟩
  · exact Or.inl ⟨p, q, fun i h0 hi => (heq i h0 hi).symm.trans (h i h0 hi)⟩
  · exact Or.inr ⟨p, q, fun i h0 hi => (not_congr (heq i h0 hi).symm).trans (h i h0 hi)⟩

theorem IsBitonic.not (h : IsBitonic n s) : IsBitonic n fun i => ¬s i := by
  rcases h with ⟨p, q, h⟩ | h
  · exact Or.inr ⟨p, q, fun i h0 hi => not_not.trans (h i h0 hi)⟩
  · exact Or.inl h

/-- Two cells at the distance of a half are both within a block only if the block is more than a half. -/
theorem OneBlock.halves_and (h : OneBlock (k + k) s) : OneBlock k fun i => s i ∧ s (i + k) := by
  obtain ⟨p, q, h⟩ := h
  refine ⟨p, q - k, fun i h0 hi => ?_⟩
  simp only [h i h0 (show i < k + k by omega), h (i + k) (show 0 ≤ i + k by omega) (show i + k < k + k by omega)]
  omega

/-- A block that reaches over the middle leaves a gap between its two parts, or none. -/
theorem OneBlock.halves_or (h : OneBlock (k + k) s) : IsBitonic k fun i => s i ∨ s (i + k) := by
  obtain ⟨p, q, h⟩ := h
  by_cases hright : k ≤ p
  · refine Or.inl ⟨p - k, q - k, fun i h0 hi => ?_⟩
    simp only [h i h0 (show i < k + k by omega), h (i + k) (show 0 ≤ i + k by omega) (show i + k < k + k by omega)]
    omega
  · by_cases hleft : q ≤ k
    · refine Or.inl ⟨p, q, fun i h0 hi => ?_⟩
      simp only [h i h0 (show i < k + k by omega), h (i + k) (show 0 ≤ i + k by omega) (show i + k < k + k by omega)]
      omega
    · refine Or.inr ⟨q - k, p, fun i h0 hi => ?_⟩
      simp only [h i h0 (show i < k + k by omega), h (i + k) (show 0 ≤ i + k by omega) (show i + k < k + k by omega)]
      omega

theorem IsBitonic.halves_and (h : IsBitonic (k + k) s) : IsBitonic k fun i => s i ∧ s (i + k) := by
  rcases h with h | h
  · exact Or.inl h.halves_and
  · exact h.halves_or.not.congr fun i _ _ => by rw [not_or, not_not, not_not]

theorem IsBitonic.halves_or (h : IsBitonic (k + k) s) : IsBitonic k fun i => s i ∨ s (i + k) :=
  h.not.halves_and.not.congr fun i _ _ => by rw [not_and_or, not_not, not_not]

/-- Where both halves hold somewhere, one of them holds everywhere. -/
theorem OneBlock.clean (h : OneBlock (k + k) s) (hi : 0 ≤ i ∧ i < k) (hj : 0 ≤ j ∧ j < k) (hboth : s i ∧ s (i + k)) :
    s j ∨ s (j + k) := by
  obtain ⟨p, q, h⟩ := h
  rw [h i hi.1 (by omega), h (i + k) (by omega) (by omega)] at hboth
  rw [h j hj.1 (by omega), h (j + k) (by omega) (by omega)]
  omega

theorem IsBitonic.clean (h : IsBitonic (k + k) s) (hi : 0 ≤ i ∧ i < k) (hj : 0 ≤ j ∧ j < k)
    (hboth : s i ∧ s (i + k)) : s j ∨ s (j + k) := by
  rcases h with h | h
  · exact h.clean hi hj hboth
  · refine Classical.byContradiction fun hneither => ?_
    rw [not_or] at hneither
    rcases h.clean hj hi hneither with hnot | hnot
    · exact hnot hboth.1
    · exact hnot hboth.2

/-- A sequence that goes on once it holds does so from some index on. -/
theorem exists_first (hn : 0 ≤ n) (hup : ∀ i j, 0 ≤ i → i < j → j < n → s i → s j) :
    ∃ p, 0 ≤ p ∧ p ≤ n ∧ ∀ i, 0 ≤ i → i < n → (s i ↔ p ≤ i) := by
  induction hm : n.toNat generalizing n with
  | zero => exact ⟨n, hn, Int.le_refl n, fun i h0 hi => by omega⟩
  | succ m ih =>
    obtain ⟨p, hp0, hp, h⟩ := ih (show 0 ≤ n - 1 by omega) (fun i j h0 hij hj => hup i j h0 hij (by omega)) (by omega)
    by_cases hlast : s (n - 1)
    · refine ⟨p, hp0, by omega, fun i h0 hi => ?_⟩
      rcases Int.lt_or_eq_of_le (show i ≤ n - 1 by omega) with hlt | rfl
      · exact h i h0 hlt
      · exact ⟨fun _ => hp, fun _ => hlast⟩
    · refine ⟨n, hn, Int.le_refl n, fun i h0 hi => ⟨fun hs => ?_, fun hle => by omega⟩⟩
      rcases Int.lt_or_eq_of_le (show i ≤ n - 1 by omega) with hlt | rfl
      · exact absurd (hup i (n - 1) h0 hlt (by omega) hs) hlast
      · exact absurd hs hlast

/-- A sequence that rises and then falls is bitonic. -/
theorem isBitonic_of_rise_fall (hk : 0 ≤ k) (hrise : ∀ i j, 0 ≤ i → i < j → j < k → s i → s j)
    (hfall : ∀ i j, k ≤ i → i < j → j < k + k → s j → s i) : IsBitonic (k + k) s := by
  obtain ⟨p, -, hp, hfirst⟩ := exists_first hk hrise
  have hnext : ∀ i j, 0 ≤ i → i < j → j < k → ¬s (k + i) → ¬s (k + j) := fun i j h0 hij hj hnot hs =>
    hnot (hfall (k + i) (k + j) (by omega) (by omega) (by omega) hs)
  obtain ⟨q, hq, -, hlast⟩ := exists_first hk hnext
  refine Or.inl ⟨p, k + q, fun i h0 hi => ?_⟩
  rcases Int.lt_or_le i k with hlt | hle
  · rw [hfirst i h0 hlt]
    omega
  · have hback := hlast (i - k) (by omega) (by omega)
    have hi' : k + (i - k) = i := by omega
    rw [hi'] at hback
    rw [← not_iff_not, hback]
    omega

end Bitonic
