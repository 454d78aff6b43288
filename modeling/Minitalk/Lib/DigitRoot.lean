import Mathlib.Tactic.Ring

/-! # A square root bit by bit

The bits of the root are found from the highest one on. What is subtracted for a bit is the difference of two squares,
which is the scaled root plus the square of the bit. -/

namespace DigitRoot
variable {n k r w : Nat}

/-- `r` has the bits of the root of `n` from bit `k` on. -/
structure RootFrom (n k r : Nat) : Prop where
  low : r * r ≤ n
  high : n < (r + 2 ^ k) * (r + 2 ^ k)
  dvd : 2 ^ k ∣ r

theorem four_pow (k : Nat) : 4 ^ k = 2 ^ k * 2 ^ k := by
  rw [← Nat.mul_pow]

theorem RootFrom.start (h : n < 4 ^ k) : RootFrom n k 0 where
  low := Nat.zero_le n
  high := by rwa [Nat.zero_add, ← four_pow]
  dvd := Nat.dvd_zero _

/-- The square with the next bit set. -/
theorem square_add (r k : Nat) : (r + 2 ^ k) * (r + 2 ^ k) = r * r + (r * 2 ^ (k + 1) + 4 ^ k) := by
  rw [four_pow]
  ring

theorem RootFrom.take (h : RootFrom n (k + 1) r) (hle : r * 2 ^ (k + 1) + 4 ^ k ≤ n - r * r) :
    RootFrom n k (r + 2 ^ k) where
  low := by
    have hlow := h.low
    rw [square_add]
    omega
  high := by
    have hhigh := h.high
    rwa [Nat.pow_succ, Nat.mul_two, ← Nat.add_assoc] at hhigh
  dvd := Nat.dvd_add ((Nat.pow_dvd_pow 2 (Nat.le_succ k)).trans h.dvd) (Nat.dvd_refl _)

theorem RootFrom.skip (h : RootFrom n (k + 1) r) (hlt : n - r * r < r * 2 ^ (k + 1) + 4 ^ k) : RootFrom n k r where
  low := h.low
  high := by
    have hlow := h.low
    rw [square_add]
    omega
  dvd := (Nat.pow_dvd_pow 2 (Nat.le_succ k)).trans h.dvd

theorem RootFrom.root (h : RootFrom n 0 r) : r * r ≤ n ∧ n < (r + 1) * (r + 1) := ⟨h.low, h.high⟩

/-- What is subtracted has no more bits than the number. -/
theorem RootFrom.scaled_lt (h : RootFrom n (k + 1) r) (hn : n < 2 * 4 ^ w) (hk : k ≤ w) :
    r * 2 ^ (k + 1) + 4 ^ k < 2 * 4 ^ w := by
  obtain ⟨q, rfl⟩ := h.dvd
  have hscaled : 2 ^ (k + 1) * q * 2 ^ (k + 1) = 4 ^ (k + 1) * q := by
    rw [four_pow]
    ring
  have hnext : 4 ^ (k + 1) = 4 * 4 ^ k := Nat.pow_succ'
  have hpos : 0 < 4 ^ k := Nat.pow_pos (by omega)
  rw [hscaled]
  rcases Nat.eq_zero_or_pos q with rfl | hq
  · have hle : 4 ^ k ≤ 4 ^ w := Nat.pow_le_pow_right (by omega) hk
    omega
  have hlow : 4 ^ (k + 1) * q ≤ n := by
    have hmul : 4 ^ (k + 1) * q ≤ 4 ^ (k + 1) * q * q := Nat.le_mul_of_pos_right _ hq
    have hsquare : 4 ^ (k + 1) * q * q = 2 ^ (k + 1) * q * (2 ^ (k + 1) * q) := by
      rw [four_pow]
      ring
    exact (hmul.trans (Nat.le_of_eq hsquare)).trans h.low
  have hkw : k + 1 ≤ w := by
    by_contra hlt
    have hle : 4 ^ (w + 1) ≤ 4 ^ (k + 1) := Nat.pow_le_pow_right (by omega) (by omega)
    have hmul : 4 ^ (k + 1) * 1 ≤ 4 ^ (k + 1) * q := Nat.mul_le_mul_left _ hq
    have hw : 4 ^ (w + 1) = 4 * 4 ^ w := Nat.pow_succ'
    omega
  -- the bound is a multiple of the scaled bit above, so there is room for another one
  have hbound : 2 * 4 ^ w = 4 ^ (k + 1) * (2 * 4 ^ (w - (k + 1))) := by
    rw [Nat.mul_left_comm, ← Nat.pow_add, Nat.add_sub_cancel' hkw]
  rw [hbound] at hn ⊢
  have hlt : q < 2 * 4 ^ (w - (k + 1)) := Nat.lt_of_mul_lt_mul_left (hlow.trans_lt hn)
  have hroom : 4 ^ (k + 1) * (q + 1) ≤ 4 ^ (k + 1) * (2 * 4 ^ (w - (k + 1))) := Nat.mul_le_mul_left _ hlt
  rw [Nat.mul_add, Nat.mul_one] at hroom
  omega

end DigitRoot
