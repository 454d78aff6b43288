import Mathlib.Data.Nat.Digits.Lemmas

/-! # Positional numerals

A numeral is its digits, the highest first; the numeral of 0 is one digit. `value` reads digits as a left fold, the way
that a loop over a text accumulates them. -/

namespace Radix
variable {b n : Nat}

/-- The canonical digits of a number. -/
def digits (b n : Nat) : List Nat := if n = 0 then [0] else (Nat.digits b n).reverse

/-- What further digits make of a number. -/
def extend (b n : Nat) (ds : List Nat) : Nat := ds.foldl (fun n d => n * b + d) n

def value (b : Nat) (ds : List Nat) : Nat := extend b 0 ds

/-! ### Values -/

@[simp] theorem extend_nil (b n : Nat) : extend b n [] = n := rfl

@[simp] theorem extend_cons (b n d : Nat) (ds : List Nat) : extend b n (d :: ds) = extend b (n * b + d) ds := rfl

theorem extend_append (b n : Nat) (ds es : List Nat) : extend b n (ds ++ es) = extend b (extend b n ds) es :=
  List.foldl_append

theorem value_concat (b : Nat) (ds : List Nat) (d : Nat) : value b (ds ++ [d]) = value b ds * b + d :=
  extend_append b 0 ds [d]

/-- Digits never make a number smaller. -/
theorem le_extend (hb : 0 < b) (ds : List Nat) (n : Nat) : n ≤ extend b n ds := by
  induction ds generalizing n with
  | nil => exact Nat.le_refl n
  | cons d ds ih =>
    have hstep : n ≤ n * b + d := Nat.le_trans (Nat.le_mul_of_pos_right n hb) (Nat.le_add_right _ _)
    exact Nat.le_trans hstep (ih _)

theorem extend_eq_zero (hb : 0 < b) {ds : List Nat} : extend b n ds = 0 ↔ n = 0 ∧ ∀ d ∈ ds, d = 0 := by
  induction ds generalizing n with
  | nil => simp
  | cons d ds ih =>
    rw [extend_cons, ih, Nat.add_eq_zero_iff, Nat.mul_eq_zero, List.forall_mem_cons]
    constructor
    · rintro ⟨⟨hn | hb0, hd⟩, hds⟩
      · exact ⟨hn, hd, hds⟩
      · exact absurd hb0 hb.ne'
    · rintro ⟨hn, hd, hds⟩
      exact ⟨⟨Or.inl hn, hd⟩, hds⟩

/-- Further digits change a number unless it is 0 and they are zeros. -/
theorem extend_eq_self (hb : 1 < b) {ds : List Nat} : extend b n ds = n ↔ ds = [] ∨ (n = 0 ∧ ∀ d ∈ ds, d = 0) := by
  cases ds with
  | nil => simp
  | cons d ds =>
    constructor
    · intro h
      have hle := le_extend (Nat.zero_lt_of_lt hb) ds (n * b + d)
      have htwice : n * 2 ≤ n * b := Nat.mul_le_mul_left n hb
      rw [← extend_cons, h] at hle
      have hn : n = 0 := by omega
      exact Or.inr ⟨hn, ((extend_eq_zero (Nat.zero_lt_of_lt hb)).mp (h.trans hn)).2⟩
    · rintro (h | ⟨hn, hds⟩)
      · cases h
      · exact ((extend_eq_zero (Nat.zero_lt_of_lt hb)).mpr ⟨hn, hds⟩).trans hn.symm

/-! ### Canonical digits -/

theorem digits_ne_nil (b n : Nat) : digits b n ≠ [] := by
  unfold digits
  split
  · exact List.cons_ne_nil _ _
  · rw [Ne, List.reverse_eq_nil_iff]
    exact Nat.digits_ne_nil_iff_ne_zero.mpr ‹_›

theorem digits_of_lt (hn : n < b) : digits b n = [n] := by
  unfold digits
  split
  · rename_i h0
    rw [h0]
  · rename_i h0
    rw [Nat.digits_of_lt b n h0 hn]
    rfl

theorem digits_of_le (hb : 1 < b) (hn : b ≤ n) : digits b n = digits b (n / b) ++ [n % b] := by
  have hpos : 0 < n := Nat.lt_of_lt_of_le (Nat.zero_lt_of_lt hb) hn
  have hquot : n / b ≠ 0 := (Nat.div_pos hn (Nat.zero_lt_of_lt hb)).ne'
  rw [digits, digits, if_neg hpos.ne', if_neg hquot, Nat.digits_def' hb hpos, List.reverse_cons]

theorem value_digits (hb : 1 < b) (n : Nat) : value b (digits b n) = n := by
  induction n using Nat.strong_induction_on with
  | _ n ih =>
    rcases Nat.lt_or_ge n b with hlt | hge
    · rw [digits_of_lt hlt, value, extend_cons, extend_nil, Nat.zero_mul, Nat.zero_add]
    · have hlt : n / b < n := Nat.div_lt_self (by omega) hb
      rw [digits_of_le hb hge, value_concat, ih _ hlt, Nat.div_add_mod']

theorem digits_lt (hb : 1 < b) {d : Nat} (hd : d ∈ digits b n) : d < b := by
  unfold digits at hd
  split at hd
  · rw [List.mem_singleton.mp hd]
    exact Nat.zero_lt_of_lt hb
  · exact Nat.digits_lt_base hb (List.mem_reverse.mp hd)

/-- Only the numeral of 0 begins with a 0. -/
theorem head_digits (b n : Nat) : (digits b n).head? = some 0 ↔ n = 0 := by
  unfold digits
  split
  · rename_i hn
    simp [hn]
  · rename_i hn
    rw [List.head?_reverse, List.getLast?_eq_some_getLast (Nat.digits_ne_nil_iff_ne_zero.mpr hn), Option.some.injEq]
    exact iff_of_false (Nat.getLast_digit_ne_zero b hn) hn

/-! ### Loops over quotients -/

theorem div_lt_pow {fuel : Nat} (h : n < b ^ (fuel + 1)) : n / b < b ^ fuel :=
  Nat.div_lt_of_lt_mul (by rwa [Nat.mul_comm, ← Nat.pow_succ])

/-- The rule of a loop that divides its number until nothing is left, with fuel for each digit. -/
theorem quotient_induction (hb : 1 < b) {motive : Nat → Nat → Prop} (hzero : ∀ fuel, motive fuel 0)
    (hstep : ∀ fuel n, 0 < n → Nat.digits b n = n % b :: Nat.digits b (n / b) → motive fuel (n / b) →
      motive (fuel + 1) n) {fuel : Nat} (h : n < b ^ fuel) : motive fuel n := by
  induction fuel generalizing n with
  | zero =>
    obtain rfl : n = 0 := Nat.lt_one_iff.mp h
    exact hzero 0
  | succ fuel ih =>
    rcases Nat.eq_zero_or_pos n with rfl | hpos
    · exact hzero (fuel + 1)
    · exact hstep fuel n hpos (Nat.digits_def' hb hpos) (ih (div_lt_pow h))

end Radix
