import Mathlib.Data.List.Induction
import Mathlib.Tactic.Linarith
import Mathlib.Tactic.Ring

/-! # Bit strings, most significant bit first

A number of known width and the list of its bits, most significant bit first, determine each other. A
receiver that collects such a list one bit at a time, in a word whose missing bits are still zero, holds the
value of the bits so far shifted left by the number of bits to come (`or_next`). -/

namespace Bits

/-- The number that a bit string denotes, most significant bit first. -/
def value (bs : List Bool) : Nat := bs.foldl (fun n b => 2 * n + b.toNat) 0

/-- The `w` low bits of `n`, most significant bit first. -/
def ofNat : Nat → Nat → List Bool
  | 0, _ => []
  | w + 1, n => n.testBit w :: ofNat w n

@[simp] theorem value_nil : value [] = 0 := rfl

@[simp] theorem value_concat (bs : List Bool) (b : Bool) : value (bs ++ [b]) = 2 * value bs + b.toNat := by
  simp [value]

@[simp] theorem length_ofNat (w n : Nat) : (ofNat w n).length = w := by
  induction w with
  | zero => rfl
  | succ w ih => simp [ofNat, ih]

theorem value_append (as bs : List Bool) : value (as ++ bs) = value as * 2 ^ bs.length + value bs := by
  induction bs using List.reverseRecOn with
  | nil => simp
  | append_singleton bs b ih =>
    rw [← List.append_assoc, value_concat, value_concat, ih, List.length_append, List.length_singleton,
      Nat.pow_succ]
    ring

theorem value_ofNat (w n : Nat) : value (ofNat w n) = n % 2 ^ w := by
  induction w with
  | zero => simp [ofNat, Nat.mod_one]
  | succ w ih =>
    have hcons : ofNat (w + 1) n = [n.testBit w] ++ ofNat w n := rfl
    have hbit : value [n.testBit w] = (n.testBit w).toNat := by simp [value]
    rw [hcons, value_append, ih, length_ofNat, hbit, Nat.mod_pow_succ, Nat.toNat_testBit]
    ring

theorem value_ofNat_of_lt {w n : Nat} (h : n < 2 ^ w) : value (ofNat w n) = n := by
  rw [value_ofNat, Nat.mod_eq_of_lt h]

/-- Setting the next bit of a word whose later bits are zero. -/
theorem or_next (bs : List Bool) (b : Bool) (r : Nat) :
    value bs * 2 ^ (r + 1) ||| b.toNat * 2 ^ r = value (bs ++ [b]) * 2 ^ r := by
  have hb : b.toNat * 2 ^ r < 2 ^ (r + 1) := by
    have : b.toNat ≤ 1 := Bool.toNat_le b
    have : 0 < 2 ^ r := Nat.two_pow_pos r
    rw [Nat.pow_succ]
    nlinarith
  rw [Nat.mul_comm (value bs), ← Nat.two_pow_add_eq_or_of_lt hb, value_concat, Nat.pow_succ]
  ring

/-! ### Groups of a fixed width -/

/-- The values of the complete groups of `w` bits at the front of a bit string. -/
def units (w : Nat) (bs : List Bool) : List Nat :=
  (List.range (bs.length / w)).map fun i => value ((bs.drop (i * w)).take w)

/-- The bits after the last complete group of `w` bits. -/
def rest (w : Nat) (bs : List Bool) : List Bool := bs.drop (bs.length / w * w)

@[simp] theorem length_units (w : Nat) (bs : List Bool) : (units w bs).length = bs.length / w := by
  simp [units]

@[simp] theorem length_rest (w : Nat) (bs : List Bool) : (rest w bs).length = bs.length % w := by
  rw [rest, List.length_drop, Nat.mod_eq_sub_div_mul]

@[simp] theorem units_nil (w : Nat) : units w [] = [] := by simp [units]

@[simp] theorem rest_nil (w : Nat) : rest w [] = [] := by simp [rest]

/-- A whole unit ends within the bits. -/
theorem unit_end_le {w n i : Nat} (hi : i ∈ List.range (n / w)) : i * w + w ≤ n := by
  rw [List.mem_range] at hi
  calc i * w + w = (i + 1) * w := by ring
    _ ≤ n / w * w := Nat.mul_le_mul_right w hi
    _ ≤ n := Nat.div_mul_le_self _ _

theorem units_concat_of_lt {w : Nat} (bs : List Bool) (b : Bool) (h : bs.length % w + 1 < w) :
    units w (bs ++ [b]) = units w bs ∧ rest w (bs ++ [b]) = rest w bs ++ [b] := by
  have hw : 0 < w := by omega
  have hdiv : (bs.length + 1) / w = bs.length / w := by
    refine Nat.div_eq_of_lt_le ((Nat.div_mul_le_self _ _).trans (Nat.le_succ _)) ?_
    have := Nat.div_add_mod bs.length w
    rw [Nat.succ_mul, Nat.mul_comm]
    omega
  refine ⟨?_, ?_⟩
  · unfold units
    rw [List.length_append, List.length_singleton, hdiv]
    refine List.map_congr_left fun i hi => ?_
    have hend := unit_end_le hi
    rw [List.drop_append_of_le_length (by omega), List.take_append_of_le_length (by simp; omega)]
  · unfold rest
    rw [List.length_append, List.length_singleton, hdiv,
      List.drop_append_of_le_length (Nat.div_mul_le_self _ _)]

theorem units_concat_of_eq {w : Nat} {bs : List Bool} (b : Bool) (h : bs.length % w + 1 = w) :
    units w (bs ++ [b]) = units w bs ++ [value (rest w bs ++ [b])] ∧ rest w (bs ++ [b]) = [] := by
  have hw : 0 < w := by omega
  have hlen : bs.length + 1 = (bs.length / w + 1) * w := by
    have := Nat.div_add_mod bs.length w
    rw [Nat.add_mul, Nat.one_mul, Nat.mul_comm]
    omega
  have hdiv : (bs.length + 1) / w = bs.length / w + 1 := by rw [hlen, Nat.mul_div_cancel _ hw]
  refine ⟨?_, ?_⟩
  · unfold units
    rw [List.length_append, List.length_singleton, hdiv, List.range_succ, List.map_append, List.map_singleton]
    congr 1
    · refine List.map_congr_left fun i hi => ?_
      have hend := unit_end_le hi
      rw [List.drop_append_of_le_length (by omega), List.take_append_of_le_length (by simp; omega)]
    · rw [List.drop_append_of_le_length (Nat.div_mul_le_self _ _), List.take_of_length_le]
      · rfl
      · have := length_rest w bs
        rw [rest] at this
        rw [List.length_append, this, List.length_singleton, h]
  · unfold rest
    rw [List.length_append, List.length_singleton, hdiv, ← hlen]
    simp

theorem units_flatMap {w : Nat} (hw : 0 < w) {ns : List Nat} (h : ∀ n ∈ ns, n < 2 ^ w) :
    units w (ns.flatMap (ofNat w)) = ns := by
  have hlen : ∀ l : List Nat, (l.flatMap (ofNat w)).length = l.length * w := fun l => by
    induction l with
    | nil => simp
    | cons n l ih => simp [ih, Nat.succ_mul, Nat.add_comm]
  refine List.ext_getElem (by rw [length_units, hlen, Nat.mul_div_cancel _ hw]) fun i hi hi' => ?_
  have hsplit : ns.flatMap (ofNat w) =
      (ns.take i).flatMap (ofNat w) ++ (ofNat w ns[i] ++ (ns.drop (i + 1)).flatMap (ofNat w)) := by
    conv_lhs => rw [← List.take_append_drop i ns, List.drop_eq_getElem_cons hi']
    rw [List.flatMap_append, List.flatMap_cons]
  have hpre : ((ns.take i).flatMap (ofNat w)).length = i * w := by
    rw [hlen, List.length_take, Nat.min_eq_left (Nat.le_of_lt hi')]
  simp only [units, List.getElem_map, List.getElem_range]
  rw [hsplit, ← hpre, List.drop_left, List.take_left' (length_ofNat w ns[i])]
  exact value_ofNat_of_lt (h _ (List.getElem_mem hi'))

end Bits
