import Minitalk.Lib.Inversions

/-! # Exchange by exclusive or (`ft_swap`)

A pointer is an offset into one memory of bytes, and an access outside of it has no result. In such a memory, an array
is the bytes of one element after the other. -/

namespace Minitalk.Libft
open CArray Program

/-- `*p ^= *q` -/
def xorInto (p q : Nat) (mem : List UInt8) : Option (List UInt8) := do
  let x ← mem[p]?
  let y ← mem[q]?
  some (mem.set p (x ^^^ y))

/-- `while (size--)` -/
def swapBytes : Nat → Nat → Nat → List UInt8 → Option (List UInt8)
  | 0, _, _, mem => some mem
  | size + 1, pa, pb, mem => do
    let mem ← xorInto pa pb mem
    let mem ← xorInto pb pa mem
    let mem ← xorInto pa pb mem
    swapBytes size (pa + 1) (pb + 1) mem

def ftSwap (a b size : Nat) (mem : List UInt8) : Option (List UInt8) :=
  if a = b then some mem else swapBytes size a b mem

section Bytes
variable {a b size : Nat} {mem : List UInt8} {x y : UInt8}

theorem swapBytes_succ (hne : a ≠ b) (hx : mem[a]? = some x) (hy : mem[b]? = some y) :
    swapBytes (size + 1) a b mem = swapBytes size (a + 1) (b + 1) ((mem.set a y).set b x) := by
  obtain ⟨ha, -⟩ := List.getElem?_eq_some_iff.mp hx
  obtain ⟨hb, -⟩ := List.getElem?_eq_some_iff.mp hy
  have hfirst : y ^^^ (x ^^^ y) = x := by rw [UInt8.xor_comm x, ← UInt8.xor_assoc, UInt8.xor_self, UInt8.zero_xor]
  have hsecond : x ^^^ y ^^^ x = y := by rw [UInt8.xor_comm x, UInt8.xor_assoc, UInt8.xor_self, UInt8.xor_zero]
  have hstep₁ : xorInto a b mem = some (mem.set a (x ^^^ y)) := by
    rw [xorInto, hx, hy]
    rfl
  have hstep₂ : xorInto b a (mem.set a (x ^^^ y)) = some ((mem.set a (x ^^^ y)).set b x) := by
    rw [xorInto, List.getElem?_set_ne hne, hy, List.getElem?_set_self ha, Option.bind_eq_bind, Option.bind_some,
      Option.bind_some, hfirst]
  have hstep₃ : xorInto a b ((mem.set a (x ^^^ y)).set b x) = some ((mem.set a y).set b x) := by
    rw [xorInto, List.getElem?_set_ne hne.symm, List.getElem?_set_self ha, List.getElem?_set_self (by simpa using hb),
      Option.bind_eq_bind, Option.bind_some, Option.bind_some, hsecond, List.set_comm _ _ hne.symm, List.set_set]
  simp only [swapBytes, hstep₁, hstep₂, hstep₃, Option.bind_eq_bind, Option.bind_some]

theorem swapBytes_comm (hne : a ≠ b) (ha : a + size ≤ mem.length) (hb : b + size ≤ mem.length) :
    swapBytes size a b mem = swapBytes size b a mem := by
  induction size generalizing a b mem with
  | zero => rfl
  | succ size ih =>
    have hx : mem[a]? = some mem[a] := List.getElem?_eq_getElem (by omega)
    have hy : mem[b]? = some mem[b] := List.getElem?_eq_getElem (by omega)
    rw [swapBytes_succ hne hx hy, swapBytes_succ hne.symm hy hx, List.set_comm _ _ hne.symm]
    exact ih (by omega) (by simp only [List.length_set]; omega) (by simp only [List.length_set]; omega)

theorem ftSwap_comm (ha : a + size ≤ mem.length) (hb : b + size ≤ mem.length) :
    ftSwap a b size mem = ftSwap b a size mem := by
  by_cases heq : a = b
  · rw [heq]
  · rw [ftSwap, ftSwap, if_neg heq, if_neg (Ne.symm heq), swapBytes_comm heq ha hb]

/-- Even when the areas overlap, no byte is lost. -/
theorem swapBytes_perm (hne : a ≠ b) (ha : a + size ≤ mem.length) (hb : b + size ≤ mem.length) :
    Ends (swapBytes size a b mem) fun mem' => mem'.Perm mem := by
  induction size generalizing a b mem with
  | zero => exact .some (.refl mem)
  | succ size ih =>
    have ha' : a < mem.length := by omega
    have hb' : b < mem.length := by omega
    rw [swapBytes_succ hne (List.getElem?_eq_getElem ha') (List.getElem?_eq_getElem hb')]
    refine (ih (by omega) (by simp only [List.length_set]; omega) (by simp only [List.length_set]; omega)).mono ?_
    exact fun mem' hperm => hperm.trans (List.set_set_perm ha' hb')

/-- Two areas that do not overlap. -/
theorem swapBytes_areas (xs ys zs : List UInt8) {p q : List UInt8} (hlen : p.length = q.length) :
    swapBytes p.length xs.length (xs.length + p.length + ys.length) (xs ++ (p ++ (ys ++ (q ++ zs)))) =
      some (xs ++ (q ++ (ys ++ (p ++ zs)))) := by
  induction p generalizing xs ys q with
  | nil =>
    obtain rfl := List.eq_nil_of_length_eq_zero hlen.symm
    rfl
  | cons c p ih =>
    obtain ⟨d, q, rfl⟩ := List.exists_cons_of_length_eq_add_one hlen.symm
    have hrest := ih (xs ++ [d]) (ys ++ [c]) (q := q) (by simpa using hlen)
    have hx : (xs ++ (c :: p ++ (ys ++ (d :: q ++ zs))))[xs.length]? = some c := by simp
    have hother : xs.length + (p.length + 1) + ys.length = (xs ++ (c :: p ++ ys)).length := by
      simp only [List.length_append, List.length_cons]
      omega
    have hsplit : xs ++ (c :: p ++ (ys ++ (d :: q ++ zs))) = (xs ++ (c :: p ++ ys)) ++ d :: (q ++ zs) := by simp
    have hy : (xs ++ (c :: p ++ (ys ++ (d :: q ++ zs))))[xs.length + (p.length + 1) + ys.length]? = some d := by
      rw [hother, hsplit]
      simp
    have hset : ((xs ++ (c :: p ++ (ys ++ (d :: q ++ zs)))).set xs.length d).set
        (xs.length + (p.length + 1) + ys.length) c = (xs ++ [d]) ++ (p ++ ((ys ++ [c]) ++ (q ++ zs))) := by
      have hfirst : (xs ++ (c :: p ++ (ys ++ (d :: q ++ zs)))).set xs.length d =
          (xs ++ (d :: p ++ ys)) ++ d :: (q ++ zs) := by simp
      have hlen' : (xs ++ (c :: p ++ ys)).length = (xs ++ (d :: p ++ ys)).length := by simp
      rw [hfirst, hother, hlen']
      simp
    have hindex : xs.length + (p.length + 1) + ys.length + 1 = (xs ++ [d]).length + p.length + (ys ++ [c]).length := by
      simp only [List.length_append, List.length_cons, List.length_nil]
      omega
    have hstart : xs.length + 1 = (xs ++ [d]).length := by simp
    rw [List.length_cons, swapBytes_succ (by omega) hx hy, hset, hindex, hstart, hrest]
    simp

end Bytes

/-! ### Elements of an array -/

section Elements
variable {α : Type} {w : Nat} {enc : α → List UInt8}

theorem length_bytes (henc : ∀ x, (enc x).length = w) (arr : List α) : (arr.flatMap enc).length = w * arr.length := by
  induction arr with
  | nil => rfl
  | cons x arr ih =>
    rw [List.flatMap_cons, List.length_append, henc, ih, List.length_cons, Nat.mul_succ, Nat.add_comm]

theorem exists_two {arr : List α} {i j : Int} (h0 : 0 ≤ i) (hij : i < j) (hj : j < arr.length) :
    ∃ xs x ys y zs, arr = xs ++ x :: (ys ++ y :: zs) ∧ i = (xs.length : Nat) ∧ j = xs.length + ys.length + 1 := by
  have hi : i.toNat < arr.length := by omega
  have hk : (j - i - 1).toNat < (arr.drop (i.toNat + 1)).length := by
    rw [List.length_drop]
    omega
  refine ⟨arr.take i.toNat, arr[i.toNat], (arr.drop (i.toNat + 1)).take (j - i - 1).toNat,
    (arr.drop (i.toNat + 1))[(j - i - 1).toNat], (arr.drop (i.toNat + 1)).drop ((j - i - 1).toNat + 1), ?_, ?_, ?_⟩
  · rw [← List.drop_eq_getElem_cons hk, List.take_append_drop, ← List.drop_eq_getElem_cons hi, List.take_append_drop]
  · rw [List.length_take]
    omega
  · rw [List.length_take, List.length_take, List.length_drop]
    omega

variable [Inhabited α]

theorem swapBytes_before (henc : ∀ x, (enc x).length = w) {arr : List α} {i j : Int} (h0 : 0 ≤ i) (hij : i < j)
    (hj : j < arr.length) :
    swapBytes w (w * i.toNat) (w * j.toNat) (arr.flatMap enc) = some ((exchange arr i j).flatMap enc) := by
  obtain ⟨xs, x, ys, y, zs, rfl, rfl, rfl⟩ := exists_two h0 hij hj
  have hin : Inside (xs ++ x :: (ys ++ y :: zs)) xs.length := ⟨h0, by omega⟩
  have hin' : Inside (xs ++ x :: (ys ++ y :: zs)) (xs.length + ys.length + 1) := ⟨by omega, hj⟩
  have hswap := swap_append xs ys zs x y
  rw [swap_eq hin hin'] at hswap
  have hareas := swapBytes_areas (xs.flatMap enc) (ys.flatMap enc) (zs.flatMap enc)
    ((henc x).trans (henc y).symm)
  have hindex : ((xs.length : Int) + ys.length + 1).toNat = xs.length + 1 + ys.length := by omega
  rw [henc, length_bytes henc, length_bytes henc] at hareas
  rw [Option.some.inj hswap, Int.toNat_natCast, hindex, Nat.mul_add, Nat.mul_add, Nat.mul_one]
  simpa only [List.flatMap_append, List.flatMap_cons] using hareas

theorem ftSwap_before (henc : ∀ x, (enc x).length = w) {arr : List α} {i j : Int} (h0 : 0 ≤ i) (hij : i < j)
    (hj : j < arr.length) :
    ftSwap (w * i.toNat) (w * j.toNat) w (arr.flatMap enc) = some ((exchange arr i j).flatMap enc) := by
  have hbytes := swapBytes_before henc h0 hij hj
  rw [ftSwap]
  split
  · -- elements without bytes
    rename_i heq
    obtain rfl : w = 0 := Nat.eq_zero_of_not_pos fun hw => by
      have := Nat.eq_of_mul_eq_mul_left hw heq
      omega
    exact hbytes
  · exact hbytes

omit [Inhabited α] in
theorem element_le (henc : ∀ x, (enc x).length = w) {arr : List α} {i : Int} (hi : Inside arr i) :
    w * i.toNat + w ≤ (arr.flatMap enc).length := by
  obtain ⟨hi0, hlen⟩ := hi
  rw [length_bytes henc, ← Nat.mul_succ]
  exact Nat.mul_le_mul_left w (by omega)

/-- To exchange the bytes of two elements is to exchange the elements, whatever their bytes are; and of any two areas,
    also of two that overlap, no byte is lost. -/
theorem ftSwap_exchanges (henc : ∀ x, (enc x).length = w) :
    (∀ (arr : List α) (i j : Int), Inside arr i → Inside arr j →
      ftSwap (w * i.toNat) (w * j.toNat) w (arr.flatMap enc) = (swap arr i j).map fun arr => arr.flatMap enc) ∧
    ∀ (a b size : Nat) (mem : List UInt8), a + size ≤ mem.length → b + size ≤ mem.length →
      Ends (ftSwap a b size mem) fun mem' => mem'.Perm mem := by
  constructor
  · intro arr i j hi hj
    rw [swap_eq hi hj, Option.map_some]
    rcases Int.lt_trichotomy i j with hlt | rfl | hgt
    · exact ftSwap_before henc hi.1 hlt hj.2
    · rw [ftSwap, if_pos rfl, exchange_self hi]
    · rw [ftSwap_comm (element_le henc hi) (element_le henc hj), exchange_comm hi hj]
      exact ftSwap_before henc hj.1 hgt hi.2
  · intro a b size mem ha hb
    rw [ftSwap]
    split
    · exact .some (.refl mem)
    · rename_i hne
      exact swapBytes_perm hne ha hb

theorem ftSwap_exchanges_words :
    ftSwap 0 4 2 ([1, 2, 3].flatMap fun x : UInt8 => [x, 10 * x]) = some [3, 30, 2, 20, 1, 10] :=
  have hwords := @ftSwap_exchanges UInt8 2 (fun x => [x, 10 * x]) inferInstance fun _ => rfl
  hwords.1 [1, 2, 3] 0 2 ⟨by decide, by decide⟩ ⟨by decide, by decide⟩

end Elements
end Minitalk.Libft
