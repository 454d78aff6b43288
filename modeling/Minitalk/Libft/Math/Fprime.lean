import Mathlib.Data.Nat.Factors
import Minitalk.Lib.CInt
import Minitalk.Lib.Program

/-! # `ft_fprime` (`libft/math/ft_fprime.c`)

It prints the prime factors of a number. A value that is no `int` has no result. -/

namespace Minitalk.Libft.Fprime
open CInt Program

/-- The variables, and what was printed. -/
structure Vars where
  n : Int
  i : Int
  first : Bool
  out : String

/-- `if (!first) printf("*"); printf("%d", factor);` -/
def printFactor (s : Vars) (factor : Int) : String := (if !s.first then s.out ++ "*" else s.out) ++ toString factor

/-- `while (!(n % i))` -/
def divideLoop (turns : Nat) (s : Vars) : Option Vars :=
  whileLoop (fun s => some (decide (s.n.tmod s.i = 0)))
    (fun s => some { s with n := s.n.tdiv s.i, first := false, out := printFactor s s.i }) turns s

def factorTurn (turns : Nat) (s : Vars) : Option Vars := do
  let s ← divideLoop turns s
  some { s with i := ← checked (s.i + 1) }

/-- `while (i * i <= n)` -/
def factorLoop (inner turns : Nat) (s : Vars) : Option Vars :=
  whileLoop (fun s => (checked (s.i * s.i)).map fun square => decide (square ≤ s.n)) (factorTurn inner) turns s

def ftFprime (turns : Nat) (n : Int) : Option String := do
  let s ← factorLoop turns turns { n, i := 2, first := true, out := "" }
  some ((if 1 < s.n then printFactor s s.n else s.out) ++ "\n")

/-! ### The factors in order -/

/-- How factors are printed. -/
def shown (fs : List Nat) : String := "*".intercalate (fs.map toString)

/-- The factors `fs` of `x` were printed; what is left of it is `m`, which no prime below `i` divides. -/
structure Factoring (x : Nat) (fs : List Nat) (i m : Nat) (s : Vars) : Prop where
  rest : s.n = m
  divisor : s.i = i
  first : s.first = fs.isEmpty
  out : s.out = shown fs
  list : fs ++ m.primeFactorsList = x.primeFactorsList
  pos : 0 < m
  large : ∀ p, p.Prime → p ∣ m → i ≤ p

section Loop
variable {x i m turns : Nat} {fs : List Nat} {s : Vars}

theorem Factoring.printed (h : Factoring x fs i m s) (p : Nat) : printFactor s p = shown (fs ++ [p]) := by
  have hp : toString (p : Int) = toString p := rfl
  rw [printFactor, h.first, h.out, hp, shown, shown, List.map_append]
  cases fs with
  | nil => simp
  | cons f fs =>
    rw [String.intercalate_append_of_ne_nil (by simp) (by simp)]
    simp

/-- The least divisor is the first one of the factors that are left. -/
theorem Factoring.least (h : Factoring x fs i m s) (hi : 2 ≤ i) (hdvd : i ∣ m) :
    m.primeFactorsList = i :: (m / i).primeFactorsList := by
  have htwo : 2 ≤ m := hi.trans (Nat.le_of_dvd h.pos hdvd)
  have hmin : m.minFac = i := le_antisymm (Nat.minFac_le_of_dvd hi hdvd)
    (h.large _ (Nat.minFac_prime (by omega)) (Nat.minFac_dvd m))
  obtain ⟨k, rfl⟩ := Nat.exists_eq_add_of_le' htwo
  rw [Nat.primeFactorsList_add_two, hmin]

theorem Factoring.divide (h : Factoring x fs i m s) (hi : 2 ≤ i) (hdvd : i ∣ m) :
    Factoring x (fs ++ [i]) i (m / i) { s with n := s.n.tdiv s.i, first := false, out := printFactor s s.i } where
  rest := by
    rw [h.rest, h.divisor]
    rfl
  divisor := h.divisor
  first := by simp
  out := by
    rw [h.divisor]
    exact h.printed i
  list := by rw [← h.list, h.least hi hdvd, List.append_assoc, List.singleton_append]
  pos := Nat.div_pos (Nat.le_of_dvd h.pos hdvd) (by omega)
  large p hp hpm := h.large p hp (hpm.trans (Nat.div_dvd_of_dvd hdvd))

theorem Factoring.next (h : Factoring x fs i m s) (hndvd : ¬i ∣ m) :
    Factoring x fs (i + 1) m { s with i := (i + 1 : Nat) } :=
  { h with
    divisor := rfl
    large := fun p hp hpm => Nat.lt_of_le_of_ne (h.large p hp hpm) fun heq => hndvd (heq ▸ hpm) }

/-- What is left is halved, at least, by each factor. -/
theorem divideLoop_ends (h : Factoring x fs i m s) (hi : 2 ≤ i) (hturns : m < turns) :
    Ends (divideLoop turns s) fun s' => ∃ fs' m', Factoring x fs' i m' s' ∧ ¬i ∣ m' ∧ (m' = m ∨ 2 * m' ≤ m) := by
  refine whileLoop_rule (fun s => ∃ fs' m', Factoring x fs' i m' s ∧ (m' = m ∨ 2 * m' ≤ m)) (fun s => s.n.toNat)
    (by rw [h.rest, Int.toNat_natCast]; exact hturns) ⟨fs, m, h, Or.inl rfl⟩ ?_
  rintro s ⟨fs', m', h', hm⟩
  refine .some ?_
  have hzero : s.n.tmod s.i = 0 ↔ i ∣ m' := by
    rw [h'.rest, h'.divisor, ← Int.dvd_iff_tmod_eq_zero, Int.natCast_dvd_natCast]
  by_cases hdvd : i ∣ m'
  · rw [if_pos (decide_eq_true (hzero.mpr hdvd))]
    have hhalf : 2 * (m' / i) ≤ m' :=
      (Nat.mul_le_mul_right _ hi).trans (Nat.mul_div_cancel' hdvd).le
    have hnext := h'.divide hi hdvd
    refine .some ⟨⟨_, _, hnext, Or.inr (by omega)⟩, ?_⟩
    rw [hnext.rest, h'.rest, Int.toNat_natCast, Int.toNat_natCast]
    have := h'.pos
    omega
  · rw [if_neg (by simpa using fun hz => hdvd (hzero.mp hz))]
    exact ⟨fs', m', h', hdvd, hm⟩

/-- What is left is small, or it is no prime. -/
def Safe (m : Nat) : Prop := m < 46340 ^ 2 ∨ ¬m.Prime

/-- The square of 46340 is the largest one that is an `int`. -/
theorem Factoring.in_range (h : Factoring x fs i m s) (hsafe : Safe m) (hm : m < 2 ^ 31) (hle : i * i ≤ m) :
    i < 46340 := by
  by_contra hge
  have hsquare : 46340 * 46340 ≤ i * i := Nat.mul_le_mul (by omega) (by omega)
  have hcomposite : ¬m.Prime := hsafe.resolve_left (by omega)
  have hmin := Nat.minFac_prime (show m ≠ 1 by omega)
  have hfirst := h.large _ hmin (Nat.minFac_dvd m)
  have hroot := Nat.minFac_sq_le_self h.pos hcomposite
  have hmost : m.minFac < 46341 := by
    by_contra hlarge
    have := Nat.pow_le_pow_left (show 46341 ≤ m.minFac by omega) 2
    omega
  have heq : m.minFac = 46340 := by omega
  rw [heq] at hmin
  exact Nat.not_prime_of_dvd_of_lt (show 2 ∣ 46340 by decide) (by decide) (by decide) hmin

theorem checked_nat {a : Nat} (h : a < 2 ^ 31) : checked a = some (a : Int) := checked_of_fits ⟨by omega, by omega⟩

theorem factorTurn_ends (h : Factoring x fs i m s) (hsafe : Safe m) (hm : m < 2 ^ 31) (hi : 2 ≤ i) (hlt : i < 46340)
    (hturns : m < turns) : Ends (factorTurn turns s) fun s' => ∃ fs' m', Factoring x fs' (i + 1) m' s' ∧ Safe m' ∧
      m' ≤ m := by
  refine (divideLoop_ends h hi hturns).bind ?_
  rintro s' ⟨fs', m', h', hndvd, hm'⟩
  have hnext : checked (s'.i + 1) = some ((i + 1 : Nat) : Int) := by
    rw [h'.divisor]
    exact checked_nat (a := i + 1) (by omega)
  rw [hnext]
  refine .some ⟨fs', m', h'.next hndvd, ?_, by omega⟩
  rcases hm' with rfl | hhalf
  · exact hsafe
  · exact Or.inl (by omega)

/-- With no divisor up to its root, what is left is a prime, or nothing. -/
theorem Factoring.finish (h : Factoring x fs i m s) (hlt : m < i * i) :
    (if 1 < s.n then printFactor s s.n else s.out) = shown x.primeFactorsList := by
  rw [h.rest, ← h.list]
  by_cases hone : m = 1
  · rw [if_neg (by omega), h.out, hone, Nat.primeFactorsList_one, List.append_nil]
  · have hpos := h.pos
    have hprime : m.Prime := by
      by_contra hcomposite
      have hroot := Nat.minFac_sq_le_self hpos hcomposite
      have hfirst := h.large _ (Nat.minFac_prime hone) (Nat.minFac_dvd m)
      have := Nat.mul_le_mul hfirst hfirst
      rw [Nat.pow_two] at hroot
      omega
    rw [if_pos (by omega), h.printed, Nat.primeFactorsList_prime hprime]

theorem factorLoop_ends {inner : Nat} (h : Factoring x [] 2 x s) (hsafe : Safe x) (hx : x < 2 ^ 31) (hinner : x < inner)
    (hturns : 46341 < turns) : Ends (factorLoop inner turns s) fun s' =>
      (if 1 < s'.n then printFactor s' s'.n else s'.out) = shown x.primeFactorsList := by
  refine whileLoop_rule (fun s => ∃ fs i m, Factoring x fs i m s ∧ Safe m ∧ m ≤ x ∧ 2 ≤ i ∧ i ≤ 46340)
    (fun s => 46341 - s.i.toNat) (by omega) ⟨[], 2, x, h, hsafe, Nat.le_refl x, by decide, by decide⟩ ?_
  rintro s ⟨fs, i, m, h, hsafe, hm, hi, hle⟩
  have hroom : i * i ≤ 46340 * 46340 := Nat.mul_le_mul hle hle
  have hsquare : checked (s.i * s.i) = some ((i * i : Nat) : Int) := by
    rw [h.divisor, ← Int.natCast_mul]
    exact checked_nat (by omega)
  have hrest := h.rest
  rw [hsquare]
  refine .some ?_
  by_cases hgo : i * i ≤ m
  · rw [if_pos (decide_eq_true (by omega))]
    have hlt := h.in_range hsafe (by omega) hgo
    refine (factorTurn_ends h hsafe (by omega) hi hlt (by omega)).mono ?_
    rintro s' ⟨fs', m', h', hsafe', hm'⟩
    refine ⟨⟨fs', i + 1, m', h', hsafe', by omega, by omega, by omega⟩, ?_⟩
    rw [h.divisor, h'.divisor, Int.toNat_natCast, Int.toNat_natCast]
    omega
  · rw [if_neg (by simp only [decide_eq_true_eq]; omega)]
    exact h.finish (by omega)

theorem divideLoop_done (hndvd : ¬i ∣ m) (first : Bool) (out : String) :
    divideLoop (turns + 1) { n := m, i, first, out } = some { n := m, i, first, out } := by
  rw [divideLoop]
  refine whileLoop_stop ?_ _ _
  rw [decide_eq_false]
  rwa [← Int.dvd_iff_tmod_eq_zero, Int.natCast_dvd_natCast]

theorem factorLoop_turn {inner : Nat} (hinner : 0 < inner) (hi : i ≤ 46340) (hle : i * i ≤ x) (hndvd : ¬i ∣ x)
    (first : Bool) (out : String) : factorLoop inner (turns + 1) { n := x, i, first, out } =
      factorLoop inner turns { n := x, i := (i + 1 : Nat), first, out } := by
  obtain ⟨inner, rfl⟩ := Nat.exists_eq_add_one.mpr hinner
  have hroom : i * i ≤ 46340 * 46340 := Nat.mul_le_mul hi hi
  have hgo : (checked ((i : Int) * i)).map (fun square => decide (square ≤ (x : Int))) = some true := by
    rw [← Int.natCast_mul, checked_nat (by omega), Option.map_some, decide_eq_true (by omega)]
  have hnext : checked ((i : Int) + 1) = some ((i + 1 : Nat) : Int) := checked_nat (a := i + 1) (by omega)
  rw [factorLoop]
  refine (whileLoop_turn ?_ turns).trans ?_
  · exact hgo
  · rw [factorTurn, divideLoop_done hndvd, Option.bind_eq_bind, Option.bind_some, hnext]
    rfl

/-- For a prime from 46340 * 46340 on no divisor is found on the way to 46341. -/
theorem factorLoop_reaches {inner : Nat} (hinner : 0 < inner) (hprime : x.Prime) (hle : 46340 ^ 2 ≤ x) {k : Nat}
    (hk : k ≤ 46339) (first : Bool) (out : String) : factorLoop inner (turns + k) { n := x, i := 2, first, out } =
      factorLoop inner turns { n := x, i := (2 + k : Nat), first, out } := by
  induction k generalizing turns with
  | zero => rfl
  | succ k ih =>
    have hroom : (2 + k) * (2 + k) ≤ 46340 * 46340 := Nat.mul_le_mul (by omega) (by omega)
    have hndvd : ¬2 + k ∣ x := fun hdvd => by
      rcases (Nat.dvd_prime hprime).mp hdvd with hone | rfl <;> omega
    have hturns : turns + (k + 1) = turns + 1 + k := by omega
    rw [hturns, ih (by omega)]
    exact factorLoop_turn hinner (by omega) (by omega) hndvd first out

/-- The square that the loop tests there is no `int`. -/
theorem square_overflows : checked ((46341 : Int) * 46341) = none := if_neg (by decide)

theorem factorLoop_none (hprime : x.Prime) (hle : 46340 ^ 2 ≤ x) (hturns : 46340 ≤ turns) (first : Bool)
    (out : String) : factorLoop turns turns { n := x, i := 2, first, out } = none := by
  obtain ⟨turns, rfl⟩ : ∃ left, turns = left + 1 + 46339 := ⟨turns - 46340, by omega⟩
  have hlast : ((2 + 46339 : Nat) : Int) = 46341 := rfl
  rw [factorLoop_reaches (by omega) hprime hle (Nat.le_refl 46339), hlast, factorLoop, whileLoop, square_overflows]
  rfl

end Loop

/-- The prime factors are printed in order, with their multiplicity; only for a prime from 46340 * 46340 on the square
    of `i` overflows. -/
theorem fprime_iff (x : Int) (hx : Fits x) :
    Halts (fun turns => ftFprime turns x) (· = shown x.toNat.primeFactorsList ++ "\n") ↔
      ¬(x.toNat.Prime ∧ 46340 ^ 2 ≤ x) := by
  rcases Int.lt_or_le x 2 with hsmall | htwo
  · refine iff_of_true ⟨1, fun turns hturns => ?_⟩ fun h => by omega
    obtain ⟨turns, rfl⟩ := Nat.exists_eq_add_one_of_ne_zero (show turns ≠ 0 by omega)
    have hnone : x.toNat.primeFactorsList = [] := by
      rw [Nat.primeFactorsList_eq_nil]
      omega
    have hstop : factorLoop (turns + 1) (turns + 1) { n := x, i := 2, first := true, out := "" } =
        some { n := x, i := 2, first := true, out := "" } := by
      refine whileLoop_stop ?_ _ _
      have hsquare : checked (2 * 2) = some 4 := rfl
      rw [hsquare, Option.map_some, decide_eq_false (by simp only; omega)]
    beta_reduce
    rw [ftFprime, hstop, Option.bind_eq_bind, Option.bind_some, if_neg (by simp only; omega), hnone]
    exact .some rfl
  obtain ⟨n, rfl⟩ := Int.eq_ofNat_of_zero_le (show 0 ≤ x by omega)
  have hlt : n < 2 ^ 31 := by
    have := hx.2
    omega
  rw [Int.toNat_natCast]
  by_cases hbad : n.Prime ∧ 46340 ^ 2 ≤ n
  · refine iff_of_false (not_halts_of_none 46340 fun turns hturns => ?_) fun h => h ⟨hbad.1, by omega⟩
    have hnone : factorLoop turns turns { n, i := 2, first := true, out := "" } = none :=
      factorLoop_none hbad.1 hbad.2 hturns true ""
    rw [ftFprime]
    exact congrArg (Option.bind · _) hnone
  · have hsafe : Safe n := by
      rcases not_and_or.mp hbad with hcomposite | hless
      · exact Or.inr hcomposite
      · exact Or.inl (by omega)
    refine iff_of_true ⟨n + 46342, fun turns hturns => ?_⟩ fun h => hbad ⟨h.1, by omega⟩
    have hstart : Factoring n [] 2 n { n := n, i := 2, first := true, out := "" } :=
      { rest := rfl
        divisor := rfl
        first := rfl
        out := rfl
        list := rfl
        pos := by omega
        large := fun p hp _ => hp.two_le }
    refine (factorLoop_ends hstart hsafe hlt (by omega) (by omega)).bind fun s hs => .some ?_
    rw [hs]

theorem fprime_iff_twelve :
    Halts (fun turns => ftFprime turns 12) (· = shown (12 : Int).toNat.primeFactorsList ++ "\n") ↔
      ¬((12 : Int).toNat.Prime ∧ 46340 ^ 2 ≤ (12 : Int)) :=
  fprime_iff 12 (by decide)

end Minitalk.Libft.Fprime
