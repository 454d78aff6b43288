import Mathlib.NumberTheory.LucasLehmer
import Minitalk.Lib.CInt
import Minitalk.Lib.Program

/-! # `ft_is_prime` (`libft/math/ft_isprime.c`)

What becomes of a value that is no `int` is a parameter: it is not allowed (`checked`), or it is taken modulo 2^32
(`wrapped`). -/

namespace Minitalk.Libft
open CInt Program

def ftIsPrimeLoop (result : Int → Option Int) (x : Int) : Nat → Int → Option Int
  | 0, _ => none
  | turns + 1, i => do
    if (← result (i * i)) ≤ x then
      if x.tmod i = 0 then return 0
      ftIsPrimeLoop result x turns (← result (i + 1))
    else return 1

def ftIsPrime (result : Int → Option Int) (turns : Nat) (x : Int) : Option Int :=
  if x < 2 then some 0 else ftIsPrimeLoop result x turns 2

/-- 1 for the primes and for nothing else -/
def TellsPrime (x r : Int) : Prop := r = 1 ↔ x.toNat.Prime

section Loop
variable {result : Int → Option Int} {n i e turns : Nat} {v : Int}

/-- The turn at `i` leads to the next one. -/
structure Passes (result : Int → Option Int) (n i : Nat) : Prop where
  square : ∃ v, result (i * i) = some v ∧ v ≤ n
  ndvd : ¬i ∣ n
  next : result (i + 1) = some ((i + 1 : Nat) : Int)

theorem tmod_eq_zero_iff (n i : Nat) : (n : Int).tmod i = 0 ↔ i ∣ n := by
  rw [← Int.dvd_iff_tmod_eq_zero, Int.natCast_dvd_natCast]

theorem Passes.turn (h : Passes result n i) :
    ftIsPrimeLoop result n (turns + 1) i = ftIsPrimeLoop result n turns (i + 1 : Nat) := by
  obtain ⟨v, hv, hle⟩ := h.square
  rw [ftIsPrimeLoop, hv, Option.bind_eq_bind, Option.bind_some, if_pos hle,
    if_neg fun hzero => h.ndvd ((tmod_eq_zero_iff n i).mp hzero), h.next]
  rfl

theorem loop_passes (hie : i ≤ e) (hpasses : ∀ j, i ≤ j → j < e → Passes result n j) (turns : Nat) :
    ftIsPrimeLoop result n (turns + (e - i)) i = ftIsPrimeLoop result n turns e := by
  induction hie using Nat.decreasingInduction with
  | self => rw [Nat.sub_self, Nat.add_zero]
  | of_succ i hlt ih =>
    have hturns : turns + (e - i) = turns + (e - (i + 1)) + 1 := by omega
    rw [hturns, (hpasses i (Nat.le_refl i) hlt).turn]
    exact ih fun j hj => hpasses j (by omega)

theorem loop_divisor (hv : result (i * i) = some v) (hle : v ≤ n) (hdvd : i ∣ n) :
    ftIsPrimeLoop result n (turns + 1) i = some 0 := by
  rw [ftIsPrimeLoop, hv, Option.bind_eq_bind, Option.bind_some, if_pos hle, if_pos ((tmod_eq_zero_iff n i).mpr hdvd)]
  rfl

theorem loop_above (hv : result (i * i) = some v) (hlt : (n : Int) < v) :
    ftIsPrimeLoop result n (turns + 1) i = some 1 := by
  rw [ftIsPrimeLoop, hv, Option.bind_eq_bind, Option.bind_some, if_neg (by omega)]
  rfl

/-- The first turn that does not lead to the next one decides. -/
theorem isPrime_halts {r : Int} {Q : Int → Prop} (hn : 2 ≤ n) (he : 2 ≤ e)
    (hpasses : ∀ j, 2 ≤ j → j < e → Passes result n j)
    (hend : ∀ turns, ftIsPrimeLoop result n (turns + 1) e = some r) :
    Halts (fun turns => ftIsPrime result turns n) Q ↔ Q r := by
  refine halts_of_const (e - 2 + 1) fun turns hturns => ?_
  have heq : turns = turns - (e - 2) - 1 + 1 + (e - 2) := by omega
  rw [ftIsPrime, if_neg (by omega), heq]
  exact (loop_passes he hpasses _).trans (hend _)

end Loop

/-! ### The numbers whose loop stays in the range -/

section Right
variable {result : Int → Option Int} {n e : Nat} {Q : Int → Prop}

/-- Where the values are those of an `int`, they are what they are. -/
def Exact (result : Int → Option Int) : Prop := ∀ v, Fits v → result v = some v

theorem exact_checked : Exact checked := fun _ => checked_of_fits

theorem exact_wrapped : Exact wrapped := fun _ => wrapped_of_fits

theorem fits_of_le {a : Nat} (h : a < 2 ^ 31) : Fits a := ⟨by omega, by omega⟩

theorem Exact.square (h : Exact result) {i : Nat} (hi : i * i < 2 ^ 31) :
    result ((i : Int) * i) = some ((i * i : Nat) : Int) := by
  rw [← Int.natCast_mul]
  exact h _ (fits_of_le hi)

theorem Exact.passes (h : Exact result) (hn : n < 2 ^ 31) {i : Nat} (hle : i * i ≤ n) (hndvd : ¬i ∣ n) :
    Passes result n i where
  square := ⟨_, h.square (by omega), by omega⟩
  ndvd := hndvd
  next := h _ (fits_of_le (a := i + 1) (by
    have hself : i ≤ i * i := Nat.le_mul_self i
    have hne : i ≠ n := fun heq => hndvd (heq ▸ Nat.dvd_refl i)
    omega))

theorem isPrime_small (result : Int → Option Int) {x : Int} (hx : x < 2) :
    Halts (fun turns => ftIsPrime result turns x) Q ↔ Q 0 :=
  halts_of_const 0 fun _ _ => if_pos hx

theorem isPrime_composite (h : Exact result) (hn : 2 ≤ n) (hlt : n < 2 ^ 31) (hprime : ¬n.Prime) :
    Halts (fun turns => ftIsPrime result turns n) Q ↔ Q 0 := by
  have hsquare : n.minFac * n.minFac ≤ n := by
    have hle := Nat.minFac_sq_le_self (by omega) hprime
    rwa [Nat.pow_two] at hle
  have hmin : 2 ≤ n.minFac := (Nat.minFac_prime (by omega)).two_le
  refine isPrime_halts hn hmin (fun j hj hje => h.passes hlt ?_ ?_) fun turns =>
    loop_divisor (h.square (by omega)) (by omega) (Nat.minFac_dvd n)
  · exact (Nat.mul_le_mul hje.le hje.le).trans hsquare
  · exact fun hdvd => Nat.not_le_of_lt hje (Nat.minFac_le_of_dvd hj hdvd)

theorem ndvd_of_square (hprime : n.Prime) {i : Nat} (hi : 2 ≤ i) (hle : i * i ≤ n) : ¬i ∣ n := by
  intro hdvd
  rcases (Nat.dvd_prime hprime).mp hdvd with rfl | rfl
  · omega
  · have hmul : 2 * i ≤ i * i := Nat.mul_le_mul_right i hi
    omega

/-- The square of 46340 is the largest one that is an `int`. -/
theorem isPrime_prime (h : Exact result) (hprime : n.Prime) (hlt : n < 46340 ^ 2) :
    Halts (fun turns => ftIsPrime result turns n) Q ↔ Q 1 := by
  have hsqrt : n.sqrt < 46340 := Nat.sqrt_lt'.mpr hlt
  have hroom : (n.sqrt + 1) * (n.sqrt + 1) ≤ 46340 * 46340 := Nat.mul_le_mul (by omega) (by omega)
  have habove : n < (n.sqrt + 1) * (n.sqrt + 1) := Nat.lt_succ_sqrt n
  have hn := hprime.two_le
  have hone : 1 ≤ n.sqrt := Nat.sqrt_pos.mpr (by omega)
  refine isPrime_halts (e := n.sqrt + 1) hn (by omega) (fun j hj hje => ?_) fun turns =>
    loop_above (h.square (by omega)) (by omega)
  have hle : j * j ≤ n := Nat.le_sqrt.mp (by omega)
  exact h.passes (by omega) hle (ndvd_of_square hprime hj hle)

/-- The square of 46341 is no `int`. -/
theorem isPrime_checked_large (hprime : n.Prime) (hlt : n < 2 ^ 31) (hle : 46340 ^ 2 ≤ n) :
    ¬Halts (fun turns => ftIsPrime checked turns n) Q := by
  have hend : ∀ turns, ftIsPrimeLoop checked n turns (46341 : Nat) = none := by
    rintro (_ | turns)
    · rfl
    · rw [ftIsPrimeLoop, checked, if_neg (by decide)]
      rfl
  refine not_halts_of_none (46341 - 2) fun turns hturns => ?_
  have heq : turns = turns - (46341 - 2) + (46341 - 2) := by omega
  rw [ftIsPrime, if_neg (by omega), heq]
  refine (loop_passes (i := 2) (by decide) (fun j hj hje => ?_) _).trans (hend _)
  have hsquare : j * j ≤ 46340 * 46340 := Nat.mul_le_mul (by omega) (by omega)
  have hjn : j * j ≤ n := by omega
  exact exact_checked.passes hlt hjn (ndvd_of_square hprime hj hjn)

/-! ### Squares modulo 2^32 -/

/-- The largest `int` is a Mersenne prime. -/
theorem prime_intMax : Nat.Prime (2 ^ 31 - 1) := lucas_lehmer_sufficiency 31 (by norm_num) (by norm_num)

theorem passes_wrapped {i : Nat} (hn : n < 2 ^ 31) (hle : wrap (i * i) ≤ n) (hi : i < n) (hndvd : ¬i ∣ n) :
    Passes wrapped n i where
  square := ⟨_, rfl, hle⟩
  ndvd := hndvd
  next := exact_wrapped _ (fits_of_le (a := i + 1) (by omega))

theorem ndvd_of_lt (hprime : n.Prime) {i : Nat} (hi : 2 ≤ i) (hlt : i < n) : ¬i ∣ n := fun hdvd => by
  rcases (Nat.dvd_prime hprime).mp hdvd with rfl | rfl <;> omega

/-- No square is above the largest `int`, so the loop goes on until the number divides itself. -/
theorem isPrime_wrapped_intMax :
    Halts (fun turns => ftIsPrime wrapped turns ((2 ^ 31 - 1 : Nat) : Int)) Q ↔ Q 0 := by
  have hsquare : ∀ i : Nat, wrap (i * i) ≤ ((2 ^ 31 - 1 : Nat) : Int) := fun i => by
    have := (fits_wrap (i * i)).2
    omega
  refine isPrime_halts (e := 2 ^ 31 - 1) (by decide) (by decide) (fun j hj hje => ?_) fun turns =>
    loop_divisor rfl (hsquare _) (Nat.dvd_refl _)
  exact passes_wrapped (by decide) (hsquare j) hje (ndvd_of_lt prime_intMax hj hje)

/-- The square of 593968971 is 2^31 - 7 modulo 2^32. -/
theorem isPrime_wrapped_large (hprime : n.Prime) (hlt : n < 2 ^ 31 - 7) (hle : 46340 ^ 2 ≤ n) :
    Halts (fun turns => ftIsPrime wrapped turns n) Q ↔ Q 1 := by
  have hroot : ∃ i : Nat, 2 ≤ i ∧ (n : Int) < wrap (i * i) :=
    ⟨593968971, by decide, lt_of_lt_of_eq (show (n : Int) < 2 ^ 31 - 7 by omega) rfl⟩
  obtain ⟨hfind, hfirst⟩ := Nat.find_spec hroot
  have hmin : ∀ j, 2 ≤ j → j < Nat.find hroot → wrap (j * j) ≤ n := fun j hj hlt =>
    Int.not_lt.mp fun habove => Nat.find_min hroot hlt ⟨hj, habove⟩
  have hfindle : Nat.find hroot ≤ 593968971 := Nat.find_min' hroot
    ⟨by decide, lt_of_lt_of_eq (show (n : Int) < 2 ^ 31 - 7 by omega) rfl⟩
  refine isPrime_halts hprime.two_le hfind (fun j hj hje => ?_) fun turns => loop_above rfl hfirst
  exact passes_wrapped (by omega) (hmin j hj hje) (by omega) (ndvd_of_lt hprime hj (by omega))

end Right

/-- Above 2^31 - 8 only the largest `int` is a prime. -/
theorem not_prime_below_intMax {n : Nat} (hle : 2 ^ 31 - 7 ≤ n) (hlt : n < 2 ^ 31 - 1) : ¬n.Prime := by
  have hodd : 2 ∣ n ∨ n = 2699 * 795659 ∨ n = 3 * 715827881 ∨ n = 5 * 429496729 := by omega
  rcases hodd with heven | rfl | rfl | rfl
  · exact Nat.not_prime_of_dvd_of_lt heven (by decide) (by omega)
  all_goals exact Nat.not_prime_mul (by decide) (by decide)

theorem tellsPrime_zero {x : Int} : TellsPrime x 0 ↔ ¬x.toNat.Prime := by
  simp [TellsPrime]

theorem tellsPrime_one {x : Int} : TellsPrime x 1 ↔ x.toNat.Prime := by
  simp [TellsPrime]

theorem isPrime_checked_iff {x : Int} (hx : Fits x) :
    Halts (fun turns => ftIsPrime checked turns x) (TellsPrime x) ↔ ¬(x.toNat.Prime ∧ 46340 ^ 2 ≤ x) := by
  rcases Int.lt_or_le x 2 with hsmall | htwo
  · rw [isPrime_small checked hsmall, tellsPrime_zero, not_and]
    exact iff_of_true (fun hprime => absurd hprime.two_le (by omega)) fun _ => by omega
  obtain ⟨n, rfl⟩ := Int.eq_ofNat_of_zero_le (show 0 ≤ x by omega)
  have hlt : n < 2 ^ 31 := by
    have := hx.2
    omega
  rw [Int.toNat_natCast]
  by_cases hprime : n.Prime
  · rcases Nat.lt_or_ge n (46340 ^ 2) with hbelow | hlarge
    · rw [isPrime_prime exact_checked hprime hbelow, tellsPrime_one]
      exact iff_of_true hprime fun h => by omega
    · exact iff_of_false (isPrime_checked_large hprime hlt hlarge) fun h => h ⟨hprime, by omega⟩
  · rw [isPrime_composite exact_checked (by omega) hlt hprime, tellsPrime_zero]
    exact iff_of_true hprime fun h => hprime h.1

theorem isPrime_wrapped_iff {x : Int} (hx : Fits x) :
    Halts (fun turns => ftIsPrime wrapped turns x) (TellsPrime x) ↔ x ≠ 2 ^ 31 - 1 := by
  rcases Int.lt_or_le x 2 with hsmall | htwo
  · rw [isPrime_small wrapped hsmall, tellsPrime_zero]
    exact iff_of_true (fun hprime => absurd hprime.two_le (by omega)) (by omega)
  obtain ⟨n, rfl⟩ := Int.eq_ofNat_of_zero_le (show 0 ≤ x by omega)
  have hlt : n < 2 ^ 31 := by
    have := hx.2
    omega
  by_cases hprime : n.Prime
  · rcases Nat.lt_or_ge n (46340 ^ 2) with hbelow | hlarge
    · rw [isPrime_prime exact_wrapped hprime hbelow, tellsPrime_one]
      exact iff_of_true hprime (by omega)
    · rcases Nat.lt_or_ge n (2 ^ 31 - 1) with hless | hmost
      · have hseven : n < 2 ^ 31 - 7 := by
          by_contra hge
          exact not_prime_below_intMax (by omega) hless hprime
        rw [isPrime_wrapped_large hprime hseven hlarge, tellsPrime_one]
        exact iff_of_true hprime (by omega)
      · obtain rfl : n = 2 ^ 31 - 1 := by omega
        rw [isPrime_wrapped_intMax, tellsPrime_zero]
        exact iff_of_false (fun h => h hprime) fun h => h rfl
  · rw [isPrime_composite exact_wrapped (by omega) hlt hprime, tellsPrime_zero]
    refine iff_of_true hprime fun heq => ?_
    obtain rfl : n = 2 ^ 31 - 1 := by omega
    exact hprime prime_intMax

theorem is_prime_iff (x : Int) (hx : Fits x) :
    (Halts (fun turns => ftIsPrime checked turns x) (TellsPrime x) ↔ ¬(x.toNat.Prime ∧ 46340 ^ 2 ≤ x)) ∧
    (Halts (fun turns => ftIsPrime wrapped turns x) (TellsPrime x) ↔ x ≠ 2 ^ 31 - 1) :=
  ⟨isPrime_checked_iff hx, isPrime_wrapped_iff hx⟩

theorem is_prime_iff_seven :
    (Halts (fun turns => ftIsPrime checked turns 7) (TellsPrime 7) ↔
      ¬(Nat.Prime (7 : Int).toNat ∧ 46340 ^ 2 ≤ (7 : Int))) ∧
    (Halts (fun turns => ftIsPrime wrapped turns 7) (TellsPrime 7) ↔ (7 : Int) ≠ 2 ^ 31 - 1) :=
  is_prime_iff 7 (by decide)

/-- The largest `int` is a prime that neither arithmetic tells. -/
theorem is_prime_intMax : ¬∀ x : Int, Fits x →
    Halts (fun turns => ftIsPrime checked turns x) (TellsPrime x) ∧
    Halts (fun turns => ftIsPrime wrapped turns x) (TellsPrime x) := fun h =>
  (isPrime_wrapped_iff (by decide)).mp (h (2 ^ 31 - 1) (by decide)).2 rfl

end Minitalk.Libft
