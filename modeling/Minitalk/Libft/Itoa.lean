import Minitalk.Lib.CIndex
import Minitalk.Lib.CPrintf
import Minitalk.Lib.Terminated
import Minitalk.Libft.AtoiBase

/-! # `ft_itoa` and `ft_xtoa` (`libft/stdlib`)

Both count the digits first and then write them from the last to the first. -/

namespace Minitalk.Libft
open CText CPrintf Heap

/-- An `int` that is stored in a `char`. -/
def toChar (n : BitVec 32) : UInt8 := UInt8.ofBitVec (n.setWidth 8)

/-! ### `ft_itoa.c` -/

/-- `while (n)`, which takes a turn for each digit. -/
def lenLoop : Nat → BitVec 32 → Nat → Nat
  | 0, _, count => count
  | fuel + 1, n, count => if n = 0 then count else lenLoop fuel (n.sdiv 10) (count + 1)

def ftLen (n : BitVec 32) : Nat := lenLoop 32 n (if n.toInt ≤ 0 then 1 else 0)

/-- `*(ptr + --len) = …`, until the number is used up. -/
def itoaLoop (ptr : Ptr) : Nat → BitVec 32 → Nat → Heap UInt8 → Heap UInt8
  | 0, _, _, heap => diverged heap
  | fuel + 1, n, len, heap =>
    if n = 0 then heap
    else
      let c := if n.toInt < 0 then toChar (~~~(n.srem 10) + 1 + 48) else toChar (n.srem 10 + 48)
      match len with
      | 0 => { heap with fault := true }
      | len + 1 => itoaLoop ptr fuel (n.sdiv 10) len (heap.store ptr len c)

def ftItoa (ok : Bool) (n : BitVec 32) (heap : Heap UInt8) : Heap UInt8 × Ptr :=
  let len := ftLen n
  let (heap, ptr) := heap.tryMalloc ok (len + 1)
  if ptr = none then (heap, none)
  else
    let heap := heap.store ptr len 0
    let heap :=
      if n = 0 then heap.store ptr 0 (chr '0') else if n.toInt < 0 then heap.store ptr 0 (chr '-') else heap
    (itoaLoop ptr 32 n len heap, ptr)

/-! ### `ft_calloc.c`, `ft_bzero.c`, `ft_memset.c` -/

def sizeMax : BitVec 64 := (List.range 64).foldl (fun sizeMax i => sizeMax ||| 1 <<< i) 0

def ftMemset (ptr : Ptr) (value : BitVec 32) (num : Nat) (heap : Heap UInt8) : Heap UInt8 :=
  heap.fill ptr (toChar value) 0 num

def ftBzero (s : Ptr) (n : Nat) (heap : Heap UInt8) : Heap UInt8 := ftMemset s 0 n heap

def ftCalloc (ok : Bool) (nmemb size : BitVec 64) (heap : Heap UInt8) : Heap UInt8 × Ptr :=
  if nmemb ≠ 0 ∧ sizeMax / nmemb < size then (heap, none)
  else
    let total := (nmemb * size).toNat
    let (heap, buf) := heap.tryMalloc ok total
    if buf = none then (heap, none) else (ftBzero buf total heap, buf)

/-! ### `ft_xtoa.c` -/

def xtoaLenLoop : Nat → Nat → Nat → Nat
  | 0, _, len => len
  | fuel + 1, num, len => if 1 ≤ num then xtoaLenLoop fuel (num / 16) (len + 1) else len

def ftXtoaLen (num : Nat) : Nat := if num = 0 then 1 else xtoaLenLoop 64 num 0

/-- The loop of `ft_hex_to_str`, whose `len` is one less: it ends at `(size_t)-1`. -/
def hexLoop (str : Ptr) (num : Nat) : Nat → Heap UInt8 → Heap UInt8
  | 0, heap => heap
  | len + 1, heap =>
    let mod := num % 16
    let c := if mod < 10 then UInt8.ofNat mod + chr '0' else UInt8.ofNat (mod - 10) + chr 'a'
    hexLoop str (num / 16) len (heap.store str len c)

def ftHexToStr (ok : Bool) (num len : Nat) (heap : Heap UInt8) : Heap UInt8 × Ptr :=
  let (heap, str) := ftCalloc ok (BitVec.ofNat 64 (len + 1)) 1 heap
  if str = none then (heap, none) else (hexLoop str num len heap, str)

def upperLoop (str : Ptr) : Nat → Nat → Heap UInt8 → Heap UInt8
  | 0, _, heap => diverged heap
  | fuel + 1, i, heap =>
    let (heap, c) := heap.load str i
    if c = 0 then heap
    else upperLoop str fuel (i + 1) (if chr 'a' ≤ c ∧ c ≤ chr 'f' then heap.store str i (c - 32) else heap)

def ftXtoa (ok : Bool) (num : BitVec 64) (isUpper : BitVec 32) (heap : Heap UInt8) : Heap UInt8 × Ptr :=
  let len := ftXtoaLen num.toNat
  let (heap, str) := ftHexToStr ok num.toNat len heap
  if str = none then (heap, none) else (if isUpper = 1 then upperLoop str (heap.size str) 0 heap else heap, str)

/-! ### The texts -/

def itoaText (n : BitVec 32) : List UInt8 :=
  (if n.toInt < 0 then [chr '-'] else []) ++ (Radix.digits 10 n.toInt.natAbs).map (digitChar false)

def xtoaText (num : Nat) (upper : Bool) : List UInt8 := (Radix.digits 16 num).map (digitChar upper)

/-- `ft_itoa` writes the number in its block without a leading zero, and `ft_atoi` reads it back. -/
structure ItoaRoundTrip (heap : Heap UInt8) (n : BitVec 32) (text : List UInt8) : Prop where
  written : Terminated 0 (ftItoa true n heap).1 (ftItoa true n heap).2 text
  read : ftAtoi text = n
  canonical : (text.dropWhile (· = chr '-')).head? = some (chr '0') → text = [chr '0']

structure XtoaRoundTrip (heap : Heap UInt8) (n isUpper : BitVec 32) (text : List UInt8) : Prop where
  written : Terminated 0 (ftXtoa true (n.signExtend 64) isUpper heap).1 (ftXtoa true (n.signExtend 64) isUpper heap).2
    text
  read : ftAtoiBase text 16 = n

section Itoa
variable {heap : Heap UInt8} {n : BitVec 32} {b : Nat}

theorem toInt_sdiv_ten (n : BitVec 32) : (n.sdiv 10).toInt = n.toInt.tdiv 10 := by
  have hfits : CInt.Fits (n.toInt.tdiv 10) := by
    obtain ⟨hlo, hhi⟩ := CInt.fits_toInt n
    have habs : (n.toInt.tdiv 10).natAbs = n.toInt.natAbs / 10 := Int.natAbs_tdiv n.toInt 10
    exact ⟨by omega, by omega⟩
  rw [BitVec.toInt_sdiv]
  exact CInt.bmod_of_fits hfits

theorem natAbs_sdiv_ten (n : BitVec 32) : (n.sdiv 10).toInt.natAbs = n.toInt.natAbs / 10 := by
  rw [toInt_sdiv_ten, Int.natAbs_tdiv]
  rfl

theorem natAbs_eq_zero (n : BitVec 32) : n.toInt.natAbs = 0 ↔ n = 0 := by
  rw [Int.natAbs_eq_zero]
  constructor
  · exact fun h => BitVec.eq_of_toInt_eq h
  · rintro rfl
    rfl

theorem toChar_digit : ∀ d < 10, toChar (BitVec.ofNat 32 d + 48) = digitChar false d := by
  decide

/-- The last digit of the magnitude, as it is computed on either side of 0. -/
theorem toChar_srem (n : BitVec 32) :
    (if n.toInt < 0 then toChar (~~~(n.srem 10) + 1 + 48) else toChar (n.srem 10 + 48)) =
      digitChar false (n.toInt.natAbs % 10) := by
  have hrem : (n.srem 10).toInt = n.toInt.tmod 10 := BitVec.toInt_srem n 10
  have habs : (n.toInt.tmod 10).natAbs = n.toInt.natAbs % 10 := Int.natAbs_tmod n.toInt 10
  have hpos : 0 ≤ n.toInt → 0 ≤ n.toInt.tmod 10 := Int.tmod_nonneg 10
  have hneg : n.toInt < 0 → 0 ≤ -n.toInt.tmod 10 := fun h => by
    rw [← Int.neg_tmod]
    exact Int.tmod_nonneg 10 (by omega)
  have hdigit : (if n.toInt < 0 then -(n.srem 10) else n.srem 10) = BitVec.ofNat 32 (n.toInt.natAbs % 10) := by
    refine BitVec.eq_of_toInt_eq ?_
    rw [CInt.toInt_ofNat (by omega)]
    split
    · rw [CInt.toInt_neg (by rw [hrem]; exact ⟨by omega, by omega⟩), hrem]
      omega
    · rw [hrem]
      omega
  rw [← toChar_digit _ (Nat.mod_lt _ (by decide)), ← hdigit]
  split
  · rw [BitVec.neg_eq_not_add]
    rfl
  · rfl

/-- The rule of a loop that divides an `int` by 10 until nothing is left. -/
theorem sdiv_induction {motive : Nat → BitVec 32 → Prop} (hzero : ∀ fuel, motive fuel 0)
    (hstep : ∀ fuel n, n ≠ 0 →
      Nat.digits 10 n.toInt.natAbs = n.toInt.natAbs % 10 :: Nat.digits 10 (n.sdiv 10).toInt.natAbs →
      motive fuel (n.sdiv 10) → motive (fuel + 1) n) {fuel : Nat} (h : n.toInt.natAbs < 10 ^ fuel) : motive fuel n := by
  refine Radix.quotient_induction (motive := fun fuel m => ∀ n : BitVec 32, n.toInt.natAbs = m → motive fuel n)
    (by decide) ?_ ?_ h n rfl
  · intro fuel n hn
    rw [(natAbs_eq_zero n).mp hn]
    exact hzero fuel
  · rintro fuel _ hpos hdigits ih n rfl
    rw [← natAbs_sdiv_ten] at hdigits
    have hne : n ≠ 0 := fun h => hpos.ne' ((natAbs_eq_zero n).mpr h)
    exact hstep fuel n hne hdigits (ih _ (natAbs_sdiv_ten n))

theorem lenLoop_eq {fuel : Nat} (h : n.toInt.natAbs < 10 ^ fuel) (count : Nat) :
    lenLoop fuel n count = count + (Nat.digits 10 n.toInt.natAbs).length := by
  refine sdiv_induction (motive := fun fuel n => ∀ count, lenLoop fuel n count =
    count + (Nat.digits 10 n.toInt.natAbs).length) ?_ ?_ h count
  · intro fuel count
    cases fuel <;> rfl
  · intro fuel n hne hdigits ih count
    rw [lenLoop, if_neg hne, ih, hdigits, List.length_cons, Nat.add_assoc, Nat.add_comm 1]

theorem natAbs_lt (n : BitVec 32) : n.toInt.natAbs < 10 ^ 31 := by
  obtain ⟨hlo, hhi⟩ := CInt.fits_toInt n
  have hpow : 2 ^ 31 < 10 ^ 31 := by decide
  omega

/-- The loop writes the digits in front of `post`. -/
theorem itoaLoop_at {fuel : Nat} (hfuel : n.toInt.natAbs < 10 ^ fuel) {pre mid post : List (Option UInt8)}
    (ha : heap.At (some b) (pre ++ mid ++ post)) (hmid : mid.length = (Nat.digits 10 n.toInt.natAbs).length) :
    (itoaLoop (some b) (fuel + 1) n (pre.length + mid.length) heap).At (some b)
      (pre ++ ((Nat.digits 10 n.toInt.natAbs).reverse.map (digitChar false)).map some ++ post) := by
  refine sdiv_induction (motive := fun fuel n => ∀ heap mid post,
    heap.At (some b) (pre ++ mid ++ post) → mid.length = (Nat.digits 10 n.toInt.natAbs).length →
      (itoaLoop (some b) (fuel + 1) n (pre.length + mid.length) heap).At (some b)
        (pre ++ ((Nat.digits 10 n.toInt.natAbs).reverse.map (digitChar false)).map some ++ post))
    ?_ ?_ hfuel heap mid post ha hmid
  · intro fuel heap mid post ha hmid
    rw [itoaLoop, if_pos rfl]
    rw [List.length_eq_zero_iff.mp hmid] at ha
    exact ha
  · intro fuel n hne hdigits ih heap mid post ha hmid
    rw [hdigits, List.length_cons] at hmid
    obtain ⟨mid, c, rfl⟩ : ∃ mid' c, mid = mid' ++ [c] := by
      rcases List.eq_nil_or_concat' mid with h | h
      · rw [h] at hmid
        cases hmid
      · exact h
    rw [List.length_append, List.length_singleton, Nat.succ_inj] at hmid
    have hcell : heap.At (some b) ((pre ++ mid) ++ c :: post) := by simpa using ha
    have hstore := hcell.store (digitChar false (n.toInt.natAbs % 10))
    have hrest := ih _ _ _ hstore hmid
    rw [itoaLoop, if_neg hne, toChar_srem, hdigits]
    simpa [Nat.add_assoc] using hrest

end Itoa

/-! ### `ft_itoa` -/

section ItoaCalls
variable {heap : Heap UInt8} {n : BitVec 32} {ds : List Nat}

theorem digits_ten {m : Nat} (hm : m ≠ 0) : Radix.digits 10 m = (Nat.digits 10 m).reverse := if_neg hm

theorem digit_ten {m d : Nat} (hd : d ∈ Radix.digits 10 m) : d < 10 := Radix.digits_lt (by decide) hd

theorem digitChar_isDigit : ∀ d < 10, isDigit (digitChar false d) = true ∧ (digitChar false d - chr '0').toNat = d := by
  decide

theorem digits_isDigit {m : Nat} : ∀ c ∈ (Radix.digits 10 m).map (digitChar false), isDigit c = true := by
  intro c hc
  obtain ⟨d, hd, rfl⟩ := List.mem_map.mp hc
  exact (digitChar_isDigit d (digit_ten hd)).1

theorem foldl_digitChar (hds : ∀ d ∈ ds, d < 10) (m : Nat) :
    (ds.map (digitChar false)).foldl (fun n c => n * 10 + (c - chr '0').toNat) m = Radix.extend 10 m ds := by
  induction ds generalizing m with
  | nil => rfl
  | cons d ds ih =>
    rw [List.map_cons, List.foldl_cons, (digitChar_isDigit d (hds d List.mem_cons_self)).2, Radix.extend_cons,
      ih fun e he => hds e (List.mem_cons_of_mem d he)]

theorem itoaText_body (n : BitVec 32) : 0 ∉ itoaText n := by
  intro h0
  rcases List.mem_append.mp h0 with h | h
  · split at h
    · exact absurd h (by decide)
    · cases h
  · exact absurd (digits_isDigit 0 h) (by decide)

/-- What is written before the loop. -/
def itoaFront (n : BitVec 32) : List UInt8 := if n = 0 then [chr '0'] else if n.toInt < 0 then [chr '-'] else []

theorem itoaText_eq (n : BitVec 32) :
    itoaText n = itoaFront n ++ (Nat.digits 10 n.toInt.natAbs).reverse.map (digitChar false) := by
  unfold itoaText itoaFront
  by_cases h0 : n = 0
  · rw [h0]
    rfl
  · have hm : n.toInt.natAbs ≠ 0 := fun h => h0 ((natAbs_eq_zero n).mp h)
    rw [if_neg h0, digits_ten hm]

theorem ftLen_eq (n : BitVec 32) : ftLen n = (itoaFront n).length + (Nat.digits 10 n.toInt.natAbs).length := by
  have hlt : n.toInt.natAbs < 10 ^ 32 := Nat.lt_trans (natAbs_lt n) (by decide)
  have hfront : (if n.toInt ≤ 0 then 1 else 0) = (itoaFront n).length := by
    unfold itoaFront
    by_cases h0 : n = 0
    · rw [if_pos h0, h0]
      rfl
    · have hm : n.toInt.natAbs ≠ 0 := fun h => h0 ((natAbs_eq_zero n).mp h)
      rw [if_neg h0]
      by_cases hneg : n.toInt < 0
      · rw [if_pos hneg, if_pos (Int.le_of_lt hneg)]
        rfl
      · rw [if_neg hneg, if_neg (by omega)]
        rfl
  rw [ftLen, lenLoop_eq hlt, hfront]

theorem ftItoa_written (hf : heap.fault = false) (n : BitVec 32) :
    Terminated 0 (ftItoa true n heap).1 (ftItoa true n heap).2 (itoaText n) := by
  obtain ⟨h₁, hmalloc, hat, -⟩ := exists_malloc hf (ftLen n + 1)
  generalize heap.blocks.length = b at hmalloc hat
  -- the terminator, and then the sign or the digit of 0
  have hend : (h₁.store (some b) (ftLen n) 0).At (some b) (List.replicate (ftLen n) none ++ [some 0]) := by
    rw [List.replicate_succ'] at hat
    have hstore := hat.store 0
    rwa [List.length_replicate] at hstore
  have hrun : ftItoa true n heap = (itoaLoop (some b) 32 n (ftLen n)
      (if n = 0 then (h₁.store (some b) (ftLen n) 0).store (some b) 0 (chr '0')
        else if n.toInt < 0 then (h₁.store (some b) (ftLen n) 0).store (some b) 0 (chr '-')
        else h₁.store (some b) (ftLen n) 0), some b) := by
    rw [ftItoa, tryMalloc, if_pos rfl, hmalloc]
    exact if_neg nofun
  rw [hrun]
  generalize h₁.store (some b) (ftLen n) 0 = h₂ at hend
  rw [ftLen_eq] at hend
  have hfront : (if n = 0 then h₂.store (some b) 0 (chr '0')
      else if n.toInt < 0 then h₂.store (some b) 0 (chr '-') else h₂).At (some b) ((itoaFront n).map some ++
        List.replicate (Nat.digits 10 n.toInt.natAbs).length none ++ [some 0]) := by
    unfold itoaFront at hend ⊢
    split
    · rename_i h0
      rw [if_pos h0, List.length_singleton, Nat.add_comm, List.replicate_succ] at hend
      exact @At.store _ _ _ [] _ _ hend (chr '0')
    · rename_i h0
      rw [if_neg h0] at hend
      split
      · rename_i hneg
        rw [if_pos hneg, List.length_singleton, Nat.add_comm, List.replicate_succ] at hend
        exact @At.store _ _ _ [] _ _ hend (chr '-')
      · rename_i hpos
        rw [if_neg hpos, List.length_nil, Nat.zero_add] at hend
        exact hend
  have hloop := itoaLoop_at (natAbs_lt n) hfront List.length_replicate
  rw [List.length_map, List.length_replicate, ← ftLen_eq, ← List.map_append, ← itoaText_eq] at hloop
  exact ⟨itoaText_body n, [], hloop⟩

theorem ftAtoi_itoaText (n : BitVec 32) : ftAtoi (itoaText n) = n := by
  have hdecimal : ((Radix.digits 10 n.toInt.natAbs).map (digitChar false)).foldl
      (fun n c => n * 10 + (c - chr '0').toNat) 0 = n.toInt.natAbs := by
    rw [foldl_digitChar (fun d => digit_ten), ← Radix.value, Radix.value_digits (by decide)]
  obtain ⟨hlo, hhi⟩ := CInt.fits_toInt n
  by_cases hneg : n.toInt < 0
  · have habs : -n = BitVec.ofNat 32 n.toInt.natAbs := by
      rw [← CInt.toNat_abs, if_pos hneg, BitVec.ofNat_toNat, BitVec.setWidth_eq]
    have hskip : (itoaText n).dropWhile ftIsspace =
        chr '-' :: (Radix.digits 10 n.toInt.natAbs).map (digitChar false) := by
      rw [itoaText, if_pos hneg]
      exact List.dropWhile_cons_of_neg (by decide)
    have hloop := ftAtoiLoop_neg (n := 0) digits_isDigit (hdecimal.trans_le (by omega))
    rw [hdecimal, ← habs, BitVec.neg_neg] at hloop
    rw [ftAtoi, hskip]
    exact hloop
  · rw [itoaText, if_neg hneg, List.nil_append, ftAtoi_digits digits_isDigit, narrowed, decimal, hdecimal,
      if_pos (by omega)]
    refine BitVec.eq_of_toInt_eq ?_
    rw [CInt.toInt_ofNat (by omega)]
    omega

/-- A numeral that begins with 0 is that of 0. -/
theorem itoaText_canonical (h : ((itoaText n).dropWhile (· = chr '-')).head? = some (chr '0')) :
    itoaText n = [chr '0'] := by
  obtain ⟨d, ds, hds⟩ := List.exists_cons_of_ne_nil (Radix.digits_ne_nil 10 n.toInt.natAbs)
  have hlt : ∀ d < 10, digitChar false d ≠ chr '-' ∧ (digitChar false d = chr '0' → d = 0) := by decide
  obtain ⟨hminus, hzero⟩ := hlt d (digit_ten (by rw [hds]; exact List.mem_cons_self))
  have hskip : (itoaText n).dropWhile (· = chr '-') = digitChar false d :: ds.map (digitChar false) := by
    rw [itoaText, hds]
    split
    · exact (List.dropWhile_cons_of_pos (by decide)).trans (List.dropWhile_cons_of_neg (by simpa using hminus))
    · exact List.dropWhile_cons_of_neg (by simpa using hminus)
  rw [hskip, List.head?_cons, Option.some.injEq] at h
  have hhead : (Radix.digits 10 n.toInt.natAbs).head? = some 0 := by
    rw [hds, hzero h]
    rfl
  rw [(natAbs_eq_zero n).mp ((Radix.head_digits _ _).mp hhead)]
  rfl

end ItoaCalls

/-! ### `ft_xtoa` -/

section Xtoa
variable {heap : Heap UInt8} {num b : Nat}

theorem xtoaLenLoop_eq {fuel : Nat} (h : num < 16 ^ fuel) (len : Nat) :
    xtoaLenLoop fuel num len = len + (Nat.digits 16 num).length := by
  refine Radix.quotient_induction (motive := fun fuel num => ∀ len, xtoaLenLoop fuel num len =
    len + (Nat.digits 16 num).length) (by decide) ?_ ?_ h len
  · intro fuel len
    cases fuel <;> rfl
  · intro fuel num hpos hdigits ih len
    rw [xtoaLenLoop, if_pos (Nat.succ_le_of_lt hpos), ih, hdigits, List.length_cons, Nat.add_assoc, Nat.add_comm 1]

theorem ftXtoaLen_eq (h : num < 2 ^ 64) : ftXtoaLen num = (Radix.digits 16 num).length := by
  unfold ftXtoaLen Radix.digits
  split
  · rfl
  · rw [xtoaLenLoop_eq (Nat.lt_trans h (by decide)), Nat.zero_add, List.length_reverse]

theorem length_digits_le (h : num < 2 ^ 64) : (Radix.digits 16 num).length ≤ 16 := by
  unfold Radix.digits
  split
  · decide
  · rw [List.length_reverse]
    exact (Nat.digits_length_le_iff (by decide) num).mpr h

theorem hexDigit_eq : ∀ d < 16, (if d < 10 then UInt8.ofNat d + chr '0' else UInt8.ofNat (d - 10) + chr 'a') =
    digitChar false d := by
  decide

/-- The loop writes as many digits as it is told, and these are all. -/
theorem hexLoop_at {mid post : List (Option UInt8)} (ha : heap.At (some b) (mid ++ post))
    (hmid : mid.length = (Radix.digits 16 num).length) :
    (hexLoop (some b) num mid.length heap).At (some b) ((xtoaText num false).map some ++ post) := by
  induction num using Nat.strong_induction_on generalizing heap mid post with
  | _ num ih =>
    obtain ⟨mid, c, rfl⟩ : ∃ mid' c, mid = mid' ++ [c] := by
      rcases List.eq_nil_or_concat' mid with h | h
      · rw [h] at hmid
        exact absurd (List.length_eq_zero_iff.mp hmid.symm) (Radix.digits_ne_nil 16 num)
      · exact h
    rw [List.length_append, List.length_singleton] at hmid ⊢
    have hcell : heap.At (some b) (mid ++ c :: post) := by simpa using ha
    have hstore := hcell.store (digitChar false (num % 16))
    rw [hexLoop, hexDigit_eq _ (Nat.mod_lt _ (by decide))]
    rcases Nat.lt_or_ge num 16 with hlt | hge
    · rw [Radix.digits_of_lt hlt, List.length_singleton, Nat.succ_inj, List.length_eq_zero_iff] at hmid
      rw [xtoaText, Radix.digits_of_lt hlt]
      rw [hmid, Nat.mod_eq_of_lt hlt] at hstore ⊢
      exact hstore
    · rw [Radix.digits_of_le (by decide) hge, List.length_append, List.length_singleton, Nat.succ_inj] at hmid
      have hrest := ih (num / 16) (Nat.div_lt_self (by omega) (by decide)) hstore hmid
      rw [xtoaText, Radix.digits_of_le (by decide) hge]
      simpa [xtoaText] using hrest

/-- Within the block, the loop changes every character up to the NUL. -/
theorem upperLoop_at {pre vs : List UInt8} {post : List (Option UInt8)}
    (ha : heap.At (some b) (pre.map some ++ vs.map some ++ some 0 :: post)) (h0 : 0 ∉ vs) {fuel : Nat}
    (hfuel : vs.length < fuel) :
    (upperLoop (some b) fuel pre.length heap).At (some b)
      ((pre ++ vs.map fun c => if chr 'a' ≤ c ∧ c ≤ chr 'f' then c - 32 else c).map some ++ some 0 :: post) := by
  induction vs generalizing heap pre fuel with
  | nil =>
    obtain ⟨fuel, rfl, -⟩ := Program.exists_fuel hfuel
    have hat : heap.At (some b) (pre.map some ++ some 0 :: post) := by simpa using ha
    have hload := hat.load
    rw [List.length_map] at hload
    rw [upperLoop, hload]
    simpa using hat
  | cons c vs ih =>
    obtain ⟨fuel, rfl, hle⟩ := Program.exists_fuel hfuel
    have hc : c ≠ 0 := fun h => h0 (h ▸ List.mem_cons_self)
    have hat : heap.At (some b) (pre.map some ++ some c :: (vs.map some ++ some 0 :: post)) := by simpa using ha
    have hload := hat.load
    rw [List.length_map] at hload
    have hstep : (if chr 'a' ≤ c ∧ c ≤ chr 'f' then heap.store (some b) pre.length (c - 32) else heap).At (some b)
        ((pre ++ [if chr 'a' ≤ c ∧ c ≤ chr 'f' then c - 32 else c]).map some ++ vs.map some ++ some 0 :: post) := by
      split
      · have hstore := hat.store (c - 32)
        rw [List.length_map] at hstore
        simpa using hstore
      · simpa using hat
    have hrest := ih hstep (fun h => h0 (List.mem_cons_of_mem c h)) hle
    rw [List.length_append, List.length_singleton] at hrest
    rw [upperLoop, hload]
    simpa [hc] using hrest

theorem sizeMax_eq : sizeMax = BitVec.allOnes 64 := by
  decide

/-- An array of bytes does not trip the overflow check. -/
theorem ftCalloc_at (hf : heap.fault = false) {n : Nat} (hn : n < 2 ^ 64) :
    ∃ h' b, ftCalloc true (BitVec.ofNat 64 n) 1 heap = (h', some b) ∧ h'.At (some b) (List.replicate n (some 0)) := by
  have hnat : (BitVec.ofNat 64 n).toNat = n := by rw [BitVec.toNat_ofNat, Nat.mod_eq_of_lt hn]
  have hcheck : ¬(BitVec.ofNat 64 n ≠ 0 ∧ sizeMax / BitVec.ofNat 64 n < 1) := by
    rintro ⟨hne, hlt⟩
    have hpos : 0 < n := Nat.pos_of_ne_zero fun h => hne (congrArg _ h)
    rw [BitVec.lt_def, BitVec.toNat_udiv, hnat, sizeMax_eq] at hlt
    exact absurd hlt (Nat.not_lt.mpr (Nat.div_pos (Nat.le_sub_one_of_lt hn) hpos))
  have htotal : (BitVec.ofNat 64 n * 1).toNat = n := by
    have hone : BitVec.ofNat 64 n * 1 = BitVec.ofNat 64 n := BitVec.mul_one _
    rw [hone, hnat]
  obtain ⟨h₁, hmalloc, hat, -⟩ := exists_malloc hf n
  have hcells : h₁.At (some heap.blocks.length) ([] ++ List.replicate n none ++ []) := by simpa using hat
  have hfill := At.fill [] (List.replicate n none) hcells 0
  rw [List.length_replicate] at hfill
  refine ⟨ftBzero (some heap.blocks.length) n h₁, heap.blocks.length, ?_, ?_⟩
  · rw [ftCalloc, if_neg hcheck]
    simp only [htotal, tryMalloc, if_true, hmalloc]
    exact if_neg nofun
  · have hzero : toChar 0 = 0 := rfl
    rw [ftBzero, ftMemset, hzero]
    simpa using hfill

theorem upper_digitChar : ∀ d < 16, (if chr 'a' ≤ digitChar false d ∧ digitChar false d ≤ chr 'f' then
    digitChar false d - 32 else digitChar false d) = digitChar true d := by
  decide

theorem digit_sixteen {d : Nat} (hd : d ∈ Radix.digits 16 num) : d < 16 := Radix.digits_lt (by decide) hd

theorem xtoaText_body (num : Nat) (upper : Bool) : 0 ∉ xtoaText num upper := by
  intro h0
  obtain ⟨d, hd, hd0⟩ := List.mem_map.mp h0
  have hne : ∀ upper, ∀ d < 16, digitChar upper d ≠ 0 := by decide
  exact hne upper d (digit_sixteen hd) hd0

theorem ftXtoa_written (hf : heap.fault = false) (num : BitVec 64) (isUpper : BitVec 32) :
    Terminated 0 (ftXtoa true num isUpper heap).1 (ftXtoa true num isUpper heap).2
      (xtoaText num.toNat (isUpper = 1)) := by
  have hlen := ftXtoaLen_eq num.isLt
  have hle := length_digits_le num.isLt
  obtain ⟨h₁, b, hcalloc, hat⟩ := ftCalloc_at hf (n := (Radix.digits 16 num.toNat).length + 1) (by omega)
  have hcells : List.replicate ((Radix.digits 16 num.toNat).length + 1) (some (0 : UInt8)) =
      List.replicate (Radix.digits 16 num.toNat).length (some 0) ++ [some 0] := List.replicate_succ'
  have hhex := hexLoop_at (hcells ▸ hat) List.length_replicate
  rw [List.length_replicate] at hhex
  rw [ftXtoa, ftHexToStr, hlen, hcalloc]
  simp only [reduceCtorEq, if_false]
  generalize hexLoop (some b) num.toNat (Radix.digits 16 num.toNat).length h₁ = h₂ at hhex
  by_cases hupper : isUpper = 1
  · rw [if_pos hupper, decide_eq_true hupper]
    have hcells : h₂.At (some b) (List.map some [] ++ (xtoaText num.toNat false).map some ++ [some 0]) := hhex
    have hfuel : (xtoaText num.toNat false).length < h₂.size (some b) := by
      rw [hhex.size]
      simp
    have hloop := upperLoop_at hcells (xtoaText_body num.toNat false) hfuel
    have hmap : (xtoaText num.toNat false).map (fun c => if chr 'a' ≤ c ∧ c ≤ chr 'f' then c - 32 else c) =
        xtoaText num.toNat true := by
      rw [xtoaText, List.map_map]
      exact List.map_congr_left fun d hd => upper_digitChar d (digit_sixteen hd)
    rw [hmap, List.nil_append] at hloop
    exact ⟨xtoaText_body num.toNat true, [], hloop⟩
  · rw [if_neg hupper, decide_eq_false hupper]
    exact ⟨xtoaText_body num.toNat false, [], hhex⟩

theorem digitChar_value : ∀ upper, ∀ d < 16, alnumValue (digitChar upper d) = some d := by
  decide

/-- The loop counts these digits and no others. -/
theorem countedDigits_xtoaText (upper : Bool) : countedDigits 16 (xtoaText num upper) = Radix.digits 16 num := by
  have hds : ∀ d ∈ Radix.digits 16 num, d < 16 := fun d => digit_sixteen
  rw [xtoaText]
  generalize Radix.digits 16 num = ds at hds
  induction ds with
  | nil => rfl
  | cons d ds ih =>
    have hd := hds d List.mem_cons_self
    rw [List.map_cons, countedDigits_cons (by decide), digitChar_value upper d hd, Option.getD_some, if_pos hd,
      ih fun e he => hds e (List.mem_cons_of_mem d he)]

theorem ftAtoiBase_xtoaText (h : num < 2 ^ 31) (upper : Bool) :
    ftAtoiBase (xtoaText num upper) 16 = BitVec.ofNat 32 num := by
  have hsigned : signed (xtoaText num upper) = (false, xtoaText num upper) ∧ isSign (xtoaText num upper) = false := by
    obtain ⟨d, ds, hds⟩ := List.exists_cons_of_ne_nil (Radix.digits_ne_nil 16 num)
    have hhead : ∀ upper, ∀ d < 16, isSpace (digitChar upper d) = false ∧ digitChar upper d ≠ chr '-' ∧
      digitChar upper d ≠ chr '+' := by decide
    obtain ⟨hspace, hminus, hplus⟩ := hhead upper d (digit_sixteen (by rw [hds]; exact List.mem_cons_self))
    rw [xtoaText, hds, List.map_cons]
    constructor
    · rw [signed, List.dropWhile_cons_of_neg (by rw [hspace]; decide)]
      simp only [if_neg hminus, if_neg hplus]
    · simp [isSign, hminus, hplus]
  have hvalue : Radix.extend 16 0 (countedDigits 16 (xtoaText num upper)) = num := by
    rw [countedDigits_xtoaText]
    exact Radix.value_digits (by decide) num
  have hloop := processDigits_eq (show 0 < 16 by decide) (by decide) false (xtoaText num upper) (Nat.two_pow_pos 31)
  rw [hvalue] at hloop
  rw [ftAtoiBase_eq, hsigned.1, hsigned.2]
  refine BitVec.eq_of_toInt_eq ?_
  rw [CInt.toInt_ofNat h]
  refine hloop.trans ?_
  simp only [saturated, limit, Bool.false_eq_true, if_false]
  omega

end Xtoa

/-- Number parsing undoes number printing, for every `int` and for every hexadecimal one that is not negative. -/
theorem numbers_roundTrip (heap : Heap UInt8) (hf : heap.fault = false) :
    (∀ n, ∃ text, ItoaRoundTrip heap n text) ∧
      ∀ n isUpper : BitVec 32, 0 ≤ n.toInt → ∃ text, XtoaRoundTrip heap n isUpper text := by
  constructor
  · exact fun n => ⟨itoaText n, ftItoa_written hf n, ftAtoi_itoaText n, itoaText_canonical⟩
  · intro n isUpper hn
    have hnat := CInt.toNat_of_nonneg hn
    have hlt := (CInt.fits_toInt n).2
    have hint : BitVec.ofNat 32 n.toNat = n := by rw [BitVec.ofNat_toNat, BitVec.setWidth_eq]
    have hlong : (n.signExtend 64).toNat = n.toNat := by
      have hsize := CIndex.toSize_ofNat (i := n.toNat) (by omega)
      rwa [hint] at hsize
    refine ⟨_, ftXtoa_written hf (n.signExtend 64) isUpper, ?_⟩
    rw [hlong, ftAtoiBase_xtoaText (by omega), hint]

theorem numbers_roundTrip_empty :
    (∀ n, ∃ text, ItoaRoundTrip {} n text) ∧
      ∀ n isUpper : BitVec 32, 0 ≤ n.toInt → ∃ text, XtoaRoundTrip {} n isUpper text :=
  numbers_roundTrip {} rfl

end Minitalk.Libft
