import Mathlib.Data.List.Forall2
import Minitalk.Lib.CIndex
import Minitalk.Lib.CText
import Minitalk.Lib.Ownership
import Minitalk.Lib.Runs
import Minitalk.Lib.Terminated

/-! # `ft_split` (`libft/strings/ft_split.c`)

The string is only read: an index into it is the text from there to the NUL. The n-th call of `malloc` succeeds when
`ok n` says so: the first is for the array, and each of the others for one token. -/

namespace Minitalk.Libft
open CText Heap Runs

def safeAlloc (ok : Bool) (tokenV : Ptr) (pos buffer : Nat) (heap : Heap Cell) : Heap Cell × Bool :=
  let (heap, token) := heap.tryMalloc ok buffer
  let heap := heap.store tokenV pos (.ptr token)
  if token = none then ((freeCells tokenV 0 pos heap).free tokenV, true) else (heap, false)

def allocateAndCopyToken (ok : Bool) (tokens : Ptr) (current : Nat) (start : List UInt8) (len : Nat)
    (heap : Heap Cell) : Heap Cell × Bool :=
  let (heap, failed) := safeAlloc ok tokens current (len + 1) heap
  if failed then (heap, true)
  else
    let (heap, token) := heap.load tokens current
    let heap := heap.write token.toPtr 0 ((start.take len).map .char)
    (heap.store token.toPtr len (.char 0), false)

/-- Every turn of the loop moves on in the string. -/
def allocateAndCopyTokens (ok : Nat → Bool) (tokens : Ptr) (delimiter : UInt8) (tokenCount : Nat) :
    Nat → List UInt8 → Nat → Heap Cell → Heap Cell × Bool
  | 0, _, _, heap => (diverged heap, false)
  | fuel + 1, s, current, heap =>
    if s ≠ [] ∧ current < tokenCount then
      let start := s.dropWhile (· == delimiter)
      let s := start.dropWhile (!· == delimiter)
      if start ≠ s then
        let len := start.length - s.length
        let (heap, failed) := allocateAndCopyToken (ok (current + 1)) tokens current start len heap
        if failed then (heap, true)
        else allocateAndCopyTokens ok tokens delimiter tokenCount fuel s (current + 1) heap
      else allocateAndCopyTokens ok tokens delimiter tokenCount fuel s current heap
    else (heap, false)

def countLoop (delimiter : UInt8) : List UInt8 → Bool → Nat → Nat
  | [], _, segment => segment
  | c :: str, inSegment, segment =>
    if c = delimiter then countLoop delimiter str false segment
    else if !inSegment then countLoop delimiter str true (segment + 1)
    else countLoop delimiter str inSegment segment

def countSegments (str : List UInt8) (delimiter : UInt8) : BitVec 32 :=
  BitVec.ofNat 32 (countLoop delimiter str false 0)

def ftSplit (ok : Nat → Bool) (s : Option CString) (c : UInt8) (heap : Heap Cell) : Heap Cell × Ptr :=
  match s with
  | none => (heap, none)
  | some s =>
    let tokens := CIndex.toSize (countSegments s.1 c)
    let (heap, tokenV) := heap.tryMalloc (ok 0) ((tokens + 1) * 8 % 2 ^ 64 / 8)
    if tokenV = none then (heap, none)
    else
      let heap := heap.store tokenV tokens (.ptr none)
      let (heap, failed) := allocateAndCopyTokens ok tokenV c tokens (s.1.length + 1) s.1 0 heap
      if failed then (heap.free tokenV, none) else (heap, tokenV)

/-! ### What a call leaves behind -/

/-- The tokens between the delimiters. -/
def tokensOf (s : List UInt8) (c : UInt8) : List (List UInt8) := runs (· == c) s

/-- An array of pointers to these strings, with a null pointer behind them. -/
def Complete (h : Heap Cell) (p : Ptr) (ts : List (List UInt8)) : Prop :=
  ∃ ptrs : List Ptr, h.At p (ptrs.map (some <| .ptr ·) ++ [some (.ptr none)]) ∧
    List.Forall₂ (fun q t => Terminated (.char 0) h q (t.map .char)) ptrs ts

/-- Without a fault, the call returns the complete array, or nothing, and then it keeps no block. -/
structure Clean (ok : Nat → Bool) (s : CString) (c : UInt8) (heap : Heap Cell) : Prop where
  sound : (ftSplit ok (some s) c heap).1.fault = false
  result : Complete (ftSplit ok (some s) c heap).1 (ftSplit ok (some s) c heap).2 (tokensOf s.1 c) ∨
    ((ftSplit ok (some s) c heap).2 = none ∧ FreedFrom heap.blocks.length (ftSplit ok (some s) c heap).1)

section Count
variable {delimiter : UInt8}

theorem countLoop_eq (str : List UInt8) (segment : Nat) :
    countLoop delimiter str false segment = segment + (tokensOf str delimiter).length ∧
      countLoop delimiter str true segment =
        segment + (tokensOf (str.dropWhile (!· == delimiter)) delimiter).length := by
  induction str generalizing segment with
  | nil => exact ⟨rfl, rfl⟩
  | cons c str ih =>
    rw [countLoop, countLoop, tokensOf]
    by_cases hc : c = delimiter
    · have hsep : (c == delimiter) = true := beq_iff_eq.mpr hc
      rw [List.dropWhile_cons_of_neg (by rw [hsep]; decide), tokensOf,
        runs_cons_of_pos (p := (· == delimiter)) hsep, if_pos hc, if_pos hc]
      exact ⟨(ih segment).1, (ih segment).1⟩
    · have hsep : (c == delimiter) = false := beq_eq_false_iff_ne.mpr hc
      have hrest := (ih (segment + 1)).2
      rw [List.dropWhile_cons_of_pos (by rw [hsep]; decide), runs_cons_of_neg (p := (· == delimiter)) hsep, if_neg hc,
        if_neg hc, List.length_cons]
      rw [tokensOf] at hrest
      exact ⟨hrest.trans (by omega), (ih segment).2⟩

theorem countSegments_eq (str : List UInt8) (c : UInt8) :
    countSegments str c = BitVec.ofNat 32 (tokensOf str c).length := by
  rw [countSegments, (countLoop_eq str 0).1, Nat.zero_add]

end Count

/-! ### The error paths -/

section Errors
variable {heap : Heap Cell} {tokens : Ptr} {ok : Nat → Bool} {delimiter : UInt8} {tokenCount : Nat}

theorem fault_safeAlloc (hf : heap.fault = true) (tokens : Ptr) (ok : Bool) (pos buffer : Nat) :
    (safeAlloc ok tokens pos buffer heap).1.fault = true := by
  have hstore := fault_store (fault_tryMalloc hf ok buffer) tokens pos (.ptr (heap.tryMalloc ok buffer).2)
  unfold safeAlloc
  dsimp only
  split
  · exact fault_free (fault_freeCells hstore tokens 0 pos) tokens
  · exact hstore

theorem fault_allocateAndCopyToken (hf : heap.fault = true) (tokens : Ptr) (ok : Bool) (current : Nat)
    (start : List UInt8) (len : Nat) : (allocateAndCopyToken ok tokens current start len heap).1.fault = true := by
  have halloc := fault_safeAlloc hf tokens ok current (len + 1)
  unfold allocateAndCopyToken
  dsimp only
  split
  · exact halloc
  · exact fault_store (fault_write (fault_load halloc tokens current) _ _ _) _ _ _

/-- A fault that came before the loop stays. -/
theorem fault_allocateAndCopyTokens (hf : heap.fault = true) (fuel : Nat) (s : List UInt8) (current : Nat) :
    (allocateAndCopyTokens ok tokens delimiter tokenCount fuel s current heap).1.fault = true := by
  induction fuel generalizing s current heap with
  | zero => rfl
  | succ fuel ih =>
    rw [allocateAndCopyTokens]
    split
    · dsimp only
      split
      · have htoken := fault_allocateAndCopyToken hf tokens (ok (current + 1)) current
        split
        · exact htoken _ _
        · exact ih (htoken _ _) _ _
      · exact ih hf _ _
    · exact hf

/-- A call fails when its `malloc` does, and then it has freed the array. -/
theorem allocateAndCopyToken_failed (heap : Heap Cell) (tokens : Ptr) (ok : Bool) (current : Nat)
    (start : List UInt8) (len : Nat) :
    (allocateAndCopyToken ok tokens current start len heap).2 = !ok ∧
      (ok = false → ∃ h' : Heap Cell, (allocateAndCopyToken ok tokens current start len heap).1 = h'.free tokens) := by
  cases ok
  · exact ⟨rfl, fun _ => ⟨_, rfl⟩⟩
  · exact ⟨rfl, nofun⟩

/-! ### The turns of the loop -/

theorem tokens_full {current : Nat} (h : tokenCount ≤ current) (fuel : Nat) (s : List UInt8) :
    allocateAndCopyTokens ok tokens delimiter tokenCount (fuel + 1) s current heap = (heap, false) := by
  rw [allocateAndCopyTokens, if_neg fun hturn => Nat.not_lt.mpr h hturn.2]

/-- Delimiters up to the end end the loop. -/
theorem tokens_end {fuel : Nat} {s : List UInt8} (hfuel : s.length < fuel) (hs : s.dropWhile (· == delimiter) = [])
    (current : Nat) : allocateAndCopyTokens ok tokens delimiter tokenCount fuel s current heap = (heap, false) := by
  obtain ⟨fuel, rfl, hle⟩ := Program.exists_fuel hfuel
  rw [allocateAndCopyTokens]
  split
  · rename_i hturn
    obtain ⟨fuel, rfl, -⟩ := Program.exists_fuel (Nat.lt_of_lt_of_le (List.length_pos_iff.mpr hturn.1) hle)
    simp only [hs, List.dropWhile_nil, ne_eq, not_true_eq_false, if_false]
    rw [allocateAndCopyTokens, if_neg fun hturn => hturn.1 rfl]
  · rfl

/-- Otherwise the next token is copied. -/
theorem tokens_token {x : UInt8} {s rest : List UInt8} (hs : s.dropWhile (· == delimiter) = x :: rest) {current : Nat}
    (hcurrent : current < tokenCount) (fuel : Nat) :
    allocateAndCopyTokens ok tokens delimiter tokenCount (fuel + 1) s current heap =
      let (heap, failed) := allocateAndCopyToken (ok (current + 1)) tokens current (x :: rest)
        ((x :: rest).takeWhile (!· == delimiter)).length heap
      if failed then (heap, true)
      else allocateAndCopyTokens ok tokens delimiter tokenCount fuel ((x :: rest).dropWhile (!· == delimiter))
        (current + 1) heap := by
  have hx : (x == delimiter) = false := head_dropWhile (p := (· == delimiter)) hs
  have hcut := congrArg List.length (List.takeWhile_append_dropWhile (p := (!· == delimiter)) (l := x :: rest))
  rw [List.length_append] at hcut
  have hpos : 0 < ((x :: rest).takeWhile (!· == delimiter)).length := by
    rw [List.takeWhile_cons_of_pos (by rw [hx]; rfl)]
    exact Nat.succ_pos _
  have hs' : s ≠ [] := by
    rintro rfl
    cases hs
  have hmoved : x :: rest ≠ (x :: rest).dropWhile (!· == delimiter) := by
    intro heq
    have := congrArg List.length heq
    omega
  have hlen : (x :: rest).length - ((x :: rest).dropWhile (!· == delimiter)).length =
      ((x :: rest).takeWhile (!· == delimiter)).length := by omega
  rw [allocateAndCopyTokens, if_pos ⟨hs', hcurrent⟩]
  simp only [hs, if_pos hmoved, hlen]

/-- What is behind a token is shorter. -/
theorem length_behind {x : UInt8} {s rest : List UInt8} (hs : s.dropWhile (· == delimiter) = x :: rest) :
    ((x :: rest).dropWhile (!· == delimiter)).length < s.length := by
  have hx : (x == delimiter) = false := head_dropWhile (p := (· == delimiter)) hs
  have hle := (List.dropWhile_sublist (· == delimiter) (l := s)).length_le
  have hrest := (List.dropWhile_sublist (!· == delimiter) (l := rest)).length_le
  rw [hs, List.length_cons] at hle
  rw [List.dropWhile_cons_of_pos (by rw [hx]; rfl)]
  omega

/-- The loop fails exactly when the `malloc` of one of its tokens does, and then it has freed the array. -/
theorem allocateAndCopyTokens_failed (heap : Heap Cell) {fuel : Nat} {s : List UInt8} (hfuel : s.length < fuel)
    (current : Nat) :
    ((allocateAndCopyTokens ok tokens delimiter tokenCount fuel s current heap).2 = false ↔
      ∀ k, current ≤ k → k < tokenCount → k < current + (tokensOf s delimiter).length → ok (k + 1) = true) ∧
    ((allocateAndCopyTokens ok tokens delimiter tokenCount fuel s current heap).2 = true →
      ∃ h' : Heap Cell, (allocateAndCopyTokens ok tokens delimiter tokenCount fuel s current heap).1 =
        h'.free tokens) := by
  induction fuel generalizing s current heap with
  | zero => cases hfuel
  | succ fuel ih =>
    cases hs : s.dropWhile (· == delimiter) with
    | nil =>
      rw [tokens_end hfuel hs, tokensOf, runs_of_nil hs]
      exact ⟨iff_of_true rfl fun k hle _ hlt => absurd hlt (Nat.not_lt.mpr hle), nofun⟩
    | cons x rest =>
      rcases Nat.lt_or_ge current tokenCount with hlt | hge
      · have hbehind : ((x :: rest).dropWhile (!· == delimiter)).length < fuel :=
          Nat.lt_of_lt_of_le (length_behind hs) (Nat.le_of_lt_succ hfuel)
        obtain ⟨hfailed, hfreed⟩ := allocateAndCopyToken_failed heap tokens (ok (current + 1)) current
          (x :: rest) ((x :: rest).takeWhile (!· == delimiter)).length
        rw [tokens_token hs hlt, tokensOf, runs_of_cons hs, List.length_cons]
        cases hok : ok (current + 1) with
        | false =>
          rw [hok] at hfailed hfreed
          simp only [hfailed, Bool.not_false, if_true]
          refine ⟨iff_of_false nofun fun hall => ?_, fun _ => hfreed rfl⟩
          rw [hall current (Nat.le_refl _) hlt (by omega)] at hok
          cases hok
        | true =>
          rw [hok] at hfailed
          simp only [hfailed, Bool.not_true, Bool.false_eq_true, if_false]
          obtain ⟨hiff, himp⟩ := ih (allocateAndCopyToken true tokens current (x :: rest)
            ((x :: rest).takeWhile (!· == delimiter)).length heap).1 hbehind (current + 1)
          refine ⟨hiff.trans ?_, himp⟩
          constructor
          · intro hall k hle hcount hk
            rcases Nat.eq_or_lt_of_le hle with rfl | hlt
            · exact hok
            · exact hall k hlt hcount (by rw [tokensOf]; omega)
          · intro hall k hle hcount hk
            exact hall k (by omega) hcount (by rw [tokensOf] at hk; omega)
      · rw [tokens_full hge]
        exact ⟨iff_of_true rfl fun k hle hcount _ => absurd hcount (Nat.not_lt.mpr (Nat.le_trans hge hle)), nofun⟩

end Errors

/-! ### The way without errors -/

section Success
variable {heap : Heap Cell} {b current : Nat} {ok : Nat → Bool} {delimiter : UInt8}

/-- The pointers to the first blocks behind the b-th. -/
def filled (b n : Nat) : List (Option Cell) := (List.range' (b + 1) n).map fun q => some (.ptr (some q))

theorem length_filled (b n : Nat) : (filled b n).length = n := by
  rw [filled, List.length_map, List.length_range']

theorem filled_succ (b n : Nat) : filled b (n + 1) = filled b n ++ [some (.ptr (some (b + 1 + n)))] := by
  rw [filled, List.range'_1_concat, List.map_append]
  rfl

theorem char_zero_notMem {t : List UInt8} (h0 : 0 ∉ t) : Cell.char 0 ∉ t.map .char := by
  intro hmem
  obtain ⟨c, hc, heq⟩ := List.mem_map.mp hmem
  exact h0 (Cell.char.inj heq ▸ hc)

/-- A token gets a block of its own, and the array a pointer to it. -/
theorem allocateAndCopyToken_at {c : Option Cell} {rest : List (Option Cell)} {start : List UInt8} {len : Nat}
    (ha : heap.At (some b) (filled b current ++ c :: rest)) (hblocks : heap.blocks.length = b + 1 + current)
    (hlen : len ≤ start.length) (h0 : 0 ∉ start) :
    ∃ heap', allocateAndCopyToken true (some b) current start len heap = (heap', false) ∧
      heap'.At (some b) (filled b (current + 1) ++ rest) ∧ KeepsOff [b] heap heap' ∧
      heap'.blocks.length = b + 1 + (current + 1) ∧
      Terminated (.char 0) heap' (some (b + 1 + current)) ((start.take len).map .char) := by
  obtain ⟨h₁, hmalloc, hnew, hold, hkeep, hlen₁⟩ := exists_malloc ha.sound (len + 1)
  obtain ⟨ha₁, -⟩ := hold _ _ ha
  rw [hblocks] at hmalloc hnew hkeep hlen₁
  obtain ⟨ha₂, hkeep₂⟩ := ha₁.stores (filled b current) (.ptr (some (b + 1 + current)))
  rw [length_filled] at ha₂ hkeep₂
  have hload := ha₂.load
  rw [length_filled] at hload
  have hfresh : b + 1 + current ∉ [b] := fun hmem => by
    rw [List.mem_singleton] at hmem
    omega
  have hnew₂ := hkeep₂ _ hfresh _ hnew
  have hchars : ((start.take len).map Cell.char).length = len := by rw [List.length_map, List.length_take_of_le hlen]
  obtain ⟨hwritten, hkeep₃⟩ := hnew₂.terminate ((start.take len).map .char) (.char 0) (by
    rw [hchars, List.length_replicate]
    omega)
  rw [hchars] at hwritten hkeep₃
  refine ⟨_, ?_, hkeep₃ b (by simp; omega) _ ?_, hkeep [b] _ ?_, ?_,
    ⟨char_zero_notMem fun hmem => h0 (List.mem_of_mem_take hmem), _, hwritten⟩⟩
  · simp only [allocateAndCopyToken, safeAlloc, tryMalloc, if_true, hmalloc, reduceCtorEq, if_false, Bool.false_eq_true,
      hload, Cell.toPtr]
  · rw [filled_succ, List.append_assoc]
    exact ha₂
  · exact (hkeep₂.mono (by simp)).trans (hkeep₃.mono (by simp))
  · rw [length_store, length_write, length_store, hlen₁]
    omega

/-- The loop fills the array with the tokens that it still has room for. -/
theorem allocateAndCopyTokens_at {fuel k : Nat} {s : List UInt8} (hfuel : s.length < fuel) (h0 : 0 ∉ s)
    (ha : heap.At (some b) (filled b current ++ (List.replicate k none ++ [some (.ptr none)])))
    (hblocks : heap.blocks.length = b + 1 + current) (hk : k ≤ (tokensOf s delimiter).length)
    (hok : ∀ i, current ≤ i → i < current + k → ok (i + 1) = true) :
    ∃ heap', allocateAndCopyTokens ok (some b) delimiter (current + k) fuel s current heap = (heap', false) ∧
      heap'.At (some b) (filled b (current + k) ++ [some (.ptr none)]) ∧ KeepsOff [b] heap heap' ∧
      ∀ i t, i < k → (tokensOf s delimiter)[i]? = some t →
        Terminated (.char 0) heap' (some (b + 1 + (current + i))) (t.map .char) := by
  induction fuel generalizing s heap current k with
  | zero => cases hfuel
  | succ fuel ih =>
    cases k with
    | zero =>
      exact ⟨heap, tokens_full (Nat.le_refl _) fuel s, ha, fun _ _ _ hat => hat, nofun⟩
    | succ k =>
      cases hs : s.dropWhile (· == delimiter) with
      | nil =>
        rw [tokensOf, runs_of_nil hs] at hk
        cases hk
      | cons x rest =>
        have hbehind : ((x :: rest).dropWhile (!· == delimiter)).length < fuel :=
          Nat.lt_of_lt_of_le (length_behind hs) (Nat.le_of_lt_succ hfuel)
        have hstart : 0 ∉ x :: rest := fun hmem => h0 ((List.dropWhile_sublist (· == delimiter)).subset (hs ▸ hmem))
        have hprefix := List.takeWhile_prefix (!· == delimiter) (l := x :: rest)
        have htoken := List.prefix_iff_eq_take.mp hprefix
        have hnext : heap.At (some b) (filled b current ++ none :: (List.replicate k none ++ [some (.ptr none)])) := ha
        obtain ⟨heap₁, hrun₁, ha₁, hkeep₁, hblocks₁, hterminated⟩ :=
          allocateAndCopyToken_at hnext hblocks hprefix.length_le hstart
        rw [← htoken] at hterminated
        rw [tokensOf, runs_of_cons hs, List.length_cons] at hk
        obtain ⟨heap₂, hrun₂, ha₂, hkeep₂, hterminated₂⟩ := ih hbehind
          (fun hmem => hstart ((List.dropWhile_sublist (!· == delimiter)).subset hmem)) ha₁ hblocks₁ (k := k)
          (Nat.le_of_succ_le_succ hk) (fun i hle hlt => hok i (by omega) (by omega))
        have hcount : current + 1 + k = current + (k + 1) := by omega
        rw [hcount] at hrun₂ ha₂
        refine ⟨heap₂, ?_, ha₂, hkeep₁.trans hkeep₂, fun i t hi ht => ?_⟩
        · rw [tokens_token hs (by omega), hok current (Nat.le_refl _) (by omega), hrun₁]
          exact hrun₂
        · rw [tokensOf, runs_of_cons hs] at ht
          cases i with
          | zero =>
            rw [List.getElem?_cons_zero, Option.some.injEq] at ht
            rw [← ht]
            exact hterminated.keep hkeep₂ (by simp; omega)
          | succ i =>
            have hlater := hterminated₂ i t (by omega) ht
            rwa [Nat.add_assoc current 1 i, Nat.add_comm 1 i] at hlater

end Success

/-! ### `ft_split` -/

section Whole
variable {heap : Heap Cell} {ok : Nat → Bool} {s : CString} {c : UInt8}

/-- How many tokens the array is made for. -/
def splitCount (s : CString) (c : UInt8) : Nat := CIndex.toSize (countSegments s.1 c)

/-- The array, with its null pointer. -/
def splitArray (s : CString) (c : UInt8) (heap : Heap Cell) : Heap Cell :=
  (heap.malloc ((splitCount s c + 1) * 8 % 2 ^ 64 / 8)).1.store (some heap.blocks.length) (splitCount s c) (.ptr none)

def splitLoop (ok : Nat → Bool) (s : CString) (c : UInt8) (heap : Heap Cell) : Heap Cell × Bool :=
  allocateAndCopyTokens ok (some heap.blocks.length) c (splitCount s c) (s.1.length + 1) s.1 0 (splitArray s c heap)

theorem ftSplit_eq (h0 : ok 0 = true) (s : CString) (c : UInt8) (heap : Heap Cell) :
    ftSplit ok (some s) c heap =
      if (splitLoop ok s c heap).2 then ((splitLoop ok s c heap).1.free (some heap.blocks.length), none)
      else ((splitLoop ok s c heap).1, some heap.blocks.length) := by
  have hmalloc : ∀ n, heap.tryMalloc true n = ((heap.malloc n).1, some heap.blocks.length) := fun _ => rfl
  simp only [ftSplit, h0, hmalloc, reduceCtorEq, if_false]
  rfl

theorem ftSplit_null (h0 : ok 0 = false) (s : CString) (c : UInt8) (heap : Heap Cell) :
    ftSplit ok (some s) c heap = (heap, none) := by
  simp only [ftSplit, h0, tryMalloc, Bool.false_eq_true, if_false, if_true]

theorem splitLoop_failed : (splitLoop ok s c heap).2 = false ↔
    ∀ k, k < splitCount s c → k < (tokensOf s.1 c).length → ok (k + 1) = true := by
  refine (allocateAndCopyTokens_failed (splitArray s c heap) (Nat.lt_succ_self s.1.length) 0).1.trans ?_
  simp

/-- When a token cannot be allocated, the array is freed twice. -/
theorem ftSplit_doubleFree (h0 : ok 0 = true) (hfailed : (splitLoop ok s c heap).2 = true) :
    (ftSplit ok (some s) c heap).1.fault = true := by
  obtain ⟨h', hfreed⟩ := (allocateAndCopyTokens_failed (splitArray s c heap) (Nat.lt_succ_self s.1.length) 0).2 hfailed
  rw [ftSplit_eq h0, if_pos hfailed, splitLoop, hfreed]
  exact fault_free_free h' _

theorem splitCount_of_lt (h : (tokensOf s.1 c).length < 2 ^ 31) : splitCount s c = (tokensOf s.1 c).length := by
  rw [splitCount, countSegments_eq, CIndex.toSize_ofNat h]

/-- A count that is no `int` is too large for any array, or too small for the tokens. -/
theorem splitCount_of_ge (h : 2 ^ 31 ≤ (tokensOf s.1 c).length) :
    2 ^ 63 ≤ splitCount s c ∨ (splitCount s c < 2 ^ 31 ∧ splitCount s c < (tokensOf s.1 c).length) := by
  have hwrap : BitVec.ofNat 32 (tokensOf s.1 c).length = BitVec.ofNat 32 ((tokensOf s.1 c).length % 2 ^ 32) :=
    BitVec.eq_of_toNat_eq (by simp)
  rw [splitCount, countSegments_eq, hwrap]
  rcases Nat.lt_or_ge ((tokensOf s.1 c).length % 2 ^ 32) (2 ^ 31) with hlt | hge
  · rw [CIndex.toSize_ofNat hlt]
    omega
  · have := CIndex.toSize_ofNat_far hge (Nat.mod_lt _ (by decide))
    omega

theorem splitArray_at (hf : heap.fault = false) (hcount : splitCount s c < 2 ^ 31) :
    (splitArray s c heap).At (some heap.blocks.length)
      (filled heap.blocks.length 0 ++ (List.replicate (splitCount s c) none ++ [some (.ptr none)])) ∧
      (splitArray s c heap).blocks.length = heap.blocks.length + 1 := by
  have hcells : (splitCount s c + 1) * 8 % 2 ^ 64 / 8 = splitCount s c + 1 := by omega
  have hat := at_malloc hf (splitCount s c + 1)
  rw [List.replicate_succ'] at hat
  have hstore := hat.store (.ptr none)
  rw [List.length_replicate] at hstore
  rw [splitArray, hcells, length_store, length_malloc]
  exact ⟨hstore, rfl⟩

theorem splitArray_fault (hcount : 2 ^ 63 ≤ splitCount s c) : (splitArray s c heap).fault = true := by
  have hcells : (splitCount s c + 1) * 8 % 2 ^ 64 / 8 ≤ splitCount s c := by omega
  refine fault_store_outside (live?_malloc heap _) ?_ _
  rw [List.length_replicate]
  exact hcells

/-- With room for some of the tokens at least, the array holds these. -/
theorem ftSplit_at (hf : heap.fault = false) (h0 : ok 0 = true) (hcount : splitCount s c < 2 ^ 31)
    (hle : splitCount s c ≤ (tokensOf s.1 c).length) (hok : ∀ k, k < splitCount s c → ok (k + 1) = true) :
    ∃ heap', ftSplit ok (some s) c heap = (heap', some heap.blocks.length) ∧
      heap'.At (some heap.blocks.length) (filled heap.blocks.length (splitCount s c) ++ [some (.ptr none)]) ∧
      ∀ i t, i < splitCount s c → (tokensOf s.1 c)[i]? = some t →
        Terminated (.char 0) heap' (some (heap.blocks.length + 1 + i)) (t.map .char) := by
  obtain ⟨ha, hblocks⟩ := splitArray_at hf hcount
  obtain ⟨heap', hrun, ha', -, hterminated⟩ := allocateAndCopyTokens_at
    (Nat.lt_succ_self s.1.length) (fun hmem => s.2 0 hmem rfl) ha hblocks hle (fun i _ hi => hok i (by omega))
  rw [Nat.zero_add] at hrun ha'
  refine ⟨heap', ?_, ha', fun i t hi ht => ?_⟩
  · rw [ftSplit_eq h0, show splitLoop ok s c heap = (heap', false) from hrun]
    rfl
  · have h := hterminated i t hi ht
    rwa [Nat.zero_add] at h

theorem ftSplit_complete (hf : heap.fault = false) (h0 : ok 0 = true) (hlt : (tokensOf s.1 c).length < 2 ^ 31)
    (hok : ∀ k, k < (tokensOf s.1 c).length → ok (k + 1) = true) :
    (ftSplit ok (some s) c heap).1.fault = false ∧
      Complete (ftSplit ok (some s) c heap).1 (ftSplit ok (some s) c heap).2 (tokensOf s.1 c) := by
  have hcount := splitCount_of_lt hlt
  obtain ⟨heap', hrun, ha, hterminated⟩ := ftSplit_at hf h0 (by omega) (Nat.le_of_eq hcount) (hcount ▸ hok)
  rw [hcount] at ha hterminated
  rw [hrun]
  refine ⟨ha.sound, (List.range' (heap.blocks.length + 1) (tokensOf s.1 c).length).map some, ?_, ?_⟩
  · rw [List.map_map]
    exact ha
  · refine List.forall₂_iff_get.mpr ⟨by rw [List.length_map, List.length_range'], fun i _ hi => ?_⟩
    have h := hterminated i _ hi (List.getElem?_eq_getElem hi)
    simpa using h

theorem not_complete (hf : heap.fault = false) (h0 : ok 0 = true) (hge : 2 ^ 31 ≤ (tokensOf s.1 c).length)
    (hok : (splitLoop ok s c heap).2 = false) :
    (ftSplit ok (some s) c heap).1.fault = true ∨
      ¬Complete (ftSplit ok (some s) c heap).1 (ftSplit ok (some s) c heap).2 (tokensOf s.1 c) := by
  rcases splitCount_of_ge hge with hlarge | ⟨hsmall, hshort⟩
  · refine Or.inl ?_
    rw [ftSplit_eq h0, hok]
    exact fault_allocateAndCopyTokens (splitArray_fault hlarge) _ _ _
  · refine Or.inr ?_
    obtain ⟨heap', hrun, ha, -⟩ := ftSplit_at hf h0 hsmall (Nat.le_of_lt hshort)
      (fun k hk => splitLoop_failed.mp hok k hk (by omega))
    rintro ⟨ptrs, hat, hptrs⟩
    rw [hrun] at hat
    have hcells := congrArg List.length (congrArg Block.cells (Option.some.inj (hat.live.symm.trans ha.live)))
    have hlen := hptrs.length_eq
    simp only [List.length_append, List.length_map, length_filled] at hcells
    omega

end Whole

/-- `ft_split` is clean exactly when the `malloc` of the array fails, or no other one does and the tokens can be counted
    in an `int`. -/
theorem ftSplit_clean_iff (ok : Nat → Bool) (s : CString) (c : UInt8) (heap : Heap Cell) (hf : heap.fault = false) :
    Clean ok s c heap ↔ ok 0 = false ∨
      ((tokensOf s.1 c).length < 2 ^ 31 ∧ ∀ k, k < (tokensOf s.1 c).length → ok (k + 1) = true) := by
  cases h0 : ok 0 with
  | false =>
    refine iff_of_true ⟨?_, Or.inr ?_⟩ (Or.inl rfl)
    · rw [ftSplit_null h0]
      exact hf
    · rw [ftSplit_null h0]
      refine ⟨rfl, fun i block hle hblock => ?_⟩
      rw [List.getElem?_eq_none hle] at hblock
      cases hblock
  | true =>
    constructor
    · intro h
      have hdone : (splitLoop ok s c heap).2 = false := by
        by_contra hfailed
        have hfault := ftSplit_doubleFree h0 (eq_true_of_ne_false hfailed)
        rw [h.sound] at hfault
        cases hfault
      have hcomplete : Complete (ftSplit ok (some s) c heap).1 (ftSplit ok (some s) c heap).2 (tokensOf s.1 c) := by
        rcases h.result with hcomplete | ⟨hnull, -⟩
        · exact hcomplete
        · rw [ftSplit_eq h0, hdone] at hnull
          cases hnull
      have hlt : (tokensOf s.1 c).length < 2 ^ 31 := by
        by_contra hge
        rcases not_complete hf h0 (Nat.not_lt.mp hge) hdone with hfault | hnot
        · rw [h.sound] at hfault
          cases hfault
        · exact hnot hcomplete
      exact Or.inr ⟨hlt, fun k hk => splitLoop_failed.mp hdone k (by rwa [splitCount_of_lt hlt]) hk⟩
    · rintro (hnull | ⟨hlt, hok⟩)
      · cases hnull
      · obtain ⟨hsound, hcomplete⟩ := ftSplit_complete hf h0 hlt hok
        exact ⟨hsound, Or.inl hcomplete⟩

/-- `a,b` with every `malloc` succeeding. -/
theorem ftSplit_clean_ab : Clean (fun _ => true) ⟨cstr "a,b", by decide +kernel⟩ (chr ',') {} :=
  (ftSplit_clean_iff _ _ _ {} rfl).mpr (Or.inr ⟨by decide, fun _ _ => rfl⟩)

/-- The second `malloc` fails, for the token of `a`: the array is freed twice. -/
theorem ftSplit_doubleFree_a : ¬Clean (fun n => n == 0) ⟨cstr "a", by decide +kernel⟩ (chr ',') {} := by
  intro h
  have hfault : (ftSplit (fun n => n == 0) (some ⟨cstr "a", by decide +kernel⟩) (chr ',') {}).1.fault = true := by
    decide +kernel
  rw [h.sound] at hfault
  cases hfault

end Minitalk.Libft
