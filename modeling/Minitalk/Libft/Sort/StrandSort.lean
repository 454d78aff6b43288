import Minitalk.Lib.CArray
import Minitalk.Lib.CInt

/-! # Strand sort (`strand_sort`)

Each `malloc` succeeds. The address of the copy of a strand, cut down to an `int`, is a parameter for each round. -/

namespace Minitalk.Libft.Sort
open CArray CInt Program

namespace StrandSort

/-- `counters`: the index into `a`, how much of `b` was merged, the index into the result, the size of `b`, and what
    stands for its elements. -/
structure Counters where
  a : Int
  b : Int
  result : Int
  sizeB : Int
  value : Int

/-- `result[counters[2]++] = a[counters[0]++]` -/
def takeA (a : List (Option Int)) (s : List (Option Int) × Counters) : Option (List (Option Int) × Counters) := do
  let result ← store s.1 s.2.result (some (← (← load a s.2.a)))
  some (result, { s.2 with result := s.2.result + 1, a := s.2.a + 1 })

/-- `result[counters[2]++] = counters[4]++` -/
def takeB (s : List (Option Int) × Counters) : Option (List (Option Int) × Counters) := do
  let result ← store s.1 s.2.result (some s.2.value)
  some (result, { s.2 with result := s.2.result + 1, value := wrap (s.2.value + 1) })

def mergeHelper (turns : Nat) (result a : List (Option Int)) (aSize : Int) (counters : Counters) :
    Option (List (Option Int)) := do
  let s ← whileLoop (fun s => some (decide (s.2.a < aSize) && decide (s.2.b < s.2.sizeB))) (fun s => do
    let x ← (← load a s.2.a)
    if x ≤ s.2.value then takeA a s else takeB s) turns (result, counters)
  let s ← whileLoop (fun s => some (decide (s.2.a < aSize))) (takeA a) turns s
  let s ← whileLoop (fun s => some (decide (s.2.b < s.2.sizeB))) takeB turns s
  some s.1

def mergeArrays (turns : Nat) (result a : List (Option Int)) (aSize : Int) (b : List (Option Int)) (address : Int) :
    Option (List (Option Int)) := do
  mergeHelper turns result a aSize ⟨0, 0, 0, ← (← load b 0), address⟩

structure Extraction where
  used : List Int
  strand : List (Option Int)
  last : Int
  count : Int

def extractTurn (arr : List Int) (i : Int) (s : Extraction) : Option Extraction := do
  let used ← load s.used i
  let x ← load arr i
  if used = 0 ∧ s.last ≤ x then
    let strand ← store s.strand s.count (some x)
    some ⟨← store s.used i 1, strand, x, s.count + 1⟩
  else some s

def extractStrand (arr used : List Int) (size : Int) (strand : List (Option Int)) : Option Extraction :=
  forUp 0 size (extractTurn arr) ⟨used, strand, -2147483648, 0⟩

/-- `memcpy(p, q, size * sizeof(int))` for an array that begins at `p` -/
def copyFront (p q : List (Option Int)) (size : Int) : Option (List (Option Int)) :=
  if size ≤ p.length ∧ size ≤ q.length then some (q.take size.toNat ++ p.drop size.toNat) else none

def processStrand (turns : Nat) (address : Int) (result : List (Option Int)) (resultSize : Int)
    (strand : List (Option Int)) (strandSize : Int) : Option (List (Option Int) × Int) := do
  let copy ← copyFront (List.replicate strandSize.toNat none) strand strandSize
  let merged := List.replicate (resultSize + strandSize).toNat none
  let merged ← mergeArrays turns merged result resultSize (some strandSize :: copy) address
  some (← copyFront result merged (resultSize + strandSize), resultSize + strandSize)

structure Round where
  number : Nat
  used : List Int
  result : List (Option Int)
  resultSize : Int

/-- One turn of the loop of `strand_sort`. -/
def strandRound (address : Nat → Int) (turns : Nat) (arr : List Int) (size : Int) (s : Round) : Option Round := do
  let e ← extractStrand arr s.used size (List.replicate size.toNat none)
  let (result, resultSize) ← processStrand turns (address s.number) s.result s.resultSize e.strand e.count
  some ⟨s.number + 1, e.used, result, resultSize⟩

end StrandSort

open StrandSort in
def strandSort (address : Nat → Int) (turns : Nat) (arr : List Int) (size : Int) : Option (List Int) := do
  let s ← whileLoop (fun s => some (decide (s.resultSize < size))) (strandRound address turns arr size) turns
    ⟨0, List.replicate size.toNat 0, List.replicate size.toNat none, 0⟩
  written s.result

namespace StrandSort

/-! ### Strands -/

section Extract
variable {arr used vs : List Int} {i : Int} {s : Extraction}

/-- What was extracted from the first `i` elements: a sorted strand, which is empty only if all of them were used. -/
structure Extracted (arr used : List Int) (i : Int) (vs : List Int) (s : Extraction) : Prop where
  strand : Filled arr.length vs s.strand
  sorted : vs.Pairwise (· ≤ ·)
  last : ∀ v ∈ vs, v ≤ s.last
  count : s.count = vs.length
  few : vs.length ≤ i
  first : vs = [] → s.last = -2 ^ 31 ∧ ∀ j, 0 ≤ j → j < i → CArray.get used j ≠ 0
  length : s.used.length = arr.length
  rest : ∀ j, i ≤ j → CArray.get s.used j = CArray.get used j

theorem Extracted.take (h : Extracted arr used i vs s) (hin : Inside arr i) (hle : s.last ≤ CArray.get arr i)
    {strand : List (Option Int)} (hfilled : Filled arr.length (vs ++ [CArray.get arr i]) strand) :
    Extracted arr used (i + 1) (vs ++ [CArray.get arr i]) ⟨put s.used i 1, strand, CArray.get arr i, s.count + 1⟩ where
  strand := hfilled
  sorted := List.pairwise_append.mpr ⟨h.sorted, List.pairwise_singleton _ _, fun v hv w hw => by
    rw [List.mem_singleton.mp hw]
    exact Int.le_trans (h.last v hv) hle⟩
  last v hv := by
    rcases List.mem_append.mp hv with hv | hv
    · exact Int.le_trans (h.last v hv) hle
    · exact Int.le_of_eq (List.mem_singleton.mp hv)
  count := by
    rw [h.count, List.length_append]
    rfl
  few := by
    have hfew := h.few
    rw [List.length_append, List.length_singleton]
    omega
  first hnil := absurd hnil (by simp)
  length := (length_put _ _ _).trans h.length
  rest j hj := by
    rw [get_put_ne ⟨hin.1, by rw [h.length]; exact hin.2⟩ (by omega)]
    exact h.rest j (by omega)

theorem Extracted.turn (h : Extracted arr used i vs s) (hfits : ∀ x ∈ arr, Fits x) (hin : Inside arr i) :
    Ends (extractTurn arr i s) fun s' => ∃ vs, Extracted arr used (i + 1) vs s' := by
  have hin' : Inside s.used i := ⟨hin.1, by rw [h.length]; exact hin.2⟩
  have hfew := h.few
  have hlt := hin.2
  rw [extractTurn, load_eq hin', load_eq hin, Option.bind_eq_bind, Option.bind_some, Option.bind_eq_bind,
    Option.bind_some]
  split
  · rename_i htake
    obtain ⟨strand, hstore, hfilled⟩ := h.strand.store (show vs.length < arr.length by omega) (CArray.get arr i)
    rw [store_eq hin', h.count, hstore, ← h.count]
    exact .some ⟨_, h.take hin htake.2 hfilled⟩
  · rename_i hskip
    refine .some ⟨vs, h.strand, h.sorted, h.last, h.count, by omega, fun hnil => ?_, h.length, fun j hj =>
      h.rest j (by omega)⟩
    obtain ⟨hlast, hused⟩ := h.first hnil
    refine ⟨hlast, fun j h0 hj => ?_⟩
    rcases Int.lt_or_eq_of_le (Int.le_of_lt_add_one hj) with hlt' | rfl
    · exact hused j h0 hlt'
    · intro hzero
      have hlow := (hfits _ (get_mem hin)).1
      rw [← h.rest j (Int.le_refl j)] at hzero
      exact hskip ⟨hzero, hlast.symm ▸ hlow⟩

/-- A strand is sorted, and not empty while there are elements that no strand has used. -/
theorem extractStrand_ends (hfits : ∀ x ∈ arr, Fits x) (hlen : used.length = arr.length) :
    Ends (extractStrand arr used arr.length (List.replicate (arr.length : Int).toNat none)) fun s =>
      ∃ vs, Extracted arr used arr.length vs s := by
  refine forUp_rule (fun i s => ∃ vs, Extracted arr used i vs s) (Int.natCast_nonneg _) ⟨[], ?_⟩ ?_
  · refine ⟨?_, .nil, nofun, rfl, Int.le_refl 0, fun _ => ⟨rfl, fun j h0 hj => by omega⟩, hlen, fun _ _ => rfl⟩
    have hfilled := filled_nil (List.replicate arr.length (none : Option Int))
    rwa [List.length_replicate] at hfilled
  · rintro i s h0 hi ⟨vs, h⟩
    exact h.turn hfits ⟨h0, hi⟩

end Extract

/-! ### Merges -/

section Merge
variable {turns : Nat} {result a b : List (Option Int)} {aSize : Int} {c : Counters}

/-- There is something left to take from `b`. -/
def Remains (s : List (Option Int) × Counters) : Prop := s.2.b < s.2.sizeB

theorem remains_takeA {s s' : List (Option Int) × Counters} (h : Remains s) (hs : takeA a s = some s') :
    Remains s' := by
  obtain ⟨_, -, hs⟩ := Option.bind_eq_some_iff.mp hs
  obtain ⟨_, -, hs⟩ := Option.bind_eq_some_iff.mp hs
  obtain ⟨_, -, hs⟩ := Option.bind_eq_some_iff.mp hs
  cases hs
  exact h

theorem remains_takeB {s s' : List (Option Int) × Counters} (h : Remains s) (hs : takeB s = some s') : Remains s' := by
  obtain ⟨_, -, hs⟩ := Option.bind_eq_some_iff.mp hs
  cases hs
  exact h

/-- No turn counts what is taken from `b`, so the last loop runs out of the result. -/
theorem mergeHelper_none (h : c.b < c.sizeB) : mergeHelper turns result a aSize c = none := by
  refine Option.bind_eq_none_iff.mpr fun s hs => ?_
  have hfirst : Remains s := by
    refine whileLoop_keeps Remains (fun s s' hremains hbody => ?_) (show Remains (result, c) from h) hs
    obtain ⟨_, -, hbody⟩ := Option.bind_eq_some_iff.mp hbody
    obtain ⟨x, -, hbody⟩ := Option.bind_eq_some_iff.mp hbody
    split at hbody
    · exact remains_takeA hremains hbody
    · exact remains_takeB hremains hbody
  refine Option.bind_eq_none_iff.mpr fun s' hs' => ?_
  have hsecond := whileLoop_keeps Remains (fun _ _ => remains_takeA) hfirst hs'
  have hcond : ∀ s, Remains s →
      (fun s : List (Option Int) × Counters => some (decide (s.2.b < s.2.sizeB))) s = some true :=
    fun s hremains => congrArg some (decide_eq_true hremains)
  exact Option.bind_eq_none_iff.mpr fun r hr => by
    rw [whileLoop_forever Remains hcond (fun _ _ => remains_takeB) turns hsecond] at hr
    cases hr

theorem mergeArrays_none {n : Int} (hn : 0 < n) (address : Int) :
    mergeArrays turns result a aSize (some n :: b) address = none := mergeHelper_none hn

theorem processStrand_none {resultSize : Int} {strand : List (Option Int)} {n : Int} (hn : 0 < n) (address : Int) :
    processStrand turns address result resultSize strand n = none := by
  refine Option.bind_eq_none_iff.mpr fun copy _ => ?_
  exact congrArg (Option.bind · _) (mergeArrays_none hn address)

/-- The merge of the first strand never ends. -/
theorem strandRound_none {arr : List Int} (hne : arr ≠ []) (hfits : ∀ x ∈ arr, Fits x) (address : Nat → Int) {s : Round}
    (hs : s.used = List.replicate arr.length 0) : strandRound address turns arr arr.length s = none := by
  have hpos : 0 < arr.length := List.length_pos_iff.mpr hne
  have hin : Inside (List.replicate arr.length (0 : Int)) 0 := ⟨Int.le_refl 0, by rw [List.length_replicate]; omega⟩
  have hused : s.used.length = arr.length := by rw [hs, List.length_replicate]
  obtain ⟨e, he, vs, hextracted⟩ := extractStrand_ends hfits hused
  have hcount : 0 < e.count := by
    rw [hextracted.count, Int.natCast_pos]
    refine List.length_pos_iff.mpr fun hnil => ?_
    refine (hextracted.first hnil).2 0 (Int.le_refl 0) (Int.natCast_pos.mpr hpos) ?_
    rw [hs]
    exact List.eq_of_mem_replicate (get_mem hin)
  rw [strandRound, he, Option.bind_eq_bind, Option.bind_some, processStrand_none hcount]
  rfl

theorem strandSort_none {arr : List Int} (hne : arr ≠ []) (hfits : ∀ x ∈ arr, Fits x) (address : Nat → Int) :
    strandSort address turns arr arr.length = none := by
  rw [strandSort]
  cases turns with
  | zero => rfl
  | succ turns =>
    rw [whileLoop_turn, strandRound_none hne hfits address rfl]
    · rfl
    · exact congrArg some (decide_eq_true (Int.natCast_pos.mpr (List.length_pos_iff.mpr hne)))

end Merge

end StrandSort

open StrandSort

theorem strand_sort_never (address : Nat → Int) (arr : List Int) (hne : arr ≠ []) (hfits : ∀ x ∈ arr, Fits x)
    (Q : List Int → Prop) : ¬Halts (fun turns => strandSort address turns arr arr.length) Q :=
  not_halts_of_none 0 fun _ _ => strandSort_none hne hfits address

theorem strand_sort_never_one :
    ¬Halts (fun turns => strandSort (fun _ => 0) turns [1] ([1] : List Int).length) (Sorts [1]) :=
  strand_sort_never (fun _ => 0) [1] (by decide) (by decide) (Sorts [1])

/-- One element. -/
theorem strand_sort_single : ¬∀ (address : Nat → Int) (arr : List Int), arr ≠ [] → (∀ x ∈ arr, Fits x) →
    Halts (fun turns => strandSort address turns arr arr.length) (Sorts arr) := fun h =>
  not_halts_of_none 0 (fun _ _ => strandSort_none (by decide) (by decide) fun _ => 0)
    (h (fun _ => 0) [1] (by decide) (by decide))

end Minitalk.Libft.Sort
