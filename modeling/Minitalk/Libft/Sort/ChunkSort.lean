import Minitalk.Lib.HeapTree
import Minitalk.Lib.Spares
import Minitalk.Libft.Sort.CountingSort

/-! # Chunk sort (`ft_chunk_sort`)

Each `malloc` succeeds. What `qsort` makes of an array is a parameter, and so is what becomes of a value that is no
`int`. -/

namespace Minitalk.Libft.Sort
open CArray CInt Heap Program

namespace ChunkSort

/-- `t_norm_params` -/
structure NormParams where
  min : Int
  max : Int

/-- `a / b` -/
def divide (result : Int → Option Int) (a b : Int) : Option Int := if b = 0 then none else result (a.tdiv b)

def normalizedValue (result : Int → Option Int) (val min max : Int) (stat : String) : Option Int :=
  if stat = "denormalize" then do
    result ((← divide result (← result (val * (← result (max - min)))) 100) + min)
  else if stat = "normalize" then do
    divide result (← result ((← result (val - min)) * 100)) (← result (max - min))
  else some val

def normalizeArray (result : Int → Option Int) (arr : List Int) (normalizedArr : Ptr) (size : Int) (params : NormParams)
    (h : Heap (NodeField Int)) : Option (Heap (NodeField Int)) :=
  forUp 0 size (fun i h => do
    let v ← normalizedValue result (← load arr i) params.min params.max "normalize"
    storeAt h normalizedArr i (.data v)) h

def denormalizeArray (result : Int → Option Int) (arr : List Int) (normalizedArr : Ptr) (size : Int)
    (params : NormParams) (h : Heap (NodeField Int)) : Option (List Int) :=
  forUp 0 size (fun i arr => do
    let v ← normalizedValue result (← loadAt h normalizedArr i).toData params.min params.max "denormalize"
    store arr i v) arr

/-- One turn of the loop of `distribute_elements`. -/
def distribute (normalizedArr chunks chunkCounts : Ptr) (numChunks chunkSize i : Int) (h : Heap (NodeField Int)) :
    Option (Heap (NodeField Int)) := do
  let x := (← loadAt h normalizedArr i).toData
  let j := x.tdiv chunkSize
  let j := if j ≥ numChunks then numChunks - 1 else j
  let chunk := (← loadAt h chunks j).toPtr
  let count := (← loadAt h chunkCounts j).toData
  let h ← storeAt h chunkCounts j (.data (count + 1))
  storeAt h chunk count (.data x)

def distributeElements (normalizedArr : Ptr) (size : Int) (chunks chunkCounts : Ptr) (h : Heap (NodeField Int)) :
    Option (Heap (NodeField Int)) :=
  forUp 0 size (distribute normalizedArr chunks chunkCounts 10 (100 / 10 + 1)) h

/-- `qsort(p, count, sizeof(int), cmp_int)` -/
def qsortAt (qsort : List Int → List Int) (p : Ptr) (count : Int) (h : Heap (NodeField Int)) :
    Option (Heap (NodeField Int)) :=
  let (h, values) := h.read p count.toNat
  sound (h.write p 0 ((qsort (values.map NodeField.toData)).map .data))

/-- One turn of the loop of `sort_and_merge_chunks`. -/
def sortAndMerge (qsort : List Int → List Int) (normalizedArr chunks chunkCounts : Ptr) (i : Int)
    (s : Heap (NodeField Int) × Int) : Option (Heap (NodeField Int) × Int) := do
  let count := (← loadAt s.1 chunkCounts i).toData
  let h ← (if count > 1 then do qsortAt qsort (← loadAt s.1 chunks i).toPtr count s.1 else some s.1)
  let (h, outputIdx) ← forUp 0 count (fun k s => do
    let x ← loadAt s.1 (← loadAt s.1 chunks i).toPtr k
    some (← storeAt s.1 normalizedArr s.2 x, s.2 + 1)) (h, s.2)
  some (← freeAt h (← loadAt h chunks i).toPtr, outputIdx)

def sortAndMergeChunks (qsort : List Int → List Int) (normalizedArr chunks chunkCounts : Ptr) (numChunks : Int)
    (h : Heap (NodeField Int)) : Option (Heap (NodeField Int)) := do
  let s ← forUp 0 numChunks (sortAndMerge qsort normalizedArr chunks chunkCounts) (h, 0)
  some s.1

def cleanupChunks (chunks chunkCounts : Ptr) (numChunks : Int) (h : Heap (NodeField Int)) :
    Option (Heap (NodeField Int)) := do
  let h ← forUp 0 numChunks (fun i h => do freeAt h (← loadAt h chunks i).toPtr) h
  let h ← freeAt h chunks
  freeAt h chunkCounts

def processChunks (qsort : List Int → List Int) (normalizedArr : Ptr) (size numChunks : Int)
    (h : Heap (NodeField Int)) : Option (Heap (NodeField Int)) := do
  let (h, chunks) := h.malloc numChunks.toNat
  let (h, chunkCounts) := h.malloc numChunks.toNat
  let h := h.write chunkCounts 0 (List.replicate numChunks.toNat (.data 0))
  let h ← forUp 0 numChunks (fun i h =>
    let (h, chunk) := h.malloc size.toNat
    storeAt h chunks i (.ptr chunk)) h
  let h ← distributeElements normalizedArr size chunks chunkCounts h
  let h ← sortAndMergeChunks qsort normalizedArr chunks chunkCounts numChunks h
  cleanupChunks chunks chunkCounts numChunks h

def chooseChunkSizeAndProcess (qsort : List Int → List Int) (normalizedArr : Ptr) (size : Int)
    (h : Heap (NodeField Int)) : Option (Heap (NodeField Int)) :=
  if size ≤ 10 then processChunks qsort normalizedArr size 2 h
  else if size ≤ 50 then processChunks qsort normalizedArr size 5 h
  else processChunks qsort normalizedArr size 10 h

end ChunkSort

open ChunkSort in
def ftChunkSort (result : Int → Option Int) (qsort : List Int → List Int) (arr : List Int) (size : Int)
    (h : Heap (NodeField Int)) : Option (List Int × Heap (NodeField Int)) :=
  if size ≤ 1 then some (arr, h)
  else do
    let (h, normalizedArr) := h.malloc size.toNat
    let params : NormParams := ⟨← getMin arr size, ← getMax arr size⟩
    let h ← normalizeArray result arr normalizedArr size params h
    let h ← chooseChunkSizeAndProcess qsort normalizedArr size h
    let arr ← denormalizeArray result arr normalizedArr size params h
    some (arr, ← freeAt h normalizedArr)

namespace ChunkSort

/-! ### The first chunk -/

/-- The block `c` has the pointers to the chunks, and is none of these. -/
structure Table (c : Nat) (as : List Nat) (h : Heap (NodeField Int)) : Prop where
  cells : h.At (some c) (as.map fun a => some (.ptr (some a)))
  outside : c ∉ as

section Chunks
variable {qsort : List Int → List Int} {result : Int → Option Int} {h h' : Heap (NodeField Int)} {as : List Nat}
  {a c k n : Nat} {i j size numChunks : Int} {p : Ptr} {v : NodeField Int} {s s' : Heap (NodeField Int) × Int}

theorem Table.spares (ht : Table c as h) (hs : Spares c h h') : Table c as h' := ⟨hs.keeps _ ht.cells, ht.outside⟩

theorem Table.load (ht : Table c as h) (hv : loadAt h (some c) j = some v) : ∃ a, v.toPtr = some a ∧ a ≠ c := by
  obtain ⟨a, ha, heq⟩ := List.mem_map.mp (ht.cells.mem_of_loadAt hv)
  cases heq
  exact ⟨a, rfl, fun hac => ht.outside (hac ▸ ha)⟩

theorem Table.first (ht : Table c (a :: as) h) : loadAt h (some c) 0 = some (.ptr (some a)) :=
  ht.cells.loadAt (Int.le_refl 0) rfl

theorem distribute_spares (ht : Table c as h) (hk : k ≠ c) {m cs : Int}
    (hs : distribute p (some c) (some k) m cs i h = some h') : Spares c h h' := by
  obtain ⟨x, -, hs⟩ := Option.bind_eq_some_iff.mp hs
  obtain ⟨v, hv, hs⟩ := Option.bind_eq_some_iff.mp hs
  obtain ⟨count, -, hs⟩ := Option.bind_eq_some_iff.mp hs
  obtain ⟨h₁, hcount, hs⟩ := Option.bind_eq_some_iff.mp hs
  obtain ⟨b, hb, hbc⟩ := ht.load hv
  have hfirst := storeAt_spares hcount fun hkc => hk (Option.some.inj hkc)
  exact hfirst.trans (storeAt_spares hs fun hbc' => hbc (Option.some.inj (hb.symm.trans hbc')))

theorem qsortAt_spares {count : Int} (hp : p ≠ some c) (hs : qsortAt qsort p count h = some h') : Spares c h h' := by
  obtain ⟨hsound, heq⟩ := sound_eq_some hs
  have hwrite : Spares c (h.read p count.toNat).1 h' := heq ▸ write_spares hsound hp
  rwa [read_sound (sound_of_write hsound)] at hwrite

/-- A turn frees the chunk of its number. -/
theorem sortAndMerge_spares (ht : Table c (a :: as) s.1) (hn : n ≠ c)
    (hs : sortAndMerge qsort (some n) (some c) p i s = some s') : Spares c s.1 s'.1 ∧ (i = 0 → Freed a s'.1) := by
  obtain ⟨count, -, hs⟩ := Option.bind_eq_some_iff.mp hs
  obtain ⟨h₁, hsort, hs⟩ := Option.bind_eq_some_iff.mp hs
  obtain ⟨t, hmerge, hs⟩ := Option.bind_eq_some_iff.mp hs
  obtain ⟨v, hv, hs⟩ := Option.bind_eq_some_iff.mp hs
  obtain ⟨h₂, hfree, hs⟩ := Option.bind_eq_some_iff.mp hs
  have hfirst : Spares c s.1 h₁ := by
    split at hsort
    · obtain ⟨w, hw, hsort⟩ := Option.bind_eq_some_iff.mp hsort
      obtain ⟨b, hb, hbc⟩ := ht.load hw
      exact qsortAt_spares (fun hp => hbc (Option.some.inj (hb.symm.trans hp))) hsort
    · cases hsort
      exact .refl _ _
  have hsecond : Spares c s.1 t.1 := by
    refine forUp_keeps (fun t => Spares c s.1 t.1) hfirst (fun k t t' ht' hbody => ?_) hmerge
    obtain ⟨w, -, hbody⟩ := Option.bind_eq_some_iff.mp hbody
    obtain ⟨x, -, hbody⟩ := Option.bind_eq_some_iff.mp hbody
    obtain ⟨h₃, hstore, hbody⟩ := Option.bind_eq_some_iff.mp hbody
    cases hbody
    exact ht'.trans (storeAt_spares hstore fun heq => hn (Option.some.inj heq))
  obtain ⟨b, hb, hbc⟩ := (ht.spares hsecond).load hv
  rw [hb] at hfree
  cases hs
  obtain ⟨hlast, hfreed⟩ := freeAt_spares hfree hbc
  refine ⟨hsecond.trans hlast, ?_⟩
  rintro rfl
  rw [(ht.spares hsecond).first] at hv
  cases hv
  cases hb
  exact hfreed

theorem sortAndMergeChunks_frees (ht : Table c (a :: as) h) (hn : n ≠ c) (hnum : 0 < numChunks)
    (hs : sortAndMergeChunks qsort (some n) (some c) p numChunks h = some h') :
    Table c (a :: as) h' ∧ Freed a h' := by
  obtain ⟨s, hloop, hs⟩ := Option.bind_eq_some_iff.mp hs
  cases hs
  have hinv : Table c (a :: as) s.1 ∧ (0 < numChunks → Freed a s.1) := by
    refine forUp_reaches (fun i s => Table c (a :: as) s.1 ∧ (0 < i → Freed a s.1)) (Int.le_of_lt hnum)
      ⟨ht, fun hlt => absurd hlt (Int.lt_irrefl 0)⟩ (fun i s s' h0 _ hi hbody => ?_) hloop
    obtain ⟨hspares, hfirst⟩ := sortAndMerge_spares hi.1 hn hbody
    refine ⟨hi.1.spares hspares, fun _ => ?_⟩
    rcases Int.lt_or_eq_of_le h0 with hpos | rfl
    · exact hspares.freed a (hi.2 hpos)
    · exact hfirst rfl
  exact ⟨hinv.1, hinv.2 hnum⟩

/-- The first turn frees the first chunk again. -/
theorem cleanupChunks_none (ht : Table c (a :: as) h) (hfreed : Freed a h) (hnum : 0 < numChunks) :
    cleanupChunks (some c) p numChunks h = none := by
  have hturns : numChunks.toNat = numChunks.toNat - 1 + 1 := by omega
  rw [cleanupChunks, forUp, Int.sub_zero, hturns, turnsUp, ht.first, Option.bind_eq_bind, Option.bind_eq_bind,
    Option.bind_some, NodeField.toPtr, freeAt_freed hfreed]
  rfl

/-- The first `i` of the pointers to the chunks are in place. -/
def Allocated (c : Nat) (numChunks i : Int) (h : Heap (NodeField Int)) : Prop :=
  ∃ as : List Nat, as.length = i ∧ c ∉ as ∧
    h.At (some c) (as.map (fun a => some (.ptr (some a))) ++ List.replicate (numChunks - i).toNat none)

theorem Allocated.turn (hi : i < numChunks) (ha : Allocated c numChunks i h) {m : Nat}
    (hs : storeAt (h.malloc m).1 (some c) i (.ptr (some h.blocks.length)) = some h') :
    Allocated c numChunks (i + 1) h' := by
  obtain ⟨as, hlen, hc, hat⟩ := ha
  obtain ⟨hat, hne⟩ := hat.malloc m
  have hrest : (numChunks - i).toNat = (numChunks - (i + 1)).toNat + 1 := by omega
  rw [hrest, List.replicate_succ] at hat
  have hstore := hat.store (.ptr (some h.blocks.length))
  rw [List.length_map] at hstore
  unfold storeAt at hs
  rw [if_pos (by omega), ← hlen, Int.toNat_natCast] at hs
  obtain ⟨-, rfl⟩ := sound_eq_some hs
  refine ⟨as ++ [h.blocks.length], by simp [hlen], ?_, by simpa using hstore⟩
  intro hmem
  rcases List.mem_append.mp hmem with hmem | hmem
  · exact hc hmem
  · exact hne (congrArg some (List.mem_singleton.mp hmem))

theorem Allocated.table (ha : Allocated c numChunks numChunks h) (hnum : 0 < numChunks) :
    ∃ a as, Table c (a :: as) h := by
  obtain ⟨as, hlen, hc, hat⟩ := ha
  rw [Int.sub_self, Int.toNat_zero, List.replicate_zero, List.append_nil] at hat
  cases as with
  | nil => exact absurd hlen (Int.ne_of_lt hnum)
  | cons a as => exact ⟨a, as, hat, hc⟩

theorem processChunks_none (hf : h.fault = false) (hn : n < h.blocks.length) (hnum : 0 < numChunks) :
    processChunks qsort (some n) size numChunks h = none := by
  obtain ⟨h₁, hchunks, hat₁, -, -, hlen₁⟩ := exists_malloc hf numChunks.toNat
  obtain ⟨h₂, hcounts, hat₂, hkeep₂, -, -⟩ := exists_malloc hat₁.sound numChunks.toNat
  obtain ⟨hat, hne⟩ := hkeep₂ _ _ hat₁
  obtain ⟨-, hkeep⟩ := hat₂.write (List.replicate numChunks.toNat (.data 0)) (i := 0) (by simp)
  have hstart : Allocated h.blocks.length numChunks 0 _ :=
    ⟨[], rfl, List.not_mem_nil, by simpa using hkeep _ (not_mem_of_ne hne) _ hat⟩
  rw [processChunks, hchunks]
  simp only
  rw [hcounts]
  refine Option.bind_eq_none_iff.mpr fun h₃ hloop => ?_
  have hallocated := forUp_reaches (Allocated h.blocks.length numChunks) (Int.le_of_lt hnum) hstart
    (fun i h h' _ hi ha hbody => ha.turn hi hbody) hloop
  obtain ⟨a, as, ht⟩ := hallocated.table hnum
  refine Option.bind_eq_none_iff.mpr fun h₄ hdistribute => ?_
  have hk : h₁.blocks.length ≠ h.blocks.length := by omega
  have ht₄ : Table h.blocks.length (a :: as) h₄ := by
    refine forUp_keeps (Table h.blocks.length (a :: as)) ht (fun i h h' ht hbody => ?_) hdistribute
    exact ht.spares (distribute_spares ht hk hbody)
  refine Option.bind_eq_none_iff.mpr fun h₅ hmerge => ?_
  obtain ⟨ht₅, hfreed⟩ := sortAndMergeChunks_frees ht₄ (Nat.ne_of_lt hn) hnum hmerge
  exact cleanupChunks_none ht₅ hfreed hnum

theorem chooseChunkSizeAndProcess_none (hf : h.fault = false) (hn : n < h.blocks.length) :
    chooseChunkSizeAndProcess qsort (some n) size h = none := by
  unfold chooseChunkSizeAndProcess
  split
  · exact processChunks_none hf hn (by decide)
  · split
    · exact processChunks_none hf hn (by decide)
    · exact processChunks_none hf hn (by decide)

/-- More than one element: each chunk is freed a second time, if the run gets that far. -/
theorem ftChunkSort_none (hf : h.fault = false) {arr : List Int} (hsize : 1 < size) :
    ftChunkSort result qsort arr size h = none := by
  rw [ftChunkSort, if_neg (Int.not_le.mpr hsize)]
  obtain ⟨h₁, hmalloc, hat, -, -, hlen⟩ := exists_malloc hf size.toNat
  simp only [hmalloc]
  refine Option.bind_eq_none_iff.mpr fun min _ => ?_
  refine Option.bind_eq_none_iff.mpr fun max _ => ?_
  refine Option.bind_eq_none_iff.mpr fun h₂ hnormalize => ?_
  have hkept : h₂.fault = false ∧ h₂.blocks.length = h₁.blocks.length := by
    refine forUp_keeps (fun h => h.fault = false ∧ h.blocks.length = h₁.blocks.length) ⟨hat.sound, rfl⟩
      (fun i h h' hh hbody => ?_) hnormalize
    obtain ⟨x, -, hbody⟩ := Option.bind_eq_some_iff.mp hbody
    obtain ⟨v, -, hstore⟩ := Option.bind_eq_some_iff.mp hbody
    exact ⟨(storeAt_sound hstore).1, (storeAt_sound hstore).2.trans hh.2⟩
  rw [chooseChunkSizeAndProcess_none hkept.1 (by omega)]
  rfl

end Chunks

end ChunkSort

/-- The array is sorted, and each block of the run was freed once. -/
structure ChunkSorted (h : Heap (NodeField Int)) (arr : List Int) (r : List Int × Heap (NodeField Int)) : Prop where
  sorts : Sorts arr r.1
  freed : OwnsAll h.blocks.length [] r.2

open ChunkSort in
theorem chunk_sort_iff (result : Int → Option Int) (qsort : List Int → List Int) (h : Heap (NodeField Int))
    (hf : h.fault = false) (arr : List Int) :
    Ends (ftChunkSort result qsort arr arr.length h) (ChunkSorted h arr) ↔ arr.length ≤ 1 := by
  rcases Nat.lt_or_ge 1 arr.length with hsize | hsize
  · rw [ftChunkSort_none hf (by omega)]
    exact iff_of_false nofun (Nat.not_le_of_lt hsize)
  · refine iff_of_true ?_ hsize
    rw [ftChunkSort, if_pos (by omega)]
    exact .some ⟨sorts_of_length_le hsize, .start hf⟩

theorem chunk_sort_iff_two :
    Ends (ftChunkSort checked (fun l => l.mergeSort fun x y => decide (x ≤ y)) [2, 1] ([2, 1] : List Int).length {})
      (ChunkSorted {} [2, 1]) ↔ ([2, 1] : List Int).length ≤ 1 := chunk_sort_iff checked _ {} rfl [2, 1]

open ChunkSort in
/-- Two elements that are sorted. -/
theorem chunk_sort_one_two : ¬∀ (qsort : List Int → List Int) (arr : List Int), (∀ l, Sorts l (qsort l)) →
    (∀ x ∈ arr, Fits x) → Ends (ftChunkSort checked qsort arr arr.length {}) (ChunkSorted {} arr) := fun h => by
  have hends := h _ [1, 2] sorts_mergeSort (by decide)
  rw [ftChunkSort_none rfl (by decide)] at hends
  obtain ⟨r, hr, -⟩ := hends
  cases hr

end Minitalk.Libft.Sort
