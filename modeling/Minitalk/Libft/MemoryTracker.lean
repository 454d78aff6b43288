import Minitalk.Lib.CIndex
import Minitalk.Lib.CInt
import Minitalk.Lib.Machine
import Minitalk.Lib.Ownership

/-! # The allocation tracker (`libft/memory/memory_tracker.c`)

A call says how many bytes it asks for, and whether its `malloc` and its `realloc` succeed. -/

namespace Minitalk.Libft.MemoryTracker
open Heap

/-- The heap, and `t_mem_tracker`. -/
structure Tracker where
  heap : Heap Cell
  ptrs : Ptr
  count : BitVec 32
  capacity : BitVec 32

structure Call where
  size : Nat
  mallocOk : Bool
  reallocOk : Bool

def initTracker (heap : Heap Cell) : Tracker := { heap, ptrs := none, count := 0, capacity := 0 }

/-- `tracker->ptrs[tracker->count++] = ptr` -/
def track (tracker : Tracker) (ptr : Ptr) : Tracker :=
  { tracker with
    heap := tracker.heap.store tracker.ptrs (CIndex.toSize tracker.count) (.ptr ptr)
    count := tracker.count + 1 }

def safeMalloc (tracker : Tracker) (call : Call) : Tracker × Ptr :=
  let (heap, ptr) := tracker.heap.tryMalloc call.mallocOk call.size
  if ptr = none then ({ tracker with heap }, none)
  else if tracker.capacity.toInt ≤ tracker.count.toInt then
    let capacity := if tracker.capacity = 0 then 10 else tracker.capacity * 2
    let size := (capacity.signExtend 64 * 8).toNat
    let (heap, ptrs) := heap.realloc call.reallocOk tracker.ptrs (size / 8)
    if ptrs = none then ({ tracker with heap, ptrs, capacity }, none)
    else (track { tracker with heap, ptrs, capacity } ptr, ptr)
  else (track { tracker with heap } ptr, ptr)

def cleanupAll (tracker : Tracker) : Tracker :=
  let heap := freeCells tracker.ptrs 0 tracker.count.toInt.toNat tracker.heap
  initTracker (release tracker.ptrs heap)

/-- A call emits the pointer that it returns. -/
def calls : Machine Tracker Call Ptr where
  step tracker call := ((safeMalloc tracker call).1, [(safeMalloc tracker call).2])

/-! ### What may be expected of it -/

/-- The table has pointers to these blocks. -/
def Tracks (tracker : Tracker) (qs : List Nat) : Prop :=
  tracker.count.toInt = qs.length ∧
    (qs = [] ∨ ∃ post, tracker.heap.At tracker.ptrs (qs.map (fun q => some (.ptr (some q))) ++ post))

/-- The table has room for what it holds, and a cleanup frees every block from the n-th on, once. -/
structure Sound (n : Nat) (tracker : Tracker) : Prop where
  bounded : tracker.count.toInt ≤ tracker.capacity.toInt
  safe : (cleanupAll tracker).heap.fault = false
  freed : FreedFrom n (cleanupAll tracker).heap

/-- The call leaves a sound tracker, which keeps its blocks when the call fails. -/
structure Safe (n : Nat) (tracker : Tracker) (call : Call) : Prop where
  sound : Sound n (safeMalloc tracker call).1
  kept : (safeMalloc tracker call).2 = none → ∀ qs, Tracks tracker qs → Tracks (safeMalloc tracker call).1 qs

/-- When the table has to grow, it does, and its capacity stays an `int`. -/
def Grows (tracker : Tracker) (call : Call) : Prop :=
  call.mallocOk = true → tracker.capacity.toInt ≤ tracker.count.toInt →
    call.reallocOk = true ∧ tracker.capacity.toInt < 2 ^ 30

/-- The tracked blocks are `qs`, and all others from the n-th on were freed, except the table itself. -/
structure Inv (n : Nat) (tracker : Tracker) (qs : List Nat) : Prop where
  base : n ≤ tracker.heap.blocks.length
  count : tracker.count.toInt = qs.length
  room : (qs.length : Int) ≤ tracker.capacity.toInt
  even : 2 ∣ tracker.capacity.toInt
  table : (tracker.ptrs = none ∧ tracker.capacity = 0 ∧ OwnsAll n [] tracker.heap) ∨
    ∃ b post, tracker.ptrs = some b ∧ tracker.heap.At (some b) (qs.map (fun q => some (.ptr (some q))) ++ post) ∧
      qs.length + post.length = tracker.capacity.toInt ∧ OwnsAll n (b :: qs) tracker.heap ∧ (b :: qs).Nodup

section Steps
variable {n b q : Nat} {tracker : Tracker} {qs : List Nat} {call : Call}

/-- A cleanup frees what is tracked, and then the table. -/
theorem Inv.sound (h : Inv n tracker qs) : Sound n tracker := by
  have hcount : tracker.count.toInt.toNat = qs.length := by rw [h.count, Int.toNat_natCast]
  have hall : OwnsAll n [] (cleanupAll tracker).heap := by
    rw [cleanupAll, hcount]
    rcases h.table with ⟨hnone, hzero, ho⟩ | ⟨b, post, hptrs, hat, -, ho, hnodup⟩
    · have hroom := h.room
      have hempty : qs.length = 0 := by
        rw [hzero] at hroom
        exact Nat.le_zero.mp (Int.ofNat_le.mp hroom)
      rw [hnone, hempty]
      exact ho
    · have hcells : tracker.heap.At (some b) ([] ++ qs.map (fun q => some (.ptr (some q))) ++ post) := hat
      have hfreed := freeCells_owns ho hnodup hcells
      rw [hptrs]
      exact hfreed.free List.not_mem_nil
  refine ⟨?_, hall.sound, hall.freedFrom⟩
  rw [h.count]
  exact h.room

theorem count_eq (hcount : tracker.count.toInt = qs.length) : CIndex.toSize tracker.count = qs.length := by
  have hlt := (CInt.fits_toInt tracker.count).2
  have hint : tracker.count = BitVec.ofNat 32 qs.length := by
    refine BitVec.eq_of_toInt_eq ?_
    rw [CInt.toInt_ofNat (by omega), hcount]
  rw [hint]
  exact CIndex.toSize_ofNat (by omega)

/-- A new block is tracked in the first free cell of the table. -/
theorem inv_track {c : Option Cell} {post : List (Option Cell)} (hn : n ≤ tracker.heap.blocks.length)
    (hcount : tracker.count.toInt = qs.length) (hptrs : tracker.ptrs = some b)
    (hat : tracker.heap.At (some b) (qs.map (fun q => some (.ptr (some q))) ++ c :: post))
    (hroom : qs.length + (post.length + 1) = tracker.capacity.toInt) (heven : 2 ∣ tracker.capacity.toInt)
    (ho : OwnsAll n (q :: b :: qs) tracker.heap) (hnodup : (q :: b :: qs).Nodup) :
    Inv n (track tracker (some q)) (qs ++ [q]) := by
  have hlt := (CInt.fits_toInt tracker.capacity).2
  have hstore := hat.store (.ptr (some q))
  rw [List.length_map] at hstore
  have hperm : List.Perm (b :: (qs ++ [q])) (q :: b :: qs) := List.perm_append_singleton q (b :: qs)
  have hone : (1 : BitVec 32).toInt = 1 := rfl
  refine ⟨?_, ?_, ?_, heven, Or.inr ⟨b, post, hptrs, ?_, ?_, ?_, ?_⟩⟩
  · rw [track, length_store]
    exact hn
  · rw [track, CInt.toInt_add (by rw [hcount, hone]; exact ⟨by omega, by omega⟩), hcount, hone, List.length_append,
      List.length_singleton]
    omega
  · rw [List.length_append, List.length_singleton]
    simp only [track]
    omega
  · rw [track, hptrs, count_eq hcount]
    simpa using hstore
  · rw [List.length_append, List.length_singleton]
    simp only [track]
    omega
  · rw [track, hptrs, count_eq hcount]
    exact (ho.store hat (by simp) _).congr fun i => hperm.mem_iff.symm
  · exact hperm.nodup_iff.mpr hnodup

/-- The number of cells in a table of this capacity. -/
theorem table_size {capacity : BitVec 32} (hpos : 0 ≤ capacity.toInt) :
    (capacity.signExtend 64 * 8).toNat / 8 = capacity.toInt.toNat := by
  have hlt := (CInt.fits_toInt capacity).2
  have hnat := CInt.toNat_of_nonneg hpos
  have hsize : (capacity.signExtend 64).toNat = capacity.toNat := by
    have h := CIndex.toSize_ofNat (i := capacity.toNat) (by omega)
    rwa [BitVec.ofNat_toNat, BitVec.setWidth_eq] at h
  have height : (8 : BitVec 64).toNat = 8 := rfl
  rw [BitVec.toNat_mul, hsize, height]
  omega

theorem safeMalloc_failed (h : call.mallocOk = false) (tracker : Tracker) :
    safeMalloc tracker call = (tracker, none) := by
  rw [safeMalloc, tryMalloc, h]
  rfl

theorem safeMalloc_room (hok : call.mallocOk = true) (hroom : tracker.count.toInt < tracker.capacity.toInt) :
    safeMalloc tracker call =
      (track { tracker with heap := (tracker.heap.malloc call.size).1 } (some tracker.heap.blocks.length),
        some tracker.heap.blocks.length) := by
  simp only [safeMalloc, tryMalloc, hok, if_true, Heap.malloc, reduceCtorEq, if_false, if_neg (Int.not_le.mpr hroom)]

/-- The capacity that a full table grows to. -/
def grown (capacity : BitVec 32) : BitVec 32 := if capacity = 0 then 10 else capacity * 2

theorem safeMalloc_full (hok : call.mallocOk = true) (hfull : tracker.capacity.toInt ≤ tracker.count.toInt)
    {heap : Heap Cell} {ptrs : Ptr}
    (hrealloc : (tracker.heap.malloc call.size).1.realloc call.reallocOk tracker.ptrs
      (((grown tracker.capacity).signExtend 64 * 8).toNat / 8) = (heap, ptrs)) :
    safeMalloc tracker call =
      if ptrs = none then ({ tracker with heap, ptrs, capacity := grown tracker.capacity }, none)
      else (track { tracker with heap, ptrs, capacity := grown tracker.capacity } (some tracker.heap.blocks.length),
        some tracker.heap.blocks.length) := by
  have hmalloc : tracker.heap.malloc call.size =
      ((tracker.heap.malloc call.size).1, some tracker.heap.blocks.length) := rfl
  rw [grown] at hrealloc
  rw [safeMalloc, tryMalloc, hok, if_pos rfl, hmalloc]
  simp only [reduceCtorEq, if_false, if_pos hfull, hrealloc]
  rfl

theorem grown_spec {capacity : BitVec 32} (hpos : 0 ≤ capacity.toInt) (hsmall : capacity.toInt < 2 ^ 30) :
    capacity.toInt < (grown capacity).toInt ∧ 2 ∣ (grown capacity).toInt := by
  unfold grown
  split
  · rename_i hzero
    rw [hzero]
    decide
  · rename_i hne
    have hne' : capacity.toInt ≠ 0 := fun h => hne (BitVec.eq_of_toInt_eq h)
    have htwo : (2 : BitVec 32).toInt = 2 := rfl
    rw [CInt.toInt_mul (by rw [htwo]; exact ⟨by omega, by omega⟩), htwo]
    omega

/-- A full table that grows keeps its pointers, and the new block is still to be tracked. -/
theorem Inv.grow (h : Inv n tracker qs) (hfull : tracker.capacity.toInt ≤ tracker.count.toInt) (size : Nat) {k : Nat}
    (hk : qs.length ≤ k) :
    ∃ heap b, (tracker.heap.malloc size).1.realloc true tracker.ptrs k = (heap, some b) ∧
      heap.At (some b) (qs.map (fun q => some (.ptr (some q))) ++ List.replicate (k - qs.length) none) ∧
      OwnsAll n (tracker.heap.blocks.length :: b :: qs) heap ∧ (tracker.heap.blocks.length :: b :: qs).Nodup := by
  have hbase : n ≤ (tracker.heap.malloc size).1.blocks.length := by
    have := h.base
    rw [length_malloc]
    omega
  have hroom := h.room
  rw [h.count] at hfull
  rcases h.table with ⟨hnone, hzero, ho⟩ | ⟨b, post, hptrs, hat, hlen, ho, hnodup⟩
  · have hempty : qs = [] := by
      rw [hzero] at hroom
      exact List.length_eq_zero_iff.mp (Nat.le_zero.mp (Int.ofNat_le.mp hroom))
    subst hempty
    have ho₁ := ho.malloc h.base size
    have ho₂ := ho₁.malloc hbase k
    rw [hnone]
    refine ⟨_, _, rfl, at_malloc ho₁.sound k, ho₂.congr fun i => by simp only [List.mem_cons, or_left_comm], ?_⟩
    exact List.nodup_cons.mpr ⟨fun hmem => ho₁.fresh (List.mem_singleton.mp hmem ▸ List.mem_cons_self), by simp⟩
  · have hpost : post = [] := List.length_eq_zero_iff.mp (by omega)
    rw [hpost, List.append_nil] at hat
    obtain ⟨hb, hqs⟩ := List.nodup_cons.mp hnodup
    have hfresh := ho.fresh
    have hswap : ∀ i, i ∈ tracker.heap.blocks.length :: b :: qs ↔ i ∈ b :: tracker.heap.blocks.length :: qs := by
      simp only [List.mem_cons, or_left_comm, implies_true]
    have ho₁ := (ho.malloc h.base size).congr hswap
    have hmem : b ∉ tracker.heap.blocks.length :: qs := fun hmem => by
      rcases List.mem_cons.mp hmem with heq | hmem
      · exact hfresh (heq ▸ List.mem_cons_self)
      · exact hb hmem
    have hfits : (qs.map fun q => some (Cell.ptr (some q))).length ≤ k := by rwa [List.length_map]
    obtain ⟨heap, hrun, hat₂, ho₂⟩ := ho₁.realloc hmem hbase (hat.malloc size).1 hfits
    rw [List.length_map] at hat₂
    rw [hptrs]
    refine ⟨heap, _, hrun, hat₂, ho₂.congr fun i => by simp only [List.mem_cons, or_left_comm], ?_⟩
    have hnew := ho₁.fresh
    refine List.nodup_cons.mpr ⟨fun hmem => ?_, List.nodup_cons.mpr ⟨fun hmem => ?_, hqs⟩⟩
    · rcases List.mem_cons.mp hmem with heq | hmem
      · exact hnew (heq ▸ List.mem_cons_of_mem b List.mem_cons_self)
      · exact hfresh (List.mem_cons_of_mem b hmem)
    · exact hnew (List.mem_cons_of_mem b (List.mem_cons_of_mem _ hmem))

/-- With a table that has room, or that grows, a new block is tracked. -/
theorem Inv.step (h : Inv n tracker qs) (hok : call.mallocOk = true) (hgrows : Grows tracker call) :
    ∃ tracker' q, safeMalloc tracker call = (tracker', some q) ∧ Inv n tracker' (qs ++ [q]) := by
  have hroom := h.room
  have hbase := h.base
  rcases Int.lt_or_le tracker.count.toInt tracker.capacity.toInt with hlt | hfull
  · refine ⟨_, _, safeMalloc_room hok hlt, ?_⟩
    rw [h.count] at hlt
    rcases h.table with ⟨-, hzero, -⟩ | ⟨b, post, hptrs, hat, hlen, ho, hnodup⟩
    · rw [hzero] at hlt
      exact absurd hlt (Int.not_lt.mpr (Int.natCast_nonneg _))
    · obtain ⟨c, post, rfl⟩ := List.exists_cons_of_ne_nil (l := post) fun hnil => by
        rw [hnil, List.length_nil] at hlen
        omega
      exact inv_track (by rw [length_malloc]; omega) h.count hptrs (hat.malloc call.size).1 (by simpa using hlen) h.even
        (ho.malloc hbase call.size) (List.nodup_cons.mpr ⟨ho.fresh, hnodup⟩)
  · obtain ⟨hrealloc, hsmall⟩ := hgrows hok hfull
    obtain ⟨hlarger, heven⟩ := grown_spec (by omega) hsmall
    obtain ⟨k, hk⟩ := Int.eq_ofNat_of_zero_le (show 0 ≤ (grown tracker.capacity).toInt by omega)
    have hcells : ((grown tracker.capacity).signExtend 64 * 8).toNat / 8 = _ := table_size (by omega)
    rw [hk, Int.toNat_natCast] at hcells
    obtain ⟨heap, b, hrun, hat, ho, hnodup⟩ := h.grow hfull call.size (k := k) (by omega)
    obtain ⟨j, hj⟩ : ∃ j, k - qs.length = j + 1 := ⟨k - qs.length - 1, by omega⟩
    rw [hj, List.replicate_succ] at hat
    rw [← hrealloc, ← hcells] at hrun
    rw [safeMalloc_full hok hfull hrun, if_neg nofun]
    refine ⟨_, _, rfl, inv_track ?_ h.count rfl hat ?_ heven ho hnodup⟩
    · have := ho.inside b (by simp)
      dsimp only
      omega
    · rw [List.length_replicate]
      dsimp only
      omega

theorem Inv.safe (h : Inv n tracker qs) (hgrows : Grows tracker call) :
    Safe n tracker call ∧ ∃ qs', Inv n (safeMalloc tracker call).1 qs' := by
  cases hok : call.mallocOk with
  | false =>
    have hrun := safeMalloc_failed hok tracker
    rw [hrun]
    exact ⟨⟨by rw [hrun]; exact h.sound, fun _ qs hqs => by rw [hrun]; exact hqs⟩, qs, h⟩
  | true =>
    obtain ⟨tracker', q, hrun, hinv⟩ := h.step hok hgrows
    rw [hrun]
    exact ⟨⟨by rw [hrun]; exact hinv.sound, fun hnull => by rw [hrun] at hnull; cases hnull⟩, _, hinv⟩

/-- A table that cannot grow is lost. -/
theorem Inv.lost (h : Inv n tracker qs) (hok : call.mallocOk = true)
    (hfull : tracker.capacity.toInt ≤ tracker.count.toInt) (hfails : call.reallocOk = false) :
    ¬Sound n (safeMalloc tracker call).1 := by
  intro hsound
  have hnull : (tracker.heap.malloc call.size).1.realloc call.reallocOk tracker.ptrs
      (((grown tracker.capacity).signExtend 64 * 8).toNat / 8) = ((tracker.heap.malloc call.size).1, none) := by
    rw [hfails]
    rfl
  have hrun := safeMalloc_full hok hfull hnull
  rw [if_pos rfl] at hrun
  rw [hrun] at hsound
  have hsafe := hsound.safe
  have hfreed := hsound.freed
  rw [cleanupAll, h.count, Int.toNat_natCast] at hsafe hfreed
  cases hlen : qs.length with
  | zero =>
    -- nothing was tracked yet, and now the new block is not
    rw [hlen] at hfreed
    have hblock := hfreed tracker.heap.blocks.length _ h.base List.getElem?_concat_length
    cases hblock
  | succ k =>
    rw [hlen] at hsafe
    have hfault : (freeCells none 0 (k + 1) (tracker.heap.malloc call.size).1).fault = true :=
      fault_freeCells (fault_release rfl none) none 1 k
    have hsound' : (freeCells none 0 (k + 1) (tracker.heap.malloc call.size).1).fault = false := hsafe
    rw [hfault] at hsound'
    cases hsound'

/-- A capacity that is no `int` any more is negative. -/
theorem grown_neg {capacity : BitVec 32} (hlarge : 2 ^ 30 ≤ capacity.toInt) : (grown capacity).toInt < 0 := by
  have hlt := (CInt.fits_toInt capacity).2
  have hne : capacity ≠ 0 := by
    rintro rfl
    exact absurd hlarge (by decide)
  have htwo : (2 : BitVec 32).toInt = 2 := rfl
  rw [grown, if_neg hne, BitVec.toInt_mul, htwo, Int.bmod_def]
  omega

theorem Inv.overflows (h : Inv n tracker qs) (hok : call.mallocOk = true)
    (hfull : tracker.capacity.toInt ≤ tracker.count.toInt) (hlarge : 2 ^ 30 ≤ tracker.capacity.toInt) :
    ¬Sound n (safeMalloc tracker call).1 := by
  intro hsound
  have hbounded := hsound.bounded
  have hneg := grown_neg hlarge
  have hlt := (CInt.fits_toInt tracker.capacity).2
  have hroom := h.room
  have heven := h.even
  have hcount := h.count
  generalize hrealloc : (tracker.heap.malloc call.size).1.realloc call.reallocOk tracker.ptrs
    (((grown tracker.capacity).signExtend 64 * 8).toNat / 8) = result at *
  obtain ⟨heap, ptrs⟩ := result
  rw [safeMalloc_full hok hfull hrealloc] at hbounded
  split at hbounded
  · dsimp only at hbounded
    omega
  · have hone : (1 : BitVec 32).toInt = 1 := rfl
    dsimp only [track] at hbounded
    rw [CInt.toInt_add (by rw [hone]; exact ⟨by omega, by omega⟩), hone] at hbounded
    omega

/-- Exactly the calls whose table grows when it has to are safe. -/
theorem Inv.safe_iff (h : Inv n tracker qs) (call : Call) : Grows tracker call ↔ Safe n tracker call := by
  refine ⟨fun hgrows => (h.safe hgrows).1, fun hsafe hok hfull => ?_⟩
  constructor
  · by_contra hfails
    exact h.lost hok hfull (Bool.eq_false_iff.mpr hfails) hsafe.sound
  · by_contra hlarge
    exact h.overflows hok hfull (Int.not_lt.mp hlarge) hsafe.sound

end Steps

theorem inv_initTracker {heap : Heap Cell} (hf : heap.fault = false) :
    Inv heap.blocks.length (initTracker heap) [] where
  base := Nat.le_refl _
  count := rfl
  room := Int.le_refl _
  even := ⟨0, rfl⟩
  table := Or.inl ⟨rfl, rfl, OwnsAll.start hf⟩

/-- The tracker is sound from its initialisation on, and every call is safe. -/
def TrackerSafe (heap : Heap Cell) (is : List Call) : Prop :=
  Sound heap.blocks.length (initTracker heap) ∧ calls.Meets (Safe heap.blocks.length) (initTracker heap) is

/-- The tracker loses no block exactly in the runs in which every full table grows, within an `int`. -/
theorem trackerSafe_iff (heap : Heap Cell) (hf : heap.fault = false) (is : List Call) :
    TrackerSafe heap is ↔ calls.Meets Grows (initTracker heap) is := by
  have hinit := inv_initTracker hf
  have hmeets := calls.meets_iff (I := fun tracker => ∃ qs, Inv heap.blocks.length tracker qs)
    (fun tracker call hinv => hinv.elim fun qs h => h.safe_iff call)
    (fun tracker call hinv hgrows => hinv.elim fun qs h => (h.safe hgrows).2) ⟨[], hinit⟩ is
  rw [hmeets]
  exact and_iff_right hinit.sound

/-- Two blocks, and a third that is not allocated. -/
theorem trackerSafe_three :
    TrackerSafe {} [⟨8, true, true⟩, ⟨16, true, true⟩, ⟨8, false, true⟩] :=
  (trackerSafe_iff {} rfl _).mpr ⟨fun _ _ => ⟨rfl, by decide⟩, fun _ _ => ⟨rfl, by decide⟩, nofun, trivial⟩

/-- The first `realloc` fails: the block of the call is never freed. -/
theorem trackerSafe_leak : ¬TrackerSafe {} [⟨8, true, false⟩] := by
  rintro ⟨-, hsafe, -⟩
  have hblock := hsafe.sound.freed 0 { cells := List.replicate 8 none, frees := 0 } (Nat.le_refl 0) rfl
  cases hblock

end Minitalk.Libft.MemoryTracker
