/-! # A C heap that records faults

Blocks are numbered in the order of their allocation and never reused. A cell holds `none` until it is written.
Every access that C leaves undefined (outside a block, to a freed block, through a null pointer, a read of a
cell that was never written, a second `free`) sets `fault`, which stays set. -/

structure Block (α : Type) where
  cells : List (Option α)
  frees : Nat
deriving DecidableEq

structure Heap (α : Type) where
  blocks : List (Block α) := []
  fault : Bool := false
deriving DecidableEq

/-- A pointer is the number of a block, or null. -/
abbrev Ptr := Option Nat

namespace Heap
variable {α : Type}

/-- The block of a pointer, unless it is null or was freed. -/
def live? (h : Heap α) (p : Ptr) : Option (Block α) := do
  let i ← p
  let b ← h.blocks[i]?
  if b.frees = 0 then some b else none

/-- A fresh block of `n` cells, and its pointer. -/
def malloc (h : Heap α) (n : Nat) : Heap α × Ptr :=
  ({ h with blocks := h.blocks ++ [{ cells := List.replicate n none, frees := 0 }] }, some h.blocks.length)

/-- `free` of a non-null pointer. -/
def free (h : Heap α) (p : Ptr) : Heap α :=
  match p.bind (h.blocks[·]?), p with
  | some b, some i =>
    { blocks := h.blocks.set i { b with frees := b.frees + 1 }, fault := h.fault || b.frees != 0 }
  | _, _ => { h with fault := true }

/-- `p[i] = v`. -/
def store (h : Heap α) (p : Ptr) (i : Nat) (v : α) : Heap α :=
  match h.live? p, p with
  | some b, some k =>
    if i < b.cells.length then
      { h with blocks := h.blocks.set k { b with cells := b.cells.set i (some v) } }
    else { h with fault := true }
  | _, _ => { h with fault := true }

/-- The first `n` cells at `p`; a fault unless they lie in a live block and were all written. -/
def read [Inhabited α] (h : Heap α) (p : Ptr) (n : Nat) : Heap α × List α :=
  match h.live? p with
  | some b =>
    let cells := b.cells.take n
    ({ h with fault := h.fault || decide (b.cells.length < n) || cells.any Option.isNone },
      cells.map (Option.getD · default))
  | none => ({ h with fault := true }, [])

theorem live?_eq_some {h : Heap α} {p : Ptr} {b : Block α} :
    h.live? p = some b ↔ ∃ i, p = some i ∧ h.blocks[i]? = some b ∧ b.frees = 0 := by
  cases p with
  | none => simp [live?]
  | some i =>
    cases hb : h.blocks[i]? with
    | none => simp [live?, hb]
    | some c =>
      by_cases hc : c.frees = 0
      · simp only [live?, Option.bind_eq_bind, Option.bind_some, hb, hc, if_true, Option.some.injEq]
        exact ⟨fun h => ⟨i, rfl, hb.trans (congrArg some h), h ▸ hc⟩,
          fun ⟨j, hij, hj, _⟩ => by subst hij; rw [hb] at hj; exact Option.some.inj hj⟩
      · simp only [live?, Option.bind_eq_bind, Option.bind_some, hb, hc, if_false, reduceCtorEq, false_iff,
          not_exists, not_and]
        rintro j hij hj
        rw [← Option.some.inj hij, hb] at hj
        exact Option.some.inj hj ▸ hc

theorem free_of_live {h : Heap α} {i : Nat} {b : Block α} (hb : h.live? (some i) = some b) :
    h.free (some i) = { blocks := h.blocks.set i { b with frees := 1 }, fault := h.fault } := by
  obtain ⟨_, hi, hb, hf⟩ := live?_eq_some.mp hb
  cases hi
  simp [free, hb, hf]

theorem store_of_live {h : Heap α} {k i : Nat} {b : Block α} (v : α) (hb : h.live? (some k) = some b)
    (hi : i < b.cells.length) :
    h.store (some k) i v = { h with blocks := h.blocks.set k { b with cells := b.cells.set i (some v) } } := by
  simp [store, hb, hi]

theorem read_of_live [Inhabited α] {h : Heap α} {p : Ptr} {b : Block α} (vs : List α)
    (hb : h.live? p = some b) (hvs : b.cells.take vs.length = vs.map some) :
    h.read p vs.length = (h, vs) := by
  have hlen : vs.length ≤ b.cells.length := by
    have := congrArg List.length hvs
    rw [List.length_take, List.length_map] at this
    omega
  have hwritten : (vs.map some).any Option.isNone = false := by simp
  simp [read, hb, hvs, Nat.not_lt.mpr hlen, Function.comp_def, -List.any_map, hwritten]

/-! ### A fault stays -/

theorem fault_store {h : Heap α} (hf : h.fault = true) (p : Ptr) (i : Nat) (v : α) : (h.store p i v).fault = true := by
  unfold store
  split
  · split
    · exact hf
    · rfl
  · rfl

theorem fault_free {h : Heap α} (hf : h.fault = true) (p : Ptr) : (h.free p).fault = true := by
  unfold free
  split
  · simp [hf]
  · rfl

theorem fault_read [Inhabited α] {h : Heap α} (hf : h.fault = true) (p : Ptr) (n : Nat) :
    (h.read p n).1.fault = true := by
  unfold read
  split
  · simp [hf]
  · rfl

theorem fault_store_of_dead {h : Heap α} {p : Ptr} (hp : h.live? p = none) (i : Nat) (v : α) :
    (h.store p i v).fault = true := by
  unfold store
  rw [hp]

theorem fault_store_outside {h : Heap α} {p : Ptr} {b : Block α} (hb : h.live? p = some b) {i : Nat}
    (hi : b.cells.length ≤ i) (v : α) : (h.store p i v).fault = true := by
  obtain ⟨k, rfl, -⟩ := live?_eq_some.mp hb
  simp [store, hb, Nat.not_lt.mpr hi]

/-! ### Ownership of one block -/

/-- No fault happened, and every block was freed exactly once, except the one of `p`, which is live. -/
structure Owns (h : Heap α) (p : Ptr) : Prop where
  sound : h.fault = false
  frees : ∀ i b, h.blocks[i]? = some b → b.frees = if p = some i then 0 else 1

theorem owns_empty : Owns ({} : Heap α) none := ⟨rfl, fun i b hb => by simp at hb⟩

theorem Owns.malloc {h : Heap α} (ho : h.Owns none) (n : Nat) : (h.malloc n).1.Owns (h.malloc n).2 where
  sound := ho.sound
  frees i b hb := by
    simp only [Heap.malloc] at hb ⊢
    rcases Nat.lt_trichotomy i h.blocks.length with hi | rfl | hi
    · rw [List.getElem?_append_left hi] at hb
      simpa [Nat.ne_of_gt hi] using ho.frees i b hb
    · rw [List.getElem?_concat_length] at hb
      cases hb
      simp
    · rw [List.getElem?_eq_none (by simp; omega)] at hb
      cases hb

theorem live?_malloc (h : Heap α) (n : Nat) :
    (h.malloc n).1.live? (h.malloc n).2 = some { cells := List.replicate n none, frees := 0 } :=
  live?_eq_some.mpr ⟨_, rfl, List.getElem?_concat_length, rfl⟩

theorem Owns.free {h : Heap α} {i : Nat} {b : Block α} (ho : h.Owns (some i)) (hb : h.live? (some i) = some b) :
    (h.free (some i)).Owns none where
  sound := by rw [free_of_live hb]; exact ho.sound
  frees j c hc := by
    rw [free_of_live hb] at hc
    by_cases hij : i = j
    · subst hij
      have hlen : i < h.blocks.length := by
        obtain ⟨_, hi, hbi, -⟩ := live?_eq_some.mp hb
        cases hi
        exact (List.getElem?_eq_some_iff.mp hbi).1
      rw [List.getElem?_set_self hlen] at hc
      cases hc
      simp
    · rw [List.getElem?_set_ne hij] at hc
      simpa [hij] using ho.frees j c hc

theorem Owns.store {h : Heap α} {k i : Nat} {b : Block α} {v : α} (ho : h.Owns (some k))
    (hb : h.live? (some k) = some b) (hi : i < b.cells.length) :
    (h.store (some k) i v).Owns (some k) ∧
      (h.store (some k) i v).live? (some k) = some { b with cells := b.cells.set i (some v) } := by
  obtain ⟨_, hk, hbk, hf⟩ := live?_eq_some.mp hb
  cases hk
  have hlen : k < h.blocks.length := (List.getElem?_eq_some_iff.mp hbk).1
  rw [store_of_live v hb hi]
  refine ⟨⟨ho.sound, fun j c hc => ?_⟩, live?_eq_some.mpr ⟨k, rfl, by simp [hlen], hf⟩⟩
  by_cases hkj : k = j
  · subst hkj
    rw [List.getElem?_set_self hlen] at hc
    cases hc
    simpa using hf
  · rw [List.getElem?_set_ne hkj] at hc
    exact ho.frees j c hc

end Heap
