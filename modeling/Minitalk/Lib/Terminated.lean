import Minitalk.Lib.Cells

/-! # Terminated arrays in a C heap

The length of such an array is that of the scan that finds its terminator. A pointer into an array is the pointer to
its block, and an index. -/

namespace Heap
variable {α : Type}

/-- How many cells the block has; a loop over them takes no longer. -/
def size (h : Heap α) (p : Ptr) : Nat := ((h.live? p).map (·.cells.length)).getD 0

/-- A pointer to the start of a live array that ends at the first terminator. -/
structure Terminated (nul : α) (h : Heap α) (p : Ptr) (vs : List α) : Prop where
  body : nul ∉ vs
  cells : ∃ post, h.At p (vs.map some ++ some nul :: post)

section Arrays
variable {h h' : Heap α} {b : Nat} {vs : List α} {nul : α}

theorem At.size {p : Ptr} {cells : List (Option α)} (ha : h.At p cells) : h.size p = cells.length := by
  rw [Heap.size, ha.live]
  rfl

/-- Writing an array and its terminator. -/
theorem At.terminate {cells : List (Option α)} (ha : h.At (some b) cells) (vs : List α) (nul : α)
    (hlen : vs.length < cells.length) :
    ((h.write (some b) 0 vs).store (some b) vs.length nul).At (some b)
        (vs.map some ++ some nul :: cells.drop (vs.length + 1)) ∧
      KeepsOff [b] h ((h.write (some b) 0 vs).store (some b) vs.length nul) := by
  obtain ⟨hat, hkeep⟩ := ha.write vs (i := 0) (by omega)
  rw [List.take_zero, List.nil_append, Nat.zero_add, List.drop_eq_getElem_cons hlen] at hat
  obtain ⟨hat', hkeep'⟩ := At.stores (vs.map some) hat nul
  rw [List.length_map] at hat' hkeep'
  exact ⟨hat', hkeep.trans hkeep'⟩

theorem Terminated.keep {as : List Nat} (ht : Terminated nul h (some b) vs) (hk : KeepsOff as h h')
    (hb : b ∉ as) : Terminated nul h' (some b) vs := by
  obtain ⟨post, hat⟩ := ht.cells
  exact ⟨ht.body, post, hk b hb _ hat⟩

end Arrays

variable [Inhabited α]

def scanLoop (stop : α → Bool) (p : Ptr) : Nat → Nat → Heap α → Heap α × Nat
  | 0, i, h => (diverged h, i)
  | fuel + 1, i, h =>
    let (h, v) := h.load p i
    if stop v then (h, i) else scanLoop stop p fuel (i + 1) h

/-- `while (!stop(p[i])) i++` -/
def scan (stop : α → Bool) (p : Ptr) (i : Nat) (h : Heap α) : Heap α × Nat := scanLoop stop p (h.size p) i h

def copyLoop (stop : α → Bool) (p q : Ptr) : Nat → Nat → Nat → Heap α → Heap α × Nat
  | 0, _, j, h => (diverged h, j)
  | fuel + 1, i, j, h =>
    let (h, v) := h.load p i
    if stop v then (h, j) else copyLoop stop p q fuel (i + 1) (j + 1) (h.store q j v)

/-- `while (!stop(p[i])) q[j++] = p[i++]` -/
def copyUntil (stop : α → Bool) (p : Ptr) (i : Nat) (q : Ptr) (j : Nat) (h : Heap α) : Heap α × Nat :=
  copyLoop stop p q (h.size p) i j h

section Loops
variable {h : Heap α} {p q : Ptr} {cells post : List (Option α)} {vs : List α} {nul : α}

theorem At.scanLoop (stop : α → Bool) (pre : List (Option α)) (ha : h.At p (pre ++ vs.map some ++ some nul :: post))
    (hnul : stop nul = true) {fuel : Nat} (hfuel : vs.length < fuel) :
    scanLoop stop p fuel pre.length h = (h, pre.length + vs.findIdx stop) := by
  induction vs generalizing pre fuel with
  | nil =>
    obtain ⟨fuel, rfl, -⟩ := Program.exists_fuel hfuel
    have hload : h.load p pre.length = (h, nul) := At.load (by simpa using ha)
    simp [Heap.scanLoop, hload, hnul]
  | cons v vs ih =>
    obtain ⟨fuel, rfl, hle⟩ := Program.exists_fuel hfuel
    have hload : h.load p pre.length = (h, v) := At.load (by simpa using ha)
    have hrest := ih (pre ++ [some v]) (by simpa using ha) hle
    rw [List.length_append, List.length_singleton] at hrest
    cases hv : stop v with
    | true => simp [Heap.scanLoop, hload, hv, List.findIdx_cons]
    | false => simp [Heap.scanLoop, hload, hv, List.findIdx_cons, hrest, Nat.add_assoc, Nat.add_comm 1]

theorem At.scan (stop : α → Bool) (pre : List (Option α)) (ha : h.At p (pre ++ vs.map some ++ some nul :: post))
    (hnul : stop nul = true) : h.scan stop p pre.length = (h, pre.length + vs.findIdx stop) := by
  refine At.scanLoop stop pre ha hnul ?_
  rw [ha.size]
  simp only [List.length_append, List.length_map, List.length_cons]
  omega

theorem At.copyLoop (stop : α → Bool) (pre : List (Option α)) (ha : h.At p (pre ++ vs.map some ++ some nul :: post))
    (hb : h.At q cells) (hne : p ≠ q) {j : Nat} (hfit : j + vs.length ≤ cells.length)
    (hvs : ∀ v ∈ vs, stop v = false) (hnul : stop nul = true) {fuel : Nat} (hfuel : vs.length < fuel) :
    copyLoop stop p q fuel pre.length j h = (h.write q j vs, j + vs.length) := by
  induction vs generalizing h pre cells j fuel with
  | nil =>
    obtain ⟨fuel, rfl, -⟩ := Program.exists_fuel hfuel
    have hload : h.load p pre.length = (h, nul) := At.load (by simpa using ha)
    simp [Heap.copyLoop, Heap.write, hload, hnul]
  | cons v vs ih =>
    obtain ⟨fuel, rfl, hle⟩ := Program.exists_fuel hfuel
    rw [List.length_cons] at hfit
    have hj : j < cells.length := by omega
    have hp : h.At p (pre ++ some v :: (vs.map some ++ some nul :: post)) := by simpa using ha
    have hp' := hb.set_ne hj hp hne.symm v
    have hrest := ih (pre ++ [some v]) (by simpa using hp') (hb.set hj v) (j := j + 1) (by rw [List.length_set]; omega)
      (fun w hw => hvs w (List.mem_cons_of_mem v hw)) hle
    rw [List.length_append, List.length_singleton] at hrest
    simp [Heap.copyLoop, Heap.write, hp.load, hvs v List.mem_cons_self, hrest, Nat.add_assoc, Nat.add_comm 1]

/-- The whole of an array, copied to another block. -/
theorem Terminated.copyUntil (stop : α → Bool) (ht : Terminated nul h p vs) (hb : h.At q cells) (hne : p ≠ q) {j : Nat}
    (hfit : j + vs.length ≤ cells.length) (hvs : ∀ v ∈ vs, stop v = false) (hnul : stop nul = true) :
    h.copyUntil stop p 0 q j = (h.write q j vs, j + vs.length) := by
  obtain ⟨post, hat⟩ := ht.cells
  refine At.copyLoop stop [] hat hb hne hfit hvs hnul ?_
  rw [hat.size, List.length_append, List.length_map, List.length_cons]
  omega

end Loops

end Heap
