import Mathlib.Data.List.Induction
import Minitalk.Lib.Heap
import Minitalk.Lib.Program

/-! # Arrays in a C heap

`At` says that a pointer is to a live block with the given cells. Cells are loaded, stored and moved; a loop that
moves a stretch of cells is one of `copyUp`, which goes from the first cell to the last, and `copyDown`. Between two
blocks, such a loop comes down to `write`. -/

namespace Heap
variable {α : Type}

/-- `p[i]` as a value; a fault unless it lies in a live block and was written. -/
def load [Inhabited α] (h : Heap α) (p : Ptr) (i : Nat) : Heap α × α :=
  match (h.live? p).bind (·.cells[i]?) with
  | some (some v) => (h, v)
  | _ => ({ h with fault := true }, default)

/-- `p[i]`, which has no value where it is a fault. -/
def peek [Inhabited α] (h : Heap α) (p : Ptr) (i : Nat) : Option α :=
  let (h, v) := h.load p i
  if h.fault then none else some v

/-- `q[j] = p[i]` for `n` cells, in ascending order. -/
def copyUp [Inhabited α] (p : Ptr) (i : Nat) (q : Ptr) (j : Nat) : Nat → Heap α → Heap α
  | 0, h => h
  | n + 1, h =>
    let (h, v) := h.load p i
    copyUp p (i + 1) q (j + 1) n (h.store q j v)

/-- `p[i] = p[i - 1]`, from `i` down to the cell behind `index`. -/
def copyDown [Inhabited α] (p : Ptr) (index : Nat) : Nat → Heap α → Heap α
  | 0, h => h
  | i + 1, h =>
    if index < i + 1 then
      let (h, v) := h.load p i
      copyDown p index i (h.store p (i + 1) v)
    else h

/-- `p[i] = v` for these values, in ascending order. -/
def write (p : Ptr) (i : Nat) : List α → Heap α → Heap α
  | [], h => h
  | v :: vs, h => write p (i + 1) vs (h.store p i v)

/-- `p[i] = v` for `n` cells, in ascending order. -/
def fill (p : Ptr) (v : α) (i : Nat) : Nat → Heap α → Heap α
  | 0, h => h
  | n + 1, h => fill p v (i + 1) n (h.store p i v)

/-- A `malloc` that may fail. -/
def tryMalloc (ok : Bool) (h : Heap α) (n : Nat) : Heap α × Ptr := if ok then h.malloc n else (h, none)

/-- A loop that does not end. -/
def diverged (h : Heap α) : Heap α := { h with fault := true }

/-- No fault has happened, and `p` is to a live block with these cells. -/
structure At (h : Heap α) (p : Ptr) (cells : List (Option α)) : Prop where
  sound : h.fault = false
  live : h.live? p = some { cells, frees := 0 }

section At
variable {h h' : Heap α} {p q : Ptr} {a : Nat} {cells cells' pre post : List (Option α)} {c : Option α} {v : α}

/-- A pointer to a live block is the number of that block. -/
theorem At.block (ha : h.At p cells) : ∃ k, p = some k ∧ h.blocks[k]? = some { cells, frees := 0 } := by
  obtain ⟨k, hp, hk, -⟩ := live?_eq_some.mp ha.live
  exact ⟨k, hp, hk⟩

theorem at_of_block {k : Nat} (hf : h.fault = false) (hk : h.blocks[k]? = some { cells, frees := 0 }) :
    h.At (some k) cells := ⟨hf, live?_eq_some.mpr ⟨k, rfl, hk, rfl⟩⟩

theorem At.lt (ha : h.At (some a) cells) : a < h.blocks.length := by
  obtain ⟨k, hk, hb⟩ := ha.block
  cases hk
  exact (List.getElem?_eq_some_iff.mp hb).1

theorem At.load_of_getElem? [Inhabited α] (ha : h.At p cells) {i : Nat} (hi : cells[i]? = some (some v)) :
    h.load p i = (h, v) := by
  rw [Heap.load, ha.live, Option.bind_some, hi]

theorem At.load [Inhabited α] (ha : h.At p (pre ++ some v :: post)) : h.load p pre.length = (h, v) :=
  ha.load_of_getElem? (by rw [List.getElem?_append_right (Nat.le_refl _), Nat.sub_self]; rfl)

theorem At.peek_of_getElem? [Inhabited α] (ha : h.At p cells) {i : Nat} (hi : cells[i]? = some (some v)) :
    h.peek p i = some v := by
  rw [peek, ha.load_of_getElem? hi]
  exact if_neg (by rw [ha.sound]; exact Bool.false_ne_true)

theorem At.set (ha : h.At p cells) {i : Nat} (hi : i < cells.length) (v : α) :
    (h.store p i v).At p (cells.set i (some v)) := by
  obtain ⟨k, rfl, hk⟩ := ha.block
  have hlen : k < h.blocks.length := (List.getElem?_eq_some_iff.mp hk).1
  rw [store_of_live v ha.live hi]
  exact at_of_block ha.sound (List.getElem?_set_self hlen)

theorem At.set_ne (ha : h.At p cells) {i : Nat} (hi : i < cells.length) (hb : h.At q cells') (hne : p ≠ q) (v : α) :
    (h.store p i v).At q cells' := by
  obtain ⟨k, rfl, hk⟩ := ha.block
  obtain ⟨j, rfl, hj⟩ := hb.block
  rw [store_of_live v ha.live hi]
  exact at_of_block ha.sound (by rw [List.getElem?_set_ne fun h => hne (congrArg some h), hj])

theorem At.store (ha : h.At p (pre ++ c :: post)) (v : α) :
    (h.store p pre.length v).At p (pre ++ some v :: post) := by
  have hat := ha.set (i := pre.length) (by simp) v
  rwa [List.set_append_right _ _ (Nat.le_refl _), Nat.sub_self, List.set_cons_zero] at hat

theorem At.store_ne (ha : h.At p (pre ++ c :: post)) (hb : h.At q cells) (hne : p ≠ q) (v : α) :
    (h.store p pre.length v).At q cells := ha.set_ne (by simp) hb hne v

@[simp] theorem length_malloc (h : Heap α) (n : Nat) : (h.malloc n).1.blocks.length = h.blocks.length + 1 :=
  List.length_append

@[simp] theorem length_store (h : Heap α) (p : Ptr) (i : Nat) (v : α) :
    (h.store p i v).blocks.length = h.blocks.length := by
  unfold Heap.store
  split
  · split <;> simp
  · rfl

@[simp] theorem length_free (h : Heap α) (p : Ptr) : (h.free p).blocks.length = h.blocks.length := by
  unfold Heap.free
  split <;> simp

@[simp] theorem length_write (h : Heap α) (p : Ptr) (i : Nat) (vs : List α) :
    (h.write p i vs).blocks.length = h.blocks.length := by
  induction vs generalizing h i with
  | nil => rfl
  | cons v vs ih => rw [Heap.write, ih, length_store]

theorem write_append (h : Heap α) (p : Ptr) (i : Nat) (vs ws : List α) :
    h.write p i (vs ++ ws) = (h.write p i vs).write p (i + vs.length) ws := by
  induction vs generalizing h i with
  | nil => rfl
  | cons v vs ih => rw [List.cons_append, Heap.write, Heap.write, ih, List.length_cons, Nat.add_assoc, Nat.add_comm 1]

theorem at_malloc (hf : h.fault = false) (n : Nat) : (h.malloc n).1.At (h.malloc n).2 (List.replicate n none) :=
  at_of_block hf List.getElem?_concat_length

theorem At.malloc (ha : h.At p cells) (n : Nat) : (h.malloc n).1.At p cells ∧ p ≠ (h.malloc n).2 := by
  obtain ⟨k, rfl, hk⟩ := ha.block
  exact ⟨at_of_block ha.sound (by rw [Heap.malloc, List.getElem?_append_left ha.lt, hk]),
    fun heq => absurd (Option.some.inj heq) (Nat.ne_of_lt ha.lt)⟩

theorem At.free_sound (ha : h.At p cells) : (h.free p).fault = false := by
  obtain ⟨k, rfl, -⟩ := ha.block
  rw [free_of_live ha.live]
  exact ha.sound

theorem At.free_ne (ha : h.At p cells) (hb : h.At q cells') (hne : p ≠ q) : (h.free p).At q cells' := by
  obtain ⟨k, rfl, hk⟩ := ha.block
  obtain ⟨j, rfl, hj⟩ := hb.block
  rw [free_of_live ha.live]
  exact at_of_block ha.sound (by rw [List.getElem?_set_ne fun h => hne (congrArg some h), hj])

/-- Every live block is as before, except perhaps those of `as`. -/
def KeepsOff (as : List Nat) (h h' : Heap α) : Prop := ∀ a ∉ as, ∀ cells, h.At (some a) cells → h'.At (some a) cells

theorem KeepsOff.trans {as : List Nat} {h'' : Heap α} (hk : KeepsOff as h h') (hk' : KeepsOff as h' h'') :
    KeepsOff as h h'' := fun a ha cells hat => hk' a ha cells (hk a ha cells hat)

theorem KeepsOff.mono {as bs : List Nat} (hk : KeepsOff as h h') (hsub : as ⊆ bs) : KeepsOff bs h h' :=
  fun a ha => hk a fun hmem => ha (hsub hmem)

theorem keepsOff_malloc (as : List Nat) (h : Heap α) (n : Nat) : KeepsOff as h (h.malloc n).1 :=
  fun _ _ _ hat => (hat.malloc n).1

/-- A new block: what is live stays so, and what is done to the new block keeps the others. -/
theorem exists_malloc (hf : h.fault = false) (n : Nat) :
    ∃ h₁, h.malloc n = (h₁, some h.blocks.length) ∧ h₁.At (some h.blocks.length) (List.replicate n none) ∧
      (∀ p cells, h.At p cells → h₁.At p cells ∧ p ≠ some h.blocks.length) ∧
      (∀ as h', KeepsOff (h.blocks.length :: as) h₁ h' → KeepsOff as h h') ∧
      h₁.blocks.length = h.blocks.length + 1 := by
  refine ⟨_, rfl, at_malloc hf n, fun p cells hat => hat.malloc n, fun as h' hk b hb cells hat => ?_, length_malloc h n⟩
  refine hk b (fun hmem => ?_) cells (hat.malloc n).1
  rcases List.mem_cons.mp hmem with rfl | hmem
  · exact Nat.lt_irrefl _ hat.lt
  · exact hb hmem

theorem At.keepsOff_store (ha : h.At (some a) (pre ++ c :: post)) (v : α) :
    KeepsOff [a] h (h.store (some a) pre.length v) :=
  fun b hb _ hat => ha.store_ne hat (fun heq => hb (by rw [Option.some.inj heq]; exact List.mem_singleton_self b)) v

theorem At.stores (pre : List (Option α)) (ha : h.At (some a) (pre ++ c :: post)) (v : α) :
    (h.store (some a) pre.length v).At (some a) (pre ++ some v :: post) ∧
      KeepsOff [a] h (h.store (some a) pre.length v) := ⟨ha.store v, ha.keepsOff_store v⟩

theorem At.keepsOff_free (ha : h.At (some a) cells) : KeepsOff [a] h (h.free (some a)) :=
  fun b hb _ hat => ha.free_ne hat fun heq => hb (by rw [Option.some.inj heq]; exact List.mem_singleton_self b)

theorem not_mem_of_ne {b : Nat} (hne : (some a : Ptr) ≠ some b) : a ∉ [b] :=
  fun hmem => hne (congrArg some (List.mem_singleton.mp hmem))

/-! ### A fault stays -/

theorem fault_tryMalloc (hf : h.fault = true) (ok : Bool) (n : Nat) : (h.tryMalloc ok n).1.fault = true := by
  unfold tryMalloc
  split
  · exact hf
  · exact hf

theorem fault_load [Inhabited α] (hf : h.fault = true) (p : Ptr) (i : Nat) : (h.load p i).1.fault = true := by
  unfold load
  split
  · exact hf
  · rfl

theorem fault_write (hf : h.fault = true) (p : Ptr) (i : Nat) (vs : List α) : (h.write p i vs).fault = true := by
  induction vs generalizing h i with
  | nil => exact hf
  | cons v vs ih => exact ih (fault_store hf p i v) (i + 1)

/-! ### Loops -/

/-- The values are in the cells from `i` on, and no other block has changed. -/
theorem At.write (ha : h.At (some a) cells) (vs : List α) {i : Nat} (hfit : i + vs.length ≤ cells.length) :
    (h.write (some a) i vs).At (some a) (cells.take i ++ vs.map some ++ cells.drop (i + vs.length)) ∧
      KeepsOff [a] h (h.write (some a) i vs) := by
  induction vs generalizing h cells i with
  | nil => exact ⟨by simpa [Heap.write] using ha, fun _ _ _ hat => hat⟩
  | cons v vs ih =>
    rw [List.length_cons] at hfit
    have hi : i < cells.length := by omega
    have hkeep : KeepsOff [a] h (h.store (some a) i v) := fun b hb _ hat =>
      ha.set_ne hi hat (fun heq => hb (List.mem_singleton.mpr (Option.some.inj heq).symm)) v
    obtain ⟨hat', hkeep'⟩ := ih (ha.set hi v) (i := i + 1) (by rw [List.length_set]; omega)
    refine ⟨?_, hkeep.trans hkeep'⟩
    have htake : (cells.set i (some v)).take (i + 1) = cells.take i ++ [some v] := by
      rw [List.take_add_one, List.take_set_of_le (Nat.le_refl _), List.getElem?_set_self hi]
      rfl
    rw [htake, List.drop_set_of_lt (by omega)] at hat'
    simpa [Heap.write, Nat.add_assoc, Nat.add_comm 1] using hat'

variable [Inhabited α]

/-- Between two blocks, the loop writes what it reads. -/
theorem At.copyUp_eq (pre : List (Option α)) {vs : List α} (ha : h.At p (pre ++ vs.map some ++ post))
    (hb : h.At q cells) (hne : p ≠ q) {j : Nat} (hfit : j + vs.length ≤ cells.length) :
    h.copyUp p pre.length q j vs.length = h.write q j vs := by
  induction vs generalizing h pre cells j with
  | nil => rfl
  | cons v vs ih =>
    rw [List.length_cons] at hfit
    have hj : j < cells.length := by omega
    have hp : h.At p (pre ++ some v :: (vs.map some ++ post)) := by simpa using ha
    have hp' := hb.set_ne hj hp hne.symm v
    have hrest := ih (pre ++ [some v]) (by simpa using hp') (hb.set hj v) (j := j + 1) (by rw [List.length_set]; omega)
    simpa [Heap.copyUp, Heap.write, hp.load] using hrest

theorem At.copyUp {vs : List α} (ha : h.At p (vs.map some ++ post)) (hb : h.At q cells) (hne : p ≠ q)
    (hfit : vs.length ≤ cells.length) :
    (h.copyUp p 0 q 0 vs.length).At p (vs.map some ++ post) ∧
      (h.copyUp p 0 q 0 vs.length).At q (vs.map some ++ cells.drop vs.length) := by
  obtain ⟨k, rfl, -⟩ := ha.block
  obtain ⟨b, rfl, -⟩ := hb.block
  have hcopy := At.copyUp_eq [] ha hb hne (j := 0) (by omega)
  obtain ⟨hat, hkeep⟩ := hb.write vs (i := 0) (by omega)
  rw [List.length_nil] at hcopy
  rw [List.take_zero, List.nil_append, Nat.zero_add] at hat
  rw [hcopy]
  exact ⟨hkeep k (not_mem_of_ne hne) _ ha, hat⟩

/-- Within one block, a stretch moves down by one cell; the last cell keeps some value. -/
theorem At.shiftDown (pre post : List (Option α)) {vs : List α} (ha : h.At p (pre ++ some v :: vs.map some ++ post)) :
    ∃ w : α, (h.copyUp p (pre.length + 1) p pre.length vs.length).At p (pre ++ vs.map some ++ some w :: post) := by
  induction vs generalizing h pre v with
  | nil => exact ⟨v, by simpa [Heap.copyUp] using ha⟩
  | cons w vs ih =>
    have hp : h.At p ((pre ++ [some v]) ++ some w :: (vs.map some ++ post)) := by simpa using ha
    have hq : h.At p (pre ++ some v :: some w :: (vs.map some ++ post)) := by simpa using ha
    obtain ⟨u, hu⟩ := ih (pre ++ [some w]) (v := w) (h := h.store p pre.length w) (by simpa using hq.store w)
    have hload : h.load p (pre.length + 1) = (h, w) := by simpa using hp.load
    exact ⟨u, by simpa [Heap.copyUp, hload] using hu⟩

theorem copyDown_self (h : Heap α) (p : Ptr) (i : Nat) : h.copyDown p i i = h := by
  cases i with
  | zero => rfl
  | succ i => exact if_neg (Nat.lt_irrefl _)

/-- Within one block, a stretch moves up by one cell, over the one behind it; the first cell keeps some value. -/
theorem At.copyDown (c : Option α) (post : List (Option α)) {vs : List α}
    (ha : h.At p (pre ++ vs.map some ++ c :: post)) :
    ∃ d : Option α, (h.copyDown p pre.length (pre.length + vs.length)).At p (pre ++ d :: vs.map some ++ post) := by
  induction vs using List.reverseRecOn generalizing h c post with
  | nil => exact ⟨c, by simpa [copyDown_self] using ha⟩
  | append_singleton vs v ih =>
    have hp : h.At p ((pre ++ vs.map some) ++ some v :: c :: post) := by simpa using ha
    have hq : h.At p ((pre ++ vs.map some ++ [some v]) ++ c :: post) := by simpa using ha
    have hload : h.load p (pre.length + vs.length) = (h, v) := by simpa using hp.load
    obtain ⟨d, hd⟩ := ih (some v) (some v :: post) (h := h.store p (pre.length + vs.length + 1) v)
      (by simpa [Nat.add_assoc] using hq.store v)
    have hlt : pre.length < pre.length + vs.length + 1 := by omega
    refine ⟨d, ?_⟩
    rw [List.length_append, List.length_singleton, ← Nat.add_assoc, Heap.copyDown, if_pos hlt, hload]
    simpa using hd

omit [Inhabited α] in
theorem At.fill (pre old : List (Option α)) (ha : h.At p (pre ++ old ++ post)) (v : α) :
    (h.fill p v pre.length old.length).At p (pre ++ List.replicate old.length (some v) ++ post) := by
  induction old generalizing h pre with
  | nil => simpa [Heap.fill] using ha
  | cons o old ih =>
    have hp : h.At p (pre ++ o :: (old ++ post)) := by simpa using ha
    have hrest := ih (pre ++ [some v]) (by simpa using hp.store v)
    simpa [Heap.fill, List.replicate_succ] using hrest

end At

end Heap
