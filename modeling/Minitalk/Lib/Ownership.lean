import Minitalk.Lib.Cells

/-! # Ownership of several blocks

`OwnsAll` accounts for all blocks from a certain one on: those of a list are live, and all others were freed once. A
heap of characters and pointers has the pointers to such blocks in its cells. `Private` says besides that what was
there before is left alone. -/

namespace Heap

/-- What lies in a heap of characters and pointers. -/
inductive Cell where
  | char (c : UInt8)
  | ptr (p : Ptr)
deriving DecidableEq

instance : Inhabited Cell := ⟨.ptr none⟩

def Cell.toPtr : Cell → Ptr
  | ptr p => p
  | char _ => none

/-- `free`, which does nothing for a null pointer. -/
def release {α : Type} (p : Ptr) (h : Heap α) : Heap α := if p = none then h else h.free p

/-- `free(p[i])` for `n` cells, in ascending order. -/
def freeCells (p : Ptr) (i : Nat) : Nat → Heap Cell → Heap Cell
  | 0, h => h
  | n + 1, h =>
    let (h, v) := h.load p i
    freeCells p (i + 1) n (release v.toPtr h)

variable {α : Type}

/-- A `realloc` that may fail: a new block that begins with the cells of the old one, which is freed. -/
def realloc (ok : Bool) (p : Ptr) (n : Nat) (h : Heap α) : Heap α × Ptr :=
  if !ok then (h, none)
  else if p = none then h.malloc n
  else
    match h.live? p with
    | none => ({ h with fault := true }, none)
    | some b =>
      let cells := b.cells.take n ++ List.replicate (n - b.cells.length) none
      let h := h.free p
      ({ h with blocks := h.blocks ++ [{ cells, frees := 0 }] }, some h.blocks.length)

/-- Every block from the n-th on was freed once. -/
def FreedFrom (n : Nat) (h : Heap α) : Prop := ∀ i b, n ≤ i → h.blocks[i]? = some b → b.frees = 1

/-- Every block from the n-th on was freed once, except those of `as`, which are live. -/
structure OwnsAll (n : Nat) (as : List Nat) (h : Heap α) : Prop where
  sound : h.fault = false
  inside : ∀ a ∈ as, n ≤ a ∧ a < h.blocks.length
  frees : ∀ i b, n ≤ i → h.blocks[i]? = some b → b.frees = if i ∈ as then 0 else 1

/-- How often a block was freed. -/
def frees (h : Heap α) (a : Nat) : Option Nat := h.blocks[a]?.map Block.frees

/-- Each block was freed as often as it is in the list. -/
def Frees (gone : List Nat) (h h' : Heap α) : Prop := ∀ a, h'.frees a = (h.frees a).map (· + gone.count a)

namespace OwnsAll
variable {h : Heap α} {n a i : Nat} {as bs : List Nat} {cells : List (Option α)}

theorem congr (ho : OwnsAll n as h) (heq : ∀ i, i ∈ as ↔ i ∈ bs) : OwnsAll n bs h where
  sound := ho.sound
  inside a ha := ho.inside a ((heq a).mpr ha)
  frees i b hi hb := by simp only [ho.frees i b hi hb, heq]

/-- Nothing was allocated yet. -/
theorem start (hf : h.fault = false) : OwnsAll h.blocks.length [] h where
  sound := hf
  inside := nofun
  frees i b hi hb := by
    rw [List.getElem?_eq_none hi] at hb
    cases hb

theorem malloc (ho : OwnsAll n as h) (hn : n ≤ h.blocks.length) (k : Nat) :
    OwnsAll n (h.blocks.length :: as) (h.malloc k).1 where
  sound := ho.sound
  inside a ha := by
    rw [length_malloc]
    rcases List.mem_cons.mp ha with rfl | ha
    · omega
    · have := ho.inside a ha
      omega
  frees i b hi hb := by
    rcases Nat.lt_trichotomy i h.blocks.length with hlt | rfl | hgt
    · rw [Heap.malloc, List.getElem?_append_left hlt] at hb
      simp only [ho.frees i b hi hb, List.mem_cons, Nat.ne_of_lt hlt, false_or]
    · rw [Heap.malloc, List.getElem?_concat_length] at hb
      cases hb
      simp
    · rw [List.getElem?_eq_none (by rw [length_malloc]; omega)] at hb
      cases hb

theorem freedFrom (ho : OwnsAll n [] h) : FreedFrom n h := fun i b hi hb => ho.frees i b hi hb

/-- What is owned is live. -/
theorem live (ho : OwnsAll n as h) (ha : a ∈ as) : ∃ cells, h.At (some a) cells := by
  obtain ⟨hn, hlt⟩ := ho.inside a ha
  have hfrees := ho.frees a _ hn (List.getElem?_eq_getElem hlt)
  rw [if_pos ha] at hfrees
  refine ⟨h.blocks[a].cells, at_of_block ho.sound ?_⟩
  rw [← hfrees]
  exact List.getElem?_eq_getElem hlt

/-- A fresh block is none of those that are owned. -/
theorem fresh (ho : OwnsAll n as h) : h.blocks.length ∉ as := fun hmem => Nat.lt_irrefl _ (ho.inside _ hmem).2

theorem store (ho : OwnsAll n as h) (hat : h.At (some a) cells) (hi : i < cells.length) (v : α) :
    OwnsAll n as (h.store (some a) i v) := by
  rw [store_of_live v hat.live hi]
  refine ⟨ho.sound, fun b hb => by simpa using ho.inside b hb, fun j b hj hb => ?_⟩
  by_cases haj : a = j
  · subst haj
    rw [List.getElem?_set_self hat.lt] at hb
    obtain ⟨k, hk, hblock⟩ := hat.block
    cases hk
    have hfrees := ho.frees a _ hj hblock
    rw [← Option.some.inj hb]
    exact hfrees
  · rw [List.getElem?_set_ne haj] at hb
    exact ho.frees j b hj hb

theorem write (ho : OwnsAll n as h) (hat : h.At (some a) cells) (vs : List α) (hfit : i + vs.length ≤ cells.length) :
    OwnsAll n as (h.write (some a) i vs) := by
  induction vs generalizing h cells i with
  | nil => exact ho
  | cons v vs ih =>
    rw [List.length_cons] at hfit
    have hi : i < cells.length := by omega
    exact ih (ho.store hat hi v) (hat.set hi v) (by rw [List.length_set]; omega)

theorem free (ho : OwnsAll n (a :: as) h) (ha : a ∉ as) : OwnsAll n as (h.free (some a)) := by
  obtain ⟨cells, hat⟩ := ho.live List.mem_cons_self
  rw [free_of_live hat.live]
  refine ⟨ho.sound, fun b hb => by simpa using ho.inside b (List.mem_cons_of_mem a hb), fun j b hj hb => ?_⟩
  by_cases haj : a = j
  · subst haj
    rw [List.getElem?_set_self hat.lt] at hb
    rw [← Option.some.inj hb, if_neg ha]
  · rw [List.getElem?_set_ne haj] at hb
    simp only [ho.frees j b hj hb, List.mem_cons, Ne.symm haj, false_or]

/-- A block that was allocated is freed again. -/
theorem release_tryMalloc (ho : OwnsAll n [] h) (hn : n ≤ h.blocks.length) (ok : Bool) (k : Nat) :
    OwnsAll n [] (release (h.tryMalloc ok k).2 (h.tryMalloc ok k).1) ∧
      n ≤ (release (h.tryMalloc ok k).2 (h.tryMalloc ok k).1).blocks.length := by
  cases ok with
  | false => exact ⟨ho, hn⟩
  | true =>
    refine ⟨(ho.malloc hn k).free List.not_mem_nil, ?_⟩
    have hlen : ((h.malloc k).1.free (h.malloc k).2).blocks.length = h.blocks.length + 1 := by
      rw [length_free, length_malloc]
    exact Nat.le_trans hn (hlen ▸ Nat.le_succ _)

/-- A `realloc` that succeeds keeps the cells. -/
theorem realloc (ho : OwnsAll n (a :: as) h) (ha : a ∉ as) (hn : n ≤ h.blocks.length) (hat : h.At (some a) cells)
    {k : Nat} (hk : cells.length ≤ k) :
    ∃ h', h.realloc true (some a) k = (h', some h.blocks.length) ∧
      h'.At (some h.blocks.length) (cells ++ List.replicate (k - cells.length) none) ∧
      OwnsAll n (h.blocks.length :: as) h' := by
  obtain ⟨hsound, hinside, hfrees⟩ := ho.free ha
  have htake : cells.take k = cells := List.take_of_length_le hk
  have hlen := length_free h (some a)
  simp only [Heap.realloc, Bool.not_true, Bool.false_eq_true, if_false, reduceCtorEq, hat.live, htake]
  rw [hlen]
  refine ⟨_, rfl, at_of_block hsound ?_, hsound, fun b hb => ?_, fun i b hi hb => ?_⟩
  · rw [← hlen]
    exact List.getElem?_concat_length
  · rw [List.length_append, List.length_singleton, hlen]
    rcases List.mem_cons.mp hb with rfl | hb
    · omega
    · have := hinside b hb
      omega
  · rcases Nat.lt_trichotomy i h.blocks.length with hlt | rfl | hgt
    · rw [List.getElem?_append_left (by omega)] at hb
      simp only [hfrees i b hi hb, List.mem_cons, Nat.ne_of_lt hlt, false_or]
    · rw [← hlen, List.getElem?_concat_length] at hb
      rw [← Option.some.inj hb]
      simp
    · rw [List.getElem?_eq_none (by rw [List.length_append, List.length_singleton]; omega)] at hb
      cases hb

end OwnsAll

/-! ### What a component does to a heap -/

/-- What started on the heap `h₀` owns the blocks of `as`: all others that were allocated since were freed once, and
    what was live before is as it was. -/
structure Private (h₀ : Heap α) (as : List Nat) (h : Heap α) : Prop where
  owns : OwnsAll h₀.blocks.length as h
  nodup : as.Nodup
  grown : h₀.blocks.length ≤ h.blocks.length
  keeps : ∀ a < h₀.blocks.length, ∀ cells, h₀.At (some a) cells → h.At (some a) cells

namespace Private
variable {h₀ h h' : Heap α} {as bs : List Nat} {a : Nat}

theorem start (hf : h₀.fault = false) : Private h₀ [] h₀ :=
  ⟨.start hf, List.nodup_nil, Nat.le_refl _, fun _ _ _ hat => hat⟩

theorem perm (hp : Private h₀ as h) (heq : as.Perm bs) : Private h₀ bs h :=
  ⟨hp.owns.congr fun _ => heq.mem_iff, heq.nodup_iff.mp hp.nodup, hp.grown, hp.keeps⟩

/-- Whatever is done to owned blocks keeps the old ones. -/
theorem keepsOff (hp : Private h₀ as h) (hsub : bs ⊆ as) (hk : KeepsOff bs h h') :
    ∀ a < h₀.blocks.length, ∀ cells, h₀.At (some a) cells → h'.At (some a) cells :=
  fun a ha cells hat => hk a (fun hmem => Nat.not_le.mpr ha (hp.owns.inside a (hsub hmem)).1) cells
    (hp.keeps a ha cells hat)

theorem malloc (hp : Private h₀ as h) (k : Nat) : Private h₀ (h.blocks.length :: as) (h.malloc k).1 where
  owns := hp.owns.malloc hp.grown k
  nodup := List.nodup_cons.mpr ⟨hp.owns.fresh, hp.nodup⟩
  grown := Nat.le_trans hp.grown (length_malloc h k ▸ Nat.le_succ _)
  keeps := hp.keepsOff (List.nil_subset _) (keepsOff_malloc [] h k)

theorem store (pre : List (Option α)) (hp : Private h₀ as h) (ha : a ∈ as) {post : List (Option α)} {c : Option α}
    (hat : h.At (some a) (pre ++ c :: post)) (v : α) : Private h₀ as (h.store (some a) pre.length v) where
  owns := hp.owns.store hat (by simp) v
  nodup := hp.nodup
  grown := by rw [length_store]; exact hp.grown
  keeps := hp.keepsOff (List.cons_subset.mpr ⟨ha, List.nil_subset as⟩) (hat.keepsOff_store v)

theorem free (hp : Private h₀ (a :: as) h) : Private h₀ as (h.free (some a)) := by
  obtain ⟨ha, hnodup⟩ := List.nodup_cons.mp hp.nodup
  obtain ⟨cells, hat⟩ := hp.owns.live List.mem_cons_self
  refine ⟨hp.owns.free ha, hnodup, ?_, hp.keepsOff (show [a] ⊆ a :: as by simp) hat.keepsOff_free⟩
  rw [length_free]
  exact hp.grown

end Private

theorem fault_release {h : Heap α} (hf : h.fault = true) (p : Ptr) : (release p h).fault = true := by
  unfold release
  split
  · exact hf
  · exact fault_free hf p

theorem fault_freeCells {h : Heap Cell} (hf : h.fault = true) (p : Ptr) (i n : Nat) :
    (freeCells p i n h).fault = true := by
  induction n generalizing h i with
  | zero => exact hf
  | succ n ih => exact ih (fault_release (fault_load hf p i) _) (i + 1)

/-- A second `free` of the same pointer faults, whatever it points to. -/
theorem fault_free_free (h : Heap α) (p : Ptr) : ((h.free p).free p).fault = true := by
  cases p with
  | none => rfl
  | some i =>
    cases hb : h.blocks[i]? with
    | none => simp [Heap.free, hb]
    | some b =>
      have hlt := (List.getElem?_eq_some_iff.mp hb).1
      simp [Heap.free, hlt]

section Frees
variable {h h' h'' : Heap α} {as bs : List Nat} {a : Nat} {cells : List (Option α)}

theorem Frees.trans (hf : Frees as h h') (hf' : Frees bs h' h'') : Frees (as ++ bs) h h'' := fun a => by
  rw [hf' a, hf a, Option.map_map, List.count_append]
  congr 1
  funext n
  exact Nat.add_assoc n _ _

theorem frees_same (heq : ∀ a, h'.frees a = h.frees a) : Frees [] h h' := fun a => by
  rw [heq a, List.count_nil]
  exact Option.map_id'.symm

theorem frees_store (ha : h.At (some a) cells) {i : Nat} (hi : i < cells.length) (v : α) :
    Frees [] h (h.store (some a) i v) := frees_same fun b => by
  obtain ⟨k, hk, hblock⟩ := ha.block
  cases hk
  rw [store_of_live v ha.live hi]
  by_cases heq : a = b
  · subst heq
    rw [frees, frees, List.getElem?_set_self ha.lt, hblock]
    rfl
  · rw [frees, frees, List.getElem?_set_ne heq]

theorem frees_free (ha : h.At (some a) cells) : Frees [a] h (h.free (some a)) := fun b => by
  obtain ⟨k, hk, hblock⟩ := ha.block
  cases hk
  rw [free_of_live ha.live]
  by_cases heq : a = b
  · subst heq
    rw [frees, frees, List.getElem?_set_self ha.lt, hblock, List.count_singleton_self]
    rfl
  · rw [frees, frees, List.getElem?_set_ne heq, List.count_singleton, if_neg (by simpa using heq)]
    exact Option.map_id'.symm

end Frees

/-- The blocks whose pointers lie in an array are freed, and the array is left as it is. -/
theorem freeCells_owns {h : Heap Cell} {n b : Nat} {as : List Nat} {pre post : List (Option Cell)}
    (ho : OwnsAll n (b :: as) h) (hnodup : (b :: as).Nodup)
    (hat : h.At (some b) (pre ++ as.map (fun a => some (.ptr (some a))) ++ post)) :
    OwnsAll n [b] (freeCells (some b) pre.length as.length h) := by
  induction as generalizing h pre with
  | nil => exact ho
  | cons a as ih =>
    have hba : b ∉ a :: as := (List.nodup_cons.mp hnodup).1
    have haas : a ∉ as := (List.nodup_cons.mp (List.nodup_cons.mp hnodup).2).1
    have hcell : h.At (some b) (pre ++ some (.ptr (some a)) :: (as.map (fun a => some (.ptr (some a))) ++ post)) := by
      simpa using hat
    have hab : a ≠ b := fun h => hba (h ▸ List.mem_cons_self)
    obtain ⟨cells, ha⟩ := ho.live (List.mem_cons_of_mem b List.mem_cons_self)
    have hswap : OwnsAll n (a :: b :: as) h := ho.congr fun i => by simp only [List.mem_cons, or_left_comm]
    have hfreed := hswap.free fun hmem => (List.mem_cons.mp hmem).elim hab haas
    have hat' := ha.free_ne hcell fun heq => hab (Option.some.inj heq)
    have hnext : (h.free (some a)).At (some b)
        ((pre ++ [some (.ptr (some a))]) ++ as.map (fun a => some (.ptr (some a))) ++ post) := by
      simpa using hat'
    have hrest := ih hfreed (List.nodup_cons.mpr ⟨fun hmem => hba (List.mem_cons_of_mem a hmem),
      (List.nodup_cons.mp (List.nodup_cons.mp hnodup).2).2⟩) hnext
    rw [List.length_append, List.length_singleton] at hrest
    rw [List.length_cons, freeCells, hcell.load]
    exact hrest

end Heap
