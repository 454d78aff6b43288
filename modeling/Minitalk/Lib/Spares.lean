import Minitalk.Lib.Ownership

/-! # Accesses that have no result

`loadAt`, `storeAt` and `freeAt` have no result where they are a fault. A step spares a block (`Spares`) when it leaves
it as it is; as any step, it leaves freed what was freed. -/

namespace Heap
variable {α : Type}

/-- A heap without a fault. -/
def sound (h : Heap α) : Option (Heap α) := if h.fault then none else some h

def loadAt [Inhabited α] (h : Heap α) (p : Ptr) (i : Int) : Option α := if 0 ≤ i then h.peek p i.toNat else none

def storeAt (h : Heap α) (p : Ptr) (i : Int) (v : α) : Option (Heap α) :=
  if 0 ≤ i then sound (h.store p i.toNat v) else none

def freeAt (h : Heap α) (p : Ptr) : Option (Heap α) := sound (release p h)

def Freed (a : Nat) (h : Heap α) : Prop := ∃ b, h.blocks[a]? = some b ∧ b.frees ≠ 0

structure Spares (c : Nat) (h h' : Heap α) : Prop where
  keeps : ∀ cells, h.At (some c) cells → h'.At (some c) cells
  freed : ∀ a, Freed a h → Freed a h'

section Spares
variable {h h' h'' : Heap α} {a c i : Nat} {j : Int} {cells : List (Option α)} {p : Ptr} {v : α}

theorem sound_eq_some (hs : sound h = some h') : h.fault = false ∧ h = h' := by
  unfold sound at hs
  split at hs
  · cases hs
  · rename_i hf
    exact ⟨Bool.not_eq_true _ ▸ hf, Option.some.inj hs⟩

namespace Spares

theorem refl (c : Nat) (h : Heap α) : Spares c h h := ⟨fun _ hat => hat, fun _ hfreed => hfreed⟩

theorem trans (hc : Spares c h h') (hc' : Spares c h' h'') : Spares c h h'' where
  keeps cells hat := hc'.keeps cells (hc.keeps cells hat)
  freed a hfreed := hc'.freed a (hc.freed a hfreed)

theorem store (hat : h.At (some a) cells) (hi : i < cells.length) (hac : a ≠ c) (v : α) :
    Spares c h (h.store (some a) i v) where
  keeps _ hother := hat.set_ne hi hother (fun heq => hac (Option.some.inj heq)) v
  freed b := by
    rintro ⟨block, hblock, hfrees⟩
    refine ⟨block, ?_, hfrees⟩
    rw [store_of_live v hat.live hi, List.getElem?_set_ne, hblock]
    -- a live block was not freed
    rintro rfl
    obtain ⟨k, hk, hlive⟩ := hat.block
    cases hk
    rw [hlive] at hblock
    cases hblock
    exact hfrees rfl

theorem free (hat : h.At (some a) cells) (hac : a ≠ c) :
    Spares c h (h.free (some a)) ∧ Freed a (h.free (some a)) := by
  have hfreed : Freed a (h.free (some a)) := by
    rw [free_of_live hat.live]
    exact ⟨_, List.getElem?_set_self hat.lt, Nat.one_ne_zero⟩
  refine ⟨⟨fun _ hother => hat.free_ne hother fun heq => hac (Option.some.inj heq), fun b => ?_⟩, hfreed⟩
  rintro ⟨block, hblock, hfrees⟩
  by_cases hab : a = b
  · exact hab ▸ hfreed
  · refine ⟨block, ?_, hfrees⟩
    rw [free_of_live hat.live, List.getElem?_set_ne hab, hblock]

end Spares

/-! ### Accesses that have a result -/

theorem sound_of_store (hs : (h.store p i v).fault = false) : h.fault = false := by
  cases hf : h.fault with
  | false => rfl
  | true => exact absurd ((fault_store hf p i v).symm.trans hs) nofun

theorem sound_of_write {vs : List α} (hs : (h.write p i vs).fault = false) : h.fault = false := by
  cases hf : h.fault with
  | false => rfl
  | true => exact absurd ((fault_write hf p i vs).symm.trans hs) nofun

/-- A store without a fault is one to a cell of a live block. -/
theorem store_sound (hs : (h.store p i v).fault = false) :
    ∃ a cells, p = some a ∧ h.At (some a) cells ∧ i < cells.length := by
  cases hlive : h.live? p with
  | none => exact absurd ((fault_store_of_dead hlive i v).symm.trans hs) nofun
  | some b =>
    obtain ⟨a, rfl, hb, hfrees⟩ := live?_eq_some.mp hlive
    refine ⟨a, b.cells, rfl, ⟨sound_of_store hs, ?_⟩, ?_⟩
    · rw [hlive, ← hfrees]
    · refine Nat.lt_of_not_le fun hle => ?_
      exact absurd ((fault_store_outside hlive hle v).symm.trans hs) nofun

theorem store_spares (hs : (h.store p i v).fault = false) (hp : p ≠ some c) : Spares c h (h.store p i v) := by
  obtain ⟨a, cells, rfl, hat, hi⟩ := store_sound hs
  exact .store hat hi (fun hac => hp (congrArg some hac)) v

theorem storeAt_spares (hs : storeAt h p j v = some h') (hp : p ≠ some c) : Spares c h h' := by
  unfold storeAt at hs
  split at hs
  · obtain ⟨hsound, rfl⟩ := sound_eq_some hs
    exact store_spares hsound hp
  · cases hs

theorem storeAt_sound (hs : storeAt h p j v = some h') :
    h'.fault = false ∧ h'.blocks.length = h.blocks.length := by
  unfold storeAt at hs
  split at hs
  · obtain ⟨hsound, rfl⟩ := sound_eq_some hs
    exact ⟨hsound, length_store h p j.toNat v⟩
  · cases hs

theorem write_spares {vs : List α} (hs : (h.write p i vs).fault = false) (hp : p ≠ some c) :
    Spares c h (h.write p i vs) := by
  induction vs generalizing h i with
  | nil => exact .refl _ _
  | cons v vs ih => exact (store_spares (sound_of_write hs) hp).trans (ih hs)

/-- A read without a fault leaves the heap as it is. -/
theorem read_sound [Inhabited α] {n : Nat} (hs : (h.read p n).1.fault = false) : (h.read p n).1 = h := by
  unfold read at hs ⊢
  split at hs
  · have hf : h.fault = false := (Bool.or_eq_false_iff.mp (Bool.or_eq_false_iff.mp hs).1).1
    exact congrArg (Heap.mk h.blocks) (hs.trans hf.symm)
  · cases hs

theorem at_of_free_sound (hs : (h.free (some a)).fault = false) : ∃ cells, h.At (some a) cells := by
  cases hb : h.blocks[a]? with
  | none =>
    simp only [Heap.free, Option.bind_some, hb] at hs
    cases hs
  | some b =>
    simp only [Heap.free, Option.bind_some, hb, Bool.or_eq_false_iff, bne_eq_false_iff_eq] at hs
    exact ⟨b.cells, at_of_block hs.1 (hs.2 ▸ hb)⟩

theorem freeAt_spares (hs : freeAt h (some a) = some h') (hac : a ≠ c) : Spares c h h' ∧ Freed a h' := by
  obtain ⟨hsound, rfl⟩ := sound_eq_some hs
  rw [release, if_neg nofun] at hsound ⊢
  obtain ⟨cells, hat⟩ := at_of_free_sound hsound
  exact Spares.free hat hac

/-- What was freed is not freed again. -/
theorem freeAt_freed (hfreed : Freed a h) : freeAt h (some a) = none := by
  obtain ⟨b, hb, hfrees⟩ := hfreed
  simp [freeAt, sound, release, Heap.free, hb, hfrees]

theorem At.loadAt [Inhabited α] (hat : h.At p cells) (h0 : 0 ≤ j) (hj : cells[j.toNat]? = some (some v)) :
    loadAt h p j = some v := by
  rw [Heap.loadAt, if_pos h0, hat.peek_of_getElem? hj]

/-- What is loaded lies in the block. -/
theorem At.mem_of_loadAt [Inhabited α] (hat : h.At p cells) (hv : Heap.loadAt h p j = some v) : some v ∈ cells := by
  unfold Heap.loadAt at hv
  split at hv
  · rcases hcell : cells[j.toNat]? with _ | _ | w
    · simp [peek, Heap.load, hat.live, hcell] at hv
    · simp [peek, Heap.load, hat.live, hcell] at hv
    · rw [hat.peek_of_getElem? hcell] at hv
      exact hv ▸ List.mem_of_getElem? hcell
  · cases hv

end Spares
end Heap
