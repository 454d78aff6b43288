/-! # `ft_memmove` and `ft_memcpy` (`libft/memory`)

A pointer is an offset into one memory of bytes; an access outside of it has no result. -/

namespace Minitalk.Libft

/-- `while (n--) *d++ = *s++` -/
def copyForward : Nat → Nat → Nat → List UInt8 → Option (List UInt8)
  | 0, _, _, mem => some mem
  | n + 1, d, s, mem =>
    match mem[s]? with
    | some c => if d < mem.length then copyForward n (d + 1) (s + 1) (mem.set d c) else none
    | none => none

/-- `while (n--) *--d = *--s` -/
def copyBackward : Nat → Nat → Nat → List UInt8 → Option (List UInt8)
  | 0, _, _, mem => some mem
  | n + 1, d + 1, s + 1, mem =>
    match mem[s]? with
    | some c => if d < mem.length then copyBackward n d s (mem.set d c) else none
    | none => none
  | _ + 1, _, _, _ => none

/-- The memory after the call, and the pointer that it returns. -/
def ftMemmove (mem : List UInt8) (dst src n : Nat) : Option (List UInt8 × Nat) :=
  if dst = src ∨ n = 0 then some (mem, dst)
  else if dst < src then (copyForward n dst src mem).map (·, dst)
  else (copyBackward n (dst + n) (src + n) mem).map (·, dst)

def ftMemcpy (mem : List UInt8) (dest src n : Nat) : Option (List UInt8 × Nat) :=
  (ftMemmove mem dest src n).map fun (mem, _) => (mem, dest)

/-- The destination holds what the source held before, and nothing else has changed. -/
structure Moved (mem mem' : List UInt8) (dst src n : Nat) : Prop where
  length : mem'.length = mem.length
  moved : ∀ k, k < n → mem'[dst + k]? = mem[src + k]?
  kept : ∀ i, i < dst ∨ dst + n ≤ i → mem'[i]? = mem[i]?

section Loops
variable {mem mem' : List UInt8} {d s n : Nat} {c : UInt8}

theorem Moved.refl (mem : List UInt8) (d s : Nat) : Moved mem mem d s 0 := ⟨rfl, nofun, fun _ _ => rfl⟩

/-- Going up, the first byte is copied, and none of the others was its target. -/
theorem Moved.forward (hle : d ≤ s) (hd : d < mem.length) (hs : mem[s]? = some c)
    (h : Moved (mem.set d c) mem' (d + 1) (s + 1) n) : Moved mem mem' d s (n + 1) where
  length := by rw [h.length, List.length_set]
  moved k hk := by
    cases k with
    | zero =>
      have hfirst := h.kept d (Or.inl (Nat.lt_succ_self d))
      rw [Nat.add_zero, Nat.add_zero, hfirst, List.getElem?_set_self hd, hs]
    | succ k =>
      have hlater := h.moved k (Nat.lt_of_succ_lt_succ hk)
      rw [List.getElem?_set_ne (by omega), Nat.add_assoc, Nat.add_assoc, Nat.add_comm 1] at hlater
      exact hlater
  kept i hi := by
    have hkept := h.kept i (by omega)
    rwa [List.getElem?_set_ne (by omega)] at hkept

/-- Going down, the last byte is copied first, and none of the others was its target. -/
theorem Moved.backward (hle : s ≤ d) (hd : d + n < mem.length) (hs : mem[s + n]? = some c)
    (h : Moved (mem.set (d + n) c) mem' d s n) : Moved mem mem' d s (n + 1) where
  length := by rw [h.length, List.length_set]
  moved k hk := by
    rcases Nat.lt_or_eq_of_le (Nat.le_of_lt_succ hk) with hlt | rfl
    · have hlower := h.moved k hlt
      rwa [List.getElem?_set_ne (by omega)] at hlower
    · have hlast := h.kept (d + k) (Or.inr (Nat.le_refl _))
      rw [hlast, List.getElem?_set_self hd, hs]
  kept i hi := by
    have hkept := h.kept i (by omega)
    rwa [List.getElem?_set_ne (by omega)] at hkept

theorem copyForward_moved (hle : d ≤ s) (hs : s + n ≤ mem.length) :
    ∃ mem', copyForward n d s mem = some mem' ∧ Moved mem mem' d s n := by
  induction n generalizing mem d s with
  | zero => exact ⟨mem, rfl, .refl mem d s⟩
  | succ n ih =>
    have hsource : mem[s]? = some mem[s] := List.getElem?_eq_getElem (by omega)
    have hroom : s + 1 + n ≤ (mem.set d mem[s]).length := by rw [List.length_set]; omega
    obtain ⟨mem', hrun, hmoved⟩ := ih (Nat.succ_le_succ hle) hroom
    refine ⟨mem', ?_, hmoved.forward hle (by omega) hsource⟩
    rw [copyForward, hsource]
    exact (if_pos (by omega)).trans hrun

theorem copyBackward_moved (hle : s ≤ d) (hd : d + n ≤ mem.length) :
    ∃ mem', copyBackward n (d + n) (s + n) mem = some mem' ∧ Moved mem mem' d s n := by
  induction n generalizing mem with
  | zero => exact ⟨mem, rfl, .refl mem d s⟩
  | succ n ih =>
    have hsource : mem[s + n]? = some mem[s + n] := List.getElem?_eq_getElem (by omega)
    have hroom : d + n ≤ (mem.set (d + n) mem[s + n]).length := by rw [List.length_set]; omega
    obtain ⟨mem', hrun, hmoved⟩ := ih hroom
    refine ⟨mem', ?_, hmoved.backward hle (by omega) hsource⟩
    rw [← Nat.add_assoc, ← Nat.add_assoc, copyBackward, hsource]
    exact (if_pos (by omega)).trans hrun

end Loops

/-- Both functions move the bytes, whatever the overlap, and return the destination. -/
theorem ftMemmove_moved (mem : List UInt8) (dst src n : Nat) (hdst : dst + n ≤ mem.length)
    (hsrc : src + n ≤ mem.length) :
    ∃ mem', ftMemmove mem dst src n = some (mem', dst) ∧ ftMemcpy mem dst src n = some (mem', dst) ∧
      Moved mem mem' dst src n := by
  have hmove : ∃ mem', ftMemmove mem dst src n = some (mem', dst) ∧ Moved mem mem' dst src n := by
    unfold ftMemmove
    split
    · rename_i hsame
      refine ⟨mem, rfl, rfl, fun k hk => ?_, fun _ _ => rfl⟩
      rcases hsame with rfl | rfl
      · rfl
      · cases hk
    · split
      · rename_i hlt
        obtain ⟨mem', hrun, hmoved⟩ := copyForward_moved (Nat.le_of_lt hlt) hsrc
        exact ⟨mem', by rw [hrun]; rfl, hmoved⟩
      · rename_i hge
        obtain ⟨mem', hrun, hmoved⟩ := copyBackward_moved (Nat.not_lt.mp hge) hdst
        exact ⟨mem', by rw [hrun]; rfl, hmoved⟩
  obtain ⟨mem', hrun, hmoved⟩ := hmove
  exact ⟨mem', hrun, by rw [ftMemcpy, hrun]; rfl, hmoved⟩

/-- The first three of five bytes, one place up. -/
theorem ftMemmove_overlap :
    ∃ mem', ftMemmove [1, 2, 3, 4, 5] 1 0 3 = some (mem', 1) ∧ ftMemcpy [1, 2, 3, 4, 5] 1 0 3 = some (mem', 1) ∧
      Moved [1, 2, 3, 4, 5] mem' 1 0 3 :=
  ftMemmove_moved [1, 2, 3, 4, 5] 1 0 3 (by decide) (by decide)

end Minitalk.Libft
