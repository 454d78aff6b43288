/-! # A buffer that is filled from the front

The cells, of which an unwritten one holds `none`, and the position of the next one. A store outside the cells
sets `fault`, which stays set. Appending stops silently at a limit. -/

structure Buffer (α : Type) where
  cells : List (Option α)
  pos : Nat := 0
  fault : Bool := false
deriving DecidableEq

namespace Buffer
variable {α : Type}

def empty (size : Nat) : Buffer α := { cells := List.replicate size none }

def store (b : Buffer α) (i : Nat) (v : α) : Buffer α :=
  if i < b.cells.length then { b with cells := b.cells.set i (some v) } else { b with fault := true }

@[simp] theorem store_pos (b : Buffer α) (i : Nat) (v : α) : (b.store i v).pos = b.pos := by
  unfold store
  split <;> rfl

/-- `buffer[(*pos)++] = v`. -/
def push (b : Buffer α) (v : α) : Buffer α := { b.store b.pos v with pos := b.pos + 1 }

/-- Values are pushed while the position is below the limit. -/
def append (limit : Nat) (b : Buffer α) : List α → Buffer α
  | [] => b
  | v :: vs => if b.pos < limit then append limit (b.push v) vs else b

/-- The buffer, of `size` cells, starts with the values and has nothing behind them. -/
structure Holds (size : Nat) (b : Buffer α) (vs : List α) : Prop where
  sound : b.fault = false
  pos : b.pos = vs.length
  le : vs.length ≤ size
  cells : b.cells = vs.map some ++ List.replicate (size - vs.length) none

variable {b : Buffer α} {vs : List α} {size limit : Nat}

theorem holds_empty (size : Nat) : Holds size (empty size : Buffer α) [] := ⟨rfl, rfl, Nat.zero_le _, rfl⟩

theorem Holds.length_cells (h : Holds size b vs) : b.cells.length = size := by
  have := h.le
  rw [h.cells, List.length_append, List.length_map, List.length_replicate]
  omega

theorem Holds.push (h : Holds size b vs) (hlt : vs.length < size) (v : α) : Holds size (b.push v) (vs ++ [v]) := by
  have hin : b.pos < b.cells.length := by rw [h.length_cells, h.pos]; exact hlt
  obtain ⟨k, hk⟩ : ∃ k, size - vs.length = k + 1 := ⟨size - vs.length - 1, by omega⟩
  refine ⟨by simp [Buffer.push, store, hin, h.sound], by simp [Buffer.push, h.pos], by simp; omega, ?_⟩
  have hk' : size - (vs ++ [v]).length = k := by simp; omega
  simp only [Buffer.push, store, hin, if_true]
  rw [h.cells, h.pos, hk, hk', List.replicate_succ, List.set_append_right _ _ (by simp)]
  simp

theorem Holds.append (h : Holds size b vs) (hlimit : limit ≤ size) (hle : vs.length ≤ limit) (ws : List α) :
    Holds size (b.append limit ws) ((vs ++ ws).take limit) := by
  induction ws generalizing b vs with
  | nil => rwa [List.append_nil, List.take_of_length_le hle]
  | cons w ws ih =>
    rw [Buffer.append, h.pos]
    split
    · have := ih (h.push (by omega) w) (by simp; omega)
      rwa [List.append_assoc] at this
    · rwa [List.take_append_of_le_length (by omega), List.take_of_length_le hle]

theorem take_take_append (vs ws : List α) (n : Nat) : (vs.take n ++ ws).take n = (vs ++ ws).take n := by
  rw [List.take_append, List.take_take, Nat.min_self, List.take_append, List.length_take]
  congr 2
  omega

/-! ### What was appended, whatever the buffer held -/

/-- The values are at the position, which is behind them now; everything else is unchanged. -/
structure Appends (b b' : Buffer α) (vs : List α) : Prop where
  before : b'.cells.take b.pos = b.cells.take b.pos
  values : (b'.cells.drop b.pos).take vs.length = vs.map some
  behind : b'.cells.drop (b.pos + vs.length) = b.cells.drop (b.pos + vs.length)
  pos : b'.pos = b.pos + vs.length
  fault : b'.fault = b.fault

theorem Appends.refl (b : Buffer α) : Appends b b [] := ⟨rfl, by simp, by simp, by simp, rfl⟩

theorem Appends.cons {b' : Buffer α} {v : α} (hin : b.pos < b.cells.length) (h : Appends (b.push v) b' vs) :
    Appends b b' (v :: vs) := by
  have hcells : (b.push v).cells = b.cells.set b.pos (some v) := by simp [Buffer.push, store, hin]
  have hbefore : b'.cells.take (b.pos + 1) = (b.cells.set b.pos (some v)).take (b.pos + 1) := by
    rw [← hcells]
    exact h.before
  have hvalues : (b'.cells.drop (b.pos + 1)).take vs.length = vs.map some := h.values
  have hlen : b.pos + (v :: vs).length = (b.push v).pos + vs.length := by simp [Buffer.push]; omega
  have hget : b'.cells[b.pos]? = some (some v) := by
    have := congrArg (·[b.pos]?) hbefore
    simpa [List.getElem?_take, hin] using this
  obtain ⟨hlt, hval⟩ := List.getElem?_eq_some_iff.mp hget
  refine ⟨?_, ?_, ?_, ?_, ?_⟩
  · have := congrArg (List.take b.pos) hbefore
    rw [List.take_take, List.take_take, Nat.min_eq_left (by omega)] at this
    rw [this, List.take_set, List.set_eq_of_length_le (List.length_take_le _ _)]
  · rw [List.drop_eq_getElem_cons hlt, List.length_cons, List.take_succ_cons, hval, hvalues, List.map_cons]
  · rw [hlen, h.behind, hcells, List.drop_set, if_pos (by simp [Buffer.push]; omega)]
  · rw [h.pos, hlen]
  · rw [h.fault]
    simp [Buffer.push, store, hin]

@[simp] theorem length_push (b : Buffer α) (v : α) : (b.push v).cells.length = b.cells.length := by
  simp only [push, store]
  split <;> simp

@[simp] theorem length_append (limit : Nat) (b : Buffer α) (vs : List α) :
    (b.append limit vs).cells.length = b.cells.length := by
  induction vs generalizing b with
  | nil => rfl
  | cons v vs ih =>
    rw [Buffer.append]
    split
    · rw [ih, length_push]
    · rfl

/-- Appending stops at the limit and touches nothing else. -/
theorem appends_append (hlimit : limit ≤ b.cells.length) (hpos : b.pos ≤ limit) (vs : List α) :
    Appends b (b.append limit vs) (vs.take (limit - b.pos)) := by
  induction vs generalizing b with
  | nil =>
    rw [List.take_nil]
    exact Appends.refl b
  | cons v vs ih =>
    rw [Buffer.append]
    split
    · rename_i hlt
      obtain ⟨k, hk⟩ : ∃ k, limit - b.pos = k + 1 := ⟨limit - b.pos - 1, by omega⟩
      have hnext : limit - (b.push v).pos = k := by simp [Buffer.push]; omega
      have := ih (b := b.push v) (by rw [length_push]; exact hlimit) (by simp [Buffer.push]; omega)
      rw [hnext] at this
      rw [hk, List.take_succ_cons]
      exact this.cons (by omega)
    · rw [Nat.sub_eq_zero_of_le (by omega), List.take_zero]
      exact Appends.refl b

theorem Appends.unique {b' : Buffer α} {ws : List α} (h : Appends b b' vs) (h' : Appends b b' ws) : vs = ws := by
  have hlen : vs.length = ws.length := by
    have := h.pos
    rw [h'.pos] at this
    omega
  have hmap : vs.map some = ws.map some := by rw [← h.values, ← h'.values, hlen]
  exact (List.map_inj_right fun _ _ => Option.some.inj).mp hmap

theorem append_append (limit : Nat) (b : Buffer α) (vs ws : List α) :
    (b.append limit vs).append limit ws = b.append limit (vs ++ ws) := by
  induction vs generalizing b with
  | nil => rfl
  | cons v vs ih =>
    rw [List.cons_append, Buffer.append, Buffer.append]
    split
    · exact ih (b.push v)
    · cases ws with
      | nil => rfl
      | cons w ws => rw [Buffer.append, if_neg ‹_›]

end Buffer
