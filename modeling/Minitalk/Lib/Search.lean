import Mathlib.Order.Bounds.Basic

/-! # Searches from the left

The outcome of a search is the least index with a property, or nothing when no index has it. -/

namespace Search
variable {α : Type} {p q : Nat → Prop} {r r' : Option Nat}

def First (p : Nat → Prop) : Option Nat → Prop
  | some i => IsLeast {i | p i} i
  | none => ∀ i, ¬p i

theorem First.zero (h : p 0) : First p (some 0) := ⟨h, fun _ _ => Nat.zero_le _⟩

/-- The property fails here; the search goes on one place further. -/
theorem First.shift (h0 : ¬p 0) (h : First (fun i => p (i + 1)) r) : First p (r.map (· + 1)) := by
  cases r with
  | none =>
    rintro (_ | i) hi
    · exact h0 hi
    · exact h i hi
  | some i =>
    refine ⟨h.1, ?_⟩
    rintro (_ | j) hj
    · exact absurd hj h0
    · exact Nat.succ_le_succ (h.2 hj)

theorem First.unique (h : First p r) (h' : First p r') : r = r' := by
  cases r with
  | none =>
    cases r' with
    | none => rfl
    | some i => exact absurd h'.1 (h i)
  | some i =>
    cases r' with
    | none => exact absurd h.1 (h' i)
    | some j => rw [IsLeast.unique h h']

theorem First.congr (h : First p r) (hpq : ∀ i, p i ↔ q i) : First q r := by
  rwa [← show p = q from funext fun i => propext (hpq i)]

/-- The text has the pattern at the index `i`. -/
def OccursAt (pattern text : List α) (i : Nat) : Prop := pattern <+: text.drop i

/-- An occurrence that ends within the first `n` elements. -/
def OccursWithin (pattern text : List α) (n i : Nat) : Prop := OccursAt pattern text i ∧ i + pattern.length ≤ n

section Occurrences
variable {pattern text : List α} {i n : Nat} {x : α}

theorem OccursAt.le (hp : pattern ≠ []) (h : OccursAt pattern text i) : i + pattern.length ≤ text.length := by
  have hlen := List.IsPrefix.length_le h
  have hpos := List.length_pos_iff.mpr hp
  rw [List.length_drop] at hlen
  omega

theorem not_occursAt_nil (hp : pattern ≠ []) : ¬OccursAt pattern [] i := fun h => by
  have hle := h.le hp
  have hpos := List.length_pos_iff.mpr hp
  rw [List.length_nil] at hle
  omega

theorem not_occursWithin_zero (hp : pattern ≠ []) : ¬OccursWithin pattern text 0 i := fun h => by
  have hpos := List.length_pos_iff.mpr hp
  have hle := h.2
  omega

theorem occursWithin_head : OccursWithin pattern text n 0 ↔ pattern <+: text ∧ pattern.length ≤ n := by
  rw [OccursWithin, OccursAt, List.drop_zero, Nat.zero_add]

theorem occursWithin_succ : OccursWithin pattern (x :: text) (n + 1) (i + 1) ↔ OccursWithin pattern text n i := by
  rw [OccursWithin, OccursWithin, OccursAt, OccursAt, List.drop_succ_cons, Nat.add_right_comm, Nat.succ_le_succ_iff]

/-- A bound behind the end of the text leaves out no occurrence. -/
theorem occursWithin_of_length_le (hp : pattern ≠ []) (hn : text.length ≤ n) :
    OccursWithin pattern text n i ↔ OccursAt pattern text i :=
  ⟨And.left, fun h => ⟨h, (h.le hp).trans hn⟩⟩

end Occurrences
end Search
