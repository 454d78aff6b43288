import Mathlib.Order.Lattice
import Minitalk.Lib.CArray

/-! # Ranks

`below l v` is the number of elements that are smaller than `v`, and `upTo l v` that of those that are not greater: in
the sorted list, `v` is at the indices between them. A cell is misplaced when its element is at no such index. -/

namespace Ranks
open CArray
variable {α : Type} [LinearOrder α] {l l' m : List α} {v w x : α}

def below (l : List α) (v : α) : Nat := l.countP fun x => decide (x < v)

def upTo (l : List α) (v : α) : Nat := l.countP fun x => decide (x ≤ v)

/-- `v` is at the index `i` of the sorted list. -/
def Home (m : List α) (i : Int) (v : α) : Prop := below m v ≤ i ∧ i < upTo m v

instance (m : List α) (i : Int) (v : α) : Decidable (Home m i v) := inferInstanceAs (Decidable (_ ∧ _))

theorem below_cons (x : α) (l : List α) (v : α) : below (x :: l) v = below l v + if x < v then 1 else 0 := by
  rw [below, List.countP_cons]
  simp only [decide_eq_true_eq, below]

theorem below_append (l l' : List α) (v : α) : below (l ++ l') v = below l v + below l' v := List.countP_append

theorem below_perm (h : l.Perm l') (v : α) : below l v = below l' v := h.countP_eq _

theorem below_le_length (l : List α) (v : α) : below l v ≤ l.length := List.countP_le_length

theorem upTo_cons (x : α) (l : List α) (v : α) : upTo (x :: l) v = upTo l v + if x ≤ v then 1 else 0 := by
  rw [upTo, List.countP_cons]
  simp only [decide_eq_true_eq, upTo]

theorem upTo_perm (h : l.Perm l') (v : α) : upTo l v = upTo l' v := h.countP_eq _

theorem upTo_le_length (l : List α) (v : α) : upTo l v ≤ l.length := List.countP_le_length

/-- When an element is not greater than `v`, it is smaller or it is `v`. -/
theorem upTo_eq (l : List α) (v : α) : upTo l v = below l v + l.count v := by
  induction l with
  | nil => rfl
  | cons x l ih =>
    rw [below_cons, upTo_cons, List.count_cons, ih]
    simp only [beq_iff_eq]
    rcases lt_trichotomy x v with hlt | rfl | hgt
    · rw [if_pos hlt, if_pos hlt.le, if_neg hlt.ne]
      omega
    · rw [if_neg (lt_irrefl x), if_pos (le_refl x), if_pos rfl]
      omega
    · rw [if_neg (lt_asymm hgt), if_neg (not_le_of_gt hgt), if_neg hgt.ne']
      rfl

theorem upTo_le_below (h : v < w) (l : List α) : upTo l v ≤ below l w :=
  List.countP_mono_left fun _ _ hx => decide_eq_true (lt_of_le_of_lt (of_decide_eq_true hx) h)

/-- One element is at an index of the sorted list. -/
theorem Home.unique {i : Int} (h : Home m i v) (h' : Home m i w) : v = w := by
  obtain ⟨hv, hv'⟩ := h
  obtain ⟨hw, hw'⟩ := h'
  rcases lt_trichotomy v w with hlt | heq | hgt
  · have := upTo_le_below hlt m
    omega
  · exact heq
  · have := upTo_le_below hgt m
    omega

theorem home_perm (h : l.Perm l') {i : Int} : Home l i v ↔ Home l' i v := by
  rw [Home, Home, below_perm h, upTo_perm h]

/-- What is at the last index of the sorted list is the greatest element. -/
theorem Home.greatest {i : Int} (h : Home m i v) (hlast : i + 1 = m.length) (hx : x ∈ m) : x ≤ v := by
  have hle := upTo_le_length m v
  have hall : upTo m v = m.length := by
    obtain ⟨-, h⟩ := h
    omega
  exact of_decide_eq_true (List.countP_eq_length.mp hall x hx)

/-- In a list that is strictly in order, the rank of an element is its index. -/
theorem below_getElem (hm : m.Pairwise (· < ·)) {k : Nat} (hk : k < m.length) : below m m[k] = k := by
  induction m generalizing k with
  | nil => cases hk
  | cons x m ih =>
    obtain ⟨hx, hm⟩ := List.pairwise_cons.mp hm
    rw [below_cons]
    cases k with
    | zero =>
      rw [List.getElem_cons_zero, if_neg (lt_irrefl x), below, List.countP_eq_zero.mpr fun y hy => ?_]
      rw [decide_eq_true_eq]
      exact lt_asymm (hx y hy)
    | succ k =>
      have hk' : k < m.length := Nat.lt_of_succ_lt_succ hk
      rw [List.getElem_cons_succ, ih hm hk', if_pos (hx _ (List.getElem_mem hk'))]

/-! ### Arrays -/

section Arrays
variable [Inhabited α] {a : List α} {lo hi i j k p : Int}

/-- Each cell of a range has the same element. -/
theorem count_range (h0 : 0 ≤ lo) (hle : lo ≤ hi) (hn : hi ≤ a.length) (h : ∀ i, lo ≤ i → i < hi → get a i = v) :
    (segment a lo hi).count v = (hi - lo).toNat := by
  have hlen := length_segment h0 hle hn
  have hall : (segment a lo hi).count v = (segment a lo hi).length := by
    refine List.count_eq_length.mpr fun x hx => ?_
    obtain ⟨i, hi, hi', rfl⟩ := (mem_segment h0 hn).mp hx
    exact (h i hi hi').symm
  omega

/-- A cell and all those before some index have smaller elements than `v`. -/
theorem lt_below (hk : 0 ≤ k) (hkj : k ≤ j) (hj : j < a.length) (hall : ∀ i, 0 ≤ i → i < k → get a i < v)
    (hlt : get a j < v) : k < below a v := by
  have hlen := length_segment (Int.le_refl 0) hk (by omega : k ≤ a.length)
  have hfirst : below (segment a 0 k) v = (segment a 0 k).length := by
    refine List.countP_eq_length.mpr fun x hx => ?_
    obtain ⟨i, hi, hi', rfl⟩ := (mem_segment (Int.le_refl 0) (by omega)).mp hx
    exact decide_eq_true (hall i hi hi')
  have hrest : 0 < below (segment a k a.length) v := by
    refine List.countP_pos_iff.mpr ⟨get a j, ?_, decide_eq_true hlt⟩
    exact (mem_segment hk (Int.le_refl _)).mpr ⟨j, hkj, hj, rfl⟩
  have hsum := below_append (segment a 0 k) (segment a k a.length) v
  rw [← segment_append (Int.le_refl 0) hk (by omega : k ≤ a.length), segment_all] at hsum
  omega

/-- The elements of a range that are smaller than `v`. -/
theorem exists_lt_of_below (h0 : 0 ≤ lo) (hn : hi ≤ a.length) (h : 0 < below (segment a lo hi) v) :
    ∃ j, lo ≤ j ∧ j < hi ∧ get a j < v := by
  obtain ⟨x, hx, hlt⟩ := List.countP_pos_iff.mp h
  obtain ⟨j, hj, hj', rfl⟩ := (mem_segment h0 hn).mp hx
  exact ⟨j, hj, hj', of_decide_eq_true hlt⟩

theorem le_of_below_eq_zero (h0 : 0 ≤ lo) (hn : hi ≤ a.length) (h : below (segment a lo hi) v = 0) :
    ∀ j, lo ≤ j → j < hi → v ≤ get a j := by
  intro j hj hj'
  have hnot := List.countP_eq_zero.mp h (get a j) ((mem_segment h0 hn).mpr ⟨j, hj, hj', rfl⟩)
  exact not_lt.mp fun hlt => hnot (decide_eq_true hlt)

/-- When each cell from the rank of `v` on has `v`, no other cell has. -/
theorem ne_of_lt_below (h : ∀ i : Int, below a v ≤ i → i < a.length → get a i = v) (h0 : 0 ≤ j) (hj : j < below a v) :
    get a j ≠ v := by
  intro heq
  have hle := upTo_le_length a v
  rw [upTo_eq] at hle
  have hback := count_range (Int.natCast_nonneg _) (by omega) (Int.le_refl _) h
  have hfront : 0 < (segment a 0 (below a v)).count v :=
    List.count_pos_iff.mpr ((mem_segment (Int.le_refl 0) (by omega)).mpr ⟨j, h0, hj, heq⟩)
  have hcount : a.count v = (segment a 0 (below a v)).count v + (segment a (below a v) a.length).count v := by
    rw [← List.count_append, ← segment_append (Int.le_refl 0) (Int.natCast_nonneg _) (by omega), segment_all]
  omega

/-- The index behind `v` and the elements that equal it, from its rank on: when `v` is one more element, that is one
    of its indices in the sorted list. -/
theorem home_of_skipped (hm : (v :: a).Perm m) (hp : below a v ≤ p) (hn : p ≤ a.length)
    (hskip : ∀ i : Int, below a v ≤ i → i < p → get a i = v) : Home m p v := by
  have hbelow := below_perm hm v
  have hupTo := upTo_perm hm v
  rw [below_cons, if_neg (lt_irrefl v)] at hbelow
  rw [upTo_cons, if_pos (le_refl v), upTo_eq] at hupTo
  have hcount := count_range (Int.natCast_nonneg _) hp hn hskip
  have hle : (segment a (below a v) p).count v ≤ a.count v := (segment_sublist a _ _).count_le v
  exact ⟨by omega, by omega⟩

/-- The number of cells whose element is not at one of its indices in the sorted list. -/
def misplaced (m a : List α) : Nat :=
  (List.range a.length).countP fun i : Nat => decide (¬Home m i (get a i))

theorem countP_lt {β : Type} {p q : β → Bool} {l : List β} {x : β} (h : ∀ y ∈ l, p y = true → q y = true) (hx : x ∈ l)
    (hp : p x = false) (hq : q x = true) : l.countP p < l.countP q := by
  obtain ⟨l₁, l₂, rfl⟩ := List.append_of_mem hx
  have h₁ : l₁.countP p ≤ l₁.countP q := List.countP_mono_left fun y hy => h y (List.mem_append_left _ hy)
  have h₂ : l₂.countP p ≤ l₂.countP q :=
    List.countP_mono_left fun y hy => h y (List.mem_append_right _ (List.mem_cons_of_mem x hy))
  rw [List.countP_append, List.countP_append, List.countP_cons, List.countP_cons, hp, hq, if_pos rfl,
    if_neg Bool.false_ne_true]
  omega

/-- A misplaced cell gets an element that belongs there. -/
theorem misplaced_put (hp : Inside a p) (hhome : Home m p v) (hne : get a p ≠ v) :
    misplaced m (put a p v) < misplaced m a := by
  have hindex : ((p.toNat : Nat) : Int) = p := Int.toNat_of_nonneg hp.1
  rw [misplaced, misplaced, length_put]
  refine countP_lt (x := p.toNat) (fun i hi hmis => ?_) (List.mem_range.mpr (by have := hp.2; omega)) ?_ ?_
  · have hmis := of_decide_eq_true hmis
    rw [get_put hp] at hmis
    split at hmis
    · rename_i heq
      exact absurd (heq ▸ hhome) hmis
    · exact decide_eq_true hmis
  · rw [hindex, get_put_self hp]
    exact decide_eq_false (not_not.mpr hhome)
  · rw [hindex]
    exact decide_eq_true fun hhome' => hne (hhome'.unique hhome)

theorem misplaced_le (m a : List α) : misplaced m a ≤ a.length := by
  rw [misplaced]
  exact List.countP_le_length.trans (List.length_range).le

end Arrays
end Ranks
