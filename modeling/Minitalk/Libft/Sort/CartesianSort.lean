import Minitalk.Libft.Sort.TreeSort

/-! # Cartesian sort (`cartesian_sort`)

The nodes have a value and an index. The indices that are inserted increase, so each node comes behind all others. -/

namespace Minitalk.Libft.Sort
open CArray Program Heap BinaryTree

namespace CartesianSort

abbrev VALUE : Nat := 0
abbrev INDEX : Nat := 1
abbrev LEFT : Nat := 2
abbrev RIGHT : Nat := 3

def createNode (value index : Int) (h : Heap (NodeField Int)) : Heap (NodeField Int) × Ptr := newNode [value, index] h

def insertCartesian : Nat → Ptr → Int → Int → Heap (NodeField Int) → Option (Heap (NodeField Int) × Ptr)
  | 0, _, _, _, _ => none
  | fuel + 1, root, value, index, h =>
    if root = none then some (createNode value index h)
    else do
      let insert p h := insertCartesian fuel p value index h
      let rootIndex ← h.peek root INDEX
      if index < rootIndex.toData then
        let rootValue ← h.peek root VALUE
        if value > rootValue.toData then
          let (h, p) := createNode value index h
          let h := h.store root LEFT (.ptr p)
          some (h.store p RIGHT (.ptr root), p)
        else some (← insertBelow insert root LEFT h, root)
      else some (← insertBelow insert root RIGHT h, root)

def inorderTraversal (fuel : Nat) (root : Ptr) (h : Heap (NodeField Int)) (result : List (Option Int)) (idx : Int) :
    Option (List (Option Int) × Int) := walkInOrder LEFT (writeData some h) h fuel root (result, idx)

def freeTree : Nat → Ptr → Heap (NodeField Int) → Option (Heap (NodeField Int)) := freeNodes LEFT

end CartesianSort

open CartesianSort in
def cartesianSort (fuel : Nat) (arr : List Int) (size : Int) (h : Heap (NodeField Int)) : Option TreeRun := do
  if size ≤ 1 then return ⟨arr, none, h⟩
  let (h, root) ← forUp 0 size (fun i s => do insertCartesian fuel s.2 (← load arr i) i s.1) (h, none)
  let (result, idx) ← inorderTraversal fuel root h (List.replicate size.toNat none) 0
  let arr ← forUp 0 size (fun i arr => do store arr i (← (← load result i))) arr
  return ⟨arr, some idx, ← freeTree fuel root h⟩

section Insert
open CartesianSort
variable {h : Heap (NodeField Int)} {t : BinaryTree (Nat × List Int)} {x : Nat × List Int} {n : Nat} {as : List Nat}
  {arr : List Int} {v i : Int} {fuel : Nat}

/-- Each index in the tree is below this one. -/
def IndicesBelow (i : Int) (t : BinaryTree (Nat × List Int)) : Prop :=
  ∀ x ∈ t.inorder, ∃ j, x.2[INDEX]? = some j ∧ j < i

theorem insertCartesian_node {a : Nat} {j : Int} (hindex : h.peek (some a) INDEX = some (.data j)) (hlt : j < i) :
    insertCartesian (fuel + 1) (some a) v i h =
      (insertBelow (fun p h => insertCartesian fuel p v i h) (some a) RIGHT h).bind fun h => some (h, some a) := by
  rw [insertCartesian, if_neg nofun, hindex]
  exact if_neg (Int.not_lt.mpr (Int.le_of_lt hlt))

theorem insertCartesian_ends (ho : OwnsTree 2 n as t h) (hbelow : IndicesBelow i t) (v : Int)
    (hfuel : t.inorder.length < fuel) :
    Ends (insertCartesian fuel (rootOf t) v i h) (Inserts 2 n as h t (addLast (h.blocks.length, [v, i]) t)) := by
  induction t generalizing fuel as with
  | nil =>
    obtain ⟨fuel, rfl, -⟩ := exists_fuel hfuel
    obtain ⟨h', hnew, howns, hkeep⟩ := newNode_owns ho.owns ho.base ho.nodup [v, i]
    rw [insertCartesian, rootOf, if_pos rfl, createNode, hnew]
    exact .some ⟨rfl, howns, hkeep⟩
  | node x l r _ ih =>
    obtain ⟨fuel, rfl, hfuel⟩ := exists_fuel hfuel
    rw [inorder, List.length_append, List.length_cons] at hfuel
    obtain ⟨j, hj, hlt⟩ := hbelow x (by simp [inorder])
    have hindex := ho.root.peek_data hj
    rw [rootOf, insertCartesian_node hindex hlt, addLast]
    have hright : IndicesBelow i r := fun y hy => hbelow y (by simp [inorder, hy])
    refine (insertBelow_right ho (ih ho.right hright (by omega))).bind ?_
    rintro h' ⟨howns, hkeep⟩
    exact .some ⟨rfl, howns, hkeep⟩

/-- The tree has the first `i` elements in the order of the array. -/
structure Chained (n : Nat) (arr : List Int) (i : Int) (t : BinaryTree (Nat × List Int))
    (s : Heap (NodeField Int) × Ptr) : Prop where
  root : s.2 = rootOf t
  owns : OwnsTree 2 n [] t s.1
  below : IndicesBelow i t
  values : t.inorder.map value = segment arr 0 i

theorem Chained.turn {s : Heap (NodeField Int) × Ptr} (hc : Chained n arr i t s) (hi : 0 ≤ i) (hi' : i < arr.length)
    (hfuel : arr.length < fuel) :
    Ends (insertCartesian fuel s.2 (get arr i) i s.1) fun s' => ∃ t', Chained n arr (i + 1) t' s' := by
  have hlen : t.inorder.length = i.toNat := by
    have hmap := congrArg List.length hc.values
    have hsegment := length_segment (Int.le_refl 0) hi (Int.le_of_lt hi')
    rw [List.length_map] at hmap
    omega
  have hends := insertCartesian_ends hc.owns hc.below (get arr i) (show t.inorder.length < fuel by omega)
  rw [← hc.root] at hends
  refine hends.mono fun s' ⟨hroot, howns, _⟩ => ⟨_, hroot, howns, fun x hx => ?_, ?_⟩
  · rw [inorder_addLast, List.mem_append, List.mem_singleton] at hx
    rcases hx with hx | rfl
    · obtain ⟨j, hj, hlt⟩ := hc.below x hx
      exact ⟨j, hj, by omega⟩
    · exact ⟨i, rfl, by omega⟩
  · rw [inorder_addLast, List.map_append, hc.values, segment_concat (Int.le_refl 0) hi hi']
    rfl

theorem chained_ends (hf : h.fault = false) (hfuel : arr.length < fuel) :
    Ends (forUp 0 arr.length (fun i s => do insertCartesian fuel s.2 (← load arr i) i s.1) (h, none)) fun s =>
      ∃ t, Chained h.blocks.length arr arr.length t s := by
  refine forUp_rule (fun i s => ∃ t, Chained h.blocks.length arr i t s) (Int.natCast_nonneg _) ?_ ?_
  · exact ⟨nil, rfl, .start hf, nofun, (segment_of_le (Int.le_refl 0)).symm⟩
  · rintro i s hi hi' ⟨t, hc⟩
    rw [load_eq ⟨hi, hi'⟩]
    exact hc.turn hi hi' hfuel

/-- The elements come in the order in which they are. -/
theorem cartesianSort_ends (hf : h.fault = false) (hlen : 1 < arr.length) (hfuel : arr.length < fuel) :
    Ends (cartesianSort fuel arr arr.length h) (Traversed h arr arr) := by
  rw [cartesianSort, if_neg (by omega)]
  refine (chained_ends hf hfuel).bind fun s ⟨t, hc⟩ => ?_
  obtain ⟨h', root⟩ := s
  obtain ⟨rfl, howns, -, hvalues⟩ := hc
  rw [segment_all] at hvalues
  have hsame : t.inorder.length = arr.length := by rw [← hvalues, List.length_map]
  have htraversal : inorderTraversal fuel (rootOf t) h' (List.replicate (arr.length : Int).toNat none) 0 =
      some (arr.map some, (arr.length : Int)) := by
    have hcells : t.inorder.map (fun x => some (value x)) = arr.map some := by rw [← hvalues, List.map_map]; rfl
    have hrest : (List.replicate arr.length (none : Option Int)).drop t.inorder.length = [] :=
      List.drop_of_length_le (by simp [hsame])
    rw [inorderTraversal, Int.toNat_natCast, traversal_eq howns.tree (by omega) (by simp [hsame]), hcells, hrest,
      List.append_nil, hsame]
  simp only [htraversal, Option.bind_eq_bind, Option.bind_some]
  have hcopy : forUp 0 arr.length (fun i a => do store a i (← (← load (arr.map some) i))) arr = some arr :=
    forUp_written rfl
  simp only [Option.bind_eq_bind] at hcopy
  rw [hcopy, Option.bind_some]
  refine (freeNodes_owns howns (by omega)).bind fun h₁ ⟨hfreed, _⟩ => ?_
  exact .some ⟨by simp, rfl, hfreed⟩

theorem cartesianSort_sorts_iff (hf : h.fault = false) (arr : List Int) :
    Halts (fun fuel => cartesianSort fuel arr arr.length h) (Sorted h arr) ↔ arr.Pairwise (· ≤ ·) := by
  rcases Nat.lt_or_ge 1 arr.length with hlen | hlen
  · have hhalts : Halts (fun fuel => cartesianSort fuel arr arr.length h) (Traversed h arr arr) :=
      ⟨arr.length + 1, fun fuel hfuel => cartesianSort_ends hf hlen hfuel⟩
    refine hhalts.iff fun r hr => ?_
    have harr : r.arr = arr := by rw [hr.arr, List.drop_length, List.append_nil]
    constructor
    · exact fun hsorted => harr ▸ hsorted.sorts.sorted
    · refine fun hsorted => ⟨harr.symm ▸ ⟨hsorted, .refl arr⟩, fun n hn => ?_, hr.freed⟩
      rw [hr.written] at hn
      exact (Option.some.inj hn).symm
  · refine iff_of_true ⟨0, fun fuel _ => ⟨⟨arr, none, h⟩, if_pos (by omega), ?_, nofun, .start hf⟩⟩ ?_
    · exact sorts_of_length_le hlen
    · exact (sorts_of_length_le hlen).sorted

end Insert

theorem tree_sorts_iff (h : Heap (NodeField Int)) (hf : h.fault = false) (arr : List Int) :
    (Halts (fun fuel => treeSort fuel arr arr.length h) (Sorted h arr) ↔ arr.Nodup) ∧
    (Halts (fun fuel => cartesianSort fuel arr arr.length h) (Sorted h arr) ↔ arr.Pairwise (· ≤ ·)) :=
  ⟨treeSort_sorts_iff hf arr, cartesianSort_sorts_iff hf arr⟩

theorem tree_sorts_iff_two :
    (Halts (fun fuel => treeSort fuel [2, 1] ([2, 1] : List Int).length {}) (Sorted {} [2, 1]) ↔
      ([2, 1] : List Int).Nodup) ∧
    (Halts (fun fuel => cartesianSort fuel [2, 1] ([2, 1] : List Int).length {}) (Sorted {} [2, 1]) ↔
      ([2, 1] : List Int).Pairwise (· ≤ ·)) := tree_sorts_iff {} rfl [2, 1]

/-- One of two equal elements is not inserted, and the Cartesian tree never sorts. -/
theorem tree_sorts_equal : ¬∀ (h : Heap (NodeField Int)) (arr : List Int), h.fault = false →
    Halts (fun fuel => treeSort fuel arr arr.length h) (Sorted h arr) ∧
    Halts (fun fuel => cartesianSort fuel arr arr.length h) (Sorted h arr) := fun hall =>
  absurd ((treeSort_sorts_iff rfl _).mp (hall {} [2, 2, 1] rfl).1) (by decide)

end Minitalk.Libft.Sort
