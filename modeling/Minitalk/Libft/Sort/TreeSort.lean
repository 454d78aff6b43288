import Mathlib.Data.Int.Order.Basic
import Mathlib.Data.List.Perm.Subperm
import Minitalk.Lib.CArray
import Minitalk.Lib.HeapTree

/-! # Tree sort (`tree_sort`)

Each `malloc` succeeds, so the root is not null after an insertion. The nodes lie in a heap of numbers and pointers. -/

namespace Minitalk.Libft.Sort
open CArray Program Heap BinaryTree

/-- What a sort by a tree leaves: the array, how many cells the traversal wrote if there was one, and the nodes. -/
structure TreeRun where
  arr : List Int
  written : Option Int
  heap : Heap (NodeField Int)

/-- `res[(*index)++] = root->data` -/
def writeData {β : Type} (cell : Int → β) (h : Heap (NodeField Int)) (root : Ptr) (s : List β × Int) :
    Option (List β × Int) := do
  some (← store s.1 s.2 (cell (← h.peek root 0).toData), s.2 + 1)

/-- `root->child = insert(root->child)` -/
def insertBelow (insert : Ptr → Heap (NodeField Int) → Option (Heap (NodeField Int) × Ptr)) (root : Ptr) (child : Nat)
    (h : Heap (NodeField Int)) : Option (Heap (NodeField Int)) := do
  let (h, p) ← insert (← h.peek root child).toPtr h
  some (h.store root child (.ptr p))

namespace TreeSort

abbrev DATA : Nat := 0
abbrev LEFT : Nat := 1
abbrev RIGHT : Nat := 2

def createTreeNode (data : Int) (h : Heap (NodeField Int)) : Heap (NodeField Int) × Ptr := newNode [data] h

def insertNode : Nat → Ptr → Int → Heap (NodeField Int) → Option (Heap (NodeField Int) × Ptr)
  | 0, _, _, _ => none
  | fuel + 1, root, data, h =>
    if root = none then some (createTreeNode data h)
    else do
      let insert p h := insertNode fuel p data h
      let rootData ← h.peek root DATA
      let h ← (if data < rootData.toData then insertBelow insert root LEFT h else some h)
      let rootData ← h.peek root DATA
      let h ← (if data > rootData.toData then insertBelow insert root RIGHT h else some h)
      some (h, root)

def inorderTraversal (fuel : Nat) (root : Ptr) (h : Heap (NodeField Int)) (res : List Int) (index : Int) :
    Option (List Int × Int) := walkInOrder LEFT (writeData id h) h fuel root (res, index)

def freeTree : Nat → Ptr → Heap (NodeField Int) → Option (Heap (NodeField Int)) := freeNodes LEFT

end TreeSort

open TreeSort in
def treeSort (fuel : Nat) (arr : List Int) (size : Int) (h : Heap (NodeField Int)) : Option TreeRun := do
  if size ≤ 1 then return ⟨arr, none, h⟩
  let (h, root) ← forUp 0 size (fun i s => do insertNode fuel s.2 (← load arr i) s.1) (h, none)
  let (arr, index) ← inorderTraversal fuel root h arr 0
  return ⟨arr, some index, ← freeTree fuel root h⟩

/-! ### Trees of numbers -/

/-- What a node is sorted by. -/
def value (x : Nat × List Int) : Int := x.2.headD 0

section Tree
variable {β : Type} {cell : Int → β} {h : Heap (NodeField Int)} {t : BinaryTree (Nat × List Int)} {k n : Nat}
  {as : List Nat}
  {arr : List Int}

theorem peek_value (ht : TreeAt (k + 1) h t) {x : Nat × List Int} (hx : x ∈ t.inorder) :
    h.peek (some x.1) 0 = some (.data (value x)) := by
  obtain ⟨hlen, p, q, hat⟩ := ht.exists_at hx
  refine hat.peek_data ?_
  obtain ⟨v, vs, hvs⟩ := List.exists_cons_of_length_eq_add_one hlen
  rw [value, hvs]
  rfl

/-- The values of these nodes go behind what is written already. -/
theorem writeData_nodes (cell : Int → β) {nodes : List (Nat × List Int)}
    (hpeek : ∀ x ∈ nodes, h.peek (some x.1) 0 = some (.data (value x))) (pre rest : List β)
    (hroom : nodes.length ≤ rest.length) :
    nodes.foldlM (fun s x => writeData cell h (some x.1) s) (pre ++ rest, (pre.length : Int)) =
      some (pre ++ nodes.map (fun x => cell (value x)) ++ rest.drop nodes.length,
        ((pre.length + nodes.length : Nat) : Int)) := by
  induction nodes generalizing pre rest with
  | nil => simp
  | cons x nodes ih =>
    obtain ⟨c, rest, rfl⟩ := List.exists_cons_of_length_pos (Nat.lt_of_lt_of_le (Nat.succ_pos _) hroom)
    rw [List.length_cons, List.length_cons] at hroom
    have hin := inside_append_length pre rest c
    have hturn : writeData cell h (some x.1) (pre ++ c :: rest, (pre.length : Int)) =
        some ((pre ++ [cell (value x)]) ++ rest, ((pre ++ [cell (value x)]).length : Int)) := by
      rw [writeData, hpeek x List.mem_cons_self]
      simp only [Option.bind_eq_bind, Option.bind_some, NodeField.toData, store_eq hin, put_append_length,
        List.append_assoc, List.length_append, List.length_singleton]
      rfl
    rw [List.foldlM_cons, hturn, Option.bind_eq_bind, Option.bind_some,
      ih (fun y hy => hpeek y (List.mem_cons_of_mem x hy)) _ rest (by omega)]
    simp [Nat.add_assoc, Nat.add_comm 1]

/-- The traversal writes the values of the tree in order. -/
theorem traversal_eq (ht : TreeAt (k + 1) h t) {fuel : Nat} (hfuel : t.inorder.length < fuel) {res : List β}
    (hroom : t.inorder.length ≤ res.length) :
    walkInOrder (k + 1) (writeData cell h) h fuel (rootOf t) (res, 0) =
      some (t.inorder.map (fun x => cell (value x)) ++ res.drop t.inorder.length, (t.inorder.length : Int)) := by
  have hwrites := writeData_nodes cell (fun x hx => peek_value ht hx) [] res hroom
  rw [walkInOrder_eq ht hfuel]
  simpa using hwrites

end Tree

section Insert
variable {h : Heap (NodeField Int)} {t t' l r : BinaryTree (Nat × List Int)} {x : Nat × List Int} {k n : Nat}
  {as : List Nat}
  {data : Int} {insert : Ptr → Heap (NodeField Int) → Option (Heap (NodeField Int) × Ptr)}

/-- What an insertion into a tree leads to. -/
def Inserts (k n : Nat) (as : List Nat) (h : Heap (NodeField Int)) (t t' : BinaryTree (Nat × List Int))
    (s : Heap (NodeField Int) × Ptr) : Prop := s.2 = rootOf t' ∧ OwnsTree k n as t' s.1 ∧ KeepsOff (addresses t) h s.1

theorem insertBelow_left (ho : OwnsTree k n as (node x l r) h) {l' : BinaryTree (Nat × List Int)}
    (hinsert : Ends (insert (rootOf l) h) (Inserts k n (x.1 :: addresses r ++ as) h l l')) :
    Ends (insertBelow insert (some x.1) k h) fun h' =>
      OwnsTree k n as (node x l' r) h' ∧ KeepsOff (addresses (node x l r)) h h' := by
  obtain ⟨⟨h', p⟩, hs, rfl, howns, hkeep⟩ := hinsert
  rw [insertBelow, ho.tree.peek_left, Option.bind_eq_bind, Option.bind_some, NodeField.toPtr, hs]
  exact .some (ho.setLeft howns hkeep)

theorem insertBelow_right (ho : OwnsTree k n as (node x l r) h) {r' : BinaryTree (Nat × List Int)}
    (hinsert : Ends (insert (rootOf r) h) (Inserts k n (x.1 :: addresses l ++ as) h r r')) :
    Ends (insertBelow insert (some x.1) (k + 1) h) fun h' =>
      OwnsTree k n as (node x l r') h' ∧ KeepsOff (addresses (node x l r)) h h' := by
  obtain ⟨⟨h', p⟩, hs, rfl, howns, hkeep⟩ := hinsert
  rw [insertBelow, ho.tree.peek_right, Option.bind_eq_bind, Option.bind_some, NodeField.toPtr, hs]
  exact .some (ho.setRight howns hkeep)

open TreeSort

theorem peek_root (ho : OwnsTree (k + 1) n as (node x l r) h) : h.peek (some x.1) 0 = some (.data (value x)) :=
  peek_value ho.tree (by simp [inorder])

theorem insertNode_node {a : Nat} {v : Int} (hdata : h.peek (some a) DATA = some (.data v)) {fuel : Nat} :
    insertNode (fuel + 1) (some a) data h =
      (if data < v then insertBelow (fun p h => insertNode fuel p data h) (some a) LEFT h else some h).bind fun h =>
        (h.peek (some a) DATA).bind fun d =>
          (if data > d.toData then insertBelow (fun p h => insertNode fuel p data h) (some a) RIGHT h
            else some h).bind fun h => some (h, some a) := by
  rw [insertNode, if_neg nofun, hdata]
  rfl

theorem insertNode_ends (ho : OwnsTree 1 n as t h) (data : Int) {fuel : Nat} (hfuel : t.inorder.length < fuel) :
    Ends (insertNode fuel (rootOf t) data h)
      (Inserts 1 n as h t (BinaryTree.insert value (h.blocks.length, [data]) t)) := by
  induction t generalizing fuel as with
  | nil =>
    obtain ⟨fuel, rfl, -⟩ := exists_fuel hfuel
    obtain ⟨h', hnew, howns, hkeep⟩ := newNode_owns ho.owns ho.base ho.nodup [data]
    rw [insertNode, rootOf, if_pos rfl, createTreeNode, hnew]
    exact .some ⟨rfl, howns, hkeep⟩
  | node x l r ihl ihr =>
    obtain ⟨fuel, rfl, hfuel⟩ := exists_fuel hfuel
    rw [inorder, List.length_append, List.length_cons] at hfuel
    have hvalue : value (h.blocks.length, [data]) = data := rfl
    rw [rootOf, insertNode_node (peek_root ho), BinaryTree.insert, hvalue]
    rcases Int.lt_trichotomy data (value x) with hlt | rfl | hgt
    · rw [if_pos hlt, if_pos hlt]
      refine (insertBelow_left ho (ihl ho.left (by omega))).bind ?_
      rintro h' ⟨howns, hkeep⟩
      rw [peek_root howns, Option.bind_some, NodeField.toData, if_neg (Int.lt_asymm hlt)]
      exact .some ⟨rfl, howns, hkeep⟩
    · rw [if_neg (Int.lt_irrefl _), if_neg (Int.lt_irrefl _), if_neg (Int.lt_irrefl _), Option.bind_some, peek_root ho,
        Option.bind_some, NodeField.toData, if_neg (Int.lt_irrefl _)]
      exact .some ⟨rfl, ho, fun _ _ _ hat => hat⟩
    · rw [if_neg (Int.lt_asymm hgt), if_neg (Int.lt_asymm hgt), if_pos hgt, Option.bind_some, peek_root ho,
        Option.bind_some, NodeField.toData, if_pos hgt]
      refine (insertBelow_right ho (ihr ho.right (by omega))).bind ?_
      rintro h' ⟨howns, hkeep⟩
      exact .some ⟨rfl, howns, hkeep⟩

end Insert

/-! ### Runs -/

/-- The array is sorted, the traversal wrote all of it, and each node was freed once. -/
structure Sorted (h : Heap (NodeField Int)) (arr : List Int) (r : TreeRun) : Prop where
  sorts : Sorts arr r.arr
  written : ∀ n, r.written = some n → n = arr.length
  freed : OwnsAll h.blocks.length [] r.heap

section Run
open TreeSort
variable {h : Heap (NodeField Int)} {t : BinaryTree (Nat × List Int)} {n : Nat} {arr : List Int} {i : Int} {fuel : Nat}

/-- The values of the tree are those of the first `i` elements. -/
structure Built (n : Nat) (arr : List Int) (i : Int) (t : BinaryTree (Nat × List Int))
    (s : Heap (NodeField Int) × Ptr) : Prop where
  root : s.2 = rootOf t
  owns : OwnsTree 1 n [] t s.1
  search : Search value t
  few : t.inorder.length ≤ i
  values : ∀ v, v ∈ t.inorder.map value ↔ v ∈ segment arr 0 i

theorem Built.turn {s : Heap (NodeField Int) × Ptr} (hb : Built n arr i t s) (hi : 0 ≤ i) (hi' : i < arr.length)
    (hfuel : arr.length < fuel) :
    Ends (insertNode fuel s.2 (get arr i) s.1) fun s' => ∃ t', Built n arr (i + 1) t' s' := by
  have hfew := hb.few
  have hends := insertNode_ends hb.owns (get arr i) (show t.inorder.length < fuel by omega)
  rw [← hb.root] at hends
  refine hends.mono fun s' ⟨hroot, howns, _⟩ => ⟨_, hroot, howns, hb.search.insert, ?_, fun v => ?_⟩
  · have := length_insert_le value (s.1.blocks.length, [get arr i]) t
    omega
  · rw [mem_keys_insert, hb.values, segment_concat (Int.le_refl 0) hi hi', List.mem_append, List.mem_singleton, or_comm]
    rfl

theorem built_ends (hf : h.fault = false) (hfuel : arr.length < fuel) :
    Ends (forUp 0 arr.length (fun i s => do insertNode fuel s.2 (← load arr i) s.1) (h, none)) fun s =>
      ∃ t, Built h.blocks.length arr arr.length t s := by
  refine forUp_rule (fun i s => ∃ t, Built h.blocks.length arr i t s) (Int.natCast_nonneg _) ?_ ?_
  · refine ⟨nil, rfl, .start hf, List.Pairwise.nil, Int.le_refl 0, fun v => ?_⟩
    rw [segment_of_le (Int.le_refl 0)]
    rfl
  · rintro i s hi hi' ⟨t, hb⟩
    rw [load_eq ⟨hi, hi'⟩]
    exact hb.turn hi hi' hfuel

/-- What the traversal and the release of a tree leave. -/
structure Traversed (h : Heap (NodeField Int)) (arr values : List Int) (r : TreeRun) : Prop where
  arr : r.arr = values ++ arr.drop values.length
  written : r.written = some (values.length : Int)
  freed : OwnsAll h.blocks.length [] r.heap

theorem treeSort_ends (hf : h.fault = false) (hlen : 1 < arr.length) (hfuel : arr.length < fuel) :
    Ends (treeSort fuel arr arr.length h) fun r => ∃ values : List Int, values.Pairwise (· < ·) ∧
      (∀ v, v ∈ values ↔ v ∈ arr) ∧ Traversed h arr values r := by
  rw [treeSort, if_neg (by omega)]
  refine (built_ends hf hfuel).bind fun s ⟨t, hb⟩ => ?_
  obtain ⟨h', root⟩ := s
  obtain ⟨rfl, howns, hsearch, hfew, hvalues⟩ := hb
  rw [segment_all] at hvalues
  have hroom : t.inorder.length ≤ arr.length := by omega
  have htraversal : inorderTraversal fuel (rootOf t) h' arr 0 =
      some (t.inorder.map value ++ arr.drop t.inorder.length, (t.inorder.length : Int)) :=
    traversal_eq howns.tree (by omega) hroom
  simp only [htraversal, Option.bind_eq_bind, Option.bind_some]
  refine (freeNodes_owns howns (by omega)).bind fun h₁ ⟨hfreed, _⟩ => ?_
  refine .some ⟨t.inorder.map value, hsearch, hvalues, ?_, ?_, hfreed⟩
  · rw [List.length_map]
  · rw [List.length_map]

/-- The values of the tree are the whole array exactly when no value comes twice. -/
theorem Traversed.sorted_iff {values : List Int} {r : TreeRun} (h' : Traversed h arr values r)
    (hsorted : values.Pairwise (· < ·)) (hvalues : ∀ v, v ∈ values ↔ v ∈ arr) : Sorted h arr r ↔ arr.Nodup := by
  have hnodup : values.Nodup := hsorted.imp fun hlt => Int.ne_of_lt hlt
  constructor
  · intro hr
    have hlen : values.length = arr.length := Int.ofNat.inj (hr.written _ h'.written)
    have hsub : values.Subperm arr := List.subperm_of_subset hnodup fun v hv => (hvalues v).mp hv
    exact (hsub.perm_of_length_le (Nat.le_of_eq hlen.symm)).nodup_iff.mp hnodup
  · intro harr
    have hperm : values.Perm arr := (List.perm_ext_iff_of_nodup hnodup harr).mpr hvalues
    refine ⟨?_, fun n hn => ?_, h'.freed⟩
    · rw [h'.arr, hperm.length_eq, List.drop_length, List.append_nil]
      exact ⟨hsorted.imp fun hlt => Int.le_of_lt hlt, hperm⟩
    · rw [h'.written] at hn
      rw [← Option.some.inj hn, hperm.length_eq]

theorem nodup_of_length_le (h : arr.length ≤ 1) : arr.Nodup := by
  match arr, h with
  | [], _ => exact List.nodup_nil
  | [v], _ => exact List.pairwise_singleton _ v

theorem treeSort_sorts_iff (hf : h.fault = false) (arr : List Int) :
    Halts (fun fuel => treeSort fuel arr arr.length h) (Sorted h arr) ↔ arr.Nodup := by
  rcases Nat.lt_or_ge 1 arr.length with hlen | hlen
  · have hhalts : Halts (fun fuel => treeSort fuel arr arr.length h) fun r => ∃ values : List Int,
        values.Pairwise (· < ·) ∧ (∀ v, v ∈ values ↔ v ∈ arr) ∧ Traversed h arr values r :=
      ⟨arr.length + 1, fun fuel hfuel => treeSort_ends hf hlen hfuel⟩
    refine hhalts.iff ?_
    rintro r ⟨values, hsorted, hvalues, htraversed⟩
    exact htraversed.sorted_iff hsorted hvalues
  · refine iff_of_true ⟨0, fun fuel _ => ⟨⟨arr, none, h⟩, if_pos (by omega), ?_, nofun, .start hf⟩⟩ ?_
    · exact sorts_of_length_le hlen
    · exact nodup_of_length_le hlen

end Run
end Minitalk.Libft.Sort
