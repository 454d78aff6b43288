import Mathlib.Data.Tree.Basic
import Mathlib.Order.BooleanAlgebra.Basic

/-! # Search trees by their elements in order

A tree is a search tree when the keys of its elements in order increase. An element whose key is there already is not
inserted. -/

namespace BinaryTree
variable {α κ : Type}

def inorder : BinaryTree α → List α
  | nil => []
  | node x l r => inorder l ++ x :: inorder r

/-- The element behind all others. -/
def addLast (x : α) : BinaryTree α → BinaryTree α
  | nil => node x nil nil
  | node y l r => node y l (addLast x r)

theorem inorder_addLast (x : α) (t : BinaryTree α) : (addLast x t).inorder = t.inorder ++ [x] := by
  induction t with
  | nil => rfl
  | node y l r _ ih => rw [addLast, inorder, inorder, ih, List.append_assoc, List.cons_append]

section Search
variable [LinearOrder κ] {key : α → κ} {x : α} {t : BinaryTree α}

def insert (key : α → κ) (x : α) : BinaryTree α → BinaryTree α
  | nil => node x nil nil
  | node y l r =>
    if key x < key y then node y (insert key x l) r
    else if key y < key x then node y l (insert key x r)
    else node y l r

def Search (key : α → κ) (t : BinaryTree α) : Prop := (t.inorder.map key).Pairwise (· < ·)

/-- A key that is there is not inserted, and a new one is. -/
theorem inorder_insert (key : α → κ) (x : α) (t : BinaryTree α) :
    (insert key x t = t ∧ key x ∈ t.inorder.map key) ∨ (insert key x t).inorder.Perm (x :: t.inorder) := by
  induction t with
  | nil => exact Or.inr (.refl _)
  | node y l r ihl ihr =>
    rw [insert]
    split
    · rcases ihl with ⟨hsame, hmem⟩ | hperm
      · exact Or.inl ⟨by rw [hsame], by simp [inorder, List.mem_append.mpr (Or.inl hmem)]⟩
      · exact Or.inr (hperm.append_right _)
    · split
      · rcases ihr with ⟨hsame, hmem⟩ | hperm
        · exact Or.inl ⟨by rw [hsame], by simp [inorder, hmem]⟩
        · refine Or.inr ((List.Perm.append_left _ (hperm.cons y)).trans ?_)
          exact (List.Perm.append_left _ (.swap x y _)).trans List.perm_middle
      · rename_i hle hge
        have heq : key x = key y := le_antisymm (not_lt.mp hge) (not_lt.mp hle)
        exact Or.inl ⟨rfl, by simp [inorder, heq]⟩

theorem length_insert_le (key : α → κ) (x : α) (t : BinaryTree α) :
    (insert key x t).inorder.length ≤ t.inorder.length + 1 := by
  rcases inorder_insert key x t with ⟨hsame, -⟩ | hperm
  · rw [hsame]
    exact Nat.le_succ _
  · exact Nat.le_of_eq hperm.length_eq

theorem mem_keys_insert {k : κ} : k ∈ (insert key x t).inorder.map key ↔ k = key x ∨ k ∈ t.inorder.map key := by
  rcases inorder_insert key x t with ⟨hsame, hmem⟩ | hperm
  · rw [hsame, iff_or_self]
    rintro rfl
    exact hmem
  · rw [(hperm.map key).mem_iff, List.map_cons, List.mem_cons]

theorem search_node {y : α} {l r : BinaryTree α} : Search key (node y l r) ↔
    Search key l ∧ Search key r ∧ (∀ k ∈ l.inorder.map key, k < key y) ∧ ∀ k ∈ r.inorder.map key, key y < k := by
  rw [Search, inorder, List.map_append, List.map_cons, List.pairwise_append, List.pairwise_cons]
  constructor
  · rintro ⟨hl, ⟨hbehind, hr⟩, hcross⟩
    exact ⟨hl, hr, fun k hk => hcross k hk _ List.mem_cons_self, hbehind⟩
  · rintro ⟨hl, hr, hbefore, hbehind⟩
    refine ⟨hl, ⟨hbehind, hr⟩, fun k hk m hm => ?_⟩
    rcases List.mem_cons.mp hm with rfl | hm
    · exact hbefore k hk
    · exact lt_trans (hbefore k hk) (hbehind m hm)

theorem Search.insert (h : Search key t) : Search key (insert key x t) := by
  induction t with
  | nil => exact List.pairwise_singleton _ _
  | node y l r ihl ihr =>
    obtain ⟨hl, hr, hbefore, hbehind⟩ := search_node.mp h
    rw [BinaryTree.insert]
    split
    · rename_i hlt
      refine search_node.mpr ⟨ihl hl, hr, fun k hk => ?_, hbehind⟩
      rcases mem_keys_insert.mp hk with rfl | hk
      · exact hlt
      · exact hbefore k hk
    · split
      · rename_i hgt
        refine search_node.mpr ⟨hl, ihr hr, hbefore, fun k hk => ?_⟩
        rcases mem_keys_insert.mp hk with rfl | hk
        · exact hgt
        · exact hbehind k hk
      · exact h

end Search
end BinaryTree
