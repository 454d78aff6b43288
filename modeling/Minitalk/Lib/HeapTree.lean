import Minitalk.Lib.Ownership
import Minitalk.Lib.Program
import Minitalk.Lib.SearchTree

/-! # Binary trees of nodes in a C heap

A node is a block that begins with its data, behind which lie the pointers to its left and to its right tree. A tree is
given by the address and the data of each node. -/

namespace Heap
open BinaryTree Program
variable {α : Type}

/-- What lies in a heap of values and pointers. -/
inductive NodeField (α : Type) where
  | data (v : α)
  | ptr (p : Ptr)
deriving DecidableEq

instance : Inhabited (NodeField α) := ⟨.ptr none⟩

def NodeField.toPtr : NodeField α → Ptr
  | ptr p => p
  | data _ => none

def NodeField.toData [Inhabited α] : NodeField α → α
  | data v => v
  | ptr _ => default

/-- The cells of a node. -/
def fields (vs : List α) (left right : Ptr) : List (NodeField α) := vs.map NodeField.data ++ [.ptr left, .ptr right]

/-- A new node without trees. -/
def newNode (vs : List α) (h : Heap (NodeField α)) : Heap (NodeField α) × Ptr :=
  let (h, p) := h.malloc (vs.length + 2)
  (h.write p 0 (fields vs none none), p)

/-- What is done for each node, in order, as far as the fuel goes. -/
def walkInOrder {σ : Type} (k : Nat) (visit : Ptr → σ → Option σ) (h : Heap (NodeField α)) : Nat → Ptr → σ → Option σ
  | 0, _, _ => none
  | fuel + 1, p, s =>
    if p = none then some s
    else do
      let s ← walkInOrder k visit h fuel (← h.peek p k).toPtr s
      let s ← visit p s
      walkInOrder k visit h fuel (← h.peek p (k + 1)).toPtr s

/-- Both trees of a node are freed, then the node. -/
def freeNodes (k : Nat) : Nat → Ptr → Heap (NodeField α) → Option (Heap (NodeField α))
  | 0, _, _ => none
  | fuel + 1, p, h =>
    if p = none then some h
    else do
      let h ← freeNodes k fuel (← h.peek p k).toPtr h
      let h ← freeNodes k fuel (← h.peek p (k + 1)).toPtr h
      some (h.free p)

def rootOf : BinaryTree (Nat × List α) → Ptr
  | nil => none
  | node x _ _ => some x.1

def addresses (t : BinaryTree (Nat × List α)) : List Nat := t.inorder.map Prod.fst

/-- Each node has `k` values, is live and points to its trees. -/
def TreeAt (k : Nat) (h : Heap (NodeField α)) : BinaryTree (Nat × List α) → Prop
  | nil => True
  | node x l r => x.2.length = k ∧ h.At (some x.1) ((fields x.2 (rootOf l) (rootOf r)).map some) ∧ TreeAt k h l ∧
    TreeAt k h r

/-- The nodes of a tree are live and in different blocks, and so are the blocks of `as`. -/
structure OwnsTree (k n : Nat) (as : List Nat) (t : BinaryTree (Nat × List α)) (h : Heap (NodeField α)) : Prop where
  tree : TreeAt k h t
  owns : OwnsAll n (addresses t ++ as) h
  nodup : (addresses t ++ as).Nodup
  base : n ≤ h.blocks.length

section Tree
variable {k n : Nat} {as bs : List Nat} {h h' : Heap (NodeField α)} {t l r : BinaryTree (Nat × List α)}
  {x : Nat × List α} {vs : List α} {p q : Ptr}

theorem addresses_node : addresses (node x l r) = addresses l ++ x.1 :: addresses r := by
  rw [addresses, inorder, List.map_append, List.map_cons]
  rfl

theorem TreeAt.keepsOff (ht : TreeAt k h t) (hk : KeepsOff bs h h') (hdisj : ∀ a ∈ addresses t, a ∉ bs) :
    TreeAt k h' t := by
  induction t with
  | nil => trivial
  | node x l r ihl ihr =>
    rw [addresses_node] at hdisj
    obtain ⟨hlen, hat, hl, hr⟩ := ht
    refine ⟨hlen, hk _ (hdisj _ (by simp)) _ hat, ihl hl fun a ha => hdisj a (by simp [ha]), ihr hr fun a ha => ?_⟩
    exact hdisj a (by simp [ha])

theorem OwnsTree.start (hf : h.fault = false) : OwnsTree k h.blocks.length [] nil h :=
  ⟨trivial, .start hf, List.nodup_nil, Nat.le_refl _⟩

theorem addresses_node_perm (x : Nat × List α) (l r : BinaryTree (Nat × List α)) (as : List Nat) :
    (addresses (node x l r) ++ as).Perm (addresses r ++ (x.1 :: addresses l ++ as)) := by
  rw [addresses_node, ← List.append_assoc]
  refine List.Perm.append_right as ?_
  calc
    (addresses l ++ x.1 :: addresses r).Perm (x.1 :: (addresses l ++ addresses r)) := List.perm_middle
    _ |>.Perm (x.1 :: (addresses r ++ addresses l)) := List.perm_append_comm.cons _
    _ |>.Perm (addresses r ++ x.1 :: addresses l) := List.perm_middle.symm

/-- A tree under other nodes. -/
theorem OwnsTree.left (ho : OwnsTree k n as (node x l r) h) : OwnsTree k n (x.1 :: addresses r ++ as) l h where
  tree := ho.tree.2.2.1
  owns := by simpa [addresses_node] using ho.owns
  nodup := by simpa [addresses_node] using ho.nodup
  base := ho.base

theorem OwnsTree.right (ho : OwnsTree k n as (node x l r) h) : OwnsTree k n (x.1 :: addresses l ++ as) r h where
  tree := ho.tree.2.2.2
  owns := ho.owns.congr fun _ => (addresses_node_perm x l r as).mem_iff
  nodup := (addresses_node_perm x l r as).nodup_iff.mp ho.nodup
  base := ho.base

theorem OwnsTree.root (ho : OwnsTree k n as (node x l r) h) :
    h.At (some x.1) ((fields x.2 (rootOf l) (rootOf r)).map some) := ho.tree.2.1

/-- A tree shares no address with the other nodes. -/
theorem OwnsTree.disjoint (ho : OwnsTree k n as t h) {a : Nat} (ha : a ∈ addresses t) : a ∉ as := fun has =>
  (List.nodup_append.mp ho.nodup).2.2 a ha a has rfl

/-! ### The fields of a node -/

theorem getElem?_fields_left (vs : List α) (p q : Ptr) :
    ((fields vs p q).map some)[vs.length]? = some (some (.ptr p)) := by
  simp [fields]

theorem getElem?_fields_right (vs : List α) (p q : Ptr) :
    ((fields vs p q).map some)[vs.length + 1]? = some (some (.ptr q)) := by
  simp [fields]

theorem set_fields_left (vs : List α) (p q : Ptr) (p' : Ptr) :
    ((fields vs p q).map some).set vs.length (some (.ptr p')) = (fields vs p' q).map some := by
  simp [fields]

theorem set_fields_right (vs : List α) (p q : Ptr) (q' : Ptr) :
    ((fields vs p q).map some).set (vs.length + 1) (some (.ptr q')) = (fields vs p q').map some := by
  simp [fields]

theorem length_fields (vs : List α) (p q : Ptr) : ((fields vs p q).map some).length = vs.length + 2 := by
  simp [fields]

theorem TreeAt.peek_left (ht : TreeAt k h (node x l r)) : h.peek (some x.1) k = some (.ptr (rootOf l)) := by
  obtain ⟨rfl, hat, -⟩ := ht
  exact hat.peek_of_getElem? (getElem?_fields_left _ _ _)

theorem TreeAt.peek_right (ht : TreeAt k h (node x l r)) : h.peek (some x.1) (k + 1) = some (.ptr (rootOf r)) := by
  obtain ⟨rfl, hat, -⟩ := ht
  exact hat.peek_of_getElem? (getElem?_fields_right _ _ _)

theorem At.peek_data {a i : Nat} {v : α} (hat : h.At (some a) ((fields vs p q).map some)) (hv : vs[i]? = some v) :
    h.peek (some a) i = some (.data v) := by
  obtain ⟨hi, -⟩ := List.getElem?_eq_some_iff.mp hv
  refine hat.peek_of_getElem? ?_
  rw [fields, List.map_append, List.getElem?_append_left (by simpa using hi)]
  simp [hv]

/-- Every node is live. -/
theorem TreeAt.exists_at (ht : TreeAt k h t) (hx : x ∈ t.inorder) :
    x.2.length = k ∧ ∃ p q, h.At (some x.1) ((fields x.2 p q).map some) := by
  induction t with
  | nil => cases hx
  | node y l r ihl ihr =>
    obtain ⟨hlen, hat, hl, hr⟩ := ht
    rcases List.mem_append.mp hx with hx | hx
    · exact ihl hl hx
    · rcases List.mem_cons.mp hx with rfl | hx
      · exact ⟨hlen, _, _, hat⟩
      · exact ihr hr hx

/-! ### Growing trees -/

theorem newNode_owns (ho : OwnsAll n as h) (hn : n ≤ h.blocks.length) (has : as.Nodup) (vs : List α) :
    ∃ h', newNode vs h = (h', some h.blocks.length) ∧ OwnsTree vs.length n as (node (h.blocks.length, vs) nil nil) h' ∧
      KeepsOff [] h h' := by
  obtain ⟨h₁, hmalloc, hat, -, hkeep, hlen⟩ := exists_malloc ho.sound (vs.length + 2)
  have hfit : (fields vs none none).length = vs.length + 2 := by simp [fields]
  obtain ⟨hwritten, hoff⟩ := hat.write (fields vs none none) (i := 0) (by simp [hfit])
  have hcells : (List.replicate (vs.length + 2) none).take 0 ++ (fields vs none none).map some ++
      (List.replicate (vs.length + 2) none).drop (0 + (fields vs none none).length) =
      (fields vs none none).map some := by
    rw [hfit, List.take_zero, List.nil_append, List.drop_of_length_le (by simp), List.append_nil]
  rw [hcells] at hwritten
  have howned : OwnsAll n (h.blocks.length :: as) h₁ := by
    have hmallocs := ho.malloc hn (vs.length + 2)
    rwa [hmalloc] at hmallocs
  refine ⟨_, by rw [newNode, hmalloc], ⟨⟨rfl, hwritten, trivial, trivial⟩, ?_, ?_, ?_⟩, hkeep [] _ hoff⟩
  · exact howned.write hat _ (by simp [hfit])
  · exact List.nodup_cons.mpr ⟨ho.fresh, has⟩
  · rw [length_write, hlen]
    omega

/-- A field of a node is set when the trees are there. -/
theorem OwnsTree.relink {cells : List (Option (NodeField α))} {i : Nat} (hlen : x.2.length = k)
    (hat : h.At (some x.1) cells) (hi : i < cells.length)
    (hcells : cells.set i (some (.ptr p)) = (fields x.2 (rootOf l) (rootOf r)).map some)
    (hl : TreeAt k h l) (hr : TreeAt k h r) (howns : OwnsAll n (addresses (node x l r) ++ as) h)
    (hnodup : (addresses (node x l r) ++ as).Nodup) (hn : n ≤ h.blocks.length) :
    OwnsTree k n as (node x l r) (h.store (some x.1) i (.ptr p)) ∧
      KeepsOff [x.1] h (h.store (some x.1) i (.ptr p)) := by
  have hoff : KeepsOff [x.1] h (h.store (some x.1) i (.ptr p)) := fun b hb _ hat' =>
    hat.set_ne hi hat' (fun heq => hb (by simpa using heq.symm)) _
  have hset := hat.set hi (.ptr p)
  rw [hcells] at hset
  have htree := (List.nodup_append.mp hnodup).1
  rw [addresses_node] at htree
  obtain ⟨-, hright, hcross⟩ := List.nodup_append.mp htree
  refine ⟨⟨⟨hlen, hset, hl.keepsOff hoff fun a ha hmem => ?_, hr.keepsOff hoff fun a ha hmem => ?_⟩,
    howns.store hat hi _,
    hnodup, by rwa [length_store]⟩, hoff⟩
  · exact hcross a ha x.1 List.mem_cons_self (List.mem_singleton.mp hmem)
  · exact (List.nodup_cons.mp hright).1 (List.mem_singleton.mp hmem ▸ ha)

/-- The left tree of a node is replaced. -/
theorem OwnsTree.setLeft (ho : OwnsTree k n as (node x l r) h) {l' : BinaryTree (Nat × List α)}
    (ho' : OwnsTree k n (x.1 :: addresses r ++ as) l' h') (hk : KeepsOff (addresses l) h h') :
    OwnsTree k n as (node x l' r) (h'.store (some x.1) k (.ptr (rootOf l'))) ∧
      KeepsOff (addresses (node x l r)) h (h'.store (some x.1) k (.ptr (rootOf l'))) := by
  obtain ⟨hlen, hroot, hl, hr⟩ := ho.tree
  have hx : x.1 ∉ addresses l := fun hmem => ho.left.disjoint hmem (by simp)
  have hsame : addresses (node x l' r) ++ as = addresses l' ++ (x.1 :: addresses r ++ as) := by simp [addresses_node]
  obtain ⟨hnew, hoff⟩ := OwnsTree.relink (i := k) (p := rootOf l') hlen (hk _ hx _ hroot)
    (by rw [length_fields]; omega) (by rw [← hlen, set_fields_left]) ho'.tree
    (hr.keepsOff hk fun a har hal => ho.left.disjoint hal (by simp [har])) (hsame ▸ ho'.owns) (hsame ▸ ho'.nodup)
    ho'.base
  exact ⟨hnew, (hk.mono (by simp [addresses_node])).trans (hoff.mono (by simp [addresses_node]))⟩

theorem OwnsTree.setRight (ho : OwnsTree k n as (node x l r) h) {r' : BinaryTree (Nat × List α)}
    (ho' : OwnsTree k n (x.1 :: addresses l ++ as) r' h') (hk : KeepsOff (addresses r) h h') :
    OwnsTree k n as (node x l r') (h'.store (some x.1) (k + 1) (.ptr (rootOf r'))) ∧
      KeepsOff (addresses (node x l r)) h (h'.store (some x.1) (k + 1) (.ptr (rootOf r'))) := by
  obtain ⟨hlen, hroot, hl, hr⟩ := ho.tree
  have hx : x.1 ∉ addresses r := fun hmem => ho.right.disjoint hmem (by simp)
  have hperm := addresses_node_perm x l r' as
  obtain ⟨hnew, hoff⟩ := OwnsTree.relink (i := k + 1) (p := rootOf r') hlen (hk _ hx _ hroot)
    (by rw [length_fields]; omega) (by rw [← hlen, set_fields_right])
    (hl.keepsOff hk fun a hal har => ho.right.disjoint har (by simp [hal])) ho'.tree
    (ho'.owns.congr fun _ => hperm.mem_iff.symm) (hperm.nodup_iff.mpr ho'.nodup) ho'.base
  refine ⟨hnew, (hk.mono ?_).trans (hoff.mono (by simp [addresses_node]))⟩
  exact fun a ha => by simp [addresses_node, ha]

/-! ### Walks -/

theorem walkInOrder_eq {σ : Type} {visit : Ptr → σ → Option σ} (ht : TreeAt k h t) {fuel : Nat}
    (hfuel : t.inorder.length < fuel) (s : σ) :
    walkInOrder k visit h fuel (rootOf t) s = t.inorder.foldlM (fun s x => visit (some x.1) s) s := by
  induction t generalizing fuel s with
  | nil =>
    obtain ⟨fuel, rfl, -⟩ := exists_fuel hfuel
    rfl
  | node x l r ihl ihr =>
    obtain ⟨fuel, rfl, hfuel⟩ := exists_fuel hfuel
    rw [inorder, List.length_append, List.length_cons] at hfuel
    have hleft := fun s => ihl ht.2.2.1 (show l.inorder.length < fuel by omega) s
    have hright := fun s => ihr ht.2.2.2 (show r.inorder.length < fuel by omega) s
    rw [walkInOrder, rootOf, if_neg (by simp), ht.peek_left, inorder, List.foldlM_append]
    simp only [ht.peek_right, Option.bind_eq_bind, Option.bind_some, NodeField.toPtr, hleft, hright, List.foldlM_cons]

/-- All nodes of a tree are freed once. -/
theorem freeNodes_owns (ho : OwnsTree k n as t h) {fuel : Nat} (hfuel : t.inorder.length < fuel) :
    Ends (freeNodes k fuel (rootOf t) h) fun h' => OwnsAll n as h' ∧ KeepsOff (addresses t) h h' := by
  induction t generalizing fuel h as with
  | nil =>
    obtain ⟨fuel, rfl, -⟩ := exists_fuel hfuel
    exact .some ⟨ho.owns, fun _ _ _ hat => hat⟩
  | node x l r ihl ihr =>
    obtain ⟨fuel, rfl, hfuel⟩ := exists_fuel hfuel
    rw [inorder, List.length_append, List.length_cons] at hfuel
    rw [freeNodes, rootOf, if_neg (by simp), ho.tree.peek_left]
    refine (ihl ho.left (by omega)).bind ?_
    rintro h₁ ⟨howns₁, hkeep₁⟩
    have hx : x.1 ∉ addresses l := fun hmem => ho.left.disjoint hmem (by simp)
    have hr := ho.tree.2.2.2.keepsOff hkeep₁ fun a har hal => ho.left.disjoint hal (by simp [har])
    have hroot := hkeep₁ _ hx _ ho.root
    have hpeek : h₁.peek (some x.1) (k + 1) = some (.ptr (rootOf r)) := by
      rw [← ho.tree.1]
      exact hroot.peek_of_getElem? (getElem?_fields_right _ _ _)
    have hperm : (x.1 :: addresses r ++ as).Perm (addresses r ++ x.1 :: as) := List.perm_middle.symm
    have hright : OwnsTree k n (x.1 :: as) r h₁ :=
      ⟨hr, howns₁.congr fun _ => hperm.mem_iff, hperm.nodup_iff.mp (List.nodup_append.mp ho.left.nodup).2.1, by
        have := howns₁.inside x.1 (by simp)
        omega⟩
    rw [hpeek]
    refine (ihr hright (by omega)).bind ?_
    rintro h₂ ⟨howns₂, hkeep₂⟩
    have hroot₂ := hkeep₂ _ (fun hmem => hright.disjoint hmem (by simp)) _ hroot
    refine .some ⟨howns₂.free fun hmem => ?_, ?_⟩
    · exact (List.nodup_cons.mp (List.nodup_append.mp hright.nodup).2.1).1 hmem
    · refine ((hkeep₁.mono ?_).trans (hkeep₂.mono ?_)).trans (hroot₂.keepsOff_free.mono (by simp [addresses_node]))
      · simp [addresses_node]
      · exact fun a ha => by simp [addresses_node, ha]

end Tree
end Heap
