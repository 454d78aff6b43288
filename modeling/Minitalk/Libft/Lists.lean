import Mathlib.Algebra.Group.Int.Defs
import Mathlib.Data.List.InsertIdx
import Minitalk.Lib.Implementation
import Minitalk.Lib.Linked
import Minitalk.Libft.SortedMerge

/-! # The linked list (`lists`)

A list is the pointer to its first node. No function gets a null `lst`, where that is the address of such a pointer;
`ft_lstclear` gets a null `del` when `del` is false. A loop that follows `next` is given as many steps as there are
blocks, and counts as a fault when it needs more. -/

namespace Minitalk.Libft.Lists
open SortedMerge
open Heap (At KeepsOff Private at_malloc diverged exists_split keepsOff_malloc length_malloc length_store)

/-! ### Nodes -/

/-- `ft_lstnew`, and `create_node` -/
def ftLstnew (mallocOk : Bool) (content : Ptr) (heap : Heap Ptr) : Heap Ptr × Ptr :=
  let (heap, newNode) := heap.tryMalloc mallocOk 3
  if newNode.isSome then ((heap.store newNode CONTENT content).store newNode NEXT none, newNode) else (heap, none)

/-- The list, whose first node changes. -/
def ftLstaddFront (lst new : Ptr) (heap : Heap Ptr) : Heap Ptr × Ptr :=
  if new.isSome then (heap.store new NEXT lst, new) else (heap, lst)

def lastLoop : Nat → Ptr → Heap Ptr → Heap Ptr × Ptr
  | 0, lst, heap => (diverged heap, lst)
  | n + 1, lst, heap =>
    let (heap, next) := heap.load lst NEXT
    if next.isSome then lastLoop n next heap else (heap, lst)

def ftLstlast (lst : Ptr) (heap : Heap Ptr) : Heap Ptr × Ptr :=
  if lst.isSome then lastLoop heap.blocks.length lst heap else (heap, none)

def ftLstaddBack (lst new : Ptr) (heap : Heap Ptr) : Heap Ptr × Ptr :=
  if new.isNone then (heap, lst)
  else if lst.isNone then (heap, new)
  else
    let (heap, node) := ftLstlast lst heap
    (heap.store node NEXT new, lst)

/-- The loop of `ft_lstsize`, whose `count` is an `int`. -/
def sizeLoop : Nat → Ptr → BitVec 32 → Heap Ptr → Heap Ptr × BitVec 32
  | _, none, count, heap => (heap, count)
  | 0, some _, count, heap => (diverged heap, count)
  | n + 1, some lst, count, heap =>
    let (heap, next) := heap.load (some lst) NEXT
    sizeLoop n next (count + 1) heap

def ftLstsize (lst : Ptr) (heap : Heap Ptr) : Heap Ptr × BitVec 32 := sizeLoop heap.blocks.length lst 0 heap

/-- The contents on which `f` was called, one after the other. -/
def iterLoop : Nat → Ptr → Heap Ptr → Heap Ptr × List Ptr
  | _, none, heap => (heap, [])
  | 0, some _, heap => (diverged heap, [])
  | n + 1, some lst, heap =>
    let (heap, content) := heap.load (some lst) CONTENT
    let (heap, next) := heap.load (some lst) NEXT
    let (heap, called) := iterLoop n next heap
    (heap, content :: called)

def ftLstiter (lst : Ptr) (heap : Heap Ptr) : Heap Ptr × List Ptr := iterLoop heap.blocks.length lst heap

/-! ### Removal -/

/-- The node is freed, after `del` was called on its content. -/
def ftLstdelone (node : Nat) (heap : Heap Ptr) : Heap Ptr × Ptr :=
  let (heap, content) := heap.load (some node) CONTENT
  (heap.free (some node), content)

/-- The contents on which `del` was called, one after the other. -/
def clearLoop : Nat → Ptr → Heap Ptr → Heap Ptr × List Ptr
  | _, none, heap => (heap, [])
  | 0, some _, heap => (diverged heap, [])
  | n + 1, some curr, heap =>
    let (heap, next) := heap.load (some curr) NEXT
    let (heap, content) := ftLstdelone curr heap
    let (heap, deleted) := clearLoop n next heap
    (heap, content :: deleted)

/-- The list that is left, and the contents on which `del` was called. -/
def ftLstclear (del : Bool) (lst : Ptr) (heap : Heap Ptr) : Heap Ptr × Ptr × List Ptr :=
  if lst.isNone || !del then (heap, lst, [])
  else
    let (heap, deleted) := clearLoop heap.blocks.length lst heap
    (heap, none, deleted)

def deleteHead (head : Ptr) (heap : Heap Ptr) : Heap Ptr × Ptr :=
  if head.isNone then (heap, none)
  else
    let (heap, newHead) := heap.load head NEXT
    (heap.free head, newHead)

/-- `while (curr && ++i < pos - 1) curr = curr->next;` -/
def positionLoop (pos : Int) : Nat → Int → Ptr → Heap Ptr → Heap Ptr × Ptr
  | _, _, none, heap => (heap, none)
  | 0, i, some curr, heap => if i + 1 < pos - 1 then (diverged heap, none) else (heap, some curr)
  | n + 1, i, some curr, heap =>
    if i + 1 < pos - 1 then
      let (heap, next) := heap.load (some curr) NEXT
      positionLoop pos n (i + 1) next heap
    else (heap, some curr)

def deleteatposition (pos : Int) (head : Ptr) (heap : Heap Ptr) : Heap Ptr × Ptr :=
  if head.isNone then (heap, none)
  else if pos = 1 then
    let (heap, next) := heap.load head NEXT
    (heap.free head, next)
  else
    let (heap, curr) := positionLoop pos heap.blocks.length 0 head heap
    if curr.isNone then (heap, head)
    else
      let (heap, temp) := heap.load curr NEXT
      if temp.isNone then (heap, head)
      else
        let (heap, next) := heap.load temp NEXT
        let heap := heap.store curr NEXT next
        (heap.free temp, head)

/-! ### What the functions do to a list -/

section Chains
variable {h h₀ : Heap Ptr} {p q next : Ptr} {a : Nat} {n : Node} {xs ys ns : List Node} {as : List Nat}

theorem load_content {prev : Option Ptr} (hat : h.At (some a) [some q, some next, prev]) :
    h.load (some a) CONTENT = (h, q) := hat.load_of_getElem? rfl

/-- Distinct live nodes are no more than there are blocks. -/
theorem chain_length_le (hc : Chain h p ns) : ns.length ≤ h.blocks.length := by
  have hsub : addresses ns ⊆ List.range h.blocks.length := fun a ha => by
    obtain ⟨cells, hat⟩ := hc.live ha
    exact List.mem_range.mpr hat.lt
  simpa [addresses] using (List.subperm_of_subset hc.nodup hsub).length_le

/-- The link behind a node is replaced. -/
theorem chain_relink (xs : List Node) (hc : Chain h p (xs ++ n :: ys)) {zs : List Node} (hz : Chain h q zs)
    (hn : n.1 ∉ addresses zs) :
    Chain (h.store (some n.1) NEXT q) p (xs ++ n :: zs) ∧ KeepsOff [n.1] h (h.store (some n.1) NEXT q) := by
  induction xs generalizing p with
  | nil =>
    obtain ⟨rfl, next, prev, hat, -⟩ := hc
    obtain ⟨hat', hkeep⟩ := At.stores [some n.2] hat q
    exact ⟨⟨rfl, q, prev, hat', hz.keep hkeep fun a ha hmem => hn (List.mem_singleton.mp hmem ▸ ha)⟩, hkeep⟩
  | cons x xs ih =>
    have hnodup := hc.nodup
    obtain ⟨rfl, next, prev, hat, hrest⟩ := hc
    obtain ⟨hchain, hkeep⟩ := ih hrest
    have hne : x.1 ∉ [n.1] := fun hmem => (List.nodup_cons.mp hnodup).1 (by
      rw [List.mem_singleton.mp hmem]
      simp)
    exact ⟨⟨rfl, next, prev, hkeep x.1 hne _ hat, hchain⟩, hkeep⟩

theorem private_relink (xs : List Node) (hp : Private h₀ as h) (hc : Chain h p (xs ++ n :: ys)) (hn : n.1 ∈ as)
    (q : Ptr) : Private h₀ as (h.store (some n.1) NEXT q) := by
  obtain ⟨-, next, prev, hat, -⟩ := hc.split
  exact hp.store [some n.2] hn hat q

theorem lastLoop_eq (hc : Chain h p (xs ++ [n])) {fuel : Nat} (hfuel : xs.length < fuel) :
    lastLoop fuel p h = (h, some n.1) := by
  induction xs generalizing p fuel with
  | nil =>
    obtain ⟨fuel, rfl⟩ := Nat.exists_eq_add_of_lt hfuel
    obtain ⟨rfl, next, prev, hat, rfl⟩ := hc
    simp [lastLoop, load_next hat]
  | cons x xs ih =>
    obtain ⟨fuel, rfl⟩ := Nat.exists_eq_add_of_lt hfuel
    obtain ⟨rfl, next, prev, hat, hrest⟩ := hc
    have hsome : next.isSome = true := by
      rw [hrest.head_isSome]
      simp
    simp only [lastLoop, load_next hat, hsome, if_true]
    exact ih hrest (by simp only [List.length_cons] at hfuel ⊢; omega)

theorem ftLstlast_eq (hc : Chain h p (xs ++ [n])) : ftLstlast p h = (h, some n.1) := by
  have hsome : p.isSome = true := by
    rw [hc.head_isSome]
    simp
  have hlen := chain_length_le hc
  rw [List.length_append, List.length_singleton] at hlen
  rw [ftLstlast, if_pos hsome, lastLoop_eq hc (by omega)]

/-- A list with all that it owns. -/
structure Holds (h₀ : Heap Ptr) (h : Heap Ptr) (p : Ptr) (ns : List Node) : Prop where
  chain : Chain h p ns
  owns : Private h₀ (addresses ns) h

/-- A new node that is in no list yet. -/
theorem Holds.new (hl : Holds h₀ h p ns) (content : Ptr) :
    ∃ h' a, ftLstnew true content h = (h', some a) ∧ Chain h' p ns ∧ Chain h' (some a) [(a, content)] ∧
      Private h₀ (a :: addresses ns) h' := by
  have hat : (h.malloc 3).1.At (some h.blocks.length) ([] ++ none :: [none, none]) := at_malloc hl.owns.owns.sound 3
  obtain ⟨hat₁, hkeep₁⟩ := At.stores [] hat content
  obtain ⟨hat₂, hkeep₂⟩ := At.stores [some content] hat₁ none
  have hfresh : ∀ a ∈ addresses ns, a ∉ [h.blocks.length] := fun a ha hmem =>
    hl.owns.owns.fresh (List.mem_singleton.mp hmem ▸ ha)
  exact ⟨_, h.blocks.length, rfl, hl.chain.keep (((keepsOff_malloc _ _ _).trans hkeep₁).trans hkeep₂) hfresh,
    ⟨rfl, none, none, hat₂, rfl⟩,
    ((hl.owns.malloc 3).store [] List.mem_cons_self hat content).store [some content] List.mem_cons_self hat₁ none⟩

theorem addFront_holds (hl : Holds h₀ h p ns) (content : Ptr) :
    ∃ h₁ h₂ a, ftLstnew true content h = (h₁, some a) ∧ ftLstaddFront p (some a) h₁ = (h₂, some a) ∧
      Holds h₀ h₂ (some a) ((a, content) :: ns) := by
  obtain ⟨h₁, a, hnew, hchain, hnode, hprivate⟩ := hl.new content
  obtain ⟨hchain', -⟩ := chain_relink [] hnode hchain (List.nodup_cons.mp hprivate.nodup).1
  exact ⟨h₁, _, a, hnew, rfl, hchain', private_relink [] hprivate hnode List.mem_cons_self p⟩

theorem addBack_holds (hl : Holds h₀ h p ns) (content : Ptr) :
    ∃ h₁ h₂ a q, ftLstnew true content h = (h₁, some a) ∧ ftLstaddBack p (some a) h₁ = (h₂, q) ∧
      Holds h₀ h₂ q (ns ++ [(a, content)]) ∧ h₂.blocks.length = h.blocks.length + 1 := by
  obtain ⟨h₁, a, hnew, hchain, hnode, hprivate⟩ := hl.new content
  have hlen : h₁.blocks.length = h.blocks.length + 1 := by
    have hfst : (ftLstnew true content h).1.blocks.length = h.blocks.length + 1 := by
      show (((h.malloc 3).1.store _ CONTENT content).store _ NEXT none).blocks.length = _
      rw [length_store, length_store, length_malloc]
    rwa [hnew] at hfst
  have hperm : (a :: addresses ns).Perm (addresses (ns ++ [(a, content)])) := by
    rw [addresses, addresses, List.map_append]
    exact (List.perm_append_singleton a _).symm
  rcases List.eq_nil_or_concat' ns with rfl | ⟨xs, n, rfl⟩
  · obtain rfl : p = none := hchain
    exact ⟨h₁, h₁, a, some a, hnew, rfl, ⟨hnode, hprivate⟩, hlen⟩
  · have hsome : p.isNone = false := by
      rw [← Option.not_isSome, hchain.head_isSome]
      simp
    have hne : n.1 ∉ addresses [(a, content)] := fun hmem => (List.nodup_cons.mp hprivate.nodup).1 (by
      rw [← show n.1 = a from List.mem_singleton.mp hmem]
      simp [addresses])
    obtain ⟨hchain', -⟩ := chain_relink xs hchain hnode hne
    refine ⟨h₁, _, a, p, hnew, by simp only [ftLstaddBack, hsome, ftLstlast_eq hchain]; rfl, ⟨?_,
      (private_relink xs hprivate hchain (by simp [addresses]) (some a)).perm hperm⟩, by rw [length_store, hlen]⟩
    rw [List.append_assoc]
    exact hchain'

theorem sizeLoop_eq (hc : Chain h p ns) {fuel : Nat} (hfuel : ns.length ≤ fuel) (count : BitVec 32) :
    sizeLoop fuel p count h = (h, count + BitVec.ofNat 32 ns.length) := by
  induction ns generalizing p fuel count with
  | nil =>
    obtain rfl : p = none := hc
    cases fuel <;> simp [sizeLoop]
  | cons n ns ih =>
    obtain ⟨fuel, rfl⟩ := Nat.exists_eq_add_of_lt hfuel
    obtain ⟨rfl, next, prev, hat, hrest⟩ := hc
    simp only [sizeLoop, load_next hat]
    rw [ih hrest (by omega), List.length_cons, Nat.add_comm ns.length, BitVec.ofNat_add, BitVec.add_assoc]
    rfl

theorem ftLstsize_eq (hc : Chain h p ns) : ftLstsize p h = (h, BitVec.ofNat 32 ns.length) := by
  rw [ftLstsize, sizeLoop_eq hc (chain_length_le hc)]
  simp

theorem iterLoop_eq (hc : Chain h p ns) {fuel : Nat} (hfuel : ns.length ≤ fuel) :
    iterLoop fuel p h = (h, ns.map Prod.snd) := by
  induction ns generalizing p fuel with
  | nil =>
    obtain rfl : p = none := hc
    cases fuel <;> rfl
  | cons n ns ih =>
    obtain ⟨fuel, rfl⟩ := Nat.exists_eq_add_of_lt hfuel
    obtain ⟨rfl, next, prev, hat, hrest⟩ := hc
    simp only [iterLoop, load_content hat, load_next hat, List.map_cons]
    rw [ih hrest (by omega)]

/-- `del` is called on every content, and every node is freed. -/
theorem clearLoop_frees (as : List Nat) (hc : Chain h p ns) (hp : Private h₀ (addresses ns ++ as) h) {fuel : Nat}
    (hfuel : ns.length ≤ fuel) :
    ∃ h', clearLoop fuel p h = (h', ns.map Prod.snd) ∧ Private h₀ as h' := by
  induction ns generalizing h p fuel with
  | nil =>
    obtain rfl : p = none := hc
    exact ⟨h, by cases fuel <;> rfl, hp⟩
  | cons n ns ih =>
    obtain ⟨fuel, rfl⟩ := Nat.exists_eq_add_of_lt hfuel
    have hnodup := hc.nodup
    obtain ⟨rfl, next, prev, hat, hrest⟩ := hc
    have hkept : Chain (h.free (some n.1)) next ns := hrest.keep hat.keepsOff_free fun a ha hmem =>
      (List.nodup_cons.mp hnodup).1 (List.mem_singleton.mp hmem ▸ ha)
    obtain ⟨h', hloop, hp'⟩ := ih hkept hp.free (show ns.length ≤ ns.length + fuel by omega)
    refine ⟨h', ?_, hp'⟩
    simp only [clearLoop, load_next hat, ftLstdelone, load_content hat, hloop, List.map_cons]

theorem clear_holds (hl : Holds h₀ h p ns) : ∃ h', ftLstclear true p h = (h', none, ns.map Prod.snd) ∧
    Holds h₀ h' none [] := by
  cases ns with
  | nil =>
    obtain rfl : p = none := hl.chain
    exact ⟨h, rfl, rfl, hl.owns⟩
  | cons n ns =>
    have hsome : p.isNone = false := by
      rw [hl.chain.1]
      rfl
    obtain ⟨h', hloop, hp⟩ := clearLoop_frees [] hl.chain (by rw [List.append_nil]; exact hl.owns)
      (chain_length_le hl.chain)
    exact ⟨h', by simp [ftLstclear, hsome, hloop], rfl, hp⟩

theorem deleteHead_holds (hl : Holds h₀ h p ns) :
    ∃ h' q, deleteHead p h = (h', q) ∧ Holds h₀ h' q ns.tail := by
  cases ns with
  | nil =>
    obtain rfl : p = none := hl.chain
    exact ⟨h, none, rfl, hl⟩
  | cons n ns =>
    have hnodup := hl.chain.nodup
    obtain ⟨⟨rfl, next, prev, hat, hrest⟩, howns⟩ := hl
    refine ⟨_, next, by simp [deleteHead, load_next hat], ?_, howns.free⟩
    exact hrest.keep hat.keepsOff_free fun a ha hmem => (List.nodup_cons.mp hnodup).1 (List.mem_singleton.mp hmem ▸ ha)

/-- The node behind which one is removed. -/
theorem positionLoop_eq (hc : Chain h p ns) {fuel : Nat} (hfuel : ns.length ≤ fuel) (pos i : Int) :
    positionLoop pos fuel i p h = (h, ns[(pos - 2 - i).toNat]?.map Prod.fst) := by
  induction ns generalizing p fuel i with
  | nil =>
    obtain rfl : p = none := hc
    cases fuel <;> rfl
  | cons n ns ih =>
    obtain ⟨fuel, rfl⟩ := Nat.exists_eq_add_of_lt hfuel
    obtain ⟨rfl, next, prev, hat, hrest⟩ := hc
    rw [positionLoop]
    by_cases hlt : i + 1 < pos - 1
    · rw [if_pos hlt, load_next hat]
      show positionLoop pos _ (i + 1) next h = _
      rw [ih hrest (by omega), show (pos - 2 - i).toNat = (pos - 2 - (i + 1)).toNat + 1 by omega,
        List.getElem?_cons_succ]
    · rw [if_neg hlt, show (pos - 2 - i).toNat = 0 by omega]
      rfl

/-- The index that `deleteatposition` removes: positions count from 1, and any below 1 stands for the second node. -/
def removed (pos : Int) : Nat := if pos = 1 then 0 else (pos - 2).toNat + 1

/-- The node `m` is taken out, and freed. -/
theorem unlink_holds {m : Node} (hl : Holds h₀ h p (xs ++ n :: m :: ys)) (hrest : Chain h next ys) :
    ∃ h', (h.store (some n.1) NEXT next).free (some m.1) = h' ∧ Holds h₀ h' p (xs ++ n :: ys) := by
  have hperm : (addresses (xs ++ n :: m :: ys)).Perm (m.1 :: addresses (xs ++ n :: ys)) := by
    rw [show xs ++ n :: m :: ys = (xs ++ [n]) ++ m :: ys by simp, show xs ++ n :: ys = (xs ++ [n]) ++ ys by simp]
    exact List.perm_middle.map Prod.fst
  obtain ⟨hm, hnodup⟩ := List.nodup_cons.mp (hperm.nodup_iff.mp hl.owns.nodup)
  have hn : n.1 ∉ addresses ys := fun hmem => by
    rw [addresses, List.map_append, List.map_cons] at hnodup
    exact (List.nodup_cons.mp (List.nodup_append.mp hnodup).2.1).1 hmem
  obtain ⟨hchain, hkeep⟩ := chain_relink xs hl.chain hrest hn
  obtain ⟨cells, hat⟩ := hl.chain.live (hperm.mem_iff.mpr List.mem_cons_self)
  have hat' := hkeep m.1 (fun hmem => hm (by rw [List.mem_singleton.mp hmem]; simp [addresses])) _ hat
  refine ⟨_, rfl, hchain.keep hat'.keepsOff_free fun a ha hmem => hm (List.mem_singleton.mp hmem ▸ ha), ?_⟩
  exact ((private_relink xs hl.owns hl.chain (by simp [addresses]) next).perm hperm).free

theorem deleteAt_holds (hl : Holds h₀ h p ns) (pos : Int) :
    ∃ h' q, deleteatposition pos p h = (h', q) ∧ Holds h₀ h' q (ns.eraseIdx (removed pos)) := by
  cases hns : ns with
  | nil =>
    subst hns
    obtain rfl : p = none := hl.chain
    exact ⟨h, none, rfl, hl⟩
  | cons n₀ ns₀ =>
    have hsome : p.isNone = false := by
      have hchain := hl.chain
      rw [hns] at hchain
      rw [hchain.1]
      rfl
    rw [← hns]
    by_cases hone : pos = 1
    · obtain ⟨h', q, hrun, hl'⟩ := deleteHead_holds hl
      refine ⟨h', q, ?_, by rwa [removed, if_pos hone, List.eraseIdx_zero]⟩
      rw [← hrun]
      simp [deleteatposition, deleteHead, hsome, hone]
    · rw [removed, if_neg hone]
      have hloop := positionLoop_eq hl.chain (chain_length_le hl.chain) pos 0
      rw [Int.sub_zero] at hloop
      generalize (pos - 2).toNat = k at hloop ⊢
      -- Without a node behind it there is nothing to remove.
      have hkeep : ns.length ≤ k + 1 → deleteatposition pos p h = (h, p) → ∃ h' q, deleteatposition pos p h = (h', q) ∧
          Holds h₀ h' q (ns.eraseIdx (k + 1)) := fun hle hrun => by
        rw [List.eraseIdx_of_length_le hle]
        exact ⟨h, p, hrun, hl⟩
      by_cases hk : k < ns.length
      · obtain ⟨xs, n, ys, hsplit, rfl⟩ := exists_split hk
        have hcurr : ns[xs.length]?.map Prod.fst = some n.1 := by simp [hsplit]
        obtain ⟨-, next, prev, hat, hrest⟩ := (hsplit ▸ hl.chain).split
        rw [hcurr] at hloop
        cases ys with
        | nil =>
          obtain rfl : next = none := hrest
          refine hkeep (by simp [hsplit]) ?_
          simp [deleteatposition, hsome, hone, hloop, load_next hat]
        | cons m ys =>
          obtain ⟨rfl, next, prev', hatm, hrest⟩ := hrest
          obtain ⟨h', hrun, hl'⟩ := unlink_holds (hsplit ▸ hl) hrest
          refine ⟨h', p, by simp [deleteatposition, hsome, hone, hloop, load_next hat, load_next hatm, hrun], ?_⟩
          rw [hsplit, List.eraseIdx_append_of_length_le (Nat.le_add_right _ 1), Nat.add_sub_cancel_left]
          exact hl'
      · refine hkeep (by omega) ?_
        simp [deleteatposition, hsome, hone, hloop, List.getElem?_eq_none (Nat.not_lt.mp hk)]

end Chains

/-! ### Sequences of operations -/

structure Memory where
  heap : Heap Ptr
  lst : Ptr := none

inductive Op where
  | addFront (content : Ptr)
  | addBack (content : Ptr)
  | deleteHead
  | deleteAt (pos : Int)
  | clear (del : Bool)
  | size
  | iter

inductive Answer where
  /-- Whether there was memory for the node. -/
  | added (b : Bool)
  | size (n : BitVec 32)
  /-- What `del` or `f` was called on. -/
  | contents (xs : List Ptr)
  | unit
deriving DecidableEq

def Op.run (mallocOk : Bool) (m : Memory) : Op → Memory × Answer
  | .addFront content =>
    let (heap, new) := ftLstnew mallocOk content m.heap
    let (heap, lst) := ftLstaddFront m.lst new heap
    ({ heap, lst }, .added new.isSome)
  | .addBack content =>
    let (heap, new) := ftLstnew mallocOk content m.heap
    let (heap, lst) := ftLstaddBack m.lst new heap
    ({ heap, lst }, .added new.isSome)
  | .deleteHead => let (heap, lst) := Lists.deleteHead m.lst m.heap; ({ heap, lst }, .unit)
  | .deleteAt pos => let (heap, lst) := deleteatposition pos m.lst m.heap; ({ heap, lst }, .unit)
  | .clear del => let (heap, lst, deleted) := ftLstclear del m.lst m.heap; ({ heap, lst }, .contents deleted)
  | .size => let (heap, n) := ftLstsize m.lst m.heap; ({ m with heap }, .size n)
  | .iter => let (heap, called) := ftLstiter m.lst m.heap; ({ m with heap }, .contents called)

def Op.apply : Op → List Ptr → List Ptr
  | .addFront content, xs => content :: xs
  | .addBack content, xs => xs ++ [content]
  | .deleteHead, xs => xs.tail
  | .deleteAt pos, xs => xs.eraseIdx (removed pos)
  | .clear del, xs => if del then [] else xs
  | .size, xs | .iter, xs => xs

def Op.answer : Op → List Ptr → Answer
  | .addFront _, _ | .addBack _, _ => .added true
  | .deleteHead, _ | .deleteAt _, _ => .unit
  | .clear del, xs => .contents (if del then xs else [])
  | .size, xs => .size (BitVec.ofNat 32 xs.length)
  | .iter, xs => .contents xs

/-- The list as an implementation of the sequence of its contents: only a failed allocation is refused. -/
def lists : Implementation Memory (List Ptr) Op Answer where
  run op mallocOk m := op.run mallocOk m
  apply := Op.apply
  answer := Op.answer
  Invalid _ _ := False
  refusal := .added false

/-- `pos - 1` is an `int`. -/
def Fits (_ : Memory × List Ptr) (i : Op × Bool) : Prop :=
  match i.1 with
  | .deleteAt pos => -2 ^ 31 < pos ∧ pos < 2 ^ 31
  | _ => True

/-- The nodes hold the sequence, and are all that is owned. -/
def Refines (h₀ : Heap Ptr) (m : Memory) (xs : List Ptr) : Prop :=
  ∃ ns, Holds h₀ m.heap m.lst ns ∧ ns.map Prod.snd = xs

section Operations
variable {h₀ : Heap Ptr} {m : Memory} {ns : List Node}

theorem done_of_holds {op : Op} {mallocOk : Bool} {heap : Heap Ptr} {lst : Ptr} {ms : List Node}
    (hrun : op.run mallocOk m = ({ heap, lst }, op.answer (ns.map Prod.snd))) (hl : Holds h₀ heap lst ms)
    (happly : ms.map Prod.snd = op.apply (ns.map Prod.snd)) :
    lists.Done (Refines h₀) op mallocOk m (ns.map Prod.snd) := Or.inr ⟨id, _, hrun, ms, hl, happly⟩

theorem op_done (op : Op) {xs : List Ptr} (h : Refines h₀ m xs) (mallocOk : Bool) :
    lists.Done (Refines h₀) op mallocOk m xs := by
  obtain ⟨ns, hl, rfl⟩ := h
  cases op with
  | addFront content =>
    cases mallocOk with
    | false => exact Or.inl ⟨rfl, Or.inr rfl⟩
    | true =>
      obtain ⟨h₁, h₂, a, hnew, hadd, hl'⟩ := addFront_holds hl content
      exact done_of_holds (by simp [Op.run, hnew, hadd, Op.answer]) hl' rfl
  | addBack content =>
    cases mallocOk with
    | false => exact Or.inl ⟨rfl, Or.inr rfl⟩
    | true =>
      obtain ⟨h₁, h₂, a, q, hnew, hadd, hl', -⟩ := addBack_holds hl content
      exact done_of_holds (by simp [Op.run, hnew, hadd, Op.answer]) hl' (by simp [Op.apply])
  | deleteHead =>
    obtain ⟨h', q, hrun, hl'⟩ := deleteHead_holds hl
    exact done_of_holds (by simp only [Op.run, hrun, Op.answer]) hl' List.map_tail
  | deleteAt pos =>
    obtain ⟨h', q, hrun, hl'⟩ := deleteAt_holds hl pos
    exact done_of_holds (by simp only [Op.run, hrun, Op.answer]) hl' (List.eraseIdx_map _ _ _).symm
  | clear del =>
    cases del with
    | false => exact done_of_holds (by simp [Op.run, ftLstclear, Op.answer]) hl rfl
    | true =>
      obtain ⟨h', hrun, hl'⟩ := clear_holds hl
      exact done_of_holds (by simp only [Op.run, hrun, Op.answer, if_true]) hl' rfl
  | size =>
    have hrun := ftLstsize_eq hl.chain
    exact done_of_holds (by simp only [Op.run, hrun, Op.answer, List.length_map]) hl rfl
  | iter =>
    have hrun := iterLoop_eq hl.chain (chain_length_le hl.chain)
    exact done_of_holds (by simp [Op.run, ftLstiter, hrun, Op.answer]) hl rfl

theorem answer_ne_refusal (op : Op) (xs : List Ptr) : op.answer xs ≠ .added false := by
  cases op <;> simp [Op.answer]

end Operations

/-- A list that starts as a null pointer is the sequence of its contents in every run, whichever allocations fail: each
    call answers as on the sequence, and its nodes are all that the list owns. -/
theorem lists_refine (h₀ : Heap Ptr) (hf : h₀.fault = false) (ops : List (Op × Bool))
    (hfits : lists.machine.Meets Fits ({ heap := h₀ }, []) ops) :
    lists.machine.Meets lists.Answered ({ heap := h₀ }, []) ops ∧
      Refines h₀ (lists.machine.run ({ heap := h₀ }, []) ops).1 (lists.machine.run ({ heap := h₀ }, []) ops).2 := by
  have hstart : Refines h₀ { heap := h₀ } [] := ⟨[], ⟨rfl, .start hf⟩, rfl⟩
  obtain ⟨href, hanswered⟩ := Implementation.refines_run answer_ne_refusal
    (fun _ _ op ok href _ => op_done op href ok) hstart hfits
  exact ⟨hanswered, href⟩

/-- Position 0 is the second node; what is cleared without `del` stays. -/
theorem lists_refine_kept :
    let ops := [(Op.addBack (some 7), true), (.addBack (some 8), false), (.addFront (some 9), true),
      (.addBack (some 5), true), (.deleteAt 0, true), (.clear false, true), (.iter, true)]
    lists.machine.outputs ({ heap := {} }, []) ops = [[.added true], [.added false], [.added true], [.added true],
        [.unit], [.contents []], [.contents [some 9, some 5]]] ∧
      Refines {} (lists.machine.run ({ heap := {} }, []) ops).1 [some 9, some 5] := by
  intro ops
  have hfits : lists.machine.Meets Fits ({ heap := {} }, []) ops :=
    ⟨trivial, trivial, trivial, trivial, ⟨by decide, by decide⟩, trivial, trivial, trivial⟩
  exact ⟨by decide, (lists_refine {} rfl ops hfits).2⟩

/-! ### `ft_lstmap` -/

section Map
variable {σ : Type} (ok : Nat → Bool) (f : Ptr → σ → σ × Ptr) (del : Option (Ptr → σ → σ))

/-- `del`, if there is one, is called on one content after the other. -/
def delAll (deleted : List Ptr) (w : σ) : σ :=
  deleted.foldl (fun w content => del.elim w fun del => del content w) w

/-- The loop of `ft_lstmap`. What `f` and `del` do besides is a change of `σ`; an allocation succeeds or not depending
    on how many there were. -/
def mapLoop : Nat → Ptr → Ptr → Heap Ptr → σ → Heap Ptr × σ × Ptr
  | _, none, newList, heap, w => (heap, w, newList)
  | 0, some _, newList, heap, w => (diverged heap, w, newList)
  | n + 1, some lst, newList, heap, w =>
    let (heap, content) := heap.load (some lst) CONTENT
    let (w, content) := f content w
    let (heap, newNode) := ftLstnew (ok heap.blocks.length) content heap
    if newNode.isNone then
      let (heap, _, deleted) := ftLstclear del.isSome newList heap
      (heap, delAll del deleted w, none)
    else
      let (heap, newList) := ftLstaddBack newList newNode heap
      let (heap, next) := heap.load (some lst) NEXT
      mapLoop n next newList heap w

def ftLstmap (lst : Ptr) (heap : Heap Ptr) (w : σ) : Heap Ptr × σ × Ptr :=
  mapLoop ok f del heap.blocks.length lst none heap w

/-- What `f` makes of the contents, one after the other. -/
def made : List Ptr → σ → σ × List Ptr
  | [], w => (w, [])
  | c :: cs, w =>
    let (w, d) := f c w
    let (w, ds) := made cs w
    (w, d :: ds)

variable {ok f del} {h h₀ : Heap Ptr} {p q : Ptr} {ns ms : List Node} {w : σ}

/-- What was there before the new list is as it was. -/
theorem chain_old {as : List Nat} (hp : Private h₀ as h) (hc : Chain h₀ p ns) : Chain h p ns := by
  induction ns generalizing p with
  | nil => exact hc
  | cons n ns ih =>
    obtain ⟨rfl, next, prev, hat, hrest⟩ := hc
    exact ⟨rfl, next, prev, hp.keeps n.1 hat.lt _ hat, ih hrest⟩

/-- There is memory for all of the nodes that are left. -/
theorem mapLoop_succeeds (hc : Chain h₀ p ns) (hl : Holds h₀ h q ms) {fuel : Nat} (hfuel : ns.length ≤ fuel)
    (hok : ∀ i < ns.length, ok (h.blocks.length + i) = true) :
    ∃ h' q' ms', mapLoop ok f del fuel p q h w = (h', (made f (ns.map Prod.snd) w).1, q') ∧ Holds h₀ h' q' ms' ∧
      ms'.map Prod.snd = ms.map Prod.snd ++ (made f (ns.map Prod.snd) w).2 := by
  induction ns generalizing p q h ms fuel w with
  | nil =>
    obtain rfl : p = none := hc
    exact ⟨h, q, ms, by cases fuel <;> rfl, hl, (List.append_nil _).symm⟩
  | cons n ns ih =>
    obtain ⟨fuel, rfl⟩ := Nat.exists_eq_add_of_lt hfuel
    obtain ⟨rfl, next, prev, hat, hrest⟩ := hc
    have hcontent := load_content (hl.owns.keeps n.1 hat.lt _ hat)
    obtain ⟨h₁, h₂, a, q', hnew, hadd, hl', hlen⟩ := addBack_holds hl (f n.2 w).2
    have hnext := load_next (hl'.owns.keeps n.1 hat.lt _ hat)
    have hok' : ∀ i < ns.length, ok (h₂.blocks.length + i) = true := fun i hi => by
      rw [hlen, Nat.add_assoc, Nat.add_comm 1]
      exact hok (i + 1) (Nat.succ_lt_succ hi)
    obtain ⟨h', q'', ms', hrun, hl'', hcontents⟩ := ih (w := (f n.2 w).1) hrest hl'
      (show ns.length ≤ ns.length + fuel by omega) hok'
    refine ⟨h', q'', ms', ?_, hl'', ?_⟩
    · have hfirst : ok h.blocks.length = true := hok 0 (Nat.succ_pos _)
      simp only [mapLoop, hcontent, hfirst, hnew, hadd, hnext, Option.isNone_some, Bool.false_eq_true, if_false, hrun]
      rfl
    · rw [hcontents, List.map_append, List.append_assoc]
      rfl

/-- `ft_lstclear` frees the new nodes, if there is a `del`. -/
theorem clear_new (del : Option (Ptr → σ → σ)) (hl : Holds h₀ h q ms) (w : σ) :
    ∃ h' q' deleted gone, ftLstclear del.isSome q h = (h', q', deleted) ∧
      delAll del deleted w = delAll del (ms.map Prod.snd) w ∧ Private h₀ gone h' ∧
      gone.length = if del.isSome then 0 else ms.length := by
  cases del with
  | none =>
    have hskip : ∀ (xs : List Ptr) (w : σ), delAll none xs w = w := fun xs w => by
      induction xs generalizing w with
      | nil => rfl
      | cons x xs ih => exact ih w
    exact ⟨h, q, [], addresses ms, by simp [ftLstclear], (hskip _ w).symm, hl.owns, List.length_map _⟩
  | some del =>
    obtain ⟨h', hrun, hl'⟩ := clear_holds hl
    exact ⟨h', none, _, [], hrun, rfl, hl'.owns, rfl⟩

/-- There is none for the node `k`. -/
theorem mapLoop_fails (del : Option (Ptr → σ → σ)) (hc : Chain h₀ p ns) (hl : Holds h₀ h q ms) {fuel k : Nat}
    (hfuel : ns.length ≤ fuel) (hk : k < ns.length) (hok : ∀ i < k, ok (h.blocks.length + i) = true)
    (hno : ok (h.blocks.length + k) = false) :
    ∃ h' gone, mapLoop ok f del fuel p q h w =
        (h', delAll del (ms.map Prod.snd ++ (made f ((ns.map Prod.snd).take (k + 1)) w).2.take k)
          (made f ((ns.map Prod.snd).take (k + 1)) w).1, none) ∧
      Private h₀ gone h' ∧ gone.length = if del.isSome then 0 else ms.length + k := by
  induction ns generalizing p q h ms fuel w k with
  | nil => cases hk
  | cons n ns ih =>
    obtain ⟨fuel, rfl⟩ := Nat.exists_eq_add_of_lt hfuel
    obtain ⟨rfl, next, prev, hat, hrest⟩ := hc
    have hcontent := load_content (hl.owns.keeps n.1 hat.lt _ hat)
    cases k with
    | zero =>
      obtain ⟨h', q', deleted, gone, hclear, hdel, hprivate, hlen⟩ := clear_new del hl (f n.2 w).1
      refine ⟨h', gone, ?_, hprivate, hlen⟩
      have hfirst : ok h.blocks.length = false := hno
      have hnull : ftLstnew false (f n.2 w).2 h = (h, none) := rfl
      simp only [mapLoop, hcontent, hfirst, hnull, Option.isNone_none, if_true, hclear, hdel]
      simp [made]
    | succ k =>
      obtain ⟨h₁, h₂, a, q', hnew, hadd, hl', hlen⟩ := addBack_holds hl (f n.2 w).2
      have hnext := load_next (hl'.owns.keeps n.1 hat.lt _ hat)
      have hshift : ∀ i, h₂.blocks.length + i = h.blocks.length + (i + 1) := fun i => by
        rw [hlen, Nat.add_assoc, Nat.add_comm 1]
      obtain ⟨h', gone, hrun, hprivate, hgone⟩ := ih (w := (f n.2 w).1) hrest hl'
        (show ns.length ≤ ns.length + fuel by omega) (Nat.lt_of_succ_lt_succ hk)
        (fun i hi => hshift i ▸ hok (i + 1) (Nat.succ_lt_succ hi)) (hshift k ▸ hno)
      refine ⟨h', gone, ?_, hprivate, ?_⟩
      · have hfirst : ok h.blocks.length = true := hok 0 (Nat.succ_pos _)
        simp only [mapLoop, hcontent, hfirst, hnew, hadd, hnext, Option.isNone_some, Bool.false_eq_true, if_false, hrun]
        simp [made]
      · rw [hgone, List.length_append, List.length_singleton, Nat.add_assoc, Nat.add_comm 1]

/-- The list that `ft_lstmap` makes is whole, or there is none: at a failed allocation `del` was called on what the new
    nodes held, so on all that `f` made but the last, and without `del` the new nodes stay allocated. The old list is as
    it was. -/
theorem ftLstmap_whole_or_null (ok : Nat → Bool) (f : Ptr → σ → σ × Ptr) (del : Option (Ptr → σ → σ)) {h₀ : Heap Ptr}
    {p : Ptr} {ns : List Node} (hf : h₀.fault = false) (hc : Chain h₀ p ns) (w : σ) :
    ((∀ i < ns.length, ok (h₀.blocks.length + i) = true) →
      ∃ h q ms, ftLstmap ok f del p h₀ w = (h, (made f (ns.map Prod.snd) w).1, q) ∧ Holds h₀ h q ms ∧
        ms.map Prod.snd = (made f (ns.map Prod.snd) w).2 ∧ Chain h p ns) ∧
    (∀ k < ns.length, (∀ i < k, ok (h₀.blocks.length + i) = true) → ok (h₀.blocks.length + k) = false →
      ∃ h lost, ftLstmap ok f del p h₀ w =
          (h, delAll del ((made f ((ns.map Prod.snd).take (k + 1)) w).2.take k)
            (made f ((ns.map Prod.snd).take (k + 1)) w).1, none) ∧
        Private h₀ lost h ∧ lost.length = (if del.isSome then 0 else k) ∧ Chain h p ns) := by
  have hstart : Holds h₀ h₀ none [] := ⟨rfl, .start hf⟩
  have hlen := chain_length_le hc
  constructor
  · intro hok
    obtain ⟨h, q, ms, hrun, hl, hcontents⟩ := mapLoop_succeeds (f := f) (w := w) hc hstart hlen hok
    exact ⟨h, q, ms, hrun, hl, hcontents, chain_old hl.owns hc⟩
  · intro k hk hok hno
    obtain ⟨h, lost, hrun, hprivate, hlost⟩ := mapLoop_fails (f := f) (w := w) del hc hstart hlen hk hok hno
    exact ⟨h, lost, hrun, hprivate, by simpa using hlost, chain_old hprivate hc⟩

/-- There is memory for one of two nodes: `f` was called on both contents, and `del` on what it made of the first. -/
theorem ftLstmap_null_at_second :
    ∃ h, ftLstmap (· == 2) (fun c w => (w ++ [c], c.map (· + 10))) (some fun c w => w ++ [c]) (some 0)
        { blocks := [⟨[some (some 7), some (some 1), none], 0⟩, ⟨[some (some 8), some none, none], 0⟩] } [] =
      (h, [some 7, some 8, some 17], none) ∧ h.fault = false ∧
      Chain h (some 0) [(0, some 7), (1, some 8)] := by
  have hc : Chain { blocks := [⟨[some (some 7), some (some 1), none], 0⟩, ⟨[some (some 8), some none, none], 0⟩] }
      (some 0) [(0, some 7), (1, some 8)] := ⟨rfl, some 1, none, ⟨rfl, rfl⟩, rfl, none, none, ⟨rfl, rfl⟩, rfl⟩
  obtain ⟨h, lost, hrun, hprivate, -, hold⟩ := (ftLstmap_whole_or_null (· == 2) (fun c w => (w ++ [c], c.map (· + 10)))
    (some fun c w => w ++ [c]) rfl hc []).2 1 (by decide) (by decide) (by decide)
  exact ⟨h, hrun, hprivate.owns.sound, hold⟩

end Map

end Minitalk.Libft.Lists
