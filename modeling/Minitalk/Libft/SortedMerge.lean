import Mathlib.Data.Int.Order.Basic
import Minitalk.Lib.Merging
import Minitalk.Lib.Ownership
import Minitalk.Lib.Program

/-! # Merging sorted lists (`sorted_merge`, `remove_duplicates`)

The contents of the nodes are pointers to `int`s, which neither function writes. The dummy head of `sorted_merge` is a
block whose life ends with the function. -/

namespace Minitalk.Libft.SortedMerge
open Heap Program Merging

/-! ### `t_list` -/

abbrev CONTENT : Nat := 0
abbrev NEXT : Nat := 1

/-- A node by its address and its content. -/
abbrev Node := Nat × Ptr

/-- `*(int *)(node->content)` -/
def intOf (ints : Heap Int) (node : Ptr) (h : Heap Ptr) : Heap Ptr × Int :=
  let (h, content) := h.load node CONTENT
  let (ints, v) := ints.load content 0
  ({ h with fault := h.fault || ints.fault }, v)

/-! ### `sorted_merge.c` -/

structure Cursors where
  heap : Heap Ptr
  curr : Ptr
  head1 : Ptr
  head2 : Ptr

def mergeTurn (ints : Heap Int) (s : Cursors) : Cursors :=
  let (heap, first) := intOf ints s.head1 s.heap
  let (heap, second) := intOf ints s.head2 heap
  if first ≤ second then
    let heap := heap.store s.curr NEXT s.head1
    let (heap, head1) := heap.load s.head1 NEXT
    let (heap, curr) := heap.load s.curr NEXT
    { s with heap, curr, head1 }
  else
    let heap := heap.store s.curr NEXT s.head2
    let (heap, head2) := heap.load s.head2 NEXT
    let (heap, curr) := heap.load s.curr NEXT
    { s with heap, curr, head2 }

def mergeLoop (ints : Heap Int) (fuel : Nat) (s : Cursors) : Option Cursors :=
  whileLoop (fun s => some (s.head1.isSome && s.head2.isSome)) (fun s => some (mergeTurn ints s)) fuel s

/-- What is left of one list is put behind. -/
def linkRest (s : Cursors) : Heap Ptr :=
  if s.head1 = none then s.heap.store s.curr NEXT s.head2 else s.heap.store s.curr NEXT s.head1

def sortedMerge (fuel : Nat) (ints : Heap Int) (h : Heap Ptr) (head1 head2 : Ptr) : Option (Heap Ptr × Ptr) := do
  let (heap, dummy) := h.malloc 3
  let s ← mergeLoop ints fuel { heap, curr := dummy, head1, head2 }
  let (heap, next) := (linkRest s).load dummy NEXT
  some (heap.free dummy, next)

/-! ### `remove_duplicates.c` -/

def removeTurn (ints : Heap Int) (s : Heap Ptr × Ptr) : Heap Ptr × Ptr :=
  let (heap, current) := s
  let (heap, first) := intOf ints current heap
  let (heap, next) := heap.load current NEXT
  let (heap, second) := intOf ints next heap
  if first = second then
    let (heap, duplicate) := heap.load current NEXT
    let (heap, next) := heap.load current NEXT
    let (heap, next) := heap.load next NEXT
    let heap := heap.store current NEXT next
    (heap.free duplicate, current)
  else heap.load current NEXT

def removeLoop (ints : Heap Int) (fuel : Nat) (s : Heap Ptr × Ptr) : Option (Heap Ptr × Ptr) :=
  whileLoop
    (fun s => if s.2 = none then some false else (s.1.peek s.2 NEXT).map (·.isSome))
    (fun s => some (removeTurn ints s)) fuel s

def removeDuplicates (fuel : Nat) (ints : Heap Int) (h : Heap Ptr) (head : Ptr) : Option (Heap Ptr × Ptr) := do
  let (heap, _) ← removeLoop ints fuel (h, head)
  some (heap, head)

/-! ### Lists in the heap -/

/-- The nodes that are met on the way from `p` to a null pointer. What their `prev` is does not matter. -/
def Chain (h : Heap Ptr) : Ptr → List Node → Prop
  | p, [] => p = none
  | p, n :: ns => p = some n.1 ∧ ∃ next prev, h.At (some n.1) [some n.2, some next, prev] ∧ Chain h next ns

def valueOf (ints : Heap Int) (n : Node) : Int := (ints.load n.2 0).2

/-- The content is a pointer to an `int`. -/
def Readable (ints : Heap Int) (n : Node) : Prop := (ints.load n.2 0).1.fault = false

def addresses (ns : List Node) : List Nat := ns.map Prod.fst

section Lists
variable {ints : Heap Int} {h h' : Heap Ptr} {p q next : Ptr} {prev : Option Ptr} {n : Node} {ns : List Node}
  {as : List Nat}

theorem intOf_eq (hat : h.At (some n.1) [some n.2, some next, prev]) (hr : Readable ints n) :
    intOf ints (some n.1) h = (h, valueOf ints n) := by
  have hload : h.load (some n.1) CONTENT = (h, n.2) := hat.load_of_getElem? rfl
  rw [Readable] at hr
  simp only [intOf, hload, hr, Bool.or_false, valueOf]

theorem load_next (hat : h.At p [some q, some next, prev]) : h.load p NEXT = (h, next) := hat.load_of_getElem? rfl

theorem Chain.keep (hc : Chain h p ns) (hk : KeepsOff as h h') (hd : ∀ a ∈ addresses ns, a ∉ as) : Chain h' p ns := by
  induction ns generalizing p with
  | nil => exact hc
  | cons n ns ih =>
    obtain ⟨rfl, next, prev, hat, hrest⟩ := hc
    exact ⟨rfl, next, prev, hk n.1 (hd n.1 List.mem_cons_self) _ hat,
      ih hrest fun a ha => hd a (List.mem_cons_of_mem _ ha)⟩

theorem Chain.live (hc : Chain h p ns) {a : Nat} (ha : a ∈ addresses ns) : ∃ cells, h.At (some a) cells := by
  induction ns generalizing p with
  | nil => cases ha
  | cons n ns ih =>
    obtain ⟨-, next, prev, hat, hrest⟩ := hc
    rcases List.mem_cons.mp ha with rfl | ha
    · exact ⟨_, hat⟩
    · exact ih hrest ha

theorem Chain.unique {ms : List Node} (hc : Chain h p ns) (hc' : Chain h p ms) : addresses ns = addresses ms := by
  induction ns generalizing p ms with
  | nil =>
    cases ms with
    | nil => rfl
    | cons m ms =>
      have hnull := hc.symm.trans hc'.1
      cases hnull
  | cons n ns ih =>
    obtain ⟨rfl, next, prev, hat, hrest⟩ := hc
    cases ms with
    | nil => cases hc'
    | cons m ms =>
      obtain ⟨heq, next', prev', hat', hrest'⟩ := hc'
      have hcells := hat.live.symm.trans ((congrArg h.live? heq).trans hat'.live)
      simp only [Option.some.injEq, Block.mk.injEq, List.cons.injEq, and_true] at hcells
      obtain ⟨-, rfl, -⟩ := hcells
      have hfirst : n.1 = m.1 := Option.some.inj heq
      rw [addresses, List.map_cons, hfirst, ← addresses, ih hrest hrest']
      rfl

theorem Chain.split {xs ys : List Node} (hc : Chain h p (xs ++ n :: ys)) : Chain h (some n.1) (n :: ys) := by
  induction xs generalizing p with
  | nil => exact hc.1 ▸ hc
  | cons x xs ih =>
    obtain ⟨-, next, prev, -, hrest⟩ := hc
    exact ih hrest

/-- A list that ends has no node twice. -/
theorem Chain.nodup (hc : Chain h p ns) : (addresses ns).Nodup := by
  induction ns generalizing p with
  | nil => exact List.nodup_nil
  | cons n ns ih =>
    obtain ⟨next, prev, -, hrest⟩ := hc.2
    refine List.nodup_cons.mpr ⟨fun hmem => ?_, ih hrest⟩
    obtain ⟨m, hm, heq⟩ := List.mem_map.mp hmem
    obtain ⟨xs, ys, rfl⟩ := List.append_of_mem hm
    -- behind its second occurrence the list would be as long as behind the first
    have hagain := hrest.split
    rw [heq] at hagain
    have hlen := congrArg List.length (hagain.unique (hc.1 ▸ hc))
    simp only [addresses, List.length_map, List.length_cons, List.length_append] at hlen
    omega

theorem Chain.head_isSome (hc : Chain h p ns) : p.isSome = !ns.isEmpty := by
  cases ns with
  | nil => exact hc ▸ rfl
  | cons n ns => exact hc.1 ▸ rfl

end Lists

/-! ### The merge -/

section Merge
variable {ints : Heap Int} {h : Heap Ptr} {s : Cursors} {c : Nat} {x y z : Option Ptr} {n : Node} {xs ys : List Node}

/-- The node that is appended becomes the last one. -/
theorem append_node {next : Ptr} {prev : Option Ptr} (hc : h.At (some c) [x, y, z])
    (hn : h.At (some n.1) [some n.2, some next, prev]) (hne : n.1 ≠ c) :
    ∃ h₁, h.store (some c) NEXT (some n.1) = h₁ ∧ h₁.load (some n.1) NEXT = (h₁, next) ∧
      h₁.load (some c) NEXT = (h₁, some n.1) ∧ h₁.At (some c) [x, some (some n.1), z] ∧
      h₁.At (some n.1) [some n.2, some next, prev] ∧ KeepsOff [c] h h₁ := by
  obtain ⟨hat, hkeep⟩ := At.stores [x] hc (some n.1)
  have hn' := hkeep n.1 (fun hmem => hne (List.mem_singleton.mp hmem)) _ hn
  exact ⟨_, rfl, load_next hn', hat.load_of_getElem? rfl, hat, hn', hkeep⟩

/-- The node that was appended has the rest of the merge behind it. -/
theorem link_first {h₁ h' : Heap Ptr} {r : Ptr} {prev : Option Ptr} {ns : List Node} {as : List Nat}
    (hat : h₁.At (some c) [x, some (some n.1), z]) (hlast : h'.At (some n.1) [some n.2, some r, prev])
    (hchain : Chain h' r ns) (hkeep : KeepsOff [c] h h₁) (hkeep' : KeepsOff (n.1 :: as) h₁ h') (hc : c ∉ n.1 :: as) :
    ∃ r', h'.At (some c) [x, some r', z] ∧ Chain h' r' (n :: ns) ∧ KeepsOff (c :: n.1 :: as) h h' :=
  ⟨some n.1, hkeep' c hc _ hat, ⟨rfl, r, prev, hlast, hchain⟩,
    (hkeep.mono (by simp)).trans (hkeep'.mono (List.subset_cons_self _ _))⟩

/-- A turn takes the node of the smaller value, which has the rest of its list behind it. -/
theorem mergeTurn_left {m : Node} (hcurr : s.curr = some c) (hc : s.heap.At (some c) [x, y, z])
    (h1 : Chain s.heap s.head1 (m :: xs)) (h2 : Chain s.heap s.head2 (n :: ys)) (hm : m.1 ≠ c)
    (hrm : Readable ints m) (hrn : Readable ints n) (hle : valueOf ints m ≤ valueOf ints n) :
    ∃ h₁ next prev, mergeTurn ints s = { s with heap := h₁, curr := some m.1, head1 := next } ∧
      h₁.At (some c) [x, some (some m.1), z] ∧ h₁.At (some m.1) [some m.2, some next, prev] ∧
      Chain s.heap next xs ∧ KeepsOff [c] s.heap h₁ := by
  obtain ⟨hhead1, next, prev, hat₁, hrest⟩ := h1
  obtain ⟨hhead2, next₂, prev₂, hat₂, -⟩ := h2
  obtain ⟨h₁, hstore, hload, hload', hat, hnode, hkeep⟩ := append_node hc hat₁ hm
  refine ⟨h₁, next, prev, ?_, hat, hnode, hrest, hkeep⟩
  simp only [mergeTurn, hhead1, hhead2, hcurr, intOf_eq hat₁ hrm, intOf_eq hat₂ hrn, if_pos hle, hstore, hload, hload']

theorem mergeTurn_right {m : Node} (hcurr : s.curr = some c) (hc : s.heap.At (some c) [x, y, z])
    (h1 : Chain s.heap s.head1 (m :: xs)) (h2 : Chain s.heap s.head2 (n :: ys)) (hn : n.1 ≠ c)
    (hrm : Readable ints m) (hrn : Readable ints n) (hle : ¬valueOf ints m ≤ valueOf ints n) :
    ∃ h₁ next prev, mergeTurn ints s = { s with heap := h₁, curr := some n.1, head2 := next } ∧
      h₁.At (some c) [x, some (some n.1), z] ∧ h₁.At (some n.1) [some n.2, some next, prev] ∧
      Chain s.heap next ys ∧ KeepsOff [c] s.heap h₁ := by
  obtain ⟨hhead1, next₁, prev₁, hat₁, -⟩ := h1
  obtain ⟨hhead2, next, prev, hat₂, hrest⟩ := h2
  obtain ⟨h₁, hstore, hload, hload', hat, hnode, hkeep⟩ := append_node hc hat₂ hn
  refine ⟨h₁, next, prev, ?_, hat, hnode, hrest, hkeep⟩
  simp only [mergeTurn, hhead1, hhead2, hcurr, intOf_eq hat₁ hrm, intOf_eq hat₂ hrn, if_neg hle, hstore, hload, hload']

/-- When one of the lists is left, it goes behind the last node. -/
theorem linkRest_links {r : Ptr} {ns : List Node} (hcurr : s.curr = some c) (hc : s.heap.At (some c) [x, y, z])
    (hrest : linkRest s = s.heap.store s.curr NEXT r) (hchain : Chain s.heap r ns) (hfresh : c ∉ addresses ns) :
    (linkRest s).At (some c) [x, some r, z] ∧ Chain (linkRest s) r ns ∧ KeepsOff [c] s.heap (linkRest s) := by
  obtain ⟨hat, hkeep⟩ := At.stores [x] hc r
  rw [hrest, hcurr]
  exact ⟨hat, hchain.keep hkeep fun a ha hmem => hfresh (List.mem_singleton.mp hmem ▸ ha), hkeep⟩

/-- The last node's `next` becomes the merge of what is left of both lists. -/
theorem mergeLoop_links {fuel : Nat} (hfuel : xs.length + ys.length < fuel) (hcurr : s.curr = some c)
    (hc : s.heap.At (some c) [x, y, z]) (h1 : Chain s.heap s.head1 xs) (h2 : Chain s.heap s.head2 ys)
    (hnd : (c :: (addresses xs ++ addresses ys)).Nodup) (hr : ∀ n ∈ xs ++ ys, Readable ints n) :
    Ends (mergeLoop ints fuel s) fun s' => ∃ r, (linkRest s').At (some c) [x, some r, z] ∧
      Chain (linkRest s') r (mergeBy (valueOf ints) xs ys) ∧
      KeepsOff (c :: (addresses xs ++ addresses ys)) s.heap (linkRest s') := by
  induction fuel generalizing s c x y z xs ys with
  | zero => omega
  | succ fuel ih =>
    obtain ⟨hfresh, hnd'⟩ := List.nodup_cons.mp hnd
    have hoff : ∀ a ∈ addresses xs ++ addresses ys, a ∉ [c] := fun a ha hmem => by
      rw [List.mem_singleton.mp hmem] at ha
      exact hfresh ha
    rw [mergeLoop, whileLoop, h1.head_isSome, h2.head_isSome]
    cases xs with
    | nil =>
      obtain ⟨hat, hchain, hkeep⟩ := linkRest_links hcurr hc (if_pos (show s.head1 = none from h1)) h2 hfresh
      rw [mergeBy_nil_left]
      exact .some ⟨s.head2, hat, hchain, hkeep.mono (by simp)⟩
    | cons m xs =>
      have hsome : s.head1 ≠ none := by rw [h1.1]; exact Option.some_ne_none m.1
      cases ys with
      | nil =>
        obtain ⟨hat, hchain, hkeep⟩ := linkRest_links hcurr hc (if_neg hsome) h1 fun hmem =>
          hfresh (List.mem_append_left _ hmem)
        rw [mergeBy_nil_right]
        exact .some ⟨s.head1, hat, hchain, hkeep.mono (by simp)⟩
      | cons n ys =>
        have hm : m.1 ≠ c := fun h => hoff m.1 (by simp [addresses]) (List.mem_singleton.mpr h)
        have hn : n.1 ≠ c := fun h => hoff n.1 (by simp [addresses]) (List.mem_singleton.mpr h)
        have hrm := hr m (by simp)
        have hrn := hr n (by simp)
        by_cases hle : valueOf ints m ≤ valueOf ints n
        · obtain ⟨h₁, next, prev, hturn, hat, hnode, hrest, hkeep⟩ := mergeTurn_left hcurr hc h1 h2 hm hrm hrn hle
          change Ends (mergeLoop ints fuel (mergeTurn ints s)) _
          rw [hturn, mergeBy_left hle]
          refine (ih (s := { s with heap := h₁, curr := some m.1, head1 := next })
            (by simp only [List.length_cons] at hfuel ⊢; omega) rfl hnode
            (hrest.keep hkeep fun a ha => hoff a (List.mem_append_left _ (List.mem_cons_of_mem _ ha)))
            (h2.keep hkeep fun a ha => hoff a (List.mem_append_right _ ha)) hnd'
            fun k hk => hr k (List.mem_cons_of_mem m hk)).mono ?_
          rintro s' ⟨r, hlast, hchain, hkeep'⟩
          exact link_first hat hlast hchain hkeep hkeep' hfresh
        · obtain ⟨h₁, next, prev, hturn, hat, hnode, hrest, hkeep⟩ := mergeTurn_right hcurr hc h1 h2 hn hrm hrn hle
          have hperm : (addresses (m :: xs) ++ n.1 :: addresses ys).Perm
              (n.1 :: (addresses (m :: xs) ++ addresses ys)) := List.perm_middle
          change Ends (mergeLoop ints fuel (mergeTurn ints s)) _
          rw [hturn, mergeBy_right hle]
          refine (ih (s := { s with heap := h₁, curr := some n.1, head2 := next })
            (by simp only [List.length_cons] at hfuel ⊢; omega) rfl hnode
            (h1.keep hkeep fun a ha => hoff a (List.mem_append_left _ ha))
            (hrest.keep hkeep fun a ha => hoff a (List.mem_append_right _ (List.mem_cons_of_mem _ ha)))
            (hperm.nodup_iff.mp hnd')
            fun k hk => hr k (by simp at hk ⊢; tauto)).mono ?_
          rintro s' ⟨r, hlast, hchain, hkeep'⟩
          obtain ⟨r', hc', hchain', hall⟩ := link_first hat hlast hchain hkeep hkeep' fun hmem =>
            hfresh (hperm.mem_iff.mpr hmem)
          exact ⟨r', hc', hchain', hall.mono (List.cons_subset_cons c hperm.symm.subset)⟩

theorem sortedMerge_links {p q : Ptr} {fuel : Nat} (hfuel : xs.length + ys.length < fuel) (hf : h.fault = false)
    (h1 : Chain h p xs) (h2 : Chain h q ys) (hnd : (addresses xs ++ addresses ys).Nodup)
    (hr : ∀ n ∈ xs ++ ys, Readable ints n) :
    Ends (sortedMerge fuel ints h p q) fun s => Chain s.1 s.2 (mergeBy (valueOf ints) xs ys) ∧ s.1.fault = false ∧
      KeepsOff (addresses xs ++ addresses ys) h s.1 := by
  obtain ⟨h₁, hmalloc, hdummy, hold, hscope, -⟩ := exists_malloc hf 3
  have hfresh : h.blocks.length ∉ addresses xs ++ addresses ys := fun hmem => by
    obtain ⟨cells, hat⟩ := (List.mem_append.mp hmem).elim h1.live h2.live
    exact Nat.lt_irrefl _ hat.lt
  have hkeep₁ : KeepsOff [] h h₁ := fun a _ cells hat => (hold (some a) cells hat).1
  have hloop := mergeLoop_links (s := { heap := h₁, curr := some h.blocks.length, head1 := p, head2 := q }) hfuel rfl
    hdummy (h1.keep hkeep₁ fun _ _ => List.not_mem_nil) (h2.keep hkeep₁ fun _ _ => List.not_mem_nil)
    (List.nodup_cons.mpr ⟨hfresh, hnd⟩) hr
  rw [sortedMerge, hmalloc]
  refine hloop.bind fun s' hs' => ?_
  obtain ⟨r, hat, hchain, hkeep⟩ := hs'
  have hload : (linkRest s').load (some h.blocks.length) NEXT = (linkRest s', r) := hat.load_of_getElem? rfl
  rw [hload]
  refine .some ⟨hchain.keep hat.keepsOff_free fun a ha hmem => ?_, hat.free_sound, ?_⟩
  · rw [List.mem_singleton.mp hmem] at ha
    refine hfresh ?_
    rw [addresses, addresses, ← List.map_append]
    exact ((mergeBy_perm (valueOf ints) xs ys).map Prod.fst).subset ha
  · exact hscope _ _ (hkeep.trans (hat.keepsOff_free.mono (by simp)))

end Merge

/-! ### The removal -/

section Remove
variable {ints : Heap Int} {h : Heap Ptr} {m n : Node} {ns : List Node}

/-- Two nodes of one value: the second one is unlinked and freed. -/
theorem removeTurn_equal (hc : Chain h (some n.1) (n :: m :: ns)) (hnd : (addresses (n :: m :: ns)).Nodup)
    (hrn : Readable ints n) (hrm : Readable ints m) (heq : valueOf ints n = valueOf ints m) :
    ∃ h', removeTurn ints (h, some n.1) = (h', some n.1) ∧ Chain h' (some n.1) (n :: ns) ∧
      KeepsOff [n.1, m.1] h h' ∧ Frees [m.1] h h' := by
  obtain ⟨-, _, prev, hatn, rfl, next, prev', hatm, hrest⟩ := hc
  have hne : m.1 ≠ n.1 := fun h => (List.nodup_cons.mp hnd).1 (by simp [h])
  obtain ⟨hat, hkeep⟩ := At.stores [some n.2] hatn next
  have hatm' := hkeep m.1 (fun hmem => hne (List.mem_singleton.mp hmem)) _ hatm
  have hfree := hatm'.keepsOff_free
  have hkept : KeepsOff [n.1, m.1] h ((h.store (some n.1) NEXT next).free (some m.1)) :=
    (hkeep.mono (by simp)).trans (hfree.mono (by simp))
  refine ⟨(h.store (some n.1) NEXT next).free (some m.1), ?_, ⟨rfl, next, prev, ?_, hrest.keep hkept ?_⟩, hkept, ?_⟩
  · simp only [removeTurn, intOf_eq hatn hrn, intOf_eq hatm hrm, load_next hatn, load_next hatm, if_pos heq]
  · exact hfree n.1 (fun hmem => hne (List.mem_singleton.mp hmem).symm) _ hat
  · intro a ha hmem
    simp only [addresses, List.map_cons, List.nodup_cons, List.mem_cons] at hnd ha hmem
    rcases hmem with rfl | rfl | hmem
    · exact hnd.1 (Or.inr ha)
    · exact hnd.2.1 ha
    · cases hmem
  · exact (frees_store hatn (by simp [NEXT]) next).trans (frees_free hatm')

theorem removeTurn_different (hc : Chain h (some n.1) (n :: m :: ns)) (hrn : Readable ints n) (hrm : Readable ints m)
    (hne : valueOf ints n ≠ valueOf ints m) : removeTurn ints (h, some n.1) = (h, some m.1) := by
  obtain ⟨-, _, prev, hatn, rfl, next, prev', hatm, hrest⟩ := hc
  simp only [removeTurn, intOf_eq hatn hrn, intOf_eq hatm hrm, load_next hatn, if_neg hne]

/-- The nodes behind `n` that repeat the value before them are unlinked and freed. -/
theorem removeLoop_frees {fuel : Nat} (hfuel : ns.length < fuel) (hc : Chain h (some n.1) (n :: ns))
    (hnd : (addresses (n :: ns)).Nodup) (hr : ∀ k ∈ n :: ns, Readable ints k) :
    Ends (removeLoop ints fuel (h, some n.1)) fun s => ∃ gone,
      Chain s.1 (some n.1) (distinctBy (valueOf ints) (n :: ns)) ∧ s.1.fault = false ∧
      KeepsOff (addresses (n :: ns)) h s.1 ∧ Frees gone h s.1 ∧
      (addresses (n :: ns)).Perm (addresses (distinctBy (valueOf ints) (n :: ns)) ++ gone) := by
  induction fuel generalizing h n ns with
  | zero => omega
  | succ fuel ih =>
    obtain ⟨-, next, prev, hat, hrest⟩ := id hc
    have hnext : h.peek (some n.1) NEXT = some next := hat.peek_of_getElem? rfl
    rw [removeLoop, whileLoop, if_neg (Option.some_ne_none n.1), hnext, Option.map_some, hrest.head_isSome]
    cases ns with
    | nil =>
      refine .some ⟨[], hc, hat.sound, fun _ _ _ h => h, frees_same fun _ => rfl, ?_⟩
      rw [List.append_nil]
      exact List.Perm.refl _
    | cons m ns =>
      have hrn := hr n List.mem_cons_self
      have hrm := hr m (by simp)
      have hlen : ns.length < fuel := by
        simp only [List.length_cons] at hfuel
        omega
      change Ends (removeLoop ints fuel (removeTurn ints (h, some n.1))) _
      by_cases heq : valueOf ints n = valueOf ints m
      · obtain ⟨h₁, hturn, hchain, hkeep, hfrees⟩ := removeTurn_equal hc hnd hrn hrm heq
        have hsub : (n :: ns).Sublist (n :: m :: ns) := (List.sublist_cons_self m ns).cons_cons n
        rw [hturn, distinctBy_same heq]
        refine (ih hlen hchain ((hsub.map Prod.fst).nodup hnd) fun k hk => hr k (hsub.subset hk)).mono ?_
        rintro s ⟨gone, hchain', hsound, hkeep', hfrees', hperm⟩
        refine ⟨m.1 :: gone, hchain', hsound, (hkeep.mono ?_).trans (hkeep'.mono ((hsub.map Prod.fst).subset)),
          hfrees.trans hfrees', ?_⟩
        · simp [addresses]
        · have hswap : (addresses (n :: m :: ns)).Perm (m.1 :: addresses (n :: ns)) := List.Perm.swap _ _ _
          exact (hswap.trans (hperm.cons m.1)).trans List.perm_middle.symm
      · obtain ⟨rfl, hrest'⟩ := hrest
        rw [removeTurn_different hc hrn hrm heq, distinctBy_other heq]
        refine (ih hlen ⟨rfl, hrest'⟩ (List.nodup_cons.mp hnd).2 fun k hk => hr k (List.mem_cons_of_mem n hk)).mono ?_
        rintro s ⟨gone, hchain', hsound, hkeep', hfrees', hperm⟩
        refine ⟨gone, ⟨rfl, some m.1, prev, hkeep' n.1 (List.nodup_cons.mp hnd).1 _ hat, hchain'⟩, hsound,
          hkeep'.mono (List.subset_cons_self _ _), hfrees', hperm.cons n.1⟩

theorem removeDuplicates_frees {p : Ptr} {fuel : Nat} (hfuel : ns.length < fuel) (hf : h.fault = false)
    (hc : Chain h p ns) (hr : ∀ k ∈ ns, Readable ints k) :
    Ends (removeDuplicates fuel ints h p) fun s => ∃ gone, Chain s.1 s.2 (distinctBy (valueOf ints) ns) ∧
      s.1.fault = false ∧ Frees gone h s.1 ∧
      (addresses ns).Perm (addresses (distinctBy (valueOf ints) ns) ++ gone) := by
  obtain ⟨fuel, rfl, -⟩ := exists_fuel hfuel
  cases ns with
  | nil =>
    obtain rfl : p = none := hc
    exact .some ⟨[], rfl, hf, frees_same fun _ => rfl, List.Perm.refl _⟩
  | cons n ns =>
    obtain rfl : p = some n.1 := hc.1
    refine (removeLoop_frees (by simp only [List.length_cons] at hfuel; omega) hc hc.nodup hr).bind ?_
    rintro s ⟨gone, hchain, hsound, -, hfrees, hperm⟩
    exact .some ⟨gone, hchain, hsound, hfrees, hperm⟩

end Remove

/-! ### Both together -/

section Both
variable {ints : Heap Int} {h : Heap Ptr} {p q : Ptr} {xs ys : List Node}

/-- `ns` is the sorted merge of both lists: their nodes, and among equal values those of the first list first. -/
structure Merged (ints : Heap Int) (xs ys ns : List Node) : Prop where
  sorted : SortedBy (valueOf ints) ns
  nodes : ns.Perm (xs ++ ys)
  stable : ∀ v, ns.filter (valueOf ints · = v) = xs.filter (valueOf ints · = v) ++ ys.filter (valueOf ints · = v)

/-- One node of each value is kept, and the others are freed, each once. -/
structure Deduplicated (ints : Heap Int) (ns kept : List Node) (h h' : Heap Ptr) : Prop where
  nodes : kept.Sublist ns
  increasing : kept.Pairwise fun m n => valueOf ints m < valueOf ints n
  values : ∀ v, v ∈ kept.map (valueOf ints) ↔ v ∈ ns.map (valueOf ints)
  freed : ∃ gone, (addresses ns).Perm (addresses kept ++ gone) ∧ gone.Nodup ∧ Frees gone h h'

/-- Two sorted lists are merged without losing or sharing a node, and then reduced to one node for each value. -/
theorem sorted_lists_merged (hf : h.fault = false) (h1 : Chain h p xs) (h2 : Chain h q ys)
    (hdisjoint : (addresses xs).Disjoint (addresses ys)) (hr : ∀ n ∈ xs ++ ys, Readable ints n)
    (hx : SortedBy (valueOf ints) xs) (hy : SortedBy (valueOf ints) ys) :
    Halts (fun fuel => sortedMerge fuel ints h p q) fun s => ∃ ns,
      Chain s.1 s.2 ns ∧ s.1.fault = false ∧ Merged ints xs ys ns ∧
        Halts (fun fuel => removeDuplicates fuel ints s.1 s.2) fun s' => ∃ kept,
          Chain s'.1 s'.2 kept ∧ s'.1.fault = false ∧ Deduplicated ints ns kept s.1 s'.1 := by
  have hnd : (addresses xs ++ addresses ys).Nodup := List.nodup_append'.mpr ⟨h1.nodup, h2.nodup, hdisjoint⟩
  refine ⟨xs.length + ys.length + 1, fun fuel hfuel => (sortedMerge_links (by omega) hf h1 h2 hnd hr).mono ?_⟩
  rintro ⟨h', r⟩ ⟨hchain, hsound, -⟩
  have hperm := mergeBy_perm (valueOf ints) xs ys
  have hsorted := mergeBy_sorted hx hy
  refine ⟨_, hchain, hsound, ⟨hsorted, hperm, mergeBy_stable hx hy⟩,
    (mergeBy (valueOf ints) xs ys).length + 1, fun fuel hfuel => ?_⟩
  refine (removeDuplicates_frees hfuel hsound hchain fun k hk => hr k (hperm.subset hk)).mono ?_
  rintro s ⟨gone, hchain', hsound', hfrees, hall⟩
  have hgone : gone.Nodup := (List.nodup_append'.mp (hall.nodup_iff.mp hchain.nodup)).2.1
  exact ⟨_, hchain', hsound', distinctBy_sublist _ _, distinctBy_increasing hsorted, mem_distinctBy _ _, gone,
    hall, hgone, hfrees⟩

end Both

/-- A list of the value 1 and one of the values 1 and 2. -/
def twoLists : Heap Ptr where
  blocks := [⟨[some (some 0), some none, none], 0⟩, ⟨[some (some 0), some (some 2), none], 0⟩,
    ⟨[some (some 1), some none, none], 0⟩]

def twoInts : Heap Int := { blocks := [⟨[some 1], 0⟩, ⟨[some 2], 0⟩] }

theorem sorted_lists_merged_two :
    Halts (fun fuel => sortedMerge fuel twoInts twoLists (some 0) (some 1)) fun s => ∃ ns,
      Chain s.1 s.2 ns ∧ s.1.fault = false ∧ Merged twoInts [(0, some 0)] [(1, some 0), (2, some 1)] ns ∧
        Halts (fun fuel => removeDuplicates fuel twoInts s.1 s.2) fun s' => ∃ kept,
          Chain s'.1 s'.2 kept ∧ s'.1.fault = false ∧ Deduplicated twoInts ns kept s.1 s'.1 :=
  sorted_lists_merged rfl ⟨rfl, none, none, ⟨rfl, rfl⟩, rfl⟩
    ⟨rfl, some 2, none, ⟨rfl, rfl⟩, rfl, none, none, ⟨rfl, rfl⟩, rfl⟩ (by simp [addresses])
    (by simp [Readable]; decide) (List.pairwise_singleton _ _) (by simp [SortedBy]; decide)

end Minitalk.Libft.SortedMerge
