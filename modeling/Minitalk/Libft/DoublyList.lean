import Minitalk.Lib.Sequence

/-! # The doubly linked list (`ft_doubly_list`)

The list is the one that `ft_dll_create` returned, so no function gets a null list. A loop that follows pointers until
a null pointer is given as many steps as there are blocks: one that needs more runs in a circle, and counts as a
fault. -/

namespace Minitalk.Libft.DoublyList
open Heap Sequence

/-! ### `t_dll_node`, `t_doubly_list` -/

abbrev DATA : Nat := 0
abbrev NEXT : Nat := 1
abbrev PREV : Nat := 2

/-- The three fields of a node. -/
def cell (data next prev : Ptr) : List (Option Ptr) := [some data, some next, some prev]

/-- `t_doubly_list`, with the heap that its nodes live in. -/
structure Memory where
  heap : Heap Ptr := {}
  head : Ptr := none
  tail : Ptr := none
  size : Nat := 0

def ftDllCreate (listOk : Bool) : Option Memory := if listOk then some {} else none

def ftDllIsEmpty (m : Memory) : Bool := decide (m.size = 0)

/-! ### `dll_push_front.c`, `dll_push_back.c` -/

/-- The three assignments to the fields of a new node. -/
def initNode (newNode data next prev : Ptr) (heap : Heap Ptr) : Heap Ptr :=
  ((heap.store newNode DATA data).store newNode NEXT next).store newNode PREV prev

def ftDllPushFront (mallocOk : Bool) (data : Ptr) (m : Memory) : Memory × Bool :=
  if mallocOk then
    let (heap, newNode) := m.heap.malloc 3
    let heap := initNode newNode data m.head none heap
    if m.head.isSome then
      ({ m with heap := heap.store m.head PREV newNode, head := newNode, size := m.size + 1 }, true)
    else ({ heap, head := newNode, tail := newNode, size := m.size + 1 }, true)
  else (m, false)

def ftDllPushBack (mallocOk : Bool) (data : Ptr) (m : Memory) : Memory × Bool :=
  if mallocOk then
    let (heap, newNode) := m.heap.malloc 3
    let heap := initNode newNode data none m.tail heap
    if m.tail.isSome then
      ({ m with heap := heap.store m.tail NEXT newNode, tail := newNode, size := m.size + 1 }, true)
    else ({ heap, head := newNode, tail := newNode, size := m.size + 1 }, true)
  else (m, false)

/-! ### `dll_pop_front.c`, `dll_pop_back.c` -/

def ftDllPopFront (m : Memory) : Memory × Ptr :=
  if ftDllIsEmpty m then (m, none)
  else
    let temp := m.head
    let (heap, data) := m.heap.load temp DATA
    let (heap, head) := heap.load m.head NEXT
    if head.isSome then
      let heap := heap.store head PREV none
      ({ m with heap := heap.free temp, head, size := m.size - 1 }, data)
    else ({ heap := heap.free temp, head, tail := none, size := m.size - 1 }, data)

def ftDllPopBack (m : Memory) : Memory × Ptr :=
  if ftDllIsEmpty m then (m, none)
  else
    let temp := m.tail
    let (heap, data) := m.heap.load temp DATA
    let (heap, tail) := heap.load m.tail PREV
    if tail.isSome then
      let heap := heap.store tail NEXT none
      ({ m with heap := heap.free temp, tail, size := m.size - 1 }, data)
    else ({ heap := heap.free temp, head := none, tail, size := m.size - 1 }, data)

/-! ### `dll_access.c` -/

/-- From the nearer end. -/
def getNodeAtIndex (index : Nat) (m : Memory) : Heap Ptr × Ptr :=
  if m.size ≤ index then (m.heap, none)
  else if index < m.size / 2 then m.heap.walk NEXT index m.head
  else m.heap.walk PREV (m.size - 1 - index) m.tail

def ftDllGet (index : Nat) (m : Memory) : Memory × Ptr :=
  let (heap, node) := getNodeAtIndex index m
  if node.isSome then
    let (heap, data) := heap.load node DATA
    ({ m with heap }, data)
  else ({ m with heap }, none)

def ftDllSet (index : Nat) (data : Ptr) (m : Memory) : Memory × Bool :=
  let (heap, node) := getNodeAtIndex index m
  if node.isSome then ({ m with heap := heap.store node DATA data }, true) else ({ m with heap }, false)

/-! ### `dll_insert_remove.c`, `dll_search.c` -/

def ftDllInsert (mallocOk : Bool) (index : Nat) (data : Ptr) (m : Memory) : Memory × Bool :=
  if m.size < index then (m, false)
  else if index = 0 then ftDllPushFront mallocOk data m
  else if index = m.size then ftDllPushBack mallocOk data m
  else if mallocOk then
    let (heap, newNode) := m.heap.malloc 3
    let (heap, current) := heap.walk NEXT index m.head
    let (heap, prev) := heap.load current PREV
    let heap := initNode newNode data current prev heap
    let (heap, prev) := heap.load current PREV
    let heap := heap.store prev NEXT newNode
    let heap := heap.store current PREV newNode
    ({ m with heap, size := m.size + 1 }, true)
  else (m, false)

def ftDllRemove (index : Nat) (m : Memory) : Memory × Ptr :=
  if m.size ≤ index then (m, none)
  else if index = 0 then ftDllPopFront m
  else if index = m.size - 1 then ftDllPopBack m
  else
    let (heap, current) := m.heap.walk NEXT index m.head
    let (heap, data) := heap.load current DATA
    let (heap, next) := heap.load current NEXT
    let (heap, prev) := heap.load current PREV
    let heap := heap.store prev NEXT next
    let (heap, prev) := heap.load current PREV
    let (heap, next) := heap.load current NEXT
    let heap := heap.store next PREV prev
    ({ m with heap := heap.free current, size := m.size - 1 }, data)

/-- The loop of `ft_dll_find`, whose `index` is an `int`. -/
def findLoop (data : Ptr) : Nat → Ptr → BitVec 32 → Heap Ptr → Heap Ptr × BitVec 32
  | _, none, _, heap => (heap, -1)
  | 0, some _, _, heap => (diverged heap, -1)
  | n + 1, some current, index, heap =>
    let (heap, found) := heap.load (some current) DATA
    if found = data then (heap, index)
    else
      let (heap, next) := heap.load (some current) NEXT
      findLoop data n next (index + 1) heap

def ftDllFind (data : Ptr) (m : Memory) : Heap Ptr × BitVec 32 :=
  findLoop data m.heap.blocks.length m.head 0 m.heap

/-- The `int` index is converted to `size_t` for `ft_dll_remove`. -/
def ftDllRemoveData (data : Ptr) (m : Memory) : Memory × Bool :=
  let (heap, index) := ftDllFind data m
  if index = -1 then ({ m with heap }, false)
  else ((ftDllRemove (CIndex.toSize index) { m with heap }).1, true)

/-! ### `dll_utility.c` -/

def clearLoop : Nat → Ptr → Heap Ptr → Heap Ptr
  | _, none, heap => heap
  | 0, some _, heap => diverged heap
  | n + 1, some current, heap =>
    let (heap, next) := heap.load (some current) NEXT
    clearLoop n next (heap.free (some current))

def ftDllClear (m : Memory) : Memory :=
  { heap := clearLoop m.heap.blocks.length m.head m.heap, head := none, tail := none, size := 0 }

def reverseLoop : Nat → Ptr → Heap Ptr → Heap Ptr
  | _, none, heap => heap
  | 0, some _, heap => diverged heap
  | n + 1, some current, heap =>
    let (heap, temp) := heap.load (some current) NEXT
    let (heap, prev) := heap.load (some current) PREV
    let heap := heap.store (some current) NEXT prev
    let heap := heap.store (some current) PREV temp
    reverseLoop n temp heap

def ftDllReverse (m : Memory) : Memory :=
  if m.size ≤ 1 then m
  else { m with heap := reverseLoop m.heap.blocks.length m.head m.heap, head := m.tail, tail := m.head }

/-! ### The list as a sequence -/

inductive Rearrangement where
  | reverse

def functions : Functions Memory Rearrangement where
  pushFront := ftDllPushFront
  pushBack := ftDllPushBack
  popFront := ftDllPopFront
  popBack := ftDllPopBack
  insert := ftDllInsert
  remove := ftDllRemove
  removeData := ftDllRemoveData
  get := ftDllGet
  set := ftDllSet
  clear := ftDllClear
  rearrange
    | .reverse => ftDllReverse

def Rearrangement.apply : Rearrangement → List Ptr → List Ptr
  | .reverse => List.reverse

def doublyList : Implementation Memory (List Ptr) (Op Rearrangement) Answer :=
  functions.implementation Rearrangement.apply

/-- The nodes of the list, in order. -/
structure Holds (m : Memory) (ns : List (Nat × Ptr)) : Prop where
  sound : m.heap.fault = false
  nodup : (ns.map Prod.fst).Nodup
  head : m.head = firstOf ns none
  tail : m.tail = lastOf none ns
  size : m.size = ns.length
  linked : Linked cell m.heap none ns none

/-- Following `next` from the head and `prev` from the tail visits the same `size` live nodes in opposite order, with
    the sequence as their data, and `ft_dll_get` returns the element of every index. -/
structure Mirrored (m : Memory) (xs : List Ptr) : Prop where
  sound : m.heap.fault = false
  size : m.size = xs.length
  nodes : ∃ nodes : List Nat, nodes.Nodup ∧ nodes.length = m.size ∧
    m.heap.track NEXT (m.size + 1) m.head = nodes ∧ m.heap.track PREV (m.size + 1) m.tail = nodes.reverse ∧
    (∀ node ∈ nodes, ∃ cells, m.heap.At (some node) cells) ∧
    nodes.map (fun node => (m.heap.load (some node) DATA).2) = xs
  ends : xs ≠ [] → m.heap.load m.head PREV = (m.heap, none) ∧ m.heap.load m.tail NEXT = (m.heap, none)
  get : ∀ index, ftDllGet index m = (m, xs[index]?.getD none)

/-! ### Writing one field -/

theorem cell_next (data next prev : Ptr) : (cell data next prev)[NEXT]? = some (some next) := rfl

theorem cell_prev (data next prev : Ptr) : (cell data next prev)[PREV]? = some (some prev) := rfl

theorem cell_data (data next prev : Ptr) : (cell data next prev)[DATA]? = some (some data) := rfl

section Fields
variable {h : Heap Ptr} {a : Nat} {d n p q prev next : Ptr} {xs ys : List (Nat × Ptr)}

theorem store_data (hat : h.At (some a) (cell d n p)) (q : Ptr) :
    (h.store (some a) DATA q).At (some a) (cell q n p) ∧ KeepsOff [a] h (h.store (some a) DATA q) :=
  At.stores [] hat q

theorem setsNext : SetsNext cell NEXT := fun _ _ d _ _ hat q =>
  At.stores [some d] hat q

theorem store_prev (hat : h.At (some a) (cell d n p)) (q : Ptr) :
    (h.store (some a) PREV q).At (some a) (cell d n q) ∧ KeepsOff [a] h (h.store (some a) PREV q) :=
  At.stores [some d, some n] hat q

/-- A new node, once its fields are set. -/
theorem initNode_at (hat : h.At (some a) (List.replicate 3 none)) (d n p : Ptr) :
    (initNode (some a) d n p h).At (some a) (cell d n p) ∧ KeepsOff [a] h (initNode (some a) d n p h) := by
  obtain ⟨h1, k1⟩ := At.stores [] hat d
  obtain ⟨h2, k2⟩ := At.stores [some d] h1 n
  obtain ⟨h3, k3⟩ := At.stores [some d, some n] h2 p
  exact ⟨h3, (k1.trans k2).trans k3⟩

/-- `first->prev = q`. -/
theorem relink_first (hl : Linked cell h prev ys next) (hnd : (ys.map Prod.fst).Nodup) (hne : ys ≠ []) (q : Ptr) :
    Linked cell (h.store (firstOf ys next) PREV q) q ys next ∧
      KeepsOff (ys.map Prod.fst) h (h.store (firstOf ys next) PREV q) := by
  cases ys with
  | nil => exact absurd rfl hne
  | cons n ys =>
    obtain ⟨hat, hkeep⟩ := store_prev hl.1 q
    rw [List.map_cons, List.nodup_cons] at hnd
    exact ⟨⟨hat, hl.2.keep hkeep (not_mem_singleton_of hnd.1)⟩, hkeep.mono (by simp)⟩

end Fields

/-! ### What each function does -/

section Functions
variable {m : Memory} {ns xs ys : List (Nat × Ptr)} {n : Nat × Ptr}

/-- `malloc` of a node. -/
theorem Holds.fresh (h : Holds m ns) (d next prev : Ptr) :
    ∃ a, (m.heap.malloc 3).2 = some a ∧ a ∉ ns.map Prod.fst ∧
      (initNode (some a) d next prev (m.heap.malloc 3).1).At (some a) (cell d next prev) ∧
      Linked cell (initNode (some a) d next prev (m.heap.malloc 3).1) none ns none := by
  have hat := at_malloc h.sound 3
  obtain ⟨hinit, hkeep⟩ := initNode_at (a := m.heap.blocks.length) hat d next prev
  have hfresh : ∀ n ∈ ns, n.1 ≠ m.heap.blocks.length := by
    intro n hn
    obtain ⟨cells, hcells⟩ := h.linked.live hn
    exact Nat.ne_of_lt hcells.lt
  refine ⟨_, rfl, fun hmem => ?_, hinit, h.linked.keep ((keepsOff_malloc _ _ _).trans hkeep) fun n hn hmem => ?_⟩
  · obtain ⟨n, hn, hlt⟩ := List.mem_map.mp hmem
    exact hfresh n hn hlt
  · exact hfresh n hn (List.mem_singleton.mp hmem)

theorem pushBack_holds (h : Holds m ns) (data : Ptr) :
    ∃ m' a, ftDllPushBack true data m = (m', true) ∧ Holds m' (ns ++ [(a, data)]) := by
  obtain ⟨a, hnew, hfresh, hat, hlinked⟩ := h.fresh data none m.tail
  have hnodup : ((ns ++ [(a, data)]).map Prod.fst).Nodup :=
    nodup_insert _ (by simpa using h.nodup) (by simpa using hfresh)
  have hsize : m.size + 1 = (ns ++ [(a, data)]).length := by rw [h.size, List.length_append]; rfl
  by_cases hne : ns = []
  · subst hne
    have htail : m.tail = none := h.tail
    rw [htail] at hat
    refine ⟨_, a, by simp only [ftDllPushBack, hnew, htail, if_true, Option.isSome_none,
      Bool.false_eq_true, if_false]; rfl, hat.sound, hnodup, rfl, rfl, hsize, hat, trivial⟩
  · obtain ⟨b, hb⟩ := exists_lastOf hne none
    obtain ⟨hrelink, hkeep⟩ := hlinked.relink_last setsNext h.nodup hne (some a)
    have hat' := hkeep a hfresh _ hat
    rw [h.tail, hb] at hat' hrelink
    refine ⟨_, a, by simp only [ftDllPushBack, hnew, h.tail, hb, if_true, Option.isSome_some]; rfl,
      hat'.sound, hnodup, ?_, ?_, hsize, linked_append.mpr ⟨hrelink, ?_, trivial⟩⟩
    · rw [firstOf_append, h.head]
      exact firstOf_of_ne hne _ _
    · rw [lastOf_concat]
    · rw [hb]
      exact hat'

theorem pushFront_holds (h : Holds m ns) (data : Ptr) :
    ∃ m' a, ftDllPushFront true data m = (m', true) ∧ Holds m' ((a, data) :: ns) := by
  obtain ⟨a, hnew, hfresh, hat, hlinked⟩ := h.fresh data m.head none
  have hnodup : (((a, data) :: ns).map Prod.fst).Nodup := nodup_insert [] h.nodup hfresh
  have hsize : m.size + 1 = ((a, data) :: ns).length := by rw [h.size, List.length_cons]
  by_cases hne : ns = []
  · subst hne
    have hhead : m.head = none := h.head
    rw [hhead] at hat
    exact ⟨_, a, by simp only [ftDllPushFront, hnew, hhead, if_true, Option.isSome_none,
      Bool.false_eq_true, if_false]; rfl, hat.sound, hnodup, rfl, rfl, hsize, hat, trivial⟩
  · obtain ⟨b, hb⟩ := exists_firstOf hne none
    obtain ⟨hrelink, hkeep⟩ := relink_first hlinked h.nodup hne (some a)
    have hat' := hkeep a hfresh _ hat
    rw [h.head, hb] at hat' hrelink
    refine ⟨_, a, by simp only [ftDllPushFront, hnew, h.head, hb, if_true, Option.isSome_some]; rfl,
      hat'.sound, hnodup, rfl, ?_, hsize, ?_, hrelink⟩
    · rw [h.tail]
      exact lastOf_of_ne hne _ _
    · rw [hb]
      exact hat'

theorem insert_holds (h : Holds m (xs ++ ys)) (hx : xs ≠ []) (hy : ys ≠ []) (data : Ptr) :
    ∃ m' a, ftDllInsert true xs.length data m = (m', true) ∧ Holds m' (xs ++ (a, data) :: ys) := by
  obtain ⟨hxnd, hynd, hxy, hyx⟩ := nodup_parts _ h.nodup
  obtain ⟨a, hnew, hfresh, hat, hlinked⟩ := h.fresh data (firstOf ys none) (lastOf none xs)
  obtain ⟨hax, hay⟩ := not_mem_parts hfresh
  have hsize := h.size
  rw [List.length_append] at hsize
  have hxpos := List.length_pos_iff.mpr hx
  have hypos := List.length_pos_iff.mpr hy
  -- The walk, and the first load of `current->prev`, before the fields of the new node are set.
  have hstart : Linked cell (m.heap.malloc 3).1 none (xs ++ ys) none :=
    h.linked.keep (keepsOff_malloc [] _ _) fun _ _ => List.not_mem_nil
  obtain ⟨hsx, hsy⟩ := linked_append.mp hstart
  have hwalk : (m.heap.malloc 3).1.walk NEXT xs.length m.head = ((m.heap.malloc 3).1, firstOf ys none) := by
    rw [h.head, firstOf_append]
    exact hsx.walk_next cell_next
  have hload := hsy.load_first cell_prev hy
  obtain ⟨hlx, hly⟩ := linked_append.mp hlinked
  have hload' := hly.load_first cell_prev hy
  obtain ⟨hx', hkx⟩ := hlx.relink_last setsNext hxnd hx (some a)
  obtain ⟨hy', hky⟩ := relink_first (hly.keep hkx hyx) hynd hy (some a)
  refine ⟨_, a, by simp only [ftDllInsert, hwalk, hload, hnew, hload', if_true, show ¬m.size < xs.length by omega,
    show ¬xs.length = 0 by omega, show ¬xs.length = m.size by omega, if_false]; rfl, ?_⟩
  have hat' := hky a hay _ (hkx a hax _ hat)
  refine ⟨hat'.sound, nodup_insert _ h.nodup hfresh, ?_, ?_, ?_, linked_append.mpr ⟨hx'.keep hky hxy, hat', hy'⟩⟩
  · rw [h.head, firstOf_append, firstOf_append]
    exact firstOf_of_ne hx _ _
  · rw [h.tail, lastOf_append, lastOf_append]
    exact lastOf_of_ne hy _ _
  · rw [List.length_append, List.length_cons]
    exact congrArg (· + 1) hsize

theorem popFront_holds (h : Holds m (n :: ns)) :
    ∃ m', ftDllPopFront m = (m', n.2) ∧ Holds m' ns := by
  obtain ⟨hat, hns⟩ := h.linked
  obtain ⟨hnd, -, hn⟩ := nodup_mid [] h.nodup
  have hdata := hat.load_of_getElem? (cell_data _ _ _)
  have hnext := hat.load_of_getElem? (cell_next _ _ _)
  have hempty : ftDllIsEmpty m = false := by rw [ftDllIsEmpty, h.size, List.length_cons]; rfl
  have hhead : m.head = some n.1 := h.head
  have hsize : m.size - 1 = ns.length := by rw [h.size, List.length_cons, Nat.add_sub_cancel]
  by_cases hne : ns = []
  · subst hne
    exact ⟨_, by simp only [ftDllPopFront, hempty, hhead, hdata, hnext, firstOf_nil, Option.isSome_none,
      Bool.false_eq_true, if_false]; rfl, hat.free_sound, hnd, rfl, rfl, hsize, trivial⟩
  · obtain ⟨b, hb⟩ := exists_firstOf hne none
    obtain ⟨hrelink, hkeep⟩ := relink_first hns hnd hne none
    rw [hb] at hnext hrelink hkeep
    have hat' := hkeep _ hn _ hat
    refine ⟨_, by simp only [ftDllPopFront, hempty, hhead, hdata, hnext, Option.isSome_some, if_true,
      Bool.false_eq_true, if_false]; rfl, hat'.free_sound, hnd, hb.symm, ?_, hsize,
      hrelink.keep hat'.keepsOff_free (not_mem_singleton_of hn)⟩
    rw [h.tail]
    exact lastOf_of_ne hne _ _

theorem popBack_holds (h : Holds m (ns ++ [n])) :
    ∃ m', ftDllPopBack m = (m', n.2) ∧ Holds m' ns := by
  obtain ⟨hns, hat, -⟩ := linked_append.mp h.linked
  obtain ⟨hnd, hn, -⟩ := nodup_mid _ h.nodup
  rw [List.append_nil] at hnd
  have hdata := hat.load_of_getElem? (cell_data _ _ _)
  have hprev := hat.load_of_getElem? (cell_prev _ _ _)
  have hempty : ftDllIsEmpty m = false := by
    rw [ftDllIsEmpty, h.size, List.length_append, List.length_singleton]; rfl
  have htail : m.tail = some n.1 := by rw [h.tail, lastOf_concat]
  have hsize : m.size - 1 = ns.length := by
    rw [h.size, List.length_append, List.length_singleton, Nat.add_sub_cancel]
  by_cases hne : ns = []
  · subst hne
    exact ⟨_, by simp only [ftDllPopBack, hempty, htail, hdata, hprev, lastOf_nil, Option.isSome_none,
      Bool.false_eq_true, if_false]; rfl, hat.free_sound, hnd, rfl, rfl, hsize, trivial⟩
  · obtain ⟨b, hb⟩ := exists_lastOf hne none
    obtain ⟨hrelink, hkeep⟩ := hns.relink_last setsNext hnd hne none
    rw [hb] at hprev hrelink hkeep
    have hat' := hkeep _ hn _ hat
    rw [hb] at hat'
    refine ⟨_, by simp only [ftDllPopBack, hempty, htail, hdata, hprev, Option.isSome_some, if_true,
      Bool.false_eq_true, if_false]; rfl, hat'.free_sound, hnd, ?_, hb.symm, hsize,
      hrelink.keep hat'.keepsOff_free (not_mem_singleton_of hn)⟩
    rw [h.head, firstOf_append]
    exact firstOf_of_ne hne _ _

theorem remove_holds (h : Holds m (xs ++ n :: ys)) (hx : xs ≠ []) (hy : ys ≠ []) :
    ∃ m', ftDllRemove xs.length m = (m', n.2) ∧ Holds m' (xs ++ ys) := by
  obtain ⟨hnd, hnx, hny⟩ := nodup_mid _ h.nodup
  obtain ⟨hxnd, hynd, hxy, hyx⟩ := nodup_parts _ hnd
  have hsize := h.size
  rw [List.length_append, List.length_cons] at hsize
  have hxpos := List.length_pos_iff.mpr hx
  have hypos := List.length_pos_iff.mpr hy
  obtain ⟨hsx, hat, hsy⟩ := linked_append.mp h.linked
  have hwalk : m.heap.walk NEXT xs.length m.head = (m.heap, some n.1) := by
    rw [h.head, firstOf_append]
    exact hsx.walk_next cell_next
  have hdata := hat.load_of_getElem? (cell_data _ _ _)
  have hnext := hat.load_of_getElem? (cell_next _ _ _)
  have hprev := hat.load_of_getElem? (cell_prev _ _ _)
  -- The node before is linked to the one behind, then the one behind to the one before.
  obtain ⟨hx', hkx⟩ := hsx.relink_last setsNext hxnd hx (firstOf ys none)
  have hat' := hkx _ hnx _ hat
  have hnext' := hat'.load_of_getElem? (cell_next _ _ _)
  have hprev' := hat'.load_of_getElem? (cell_prev _ _ _)
  obtain ⟨hy', hky⟩ := relink_first (hsy.keep hkx hyx) hynd hy (lastOf none xs)
  have hat'' := hky _ hny _ hat'
  have hfree := hat''.keepsOff_free
  refine ⟨_, by simp only [ftDllRemove, hwalk, hdata, hnext, hprev, hnext', hprev', if_false,
    show ¬m.size ≤ xs.length by omega, show ¬xs.length = 0 by omega, show ¬xs.length = m.size - 1 by omega]; rfl, ?_⟩
  refine ⟨hat''.free_sound, hnd, ?_, ?_, ?_, linked_append.mpr ⟨?_, ?_⟩⟩
  · rw [h.head, firstOf_append, firstOf_append]
    exact firstOf_of_ne hx _ _
  · rw [h.tail, lastOf_append, lastOf_append]
    exact lastOf_of_ne hy (some n.1) _
  · rw [List.length_append]
    simp only
    omega
  · exact (hx'.keep hky hxy).keep hfree (not_mem_singleton_of hnx)
  · exact hy'.keep hfree (not_mem_singleton_of hny)

theorem remove_zero (h : Holds m ns) (hne : ns ≠ []) : ftDllRemove 0 m = ftDllPopFront m := by
  have hsize := h.size
  have hpos := List.length_pos_iff.mpr hne
  rw [ftDllRemove, if_neg (by omega), if_pos rfl]

theorem remove_last (h : Holds m (ns ++ [n])) (hne : ns ≠ []) : ftDllRemove ns.length m = ftDllPopBack m := by
  have hsize := h.size
  have hpos := List.length_pos_iff.mpr hne
  rw [List.length_append, List.length_singleton] at hsize
  rw [ftDllRemove, if_neg (by omega), if_neg (by omega), if_pos (by omega)]

/-- Both walks reach the node of the index. -/
theorem getNodeAtIndex_holds (h : Holds m (xs ++ n :: ys)) : getNodeAtIndex xs.length m = (m.heap, some n.1) := by
  have hsize := h.size
  rw [List.length_append, List.length_cons] at hsize
  have hlinked := h.linked
  unfold getNodeAtIndex
  rw [if_neg (by omega)]
  split
  · rw [h.head, firstOf_append]
    exact (linked_append.mp hlinked).1.walk_next cell_next
  · have hsplit : xs ++ n :: ys = (xs ++ [n]) ++ ys := by simp
    rw [hsplit] at hlinked
    obtain ⟨-, hys⟩ := linked_append.mp hlinked
    rw [show m.size - 1 - xs.length = ys.length by omega, h.tail, hsplit, lastOf_append, hys.walk_prev cell_prev,
      lastOf_concat]

theorem getNodeAtIndex_of_le (h : Holds m ns) {index : Nat} (hle : ns.length ≤ index) :
    getNodeAtIndex index m = (m.heap, none) := if_pos (h.size ▸ hle)

theorem get_holds (h : Holds m ns) (index : Nat) :
    ftDllGet index m = (m, (ns.map Prod.snd)[index]?.getD none) := by
  by_cases hlt : index < ns.length
  · obtain ⟨xs, n, ys, rfl, rfl⟩ := exists_split hlt
    have hdata := (linked_append.mp h.linked).2.1.load_of_getElem? (cell_data _ _ _)
    simp [ftDllGet, getNodeAtIndex_holds h, hdata]
  · have hle : ns.length ≤ index := Nat.not_lt.mp hlt
    rw [List.getElem?_eq_none (by rwa [List.length_map])]
    simp [ftDllGet, getNodeAtIndex_of_le h hle]

theorem set_holds (h : Holds m (xs ++ n :: ys)) (data : Ptr) :
    ∃ m', ftDllSet xs.length data m = (m', true) ∧ Holds m' (xs ++ (n.1, data) :: ys) := by
  obtain ⟨hsx, hat, hsy⟩ := linked_append.mp h.linked
  obtain ⟨-, hnx, hny⟩ := nodup_mid _ h.nodup
  obtain ⟨hat', hkeep⟩ := store_data hat data
  refine ⟨_, by simp only [ftDllSet, getNodeAtIndex_holds h, Option.isSome_some, if_true]; rfl, hat'.sound, ?_, ?_, ?_,
    ?_, linked_append.mpr ⟨?_, hat', ?_⟩⟩
  · simpa using h.nodup
  · rw [h.head, firstOf_append, firstOf_append]
    rfl
  · rw [h.tail, lastOf_append, lastOf_append]
    rfl
  · simpa using h.size
  · exact hsx.keep hkeep (not_mem_singleton_of hnx)
  · exact hsy.keep hkeep (not_mem_singleton_of hny)

/-! ### The loops until a null pointer -/

theorem findLoop_eq {h : Heap Ptr} {prev : Ptr} (hl : Linked cell h prev ns none) (data : Ptr) {fuel : Nat}
    (hfuel : ns.length ≤ fuel) (index : BitVec 32) :
    findLoop data fuel (firstOf ns none) index h =
      (h, if data ∈ ns.map Prod.snd then index + BitVec.ofNat 32 ((ns.map Prod.snd).idxOf data) else -1) := by
  induction ns generalizing prev fuel index with
  | nil => cases fuel <;> rfl
  | cons n ns ih =>
    obtain ⟨fuel, rfl, hle⟩ := Program.exists_fuel hfuel
    have hdata := hl.1.load_of_getElem? (cell_data _ _ _)
    have hnext := hl.1.load_of_getElem? (cell_next _ _ _)
    simp only [firstOf_cons, findLoop, hdata, hnext]
    by_cases hfound : n.2 = data
    · simp [hfound]
    · rw [if_neg hfound, ih hl.2 hle]
      have hmem : data ∈ (n :: ns).map Prod.snd ↔ data ∈ ns.map Prod.snd := by
        simp [Ne.symm hfound]
      simp only [hmem]
      rw [List.map_cons, List.idxOf_cons_ne _ hfound, Nat.succ_eq_one_add, BitVec.ofNat_add, BitVec.add_assoc]
      rfl

theorem clearLoop_sound {h : Heap Ptr} {prev : Ptr} (hl : Linked cell h prev ns none)
    (hnd : (ns.map Prod.fst).Nodup) (hf : h.fault = false) {fuel : Nat} (hfuel : ns.length ≤ fuel) :
    (clearLoop fuel (firstOf ns none) h).fault = false := by
  induction ns generalizing h prev fuel with
  | nil => cases fuel <;> exact hf
  | cons n ns ih =>
    obtain ⟨fuel, rfl, hle⟩ := Program.exists_fuel hfuel
    have hnext := hl.1.load_of_getElem? (cell_next _ _ _)
    rw [List.map_cons, List.nodup_cons] at hnd
    simp only [firstOf_cons, clearLoop, hnext]
    exact ih (hl.2.keep hl.1.keepsOff_free (not_mem_singleton_of hnd.1)) hnd.2 hl.1.free_sound hle

/-- The nodes are linked the other way, from what was before the first to what was behind the last. -/
theorem reverseLoop_linked {h : Heap Ptr} {prev : Ptr} (hl : Linked cell h prev ns none)
    (hnd : (ns.map Prod.fst).Nodup) {fuel : Nat} (hfuel : ns.length ≤ fuel) :
    Linked cell (reverseLoop fuel (firstOf ns none) h) none ns.reverse prev ∧
      KeepsOff (ns.map Prod.fst) h (reverseLoop fuel (firstOf ns none) h) := by
  induction ns generalizing h prev fuel with
  | nil => cases fuel <;> exact ⟨trivial, fun _ _ _ hat => hat⟩
  | cons n ns ih =>
    obtain ⟨fuel, rfl, hle⟩ := Program.exists_fuel hfuel
    rw [List.map_cons, List.nodup_cons] at hnd
    have hnext := hl.1.load_of_getElem? (cell_next _ _ _)
    have hprev := hl.1.load_of_getElem? (cell_prev _ _ _)
    obtain ⟨hat, hk⟩ := setsNext _ _ _ _ _ hl.1 prev
    obtain ⟨hat', hk'⟩ := store_prev hat (firstOf ns none)
    have hkeep := hk.trans hk'
    have hns := hl.2.keep hkeep (not_mem_singleton_of hnd.1)
    obtain ⟨hrev, hoff⟩ := ih hns hnd.2 hle
    simp only [firstOf_cons, reverseLoop, hnext, hprev, List.reverse_cons]
    refine ⟨linked_append.mpr ⟨hrev, ?_, trivial⟩, (hkeep.mono (by simp)).trans (hoff.mono (by simp))⟩
    rw [lastOf_reverse]
    exact hoff _ hnd.1 _ hat'

theorem reverse_holds (h : Holds m ns) : Holds (ftDllReverse m) ns.reverse := by
  unfold ftDllReverse
  split
  · rename_i hsmall
    have hself : ns.reverse = ns := by
      match ns, h.size with
      | [], _ | [_], _ => rfl
      | _ :: _ :: _, hsize => simp only [List.length_cons] at hsize; omega
    rwa [hself]
  · obtain ⟨hrev, -⟩ := reverseLoop_linked h.linked h.nodup (h.linked.length_le h.nodup)
    rw [← h.head] at hrev
    refine ⟨?_, ?_, ?_, ?_, by simpa using h.size, hrev⟩
    · rename_i hbig
      have hne : ns.reverse ≠ [] := by
        intro hnil
        rw [List.reverse_eq_nil_iff] at hnil
        rw [h.size, hnil] at hbig
        exact hbig (Nat.zero_le _)
      obtain ⟨n, hn⟩ := List.exists_mem_of_ne_nil _ hne
      obtain ⟨cells, hat⟩ := hrev.live hn
      exact hat.sound
    · rw [List.map_reverse]
      exact (List.reverse_perm _).nodup_iff.mpr h.nodup
    · rw [h.tail, ← lastOf_reverse, List.reverse_reverse]
    · rw [h.head, lastOf_reverse]

theorem clear_holds (h : Holds m ns) : Holds (ftDllClear m) [] := by
  refine ⟨?_, List.nodup_nil, rfl, rfl, rfl, trivial⟩
  have hsound := clearLoop_sound h.linked h.nodup h.sound (h.linked.length_le h.nodup)
  rw [← h.head] at hsound
  exact hsound

theorem find_holds (h : Holds m ns) (data : Ptr) :
    ftDllFind data m =
      (m.heap, if data ∈ ns.map Prod.snd then BitVec.ofNat 32 ((ns.map Prod.snd).idxOf data) else -1) := by
  rw [ftDllFind, h.head, findLoop_eq h.linked data (h.linked.length_le h.nodup)]
  simp

/-- An insertion is refused by itself, or by the function that pushes. -/
theorem insert_refused {mallocOk : Bool} {index : Nat} (h : Holds m ns) (hbad : ns.length < index ∨ mallocOk = false)
    (data : Ptr) : ftDllInsert mallocOk index data m = (m, false) := by
  rcases hbad with hlt | rfl
  · rw [ftDllInsert, if_pos (h.size ▸ hlt)]
  · simp [ftDllInsert, ftDllPushFront, ftDllPushBack]

theorem insert_length (h : Holds m ns) (hne : ns ≠ []) (mallocOk : Bool) (data : Ptr) :
    ftDllInsert mallocOk ns.length data m = ftDllPushBack mallocOk data m := by
  have hsize := h.size
  have hpos := List.length_pos_iff.mpr hne
  rw [ftDllInsert, if_neg (by omega), if_neg (by omega), if_pos (by omega)]

theorem functions_correct : Correct functions Rearrangement.apply Holds where
  pushFront := pushFront_holds
  pushFront_refused _ _ := rfl
  pushBack := pushBack_holds
  pushBack_refused _ _ := rfl
  popFront := popFront_holds
  popFront_nil h := if_pos (decide_eq_true h.size)
  popBack := popBack_holds
  popBack_nil h := if_pos (decide_eq_true h.size)
  insert_refused := insert_refused
  insert_zero _ _ _ := rfl
  insert_length := insert_length
  insert := insert_holds
  remove_out h hle := if_pos (h.size ▸ hle)
  remove_zero := remove_zero
  remove_last := remove_last
  remove := remove_holds
  removeData_absent h habsent := by simp only [functions, ftDllRemoveData, find_holds h, habsent, if_false, if_true]
  removeData h hmem hfound := by simp only [functions, ftDllRemoveData, find_holds h, hmem, hfound, if_true, if_false]
  get := get_holds
  set := set_holds
  set_refused h hle _ := by simp [functions, ftDllSet, getNodeAtIndex_of_le h hle]
  clear := clear_holds
  rearrange h
    | .reverse => ⟨_, reverse_holds h, List.map_reverse⟩

end Functions

/-! ### Every run -/

section Runs
variable {m : Memory}

theorem refines_create (listOk : Bool) (h : ftDllCreate listOk = some m) : Refines Holds m [] := by
  cases listOk with
  | false => cases h
  | true =>
    cases h
    exact ⟨[], ⟨rfl, List.nodup_nil, rfl, rfl, rfl, trivial⟩, rfl⟩

theorem mirrored_of_refines {xs : List Ptr} (h : Refines Holds m xs) : Mirrored m xs := by
  obtain ⟨ns, h, rfl⟩ := h
  have hsize := h.size
  refine ⟨h.sound, by rw [hsize, List.length_map], ⟨ns.map Prod.fst, h.nodup,
    by rw [hsize, List.length_map], ?_, ?_, ?_, h.linked.map_load cell_data⟩, fun hne => ?_, get_holds h⟩
  · rw [h.head, hsize, h.linked.track_next cell_next]
    exact List.append_nil _
  · rw [h.tail, hsize, h.linked.track_prev cell_prev]
    exact List.append_nil _
  · intro a ha
    obtain ⟨n, hn, rfl⟩ := List.mem_map.mp ha
    exact h.linked.live hn
  · have hne : ns ≠ [] := fun hnil => hne (by rw [hnil]; rfl)
    exact ⟨h.head ▸ h.linked.load_first cell_prev hne, h.tail ▸ h.linked.load_last cell_next hne⟩

end Runs

/-- A list from `ft_dll_create` is a sequence in every run that removes no data at an index beyond `int`: its nodes
    mirror the sequence, and every operation is refused without effect or returns what it does on the sequence. -/
theorem doublyList_refines (listOk : Bool) (m : Memory) (h : ftDllCreate listOk = some m)
    (ops : List (Op Rearrangement × Bool)) (hfits : doublyList.machine.Meets Fits (m, []) ops) :
    Mirrored (doublyList.machine.run (m, []) ops).1 (doublyList.machine.run (m, []) ops).2 ∧
      doublyList.machine.Meets doublyList.Answered (m, []) ops := by
  obtain ⟨href, hanswered⟩ := functions_correct.refines_run (refines_create _ h) hfits
  exact ⟨mirrored_of_refines href, hanswered⟩

/-- Insertion in the middle, reversal, and removal by data. -/
theorem doublyList_refines_reversed :
    let ops := [(Op.pushBack (some 7), true), (.pushBack (some 9), true), (.insert 1 (some 8), true),
      (.rearrange .reverse, true), (.removeData (some 8), true), (.removeData (some 5), true)]
    Mirrored (doublyList.machine.run ({}, []) ops).1 [some 9, some 7] := by
  intro ops
  refine (doublyList_refines true {} rfl ops
    ⟨trivial, trivial, trivial, trivial, fun _ => ?_, fun hmem => ?_, trivial⟩).1
  · decide
  · exact absurd hmem (by decide)

/-- In a list of 2^31 null pointers and one other, the other is not removed. -/
theorem removeData_loses_far :
    let ops := List.replicate (2 ^ 31) (Op.pushBack none, true) ++
      [(.pushBack (some 1), true), (.removeData (some 1), true)]
    ¬Mirrored (doublyList.machine.run ({}, []) ops).1 (doublyList.machine.run ({}, []) ops).2 := by
  generalize hk : 2 ^ 31 = k
  intro ops hmirrored
  obtain ⟨m, xs, ys, hrun, href, hlt⟩ := functions_correct.far_run (refines_create true rfl) hk.symm (a := 1)
  have hfinal : doublyList.machine.run ({}, []) ops = (m, ys) := hrun
  rw [hfinal] at hmirrored
  have hsize := (mirrored_of_refines href).size
  rw [hmirrored.size] at hsize
  exact absurd hsize (Nat.ne_of_lt hlt)

end Minitalk.Libft.DoublyList
