import Minitalk.Lib.Sequence

/-! # The circular linked list (`ft_circular_list`)

The list is the one that `ft_cl_create` returned, so no function gets a null list. Only the last node is stored; its
`next` is the first. The one loop that follows pointers until it meets the last node is given as many steps as there
are blocks, and counts as a fault when it needs more. -/

namespace Minitalk.Libft.CircularList
open Heap Sequence

/-! ### `t_cl_node`, `t_circular_list` -/

abbrev DATA : Nat := 0
abbrev NEXT : Nat := 1

/-- The two fields of a node, which does not know the one before it. -/
def cell (data next _prev : Ptr) : List (Option Ptr) := [some data, some next]

/-- `t_circular_list`, with the heap that its nodes live in. -/
structure Memory where
  heap : Heap Ptr := {}
  last : Ptr := none
  size : Nat := 0

def ftClCreate (listOk : Bool) : Option Memory := if listOk then some {} else none

def ftClIsEmpty (m : Memory) : Bool := decide (m.size = 0)

/-! ### `cl_push.c` -/

def ftClPushFront (mallocOk : Bool) (data : Ptr) (m : Memory) : Memory × Bool :=
  if mallocOk then
    let (heap, newNode) := m.heap.malloc 2
    let heap := heap.store newNode DATA data
    if ftClIsEmpty m then
      ({ heap := heap.store newNode NEXT newNode, last := newNode, size := m.size + 1 }, true)
    else
      let (heap, first) := heap.load m.last NEXT
      let heap := heap.store newNode NEXT first
      ({ m with heap := heap.store m.last NEXT newNode, size := m.size + 1 }, true)
  else (m, false)

def ftClPushBack (mallocOk : Bool) (data : Ptr) (m : Memory) : Memory × Bool :=
  if mallocOk then
    let (heap, newNode) := m.heap.malloc 2
    let heap := heap.store newNode DATA data
    if ftClIsEmpty m then
      ({ heap := heap.store newNode NEXT newNode, last := newNode, size := m.size + 1 }, true)
    else
      let (heap, first) := heap.load m.last NEXT
      let heap := heap.store newNode NEXT first
      ({ heap := heap.store m.last NEXT newNode, last := newNode, size := m.size + 1 }, true)
  else (m, false)

/-! ### `cl_pop.c` -/

def ftClPopFront (m : Memory) : Memory × Ptr :=
  if ftClIsEmpty m then (m, none)
  else
    let (heap, first) := m.heap.load m.last NEXT
    let (heap, data) := heap.load first DATA
    if m.size = 1 then ({ heap := heap.free first, last := none, size := m.size - 1 }, data)
    else
      let (heap, next) := heap.load first NEXT
      let heap := heap.store m.last NEXT next
      ({ m with heap := heap.free first, size := m.size - 1 }, data)

/-- The node in front of the last one. -/
def beforeLastLoop (last : Ptr) : Nat → Ptr → Heap Ptr → Heap Ptr × Ptr
  | 0, current, heap => (diverged heap, current)
  | n + 1, current, heap =>
    let (heap, next) := heap.load current NEXT
    if next = last then (heap, current) else beforeLastLoop last n next heap

def ftClPopBack (m : Memory) : Memory × Ptr :=
  if ftClIsEmpty m then (m, none)
  else
    let (heap, data) := m.heap.load m.last DATA
    if m.size = 1 then ({ heap := heap.free m.last, last := none, size := m.size - 1 }, data)
    else
      let (heap, first) := heap.load m.last NEXT
      let (heap, current) := beforeLastLoop m.last heap.blocks.length first heap
      let (heap, first) := heap.load m.last NEXT
      let heap := heap.store current NEXT first
      ({ heap := heap.free m.last, last := current, size := m.size - 1 }, data)

/-! ### `cl_access.c` -/

def getNodeAtIndex (index : Nat) (m : Memory) : Heap Ptr × Ptr :=
  if m.size ≤ index then (m.heap, none)
  else
    let (heap, first) := m.heap.load m.last NEXT
    heap.walk NEXT index first

def ftClGet (index : Nat) (m : Memory) : Memory × Ptr :=
  let (heap, node) := getNodeAtIndex index m
  if node.isSome then
    let (heap, data) := heap.load node DATA
    ({ m with heap }, data)
  else ({ m with heap }, none)

def ftClSet (index : Nat) (data : Ptr) (m : Memory) : Memory × Bool :=
  let (heap, node) := getNodeAtIndex index m
  if node.isSome then ({ m with heap := heap.store node DATA data }, true) else ({ m with heap }, false)

/-! ### `cl_insert_remove.c`, `cl_search.c` -/

def ftClInsert (mallocOk : Bool) (index : Nat) (data : Ptr) (m : Memory) : Memory × Bool :=
  if m.size < index then (m, false)
  else if index = 0 then ftClPushFront mallocOk data m
  else if index = m.size then ftClPushBack mallocOk data m
  else if mallocOk then
    let (heap, newNode) := m.heap.malloc 2
    let (heap, first) := heap.load m.last NEXT
    let (heap, current) := heap.walk NEXT (index - 1) first
    let heap := heap.store newNode DATA data
    let (heap, next) := heap.load current NEXT
    let heap := heap.store newNode NEXT next
    ({ m with heap := heap.store current NEXT newNode, size := m.size + 1 }, true)
  else (m, false)

def ftClRemove (index : Nat) (m : Memory) : Memory × Ptr :=
  if m.size ≤ index then (m, none)
  else if index = 0 then ftClPopFront m
  else if index = m.size - 1 then ftClPopBack m
  else
    let (heap, first) := m.heap.load m.last NEXT
    let (heap, current) := heap.walk NEXT (index - 1) first
    let (heap, toRemove) := heap.load current NEXT
    let (heap, data) := heap.load toRemove DATA
    let (heap, next) := heap.load toRemove NEXT
    let heap := heap.store current NEXT next
    ({ m with heap := heap.free toRemove, size := m.size - 1 }, data)

/-- The loop of `ft_cl_find`, once for each of the `size` nodes; its `index` is an `int`. -/
def findLoop (data : Ptr) : Nat → Ptr → BitVec 32 → Heap Ptr → Heap Ptr × BitVec 32
  | 0, _, _, heap => (heap, -1)
  | n + 1, current, index, heap =>
    let (heap, found) := heap.load current DATA
    if found = data then (heap, index)
    else
      let (heap, next) := heap.load current NEXT
      findLoop data n next (index + 1) heap

def ftClFind (data : Ptr) (m : Memory) : Heap Ptr × BitVec 32 :=
  if ftClIsEmpty m then (m.heap, -1)
  else
    let (heap, first) := m.heap.load m.last NEXT
    findLoop data m.size first 0 heap

/-- The `int` index is converted to `size_t` for `ft_cl_remove`. -/
def ftClRemoveData (data : Ptr) (m : Memory) : Memory × Bool :=
  let (heap, index) := ftClFind data m
  if index = -1 then ({ m with heap }, false)
  else ((ftClRemove (CIndex.toSize index) { m with heap }).1, true)

/-! ### `cl_utility.c` -/

def clearLoop : Nat → Ptr → Heap Ptr → Heap Ptr
  | 0, _, heap => heap
  | n + 1, current, heap =>
    let (heap, next) := heap.load current NEXT
    clearLoop n next (heap.free current)

def ftClClear (m : Memory) : Memory :=
  if ftClIsEmpty m then m
  else
    let (heap, first) := m.heap.load m.last NEXT
    { heap := clearLoop m.size first heap, last := none, size := 0 }

/-- `list->last = list->last->next`, `steps` times. -/
def advance (steps : Nat) (m : Memory) : Memory :=
  let (heap, last) := m.heap.walk NEXT steps m.last
  { m with heap, last }

def ftClRotateForward (steps : Nat) (m : Memory) : Memory :=
  if ftClIsEmpty m || m.size == 1 then m else advance (steps % m.size) m

def ftClRotateBackward (steps : Nat) (m : Memory) : Memory :=
  if ftClIsEmpty m || m.size == 1 then m else advance (m.size - steps % m.size) m

/-! ### The list as a sequence -/

inductive Rotation where
  | forward (steps : Nat)
  | backward (steps : Nat)

def functions : Functions Memory Rotation where
  pushFront := ftClPushFront
  pushBack := ftClPushBack
  popFront := ftClPopFront
  popBack := ftClPopBack
  insert := ftClInsert
  remove := ftClRemove
  removeData := ftClRemoveData
  get := ftClGet
  set := ftClSet
  clear := ftClClear
  rearrange
    | .forward steps => ftClRotateForward steps
    | .backward steps => ftClRotateBackward steps

def Rotation.apply : Rotation → List Ptr → List Ptr
  | .forward steps, xs => xs.rotateLeft steps
  | .backward steps, xs => xs.rotateRight steps

def circularList : Implementation Memory (List Ptr) (Op Rotation) Answer := functions.implementation Rotation.apply

/-- The nodes of the list, from the first to the last, which is linked to the first. -/
structure Holds (m : Memory) (ns : List (Nat × Ptr)) : Prop where
  sound : m.heap.fault = false
  nodup : (ns.map Prod.fst).Nodup
  last : m.last = lastOf none ns
  size : m.size = ns.length
  linked : Linked cell m.heap none ns (firstOf ns none)

/-- There is no last node exactly if the list is empty; else following `next` from `last->next` visits `size` distinct
    live nodes, ends on the last, and meets the sequence as their data. The two rotations undo each other. -/
structure Cycle (m : Memory) (xs : List Ptr) : Prop where
  sound : m.heap.fault = false
  size : m.size = xs.length
  last : m.last = none ↔ m.size = 0
  nodes : m.size ≠ 0 → ∃ nodes : List Nat, nodes.Nodup ∧ nodes.length = m.size ∧
    m.heap.track NEXT m.size (m.heap.load m.last NEXT).2 = nodes ∧ nodes.getLast? = m.last ∧
    (∀ node ∈ nodes, ∃ cells, m.heap.At (some node) cells) ∧
    nodes.map (fun node => (m.heap.load (some node) DATA).2) = xs
  inverse : ∀ steps, ftClRotateBackward steps (ftClRotateForward steps m) = m ∧
    ftClRotateForward steps (ftClRotateBackward steps m) = m

/-! ### Fields and walks -/

theorem cell_data (data next prev : Ptr) : (cell data next prev)[DATA]? = some (some data) := rfl

theorem cell_next (data next prev : Ptr) : (cell data next prev)[NEXT]? = some (some next) := rfl

theorem setsNext : SetsNext cell NEXT := fun _ _ d _ _ hat q =>
  At.stores [some d] hat q

section Ring
variable {h : Heap Ptr} {m : Memory} {ns xs ys : List (Nat × Ptr)} {n : Nat × Ptr} {p q next : Ptr}

/-- What is before a segment does not matter. -/
theorem linked_prev (hl : Linked cell h p ns next) (q : Ptr) : Linked cell h q ns next :=
  hl.of_prev (fun _ _ _ _ => rfl) q

/-- The way through a ring, from its last node. -/
theorem ring_walk (hl : Linked cell h none (xs ++ ys) (firstOf (xs ++ ys) none)) (hne : xs ++ ys ≠ []) :
    h.walk NEXT xs.length (lastOf none (xs ++ ys)) = (h, lastOf (lastOf none (xs ++ ys)) xs) := by
  refine (linked_append.mp hl).1.walk_last cell_next ?_
  rw [hl.load_last cell_next hne, ← firstOf_append]
  exact congrArg _ (firstOf_of_ne hne _ _)

theorem walk_of_pos (h : Heap Ptr) (p : Ptr) {k : Nat} (hk : 0 < k) :
    (h.load p NEXT).1.walk NEXT (k - 1) (h.load p NEXT).2 = h.walk NEXT k p := by
  obtain ⟨k, rfl⟩ := Nat.exists_eq_add_one_of_ne_zero (Nat.ne_of_gt hk)
  rfl

theorem Holds.load_last (h : Holds m ns) (hne : ns ≠ []) : m.heap.load m.last NEXT = (m.heap, firstOf ns none) := by
  rw [h.last]
  exact h.linked.load_last cell_next hne

theorem Holds.isEmpty (h : Holds m ns) : ftClIsEmpty m = decide (ns = []) := by
  rw [ftClIsEmpty, h.size]
  exact decide_eq_decide.mpr List.length_eq_zero_iff

/-- The two parts of a ring. -/
theorem Holds.parts (h : Holds m (xs ++ ys)) :
    Linked cell m.heap none xs (firstOf ys (firstOf xs none)) ∧
      Linked cell m.heap none ys (firstOf xs (firstOf ys none)) := by
  obtain ⟨hx, hy⟩ := linked_append.mp h.linked
  rw [firstOf_append] at hx hy
  refine ⟨?_, linked_prev hy none⟩
  cases ys with
  | nil => exact hx
  | cons n ys => exact hx

theorem ring_of_parts (hx : Linked cell h none xs (firstOf ys (firstOf xs none)))
    (hy : Linked cell h none ys (firstOf xs (firstOf ys none))) :
    Linked cell h none (xs ++ ys) (firstOf (xs ++ ys) none) := by
  rw [firstOf_append]
  refine linked_append.mpr ⟨?_, linked_prev hy _⟩
  cases ys with
  | nil => exact hx
  | cons n ys => exact hx

/-! ### Insertion -/

/-- A new node with its data, before it is linked. -/
theorem Holds.fresh (h : Holds m ns) (d : Ptr) :
    ∃ a, (m.heap.malloc 2).2 = some a ∧ a ∉ ns.map Prod.fst ∧
      ((m.heap.malloc 2).1.store (some a) DATA d).At (some a) [some d, none] ∧
      KeepsOff [a] m.heap ((m.heap.malloc 2).1.store (some a) DATA d) := by
  have hat : (m.heap.malloc 2).1.At (some m.heap.blocks.length) ([] ++ none :: [none]) := at_malloc h.sound 2
  refine ⟨m.heap.blocks.length, rfl, fun hmem => ?_, hat.store d,
    (keepsOff_malloc _ _ _).trans (hat.keepsOff_store d)⟩
  obtain ⟨n, hn, hlt⟩ := List.mem_map.mp hmem
  obtain ⟨cells, hcells⟩ := h.linked.live hn
  exact absurd hlt (Nat.ne_of_lt hcells.lt)

theorem store_next {a : Nat} {d : Ptr} (hat : h.At (some a) [some d, none]) (q p : Ptr) :
    (h.store (some a) NEXT q).At (some a) (cell d q p) ∧ KeepsOff [a] h (h.store (some a) NEXT q) :=
  At.stores [some d] hat q

/-- The new node is linked behind the last node of the first part. -/
theorem Holds.splice (h : Holds m (xs ++ ys)) (hx : xs ≠ []) (d : Ptr) :
    ∃ a, (m.heap.malloc 2).2 = some a ∧ a ∉ (xs ++ ys).map Prod.fst ∧
      let heap := (m.heap.malloc 2).1.store (some a) DATA d
      let next := firstOf ys (firstOf xs none)
      let heap' := (heap.store (some a) NEXT next).store (lastOf none xs) NEXT (some a)
      heap.load (lastOf none xs) NEXT = (heap, next) ∧ heap'.At (some a) (cell d next none) ∧
        Linked cell heap' none xs (some a) ∧ Linked cell heap' none ys (firstOf xs none) := by
  obtain ⟨a, hnew, hfresh, hat, hkeep⟩ := h.fresh d
  obtain ⟨hax, hay⟩ := not_mem_parts hfresh
  obtain ⟨hxnd, -, -, hyx⟩ := nodup_parts _ h.nodup
  obtain ⟨hlx, hly⟩ := h.parts
  rw [firstOf_of_ne hx _ none] at hly
  refine ⟨a, hnew, hfresh, (hlx.keep hkeep (not_mem_singleton_of hax)).load_last cell_next hx, ?_⟩
  obtain ⟨hat', hkeep'⟩ := store_next hat (firstOf ys (firstOf xs none)) none
  have hboth := hkeep.trans hkeep'
  obtain ⟨hx', hkx⟩ := (hlx.keep hboth (not_mem_singleton_of hax)).relink_last setsNext hxnd hx (some a)
  exact ⟨hkx a hax _ hat', hx', (hly.keep hboth (not_mem_singleton_of hay)).keep hkx hyx⟩

theorem pushBack_holds (h : Holds m ns) (data : Ptr) :
    ∃ m' a, ftClPushBack true data m = (m', true) ∧ Holds m' (ns ++ [(a, data)]) := by
  have hempty := h.isEmpty
  by_cases hne : ns = []
  · subst hne
    obtain ⟨a, hnew, hfresh, hat, -⟩ := h.fresh data
    obtain ⟨hat', -⟩ := store_next hat (some a) none
    exact ⟨_, a, by simp only [ftClPushBack, hnew, hempty, if_true, decide_true]; rfl, hat'.sound,
      by simp, rfl, by simp [h.size], hat', trivial⟩
  · rw [← List.append_nil ns] at h
    obtain ⟨a, hnew, hfresh, hload, hat, hlinked, -⟩ := h.splice hne data
    rw [List.append_nil] at h hfresh
    rw [← h.last] at hload hat hlinked
    refine ⟨_, a, by simp only [ftClPushBack, hnew, hempty, hne, if_true, decide_false,
      Bool.false_eq_true, if_false, hload]; rfl,
      hat.sound, nodup_insert _ (by simpa using h.nodup) (by simpa using hfresh), ?_, ?_, ?_⟩
    · rw [lastOf_concat]
    · rw [List.length_append, h.size]
      rfl
    · refine linked_append.mpr ⟨hlinked, ?_, trivial⟩
      rw [firstOf_append, firstOf_of_ne hne (firstOf [(a, data)] none) none]
      exact hat

theorem pushFront_holds (h : Holds m ns) (data : Ptr) :
    ∃ m' a, ftClPushFront true data m = (m', true) ∧ Holds m' ((a, data) :: ns) := by
  have hempty := h.isEmpty
  by_cases hne : ns = []
  · subst hne
    obtain ⟨a, hnew, hfresh, hat, -⟩ := h.fresh data
    obtain ⟨hat', -⟩ := store_next hat (some a) none
    exact ⟨_, a, by simp only [ftClPushFront, hnew, hempty, if_true, decide_true]; rfl, hat'.sound,
      by simp, rfl, by simp [h.size], hat', trivial⟩
  · rw [← List.append_nil ns] at h
    obtain ⟨a, hnew, hfresh, hload, hat, hlinked, -⟩ := h.splice hne data
    rw [List.append_nil] at h hfresh
    rw [← h.last] at hload hat hlinked
    refine ⟨_, a, by simp only [ftClPushFront, hnew, hempty, hne, if_true, decide_false,
      Bool.false_eq_true, if_false, hload]; rfl,
      hat.sound, nodup_insert [] h.nodup hfresh, ?_, ?_, ?_, linked_prev hlinked _⟩
    · rw [h.last]
      exact lastOf_of_ne hne _ _
    · rw [List.length_cons, h.size]
    · rw [firstOf_cons, firstOf_of_ne hne (some (a, data).1) none]
      exact hat

theorem insert_holds (h : Holds m (xs ++ ys)) (hx : xs ≠ []) (hy : ys ≠ []) (data : Ptr) :
    ∃ m' a, ftClInsert true xs.length data m = (m', true) ∧ Holds m' (xs ++ (a, data) :: ys) := by
  have hsize := h.size
  rw [List.length_append] at hsize
  have hxpos := List.length_pos_iff.mpr hx
  have hypos := List.length_pos_iff.mpr hy
  have hne : xs ++ ys ≠ [] := List.append_ne_nil_of_left_ne_nil hx ys
  obtain ⟨a, hnew, hfresh, hload, hat, hx', hy'⟩ := h.splice hx data
  -- The walk is made after `malloc`, before the data of the new node is set.
  have hstart : Linked cell (m.heap.malloc 2).1 none (xs ++ ys) (firstOf (xs ++ ys) none) :=
    h.linked.keep (keepsOff_malloc [] _ _) fun _ _ => List.not_mem_nil
  have hwalk := ring_walk hstart hne
  rw [← walk_of_pos _ _ hxpos, ← h.last, lastOf_of_ne hx _ none] at hwalk
  refine ⟨_, a, by simp only [ftClInsert, hwalk, hload, hnew, if_true, show ¬m.size < xs.length by omega,
    show ¬xs.length = 0 by omega, show ¬xs.length = m.size by omega, if_false]; rfl, hat.sound,
    nodup_insert _ h.nodup hfresh, ?_, ?_, ?_⟩
  · rw [h.last, lastOf_append, lastOf_append]
    exact lastOf_of_ne hy _ _
  · rw [List.length_append, List.length_cons]
    exact congrArg (· + 1) hsize
  · refine linked_append.mpr ⟨hx', ?_, ?_⟩
    · rw [firstOf_append, firstOf_of_ne hx (firstOf ((a, data) :: ys) none) none]
      exact hat
    · rw [firstOf_append, firstOf_of_ne hx (firstOf ((a, data) :: ys) none) none]
      exact linked_prev hy' _

/-- An insertion is refused by itself, or by the function that pushes. -/
theorem insert_refused {mallocOk : Bool} {index : Nat} (h : Holds m ns) (hbad : ns.length < index ∨ mallocOk = false)
    (data : Ptr) : ftClInsert mallocOk index data m = (m, false) := by
  rcases hbad with hlt | rfl
  · rw [ftClInsert, if_pos (h.size ▸ hlt)]
  · simp [ftClInsert, ftClPushFront, ftClPushBack]

theorem insert_length (h : Holds m ns) (hne : ns ≠ []) (mallocOk : Bool) (data : Ptr) :
    ftClInsert mallocOk ns.length data m = ftClPushBack mallocOk data m := by
  have hsize := h.size
  have hpos := List.length_pos_iff.mpr hne
  rw [ftClInsert, if_neg (by omega), if_neg (by omega), if_pos (by omega)]

/-! ### Removal -/

theorem popFront_holds (h : Holds m (n :: ns)) : ∃ m', ftClPopFront m = (m', n.2) ∧ Holds m' ns := by
  obtain ⟨hat, hns⟩ := h.linked
  obtain ⟨hnd, -, hn⟩ := nodup_mid [] h.nodup
  have hempty : ftClIsEmpty m = false := by rw [h.isEmpty]; rfl
  have hload := h.load_last (List.cons_ne_nil n ns)
  have hdata := hat.load_of_getElem? (cell_data _ _ _)
  have hnext := hat.load_of_getElem? (cell_next _ _ _)
  have hsize := h.size
  rw [List.length_cons] at hsize
  by_cases hne : ns = []
  · subst hne
    have hone : m.size = 1 := hsize
    exact ⟨_, by simp only [ftClPopFront, hempty, hload, firstOf_cons, hdata, hone, if_true, Bool.false_eq_true,
      if_false]; rfl, hat.free_sound, hnd, rfl, rfl, trivial⟩
  · have hpos := List.length_pos_iff.mpr hne
    obtain ⟨hrelink, hkeep⟩ := hns.relink_last setsNext hnd hne (firstOf ns none)
    rw [show lastOf (some n.1) ns = m.last from h.last.symm] at hrelink hkeep
    have hat' := hkeep _ hn _ hat
    refine ⟨_, by simp only [ftClPopFront, hempty, hload, firstOf_cons, hdata, hnext,
      firstOf_of_ne hne (some n.1) none, show ¬m.size = 1 by omega, Bool.false_eq_true, if_false]; rfl,
      hat'.free_sound, hnd, ?_, ?_, linked_prev (hrelink.keep hat'.keepsOff_free (not_mem_singleton_of hn)) none⟩
    · rw [h.last]
      exact lastOf_of_ne hne _ _
    · simp only
      omega

theorem beforeLastLoop_eq {h : Heap Ptr} {b : Nat} (hl : Linked cell h p xs (some b)) (hb : b ∉ xs.map Prod.fst)
    (hne : xs ≠ []) {fuel : Nat} (hfuel : xs.length ≤ fuel) :
    beforeLastLoop (some b) fuel (firstOf xs (some b)) h = (h, lastOf p xs) := by
  induction xs generalizing p fuel with
  | nil => exact absurd rfl hne
  | cons x xs ih =>
    obtain ⟨fuel, rfl, hle⟩ := Program.exists_fuel hfuel
    have hnext := hl.1.load_of_getElem? (cell_next _ _ _)
    simp only [firstOf_cons, beforeLastLoop, hnext]
    cases xs with
    | nil => exact if_pos rfl
    | cons y ys =>
      have hother : ¬some y.1 = some b := fun heq => hb (by simp [Option.some.inj heq])
      rw [firstOf_cons, if_neg hother]
      exact ih hl.2 (fun hmem => hb (List.mem_cons_of_mem _ hmem)) (List.cons_ne_nil y ys) hle

theorem popBack_holds (h : Holds m (ns ++ [n])) : ∃ m', ftClPopBack m = (m', n.2) ∧ Holds m' ns := by
  obtain ⟨hns, hat, -⟩ := linked_append.mp h.linked
  obtain ⟨hnd, hn, -⟩ := nodup_mid _ h.nodup
  rw [List.append_nil] at hnd
  have hempty : ftClIsEmpty m = false := by rw [h.isEmpty]; simp
  have hlast : m.last = some n.1 := by rw [h.last, lastOf_concat]
  have hdata := hat.load_of_getElem? (cell_data _ _ _)
  have hsize := h.size
  rw [List.length_append, List.length_singleton] at hsize
  by_cases hne : ns = []
  · subst hne
    have hone : m.size = 1 := hsize
    exact ⟨_, by simp only [ftClPopBack, hempty, hlast, hdata, hone, if_true, Bool.false_eq_true, if_false]; rfl,
      hat.free_sound, hnd, rfl, rfl, trivial⟩
  · have hpos := List.length_pos_iff.mpr hne
    have hload : m.heap.load (some n.1) NEXT = (m.heap, firstOf ns none) := by
      rw [← hlast, h.load_last (List.append_ne_nil_of_left_ne_nil hne _), firstOf_append, firstOf_of_ne hne _ none]
    have hloop : beforeLastLoop (some n.1) m.heap.blocks.length (firstOf ns none) m.heap =
        (m.heap, lastOf none ns) := by
      rw [firstOf_of_ne hne none (some n.1)]
      exact beforeLastLoop_eq hns hn hne (hns.length_le hnd)
    obtain ⟨hrelink, hkeep⟩ := hns.relink_last setsNext hnd hne (firstOf ns none)
    have hat' := hkeep _ hn _ hat
    refine ⟨_, by simp only [ftClPopBack, hempty, hlast, hdata, hload, hloop, show ¬m.size = 1 by omega,
      Bool.false_eq_true, if_false]; rfl, hat'.free_sound, hnd, rfl, ?_,
      hrelink.keep hat'.keepsOff_free (not_mem_singleton_of hn)⟩
    simp only
    omega

theorem remove_holds (h : Holds m (xs ++ n :: ys)) (hx : xs ≠ []) (hy : ys ≠ []) :
    ∃ m', ftClRemove xs.length m = (m', n.2) ∧ Holds m' (xs ++ ys) := by
  obtain ⟨hnd, hnx, hny⟩ := nodup_mid _ h.nodup
  obtain ⟨hxnd, -, -, hyx⟩ := nodup_parts _ hnd
  have hsize := h.size
  rw [List.length_append, List.length_cons] at hsize
  have hxpos := List.length_pos_iff.mpr hx
  have hypos := List.length_pos_iff.mpr hy
  have hne : xs ++ n :: ys ≠ [] := List.append_ne_nil_of_left_ne_nil hx _
  have hwalk := ring_walk h.linked hne
  rw [← walk_of_pos _ _ hxpos, ← h.last, lastOf_of_ne hx _ none] at hwalk
  obtain ⟨hlx, hat, hly⟩ := linked_append.mp h.linked
  have hload := hlx.load_last cell_next hx
  have hdata := hat.load_of_getElem? (cell_data _ _ _)
  have hnext := hat.load_of_getElem? (cell_next _ _ _)
  rw [firstOf_append, firstOf_of_ne hy _ (firstOf xs none)] at hnext
  rw [firstOf_append, firstOf_of_ne hx _ (firstOf ys none)] at hly
  obtain ⟨hx', hkx⟩ := hlx.relink_last setsNext hxnd hx (firstOf ys (firstOf xs none))
  have hat' := hkx _ hnx _ hat
  have hfree := hat'.keepsOff_free
  refine ⟨_, by simp only [ftClRemove, hwalk, hload, firstOf_cons, hdata, hnext, if_false,
    show ¬m.size ≤ xs.length by omega, show ¬xs.length = 0 by omega, show ¬xs.length = m.size - 1 by omega]; rfl,
    hat'.free_sound, hnd, ?_, ?_, ?_⟩
  · rw [h.last, lastOf_append, lastOf_append]
    exact lastOf_of_ne hy (some n.1) _
  · rw [List.length_append]
    simp only
    omega
  · exact ring_of_parts (hx'.keep hfree (not_mem_singleton_of hnx))
      (linked_prev ((hly.keep hkx hyx).keep hfree (not_mem_singleton_of hny)) none)

theorem remove_zero (h : Holds m ns) (hne : ns ≠ []) : ftClRemove 0 m = ftClPopFront m := by
  have hsize := h.size
  have hpos := List.length_pos_iff.mpr hne
  rw [ftClRemove, if_neg (by omega), if_pos rfl]

theorem remove_last (h : Holds m (ns ++ [n])) (hne : ns ≠ []) : ftClRemove ns.length m = ftClPopBack m := by
  have hsize := h.size
  have hpos := List.length_pos_iff.mpr hne
  rw [List.length_append, List.length_singleton] at hsize
  rw [ftClRemove, if_neg (by omega), if_neg (by omega), if_pos (by omega)]

/-! ### Access -/

theorem getNodeAtIndex_holds (h : Holds m (xs ++ n :: ys)) : getNodeAtIndex xs.length m = (m.heap, some n.1) := by
  have hsize := h.size
  rw [List.length_append, List.length_cons] at hsize
  have hsplit : xs ++ n :: ys = (xs ++ [n]) ++ ys := by simp
  rw [hsplit] at h
  have hwalk := ring_walk h.linked (by simp)
  rw [← h.last, ← walk_of_pos _ _ (by simp), List.length_append, List.length_singleton, Nat.add_sub_cancel,
    lastOf_concat] at hwalk
  rw [getNodeAtIndex, if_neg (by omega)]
  exact hwalk

theorem getNodeAtIndex_of_le (h : Holds m ns) {index : Nat} (hle : ns.length ≤ index) :
    getNodeAtIndex index m = (m.heap, none) := if_pos (h.size ▸ hle)

theorem get_holds (h : Holds m ns) (index : Nat) :
    ftClGet index m = (m, (ns.map Prod.snd)[index]?.getD none) := by
  by_cases hlt : index < ns.length
  · obtain ⟨xs, n, ys, rfl, rfl⟩ := exists_split hlt
    have hdata := (linked_append.mp h.linked).2.1.load_of_getElem? (cell_data _ _ _)
    simp [ftClGet, getNodeAtIndex_holds h, hdata]
  · have hle : ns.length ≤ index := Nat.not_lt.mp hlt
    rw [List.getElem?_eq_none (by rwa [List.length_map])]
    simp [ftClGet, getNodeAtIndex_of_le h hle]

theorem set_holds (h : Holds m (xs ++ n :: ys)) (data : Ptr) :
    ∃ m', ftClSet xs.length data m = (m', true) ∧ Holds m' (xs ++ (n.1, data) :: ys) := by
  obtain ⟨hsx, hat, hsy⟩ := linked_append.mp h.linked
  obtain ⟨-, hnx, hny⟩ := nodup_mid _ h.nodup
  obtain ⟨hat', hkeep⟩ := At.stores [] hat data
  have hfirst : firstOf (xs ++ (n.1, data) :: ys) none = firstOf (xs ++ n :: ys) none := by
    rw [firstOf_append, firstOf_append]
    rfl
  refine ⟨_, by simp only [ftClSet, getNodeAtIndex_holds h, Option.isSome_some, if_true]; rfl, hat'.sound, ?_, ?_, ?_,
    ?_⟩
  · simpa using h.nodup
  · rw [h.last, lastOf_append, lastOf_append]
    rfl
  · simpa using h.size
  · rw [hfirst]
    exact linked_append.mpr ⟨hsx.keep hkeep (not_mem_singleton_of hnx), hat',
      hsy.keep hkeep (not_mem_singleton_of hny)⟩

/-! ### Loops over the whole list -/

theorem findLoop_eq {h : Heap Ptr} (hl : Linked cell h p ns next) (data : Ptr) (index : BitVec 32) :
    findLoop data ns.length (firstOf ns next) index h =
      (h, if data ∈ ns.map Prod.snd then index + BitVec.ofNat 32 ((ns.map Prod.snd).idxOf data) else -1) := by
  induction ns generalizing p index with
  | nil => rfl
  | cons n ns ih =>
    have hdata := hl.1.load_of_getElem? (cell_data _ _ _)
    have hnext := hl.1.load_of_getElem? (cell_next _ _ _)
    simp only [List.length_cons, firstOf_cons, findLoop, hdata, hnext]
    by_cases hfound : n.2 = data
    · simp [hfound]
    · rw [if_neg hfound, ih hl.2]
      have hmem : data ∈ (n :: ns).map Prod.snd ↔ data ∈ ns.map Prod.snd := by
        simp [Ne.symm hfound]
      simp only [hmem]
      rw [List.map_cons, List.idxOf_cons_ne _ hfound, Nat.succ_eq_one_add, BitVec.ofNat_add, BitVec.add_assoc]
      rfl

theorem find_holds (h : Holds m ns) (data : Ptr) :
    ftClFind data m =
      (m.heap, if data ∈ ns.map Prod.snd then BitVec.ofNat 32 ((ns.map Prod.snd).idxOf data) else -1) := by
  by_cases hne : ns = []
  · subst hne
    simp [ftClFind, h.isEmpty]
  · have hempty : ftClIsEmpty m = false := by rw [h.isEmpty, decide_eq_false hne]
    have hloop := findLoop_eq h.linked data 0
    rw [firstOf_of_ne hne _ none] at hloop
    simp only [ftClFind, hempty, h.load_last hne, h.size, hloop, Bool.false_eq_true, if_false]
    simp

theorem clearLoop_sound {h : Heap Ptr} (hl : Linked cell h p ns next) (hnd : (ns.map Prod.fst).Nodup)
    (hf : h.fault = false) : (clearLoop ns.length (firstOf ns next) h).fault = false := by
  induction ns generalizing h p with
  | nil => exact hf
  | cons n ns ih =>
    have hnext := hl.1.load_of_getElem? (cell_next _ _ _)
    rw [List.map_cons, List.nodup_cons] at hnd
    simp only [List.length_cons, firstOf_cons, clearLoop, hnext]
    exact ih (hl.2.keep hl.1.keepsOff_free (not_mem_singleton_of hnd.1)) hnd.2 hl.1.free_sound

theorem clear_holds (h : Holds m ns) : Holds (ftClClear m) [] := by
  by_cases hne : ns = []
  · subst hne
    have hempty : ftClIsEmpty m = true := by rw [h.isEmpty]; rfl
    rwa [ftClClear, if_pos hempty]
  · have hempty : ¬ftClIsEmpty m = true := by rw [h.isEmpty, decide_eq_false hne]; decide
    have hsound := clearLoop_sound h.linked h.nodup h.sound
    rw [firstOf_of_ne hne _ none, ← h.size] at hsound
    simp only [ftClClear, hempty, h.load_last hne]
    exact ⟨hsound, List.nodup_nil, rfl, rfl, trivial⟩

/-! ### Rotation -/

/-- The first part of the ring moves behind the second. -/
theorem advance_holds (h : Holds m (xs ++ ys)) (hne : xs ++ ys ≠ []) :
    advance xs.length m = { m with last := lastOf m.last xs } ∧
      Holds { m with last := lastOf m.last xs } (ys ++ xs) := by
  have hwalk := ring_walk h.linked hne
  rw [← h.last] at hwalk
  obtain ⟨hx, hy⟩ := h.parts
  refine ⟨by rw [advance, hwalk], h.sound, ?_, ?_, ?_, ring_of_parts hy hx⟩
  · rw [List.map_append]
    exact List.perm_append_comm.nodup_iff.mp (List.map_append ▸ h.nodup)
  · by_cases hnil : xs = []
    · subst hnil
      rw [List.append_nil]
      exact h.last
    · rw [lastOf_append]
      exact lastOf_of_ne hnil _ _
  · rw [List.length_append, Nat.add_comm, ← List.length_append]
    exact h.size

theorem advance_advance (h : Holds m (xs ++ ys)) (hne : xs ++ ys ≠ []) :
    advance ys.length (advance xs.length m) = m := by
  obtain ⟨hfirst, hm'⟩ := advance_holds h hne
  have hback : lastOf (lastOf m.last xs) ys = m.last := by
    rw [← lastOf_append, h.last]
    exact lastOf_of_ne hne _ _
  rw [hfirst, (advance_holds hm' (by simpa [and_comm] using hne)).1]
  simp only [hback]

theorem exists_parts (ns : List (Nat × Ptr)) {k : Nat} (hk : k ≤ ns.length) :
    ∃ xs ys, ns = xs ++ ys ∧ xs.length = k ∧ ys.length = ns.length - k :=
  ⟨ns.take k, ns.drop k, (List.take_append_drop k ns).symm, by rw [List.length_take]; omega, List.length_drop⟩

theorem rotate_small (hsmall : m.size ≤ 1) (steps : Nat) :
    ftClRotateForward steps m = m ∧ ftClRotateBackward steps m = m := by
  have htest : (ftClIsEmpty m || m.size == 1) = true := by
    rw [Bool.or_eq_true, ftClIsEmpty, decide_eq_true_iff, beq_iff_eq]
    omega
  exact ⟨if_pos htest, if_pos htest⟩

theorem rotate_big (hbig : 1 < m.size) (steps : Nat) :
    ftClRotateForward steps m = advance (steps % m.size) m ∧
      ftClRotateBackward steps m = advance (m.size - steps % m.size) m := by
  have htest : ¬(ftClIsEmpty m || m.size == 1) = true := by
    rw [Bool.or_eq_true, ftClIsEmpty, decide_eq_true_iff, beq_iff_eq]
    omega
  exact ⟨if_neg htest, if_neg htest⟩

theorem rotateForward_holds (h : Holds m ns) (steps : Nat) :
    ∃ ns', Holds (ftClRotateForward steps m) ns' ∧ ns'.map Prod.snd = (ns.map Prod.snd).rotateLeft steps := by
  have hsize := h.size
  by_cases hsmall : m.size ≤ 1
  · rw [(rotate_small hsmall steps).1]
    exact ⟨ns, h, by rw [List.rotateLeft, if_pos (by rw [List.length_map]; omega)]⟩
  · have hlt : steps % m.size < m.size := Nat.mod_lt _ (by omega)
    obtain ⟨xs, ys, rfl, hxs, -⟩ := exists_parts ns (k := steps % m.size) (by omega)
    have hne : xs ++ ys ≠ [] := fun hnil => by rw [hnil, List.length_nil] at hsize; omega
    obtain ⟨hadvance, hm'⟩ := advance_holds h hne
    rw [(rotate_big (by omega) steps).1, ← hxs, hadvance]
    refine ⟨ys ++ xs, hm', ?_⟩
    rw [List.rotateLeft, if_neg (by rw [List.length_map]; omega), List.length_map, ← hsize, ← hxs]
    simp

theorem rotateBackward_holds (h : Holds m ns) (steps : Nat) :
    ∃ ns', Holds (ftClRotateBackward steps m) ns' ∧ ns'.map Prod.snd = (ns.map Prod.snd).rotateRight steps := by
  have hsize := h.size
  by_cases hsmall : m.size ≤ 1
  · rw [(rotate_small hsmall steps).2]
    exact ⟨ns, h, by rw [List.rotateRight, if_pos (by rw [List.length_map]; omega)]⟩
  · obtain ⟨xs, ys, rfl, hxs, -⟩ := exists_parts ns (k := m.size - steps % m.size) (by omega)
    have hne : xs ++ ys ≠ [] := fun hnil => by rw [hnil, List.length_nil] at hsize; omega
    obtain ⟨hadvance, hm'⟩ := advance_holds h hne
    rw [(rotate_big (by omega) steps).2, ← hxs, hadvance]
    refine ⟨ys ++ xs, hm', ?_⟩
    rw [List.rotateRight, if_neg (by rw [List.length_map]; omega), List.length_map, ← hsize, ← hxs]
    simp

/-- The rotations undo each other, to the pointer. -/
theorem rotate_inverse (h : Holds m ns) (steps : Nat) :
    ftClRotateBackward steps (ftClRotateForward steps m) = m ∧
      ftClRotateForward steps (ftClRotateBackward steps m) = m := by
  have hsize := h.size
  by_cases hsmall : m.size ≤ 1
  · obtain ⟨hforward, hbackward⟩ := rotate_small hsmall steps
    rw [hforward, hbackward]
    exact ⟨rfl, hforward⟩
  · have hlt : steps % m.size < m.size := Nat.mod_lt _ (by omega)
    have hthere : ∀ j k, j + k = m.size → advance k (advance j m) = m := by
      intro j k hjk
      obtain ⟨xs, ys, rfl, hxs, hys⟩ := exists_parts ns (k := j) (by omega)
      have hne : xs ++ ys ≠ [] := fun hnil => by rw [hnil, List.length_nil] at hsize; omega
      rw [show k = ys.length by omega, ← hxs]
      exact advance_advance h hne
    have hbig : ∀ j, 1 < (advance j m).size := fun _ => Nat.lt_of_not_le hsmall
    obtain ⟨hforward, hbackward⟩ := rotate_big (Nat.lt_of_not_le hsmall) steps
    rw [hforward, hbackward, (rotate_big (hbig _) steps).1, (rotate_big (hbig _) steps).2]
    exact ⟨hthere (steps % m.size) (m.size - steps % m.size) (by omega),
      hthere (m.size - steps % m.size) (steps % m.size) (by omega)⟩

theorem functions_correct : Correct functions Rotation.apply Holds where
  pushFront := pushFront_holds
  pushFront_refused _ _ := rfl
  pushBack := pushBack_holds
  pushBack_refused _ _ := rfl
  popFront := popFront_holds
  popFront_nil h := if_pos (decide_eq_true h.size)
  popBack := popBack_holds
  popBack_nil h := if_pos (decide_eq_true h.size)
  insert_refused := insert_refused
  insert_zero _ _ _ := rfl
  insert_length := insert_length
  insert := insert_holds
  remove_out h hle := if_pos (h.size ▸ hle)
  remove_zero := remove_zero
  remove_last := remove_last
  remove := remove_holds
  removeData_absent h habsent := by simp only [functions, ftClRemoveData, find_holds h, habsent, if_false, if_true]
  removeData h hmem hfound := by simp only [functions, ftClRemoveData, find_holds h, hmem, hfound, if_true, if_false]
  get := get_holds
  set := set_holds
  set_refused h hle _ := by simp [functions, ftClSet, getNodeAtIndex_of_le h hle]
  clear := clear_holds
  rearrange h
    | .forward steps => rotateForward_holds h steps
    | .backward steps => rotateBackward_holds h steps

end Ring

/-! ### Every run -/

section Runs
variable {m : Memory}

theorem refines_create (listOk : Bool) (h : ftClCreate listOk = some m) : Refines Holds m [] := by
  cases listOk with
  | false => cases h
  | true =>
    cases h
    exact ⟨[], ⟨rfl, List.nodup_nil, rfl, rfl, trivial⟩, rfl⟩

theorem cycle_of_refines {xs : List Ptr} (h : Refines Holds m xs) : Cycle m xs := by
  obtain ⟨ns, h, rfl⟩ := h
  have hsize := h.size
  refine ⟨h.sound, by rw [hsize, List.length_map], ?_, fun hpos => ⟨ns.map Prod.fst, h.nodup,
    by rw [hsize, List.length_map], ?_, ?_, ?_, h.linked.map_load cell_data⟩, rotate_inverse h⟩
  · rw [h.last, hsize, List.length_eq_zero_iff]
    constructor
    · intro hnone
      by_contra hne
      obtain ⟨a, ha⟩ := exists_lastOf hne none
      rw [ha] at hnone
      cases hnone
    · rintro rfl
      rfl
  · have hne : ns ≠ [] := fun hnil => hpos (by rw [hsize, hnil]; rfl)
    have htrack := h.linked.track_next cell_next 0
    rw [firstOf_of_ne hne _ none, Nat.add_zero] at htrack
    rw [h.load_last hne, hsize, htrack]
    exact List.append_nil _
  · rw [h.last]
    rcases List.eq_nil_or_concat' ns with rfl | ⟨ns, n, rfl⟩
    · rfl
    · rw [lastOf_concat, List.map_append, List.map_singleton, List.getLast?_concat]
  · intro a ha
    obtain ⟨n, hn, rfl⟩ := List.mem_map.mp ha
    exact h.linked.live hn

end Runs

/-- A list from `ft_cl_create` is a sequence in every run that removes no data at an index beyond `int`: its nodes are
    a cycle with the sequence as their data, and every operation is refused without effect or returns what it does on
    the sequence. -/
theorem circularList_refines (listOk : Bool) (m : Memory) (h : ftClCreate listOk = some m)
    (ops : List (Op Rotation × Bool)) (hfits : circularList.machine.Meets Fits (m, []) ops) :
    Cycle (circularList.machine.run (m, []) ops).1 (circularList.machine.run (m, []) ops).2 ∧
      circularList.machine.Meets circularList.Answered (m, []) ops := by
  obtain ⟨href, hanswered⟩ := functions_correct.refines_run (refines_create _ h) hfits
  exact ⟨cycle_of_refines href, hanswered⟩

/-- Rotations around a removal by data. -/
theorem circularList_refines_rotated :
    let ops := [(Op.pushBack (some 7), true), (.pushBack (some 8), true), (.pushBack (some 9), true),
      (.rearrange (.forward 4), true), (.removeData (some 9), true), (.rearrange (.backward 1), true)]
    Cycle (circularList.machine.run ({}, []) ops).1 [some 7, some 8] := by
  intro ops
  refine (circularList_refines true {} rfl ops ⟨trivial, trivial, trivial, trivial, fun _ => ?_, trivial, trivial⟩).1
  decide

/-- In a list of 2^31 null pointers and one other, the other is not removed. -/
theorem removeData_skips_far :
    let ops := List.replicate (2 ^ 31) (Op.pushBack none, true) ++
      [(.pushBack (some 1), true), (.removeData (some 1), true)]
    ¬Cycle (circularList.machine.run ({}, []) ops).1 (circularList.machine.run ({}, []) ops).2 := by
  generalize hk : 2 ^ 31 = k
  intro ops hcycle
  obtain ⟨m, xs, ys, hrun, href, hlt⟩ := functions_correct.far_run (refines_create true rfl) hk.symm (a := 1)
  have hfinal : circularList.machine.run ({}, []) ops = (m, ys) := hrun
  rw [hfinal] at hcycle
  have hsize := (cycle_of_refines href).size
  rw [hcycle.size] at hsize
  exact absurd hsize (Nat.ne_of_lt hlt)

end Minitalk.Libft.CircularList
