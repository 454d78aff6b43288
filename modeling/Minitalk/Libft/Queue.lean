import Minitalk.Lib.Implementation
import Minitalk.Lib.Linked
import Minitalk.Lib.Ownership

/-! # The queue (`ft_queue`)

The queue is the one that `ft_queue_create` returned, so no function gets a null queue. The block of `t_queue` stands
for its lifetime; its fields are those of `Memory`. The loop of `ft_queue_clear` is given as many steps as there are
blocks, and counts as a fault when it needs more. -/

namespace Minitalk.Libft.Queue
open Heap

/-! ### `t_queue_node`, `t_queue` -/

abbrev DATA : Nat := 0
abbrev NEXT : Nat := 1

/-- The two fields of a node, which does not know the one before it. -/
def cell (data next _prev : Ptr) : List (Option Ptr) := [some data, some next]

structure Memory where
  heap : Heap Ptr
  queue : Ptr
  front : Ptr := none
  rear : Ptr := none
  size : Nat := 0

def ftQueueCreate (mallocOk : Bool) (heap : Heap Ptr) : Option Memory :=
  let (heap, queue) := heap.tryMalloc mallocOk 3
  if queue.isSome then some { heap, queue } else none

def ftQueueIsEmpty (m : Memory) : Bool := decide (m.size = 0)

def ftQueueEnqueue (mallocOk : Bool) (data : Ptr) (m : Memory) : Memory × Bool :=
  let (heap, newNode) := m.heap.tryMalloc mallocOk 2
  if newNode.isSome then
    let heap := (heap.store newNode DATA data).store newNode NEXT none
    if ftQueueIsEmpty m then ({ m with heap, front := newNode, rear := newNode, size := m.size + 1 }, true)
    else ({ m with heap := heap.store m.rear NEXT newNode, rear := newNode, size := m.size + 1 }, true)
  else ({ m with heap }, false)

def ftQueueDequeue (m : Memory) : Memory × Ptr :=
  if ftQueueIsEmpty m then (m, none)
  else
    let temp := m.front
    let (heap, data) := m.heap.load temp DATA
    let (heap, front) := heap.load m.front NEXT
    let rear := if front = none then none else m.rear
    ({ m with heap := heap.free temp, front, rear, size := m.size - 1 }, data)

def ftQueueFront (m : Memory) : Memory × Ptr :=
  if ftQueueIsEmpty m then (m, none)
  else
    let (heap, data) := m.heap.load m.front DATA
    ({ m with heap }, data)

def ftQueueRear (m : Memory) : Memory × Ptr :=
  if ftQueueIsEmpty m then (m, none)
  else
    let (heap, data) := m.heap.load m.rear DATA
    ({ m with heap }, data)

def ftQueueSize (m : Memory) : Nat := m.size

def clearLoop : Nat → Ptr → Heap Ptr → Heap Ptr
  | _, none, heap => heap
  | 0, some _, heap => diverged heap
  | n + 1, some current, heap =>
    let (heap, next) := heap.load (some current) NEXT
    clearLoop n next (heap.free (some current))

def ftQueueClear (m : Memory) : Memory :=
  { m with heap := clearLoop m.heap.blocks.length m.front m.heap, front := none, rear := none, size := 0 }

def ftQueueDestroy (m : Memory) : Heap Ptr := (ftQueueClear m).heap.free m.queue

/-! ### Sequences of operations -/

inductive Op where
  | enqueue (data : Ptr)
  | dequeue
  | front
  | rear
  | size
  | isEmpty
  | clear

inductive Answer where
  | done (b : Bool)
  | ptr (p : Ptr)
  | size (n : Nat)
  | empty (b : Bool)
  | unit
deriving DecidableEq

def Op.run (mallocOk : Bool) (m : Memory) : Op → Memory × Answer
  | .enqueue data => let (m, done) := ftQueueEnqueue mallocOk data m; (m, .done done)
  | .dequeue => let (m, data) := ftQueueDequeue m; (m, .ptr data)
  | .front => let (m, data) := ftQueueFront m; (m, .ptr data)
  | .rear => let (m, data) := ftQueueRear m; (m, .ptr data)
  | .size => (m, .size (ftQueueSize m))
  | .isEmpty => (m, .empty (ftQueueIsEmpty m))
  | .clear => (ftQueueClear m, .unit)

/-! ### The sequence that a queue stands for -/

def Op.apply : Op → List Ptr → List Ptr
  | .enqueue data, xs => xs ++ [data]
  | .dequeue, xs => xs.tail
  | .clear, _ => []
  | _, xs => xs

def Op.answer : Op → List Ptr → Answer
  | .enqueue _, _ => .done true
  | .dequeue, xs | .front, xs => .ptr (xs.head?.getD none)
  | .rear, xs => .ptr (xs.getLast?.getD none)
  | .size, xs => .size xs.length
  | .isEmpty, xs => .empty xs.isEmpty
  | .clear, _ => .unit

/-- The queue as an implementation of the sequence: only a failed allocation is refused. -/
def queue : Implementation Memory (List Ptr) Op Answer where
  run op mallocOk m := op.run mallocOk m
  apply := Op.apply
  answer := Op.answer
  Invalid _ _ := False
  refusal := .done false

/-- The nodes of the queue, from the front to the rear; with the block of `t_queue` they are all that it owns. -/
structure Holds (h₀ : Heap Ptr) (m : Memory) (ns : List (Nat × Ptr)) : Prop where
  owns : ∃ q, m.queue = some q ∧ Private h₀ (q :: ns.map Prod.fst) m.heap
  front : m.front = firstOf ns none
  rear : m.rear = lastOf none ns
  size : m.size = ns.length
  linked : Linked cell m.heap none ns none

theorem cell_data (data next prev : Ptr) : (cell data next prev)[DATA]? = some (some data) := rfl

theorem cell_next (data next prev : Ptr) : (cell data next prev)[NEXT]? = some (some next) := rfl

theorem setsNext : SetsNext cell NEXT := fun _ _ d _ _ hat q => At.stores [some d] hat q

section Operations
variable {h₀ : Heap Ptr} {m : Memory} {ns : List (Nat × Ptr)} {n : Nat × Ptr}

theorem Holds.isEmpty (h : Holds h₀ m ns) : ftQueueIsEmpty m = ns.isEmpty := by
  rw [ftQueueIsEmpty, h.size]
  cases ns <;> rfl

/-- A new node, before it is linked. -/
theorem Holds.fresh (h : Holds h₀ m ns) (data : Ptr) :
    ∃ heap a q, m.heap.tryMalloc true 2 = (heap, some a) ∧ m.queue = some q ∧
      let heap := (heap.store (some a) DATA data).store (some a) NEXT none
      Private h₀ (a :: q :: ns.map Prod.fst) heap ∧ heap.At (some a) (cell data none none) ∧
        Linked cell heap none ns none := by
  obtain ⟨q, hq, hprivate⟩ := h.owns
  have hat : (m.heap.malloc 2).1.At (some m.heap.blocks.length) ([] ++ none :: [none]) :=
    at_malloc hprivate.owns.sound 2
  obtain ⟨hat₁, hkeep₁⟩ := At.stores [] hat data
  obtain ⟨hat₂, hkeep₂⟩ := At.stores [some data] hat₁ none
  have hprivate₁ := (hprivate.malloc 2).store [] List.mem_cons_self hat data
  have hfresh : m.heap.blocks.length ∉ ns.map Prod.fst := fun hmem =>
    hprivate.owns.fresh (List.mem_cons_of_mem q hmem)
  exact ⟨_, m.heap.blocks.length, q, rfl, hq, hprivate₁.store [some data] List.mem_cons_self hat₁ none, hat₂,
    h.linked.keep (((keepsOff_malloc _ _ _).trans hkeep₁).trans hkeep₂) (not_mem_singleton_of hfresh)⟩

theorem enqueue_holds (h : Holds h₀ m ns) (data : Ptr) :
    ∃ m' a, ftQueueEnqueue true data m = (m', true) ∧ Holds h₀ m' (ns ++ [(a, data)]) := by
  obtain ⟨heap, a, q, hnew, hq, hprivate, hat, hlinked⟩ := h.fresh data
  have hempty := h.isEmpty
  have hperm : (a :: q :: ns.map Prod.fst).Perm (q :: (ns ++ [(a, data)]).map Prod.fst) := by
    rw [List.map_append]
    exact (List.Perm.swap q a _).trans ((List.perm_append_singleton a _).symm.cons q)
  have hsize : m.size + 1 = (ns ++ [(a, data)]).length := by rw [h.size, List.length_append]; rfl
  by_cases hne : ns = []
  · subst hne
    refine ⟨_, a, by simp only [ftQueueEnqueue, hnew, hempty, Option.isSome_some, List.isEmpty_nil, if_true]; rfl, ?_⟩
    exact ⟨⟨q, hq, hprivate.perm hperm⟩, rfl, rfl, hsize, hat, trivial⟩
  · obtain ⟨ha, hnodup⟩ := List.nodup_cons.mp hprivate.nodup
    have ha : a ∉ ns.map Prod.fst := fun hmem => ha (List.mem_cons_of_mem q hmem)
    obtain ⟨hrelink, hkeep⟩ := hlinked.relink_last setsNext (List.nodup_cons.mp hnodup).2 hne (some a)
    have hfilled : ns.isEmpty = false := List.isEmpty_eq_false_iff.mpr hne
    obtain ⟨xs, n, rfl⟩ := (List.eq_nil_or_concat' ns).resolve_left hne
    have hrear : m.rear = some n.1 := by rw [h.rear, lastOf_concat]
    have hlast := (linked_append.mp hlinked).2.1
    rw [lastOf_concat] at hrelink hkeep
    refine ⟨_, a, by simp only [ftQueueEnqueue, hnew, hempty, hrear, hfilled, Option.isSome_some, if_true,
      Bool.false_eq_true, if_false]; rfl, ?_⟩
    refine ⟨⟨q, hq, (hprivate.store [some n.2] (by simp) hlast (some a)).perm hperm⟩, ?_,
      (lastOf_concat none (xs ++ [n]) (a, data)).symm, hsize, linked_append.mpr ⟨hrelink, ?_, trivial⟩⟩
    · rw [h.front, firstOf_append (xs ++ [n])]
      exact firstOf_of_ne hne _ _
    · exact hkeep a ha _ hat

theorem dequeue_holds (h : Holds h₀ m (n :: ns)) : ∃ m', ftQueueDequeue m = (m', n.2) ∧ Holds h₀ m' ns := by
  obtain ⟨q, hq, hprivate⟩ := h.owns
  obtain ⟨hat, hlinked⟩ := h.linked
  have hempty := h.isEmpty
  have hfront : m.front = some n.1 := h.front
  have hdata := hat.load_of_getElem? (cell_data _ _ _)
  have hnext := hat.load_of_getElem? (cell_next _ _ _)
  have hn : n.1 ∉ ns.map Prod.fst := (List.nodup_cons.mp (List.nodup_cons.mp hprivate.nodup).2).1
  refine ⟨_, by
    simp only [ftQueueDequeue, hempty, hfront, hdata, hnext, List.isEmpty_cons, Bool.false_eq_true, if_false]
    rfl, ?_⟩
  refine ⟨⟨q, hq, (hprivate.perm (List.Perm.swap n.1 q _)).free⟩, rfl, ?_, ?_, ?_⟩
  · cases ns with
    | nil => rfl
    | cons k ns => exact h.rear
  · rw [h.size]
    rfl
  · exact (hlinked.of_prev (fun _ _ _ _ => rfl) none).keep hat.keepsOff_free (not_mem_singleton_of hn)

theorem front_holds (h : Holds h₀ m ns) : ftQueueFront m = (m, (ns.map Prod.snd).head?.getD none) := by
  have hempty := h.isEmpty
  cases ns with
  | nil => simp [ftQueueFront, hempty]
  | cons n ns =>
    have hdata : m.heap.load m.front DATA = (m.heap, n.2) := by
      rw [h.front]
      exact h.linked.1.load_of_getElem? (cell_data _ _ _)
    simp [ftQueueFront, hempty, hdata]

theorem rear_holds (h : Holds h₀ m ns) : ftQueueRear m = (m, (ns.map Prod.snd).getLast?.getD none) := by
  have hempty := h.isEmpty
  rcases List.eq_nil_or_concat' ns with rfl | ⟨ns, n, rfl⟩
  · simp [ftQueueRear, hempty]
  · have hdata : m.heap.load m.rear DATA = (m.heap, n.2) := by
      rw [h.rear, lastOf_concat]
      exact (linked_append.mp h.linked).2.1.load_of_getElem? (cell_data _ _ _)
    simp [ftQueueRear, hempty, hdata]

/-- The loop of `ft_queue_clear` frees the nodes. -/
theorem clearLoop_frees {h : Heap Ptr} {prev : Ptr} {as : List Nat} (hl : Linked cell h prev ns none)
    (hp : Private h₀ (ns.map Prod.fst ++ as) h) {fuel : Nat} (hfuel : ns.length ≤ fuel) :
    Private h₀ as (clearLoop fuel (firstOf ns none) h) := by
  induction ns generalizing h prev fuel with
  | nil =>
    cases fuel <;> exact hp
  | cons n ns ih =>
    obtain ⟨fuel, rfl⟩ := Nat.exists_eq_add_of_lt hfuel
    have hnext := hl.1.load_of_getElem? (cell_next _ _ _)
    have hn : n.1 ∉ ns.map Prod.fst := fun hmem =>
      (List.nodup_cons.mp hp.nodup).1 (List.mem_append_left as hmem)
    simp only [firstOf_cons, clearLoop, hnext]
    exact ih (hl.2.keep hl.1.keepsOff_free (not_mem_singleton_of hn)) hp.free (by omega)

theorem clear_holds (h : Holds h₀ m ns) : Holds h₀ (ftQueueClear m) [] := by
  obtain ⟨q, hq, hprivate⟩ := h.owns
  have hnodup : (ns.map Prod.fst).Nodup := (List.nodup_cons.mp hprivate.nodup).2
  have hfreed := clearLoop_frees h.linked (hprivate.perm (List.perm_append_singleton q _).symm)
    (h.linked.length_le hnodup)
  rw [← h.front] at hfreed
  exact ⟨⟨q, hq, hfreed⟩, rfl, rfl, rfl, trivial⟩

theorem destroy_holds (h : Holds h₀ m ns) : Private h₀ [] (ftQueueDestroy m) := by
  obtain ⟨q, hq, hprivate⟩ := (clear_holds h).owns
  rw [ftQueueDestroy, show m.queue = some q from hq]
  exact hprivate.free

/-! ### Runs -/

/-- The queue stands for the sequence. -/
def Refines (h₀ : Heap Ptr) (m : Memory) (xs : List Ptr) : Prop := ∃ ns, Holds h₀ m ns ∧ ns.map Prod.snd = xs

theorem done_of_holds {op : Op} {mallocOk : Bool} {m' : Memory} {ms : List (Nat × Ptr)}
    (hrun : op.run mallocOk m = (m', op.answer (ns.map Prod.snd))) (hm : Holds h₀ m' ms)
    (happly : ms.map Prod.snd = op.apply (ns.map Prod.snd)) :
    queue.Done (Refines h₀) op mallocOk m (ns.map Prod.snd) := Or.inr ⟨id, m', hrun, ms, hm, happly⟩

theorem op_done (op : Op) {xs : List Ptr} (h : Refines h₀ m xs) (mallocOk : Bool) :
    queue.Done (Refines h₀) op mallocOk m xs := by
  obtain ⟨ns, h, rfl⟩ := h
  cases op with
  | enqueue data =>
    cases mallocOk with
    | false => exact Or.inl ⟨rfl, Or.inr rfl⟩
    | true =>
      obtain ⟨m', a, hrun, hm'⟩ := enqueue_holds h data
      exact done_of_holds (by simp only [Op.run, hrun, Op.answer]) hm' (by simp [Op.apply])
  | dequeue =>
    cases ns with
    | nil =>
      refine done_of_holds ?_ h rfl
      simp [Op.run, ftQueueDequeue, h.isEmpty, Op.answer]
    | cons n ns =>
      obtain ⟨m', hrun, hm'⟩ := dequeue_holds h
      exact done_of_holds (by simp only [Op.run, hrun]; rfl) hm' rfl
  | front => exact done_of_holds (by simp only [Op.run, front_holds h, Op.answer]) h rfl
  | rear => exact done_of_holds (by simp only [Op.run, rear_holds h, Op.answer]) h rfl
  | size => exact done_of_holds (by simp [Op.run, ftQueueSize, h.size, Op.answer]) h rfl
  | isEmpty => exact done_of_holds (by simp [Op.run, h.isEmpty, Op.answer]) h rfl
  | clear => exact done_of_holds rfl (clear_holds h) rfl

theorem answer_ne_refusal (op : Op) (xs : List Ptr) : op.answer xs ≠ .done false := by
  cases op <;> simp [Op.answer]

theorem refines_create (hf : h₀.fault = false) {mallocOk : Bool} (h : ftQueueCreate mallocOk h₀ = some m) :
    Refines h₀ m [] := by
  cases mallocOk with
  | false => cases h
  | true =>
    cases h
    exact ⟨[], ⟨⟨h₀.blocks.length, rfl, (Private.start hf).malloc 3⟩, rfl, rfl, rfl, trivial⟩, rfl⟩

end Operations

/-- A queue from `ft_queue_create` is first in, first out in every run, whichever allocations fail, and
    `ft_queue_destroy` leaves nothing behind: all that was allocated since was freed once, and what was there before is
    as it was. -/
theorem queue_refines (h₀ : Heap Ptr) (hf : h₀.fault = false) (mallocOk : Bool) (m : Memory)
    (hcreate : ftQueueCreate mallocOk h₀ = some m) (ops : List (Op × Bool)) :
    queue.machine.Meets queue.Answered (m, []) ops ∧
      Private h₀ [] (ftQueueDestroy (queue.machine.run (m, []) ops).1) := by
  have hfits : queue.machine.Meets (fun _ _ => True) (m, []) ops := Machine.meets_of_forall (fun _ _ _ => trivial) _
  obtain ⟨⟨ns, hns, -⟩, hanswered⟩ := Implementation.refines_run answer_ne_refusal
    (fun _ _ op ok href _ => op_done op href ok) (refines_create hf hcreate) hfits
  exact ⟨hanswered, destroy_holds hns⟩

/-- The second node is not allocated, and the last one is not taken out. -/
theorem queue_refines_failed :
    let ops := [(Op.enqueue (some 7), true), (.enqueue (some 8), false), (.enqueue (some 9), true), (.dequeue, true),
      (.rear, true), (.size, true)]
    ∃ m, ftQueueCreate true {} = some m ∧
      queue.machine.outputs (m, []) ops = [[.done true], [.done false], [.done true], [.ptr (some 7)], [.ptr (some 9)],
        [.size 1]] ∧
      Private {} [] (ftQueueDestroy (queue.machine.run (m, []) ops).1) :=
  ⟨_, rfl, by decide, (queue_refines {} rfl true _ rfl _).2⟩

end Minitalk.Libft.Queue
