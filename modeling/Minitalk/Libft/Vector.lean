import Mathlib.Algebra.Group.Nat.Defs
import Minitalk.Lib.Cells
import Minitalk.Lib.Implementation

/-! # The dynamic array (`ft_vector`)

The vector is the one that `ft_vector_create` returned, so no function gets a null vector. Every operation calls
`malloc` at most once; `mallocOk` says whether that call succeeds. Sizes are `size_t`, and the products that the code
computes wrap around. -/

namespace Minitalk.Libft.Vector
open Heap

def VECTOR_INITIAL_CAPACITY : Nat := 4

def VECTOR_GROWTH_FACTOR : Nat := 2

/-- How many pointers fit in the block that `malloc(sizeof(void *) * n)` returns. -/
def cellsOf (n : Nat) : Nat := 8 * n % 2 ^ 64 / 8

/-- `t_vector`, with the heap that its array lives in. -/
structure Memory where
  heap : Heap Ptr
  data : Ptr
  size : Nat
  capacity : Nat

def ftVectorCreate (vectorOk dataOk : Bool) : Option Memory :=
  if vectorOk then
    if dataOk then
      let (heap, data) := Heap.malloc {} (cellsOf VECTOR_INITIAL_CAPACITY)
      some { heap, data, size := 0, capacity := VECTOR_INITIAL_CAPACITY }
    else none
  else none

def ftVectorResize (mallocOk : Bool) (newCapacity : Nat) (m : Memory) : Memory × Bool :=
  if newCapacity < m.size then (m, false)
  else if mallocOk then
    let (heap, newData) := m.heap.malloc (cellsOf newCapacity)
    let heap := heap.copyUp m.data 0 newData 0 m.size
    ({ m with heap := heap.free m.data, data := newData, capacity := newCapacity }, true)
  else (m, false)

/-- The growth that `ft_vector_add_back` and `ft_vector_insert` begin with. -/
def grow (mallocOk : Bool) (m : Memory) : Memory × Bool :=
  if m.capacity ≤ m.size then ftVectorResize mallocOk (m.capacity * VECTOR_GROWTH_FACTOR % 2 ^ 64) m else (m, true)

def ftVectorAddBack (mallocOk : Bool) (element : Ptr) (m : Memory) : Memory × Bool :=
  let (m, grown) := grow mallocOk m
  if grown then ({ m with heap := m.heap.store m.data m.size element, size := m.size + 1 }, true) else (m, false)

def ftVectorInsert (mallocOk : Bool) (index : Nat) (element : Ptr) (m : Memory) : Memory × Bool :=
  if m.size < index ∨ element = none then (m, false)
  else
    let (m, grown) := grow mallocOk m
    if grown then
      let heap := m.heap.copyDown m.data index m.size
      ({ m with heap := heap.store m.data index element, size := m.size + 1 }, true)
    else (m, false)

def ftVectorRemove (index : Nat) (m : Memory) : Memory × Ptr :=
  if m.size ≤ index then (m, none)
  else
    let (heap, element) := m.heap.load m.data index
    let heap := heap.copyUp m.data (index + 1) m.data index (m.size - 1 - index)
    ({ m with heap := heap.store m.data (m.size - 1) none, size := m.size - 1 }, element)

def ftVectorPopBack (m : Memory) : Memory × Ptr :=
  if m.size = 0 then (m, none)
  else
    let (heap, element) := m.heap.load m.data (m.size - 1)
    ({ m with heap := heap.store m.data (m.size - 1) none, size := m.size - 1 }, element)

def ftVectorGet (index : Nat) (m : Memory) : Memory × Ptr :=
  if m.size ≤ index then (m, none)
  else
    let (heap, element) := m.heap.load m.data index
    ({ m with heap }, element)

def ftVectorSet (index : Nat) (content : Ptr) (m : Memory) : Memory × Bool :=
  if m.size ≤ index ∨ content = none then (m, false)
  else ({ m with heap := m.heap.store m.data index content }, true)

def ftVectorClear (m : Memory) : Memory :=
  { m with heap := m.heap.fill m.data none 0 m.size, size := 0 }

def ftVectorReserve (mallocOk : Bool) (capacity : Nat) (m : Memory) : Memory × Bool :=
  if m.capacity < capacity then ftVectorResize mallocOk capacity m else (m, true)

/-! ### Sequences of operations -/

inductive Op where
  | addBack (element : Ptr)
  | insert (index : Nat) (element : Ptr)
  | remove (index : Nat)
  | popBack
  | set (index : Nat) (content : Ptr)
  | get (index : Nat)
  | clear
  | resize (newCapacity : Nat)
  | reserve (capacity : Nat)

inductive Answer where
  | bool (b : Bool)
  | ptr (p : Ptr)
  | unit
deriving DecidableEq

def Op.run (mallocOk : Bool) (m : Memory) : Op → Memory × Answer
  | .addBack element => let (m, done) := ftVectorAddBack mallocOk element m; (m, .bool done)
  | .insert index element => let (m, done) := ftVectorInsert mallocOk index element m; (m, .bool done)
  | .remove index => let (m, element) := ftVectorRemove index m; (m, .ptr element)
  | .popBack => let (m, element) := ftVectorPopBack m; (m, .ptr element)
  | .set index content => let (m, done) := ftVectorSet index content m; (m, .bool done)
  | .get index => let (m, element) := ftVectorGet index m; (m, .ptr element)
  | .clear => (ftVectorClear m, .unit)
  | .resize newCapacity => let (m, done) := ftVectorResize mallocOk newCapacity m; (m, .bool done)
  | .reserve capacity => let (m, done) := ftVectorReserve mallocOk capacity m; (m, .bool done)

/-! ### The list that a vector stands for -/

def Op.apply : Op → List Ptr → List Ptr
  | .addBack element, xs => xs ++ [element]
  | .insert index element, xs => xs.take index ++ element :: xs.drop index
  | .remove index, xs => xs.eraseIdx index
  | .popBack, xs => xs.dropLast
  | .set index content, xs => xs.set index content
  | .clear, _ => []
  | .get _, xs | .resize _, xs | .reserve _, xs => xs

/-- What the operation returns when it is not refused. -/
def Op.answer : Op → List Ptr → Answer
  | .remove index, xs | .get index, xs => .ptr (xs[index]?.getD none)
  | .popBack, xs => .ptr (xs.getLast?.getD none)
  | .clear, _ => .unit
  | .addBack _, _ | .insert .., _ | .set .., _ | .resize _, _ | .reserve _, _ => .bool true

/-- The arguments for which an operation is refused, whatever `malloc` does. -/
def Op.Invalid : Op → List Ptr → Prop
  | .insert index element, xs => xs.length < index ∨ element = none
  | .set index content, xs => xs.length ≤ index ∨ content = none
  | .resize newCapacity, xs => newCapacity < xs.length
  | _, _ => False

/-- The vector as an implementation of the list: it refuses by returning false. -/
def vector : Implementation Memory (List Ptr) Op Answer where
  run op mallocOk m := op.run mallocOk m
  apply := Op.apply
  answer := Op.answer
  Invalid := Op.Invalid
  refusal := .bool false

/-- No access was outside of the array so far, the array has `capacity` cells, and its first `size` are the list. -/
structure Refines (m : Memory) (xs : List Ptr) : Prop where
  size : m.size = xs.length
  le : m.size ≤ m.capacity
  cells : ∃ rest, m.heap.At m.data (xs.map some ++ rest) ∧ xs.length + rest.length = m.capacity

/-- A full vector can double its capacity: it has some, and the doubled one is a size that can be allocated. -/
def CanGrow (m : Memory) : Prop := m.capacity ≤ m.size → 0 < m.capacity ∧ m.capacity < 2 ^ 60

/-- When its `malloc` succeeds, the operation asks for less than 2^61 cells, and does not double a capacity of 0. -/
def Fits (s : Memory × List Ptr) (i : Op × Bool) : Prop :=
  i.2 = true → match i.1 with
    | .addBack _ => CanGrow s.1
    | .insert index element => index ≤ s.1.size → element ≠ none → CanGrow s.1
    | .resize newCapacity => s.1.size ≤ newCapacity → newCapacity < 2 ^ 61
    | .reserve capacity => s.1.capacity < capacity → capacity < 2 ^ 61
    | _ => True

/-! ### What each operation does -/

theorem cellsOf_eq {n : Nat} (h : n < 2 ^ 61) : cellsOf n = n := by
  rw [cellsOf, Nat.mod_eq_of_lt (by omega), Nat.mul_div_cancel_left n (by decide)]

section Operations
variable {m : Memory} {xs : List Ptr} {mallocOk : Bool}

theorem refines_create {vectorOk dataOk : Bool} (h : ftVectorCreate vectorOk dataOk = some m) : Refines m [] := by
  unfold ftVectorCreate at h
  split at h
  · split at h
    · cases h
      exact ⟨rfl, by decide, _, ⟨rfl, rfl⟩, rfl⟩
    · cases h
  · cases h

theorem resize_cases (mallocOk : Bool) (h : Refines m xs) {n : Nat} (hn : mallocOk = true → m.size ≤ n → n < 2 ^ 61) :
    (ftVectorResize mallocOk n m = (m, false) ∧ (n < xs.length ∨ mallocOk = false)) ∨
      (xs.length ≤ n ∧ ∃ m', ftVectorResize mallocOk n m = (m', true) ∧ Refines m' xs ∧ m'.capacity = n) := by
  obtain ⟨hsize, hle, rest, hat, hlen⟩ := h
  unfold ftVectorResize
  by_cases hsmall : n < m.size
  · rw [if_pos hsmall]
    exact Or.inl ⟨rfl, Or.inl (hsize ▸ hsmall)⟩
  · rw [if_neg hsmall]
    cases mallocOk with
    | false => exact Or.inl ⟨rfl, Or.inr rfl⟩
    | true =>
      have hroom : xs.length ≤ n := by omega
      refine Or.inr ⟨hroom, _, rfl, ?_, rfl⟩
      rw [cellsOf_eq (hn rfl (by omega))]
      have hnew := at_malloc hat.sound n
      obtain ⟨hold, hne⟩ := hat.malloc n
      obtain ⟨hsrc, hdst⟩ := hold.copyUp hnew hne (by rwa [List.length_replicate])
      rw [List.drop_replicate] at hdst
      refine ⟨hsize, by simp only; omega, List.replicate (n - xs.length) none, ?_, ?_⟩
      · rw [hsize]
        exact hsrc.free_ne hdst hne
      · rw [List.length_replicate, Nat.add_sub_cancel' hroom]

theorem grow_cases (h : Refines m xs) (hgrow : mallocOk = true → CanGrow m) :
    (grow mallocOk m = (m, false) ∧ mallocOk = false) ∨
      ∃ m', grow mallocOk m = (m', true) ∧ Refines m' xs ∧ xs.length < m'.capacity := by
  have hsize := h.size
  have hle := h.le
  unfold grow
  by_cases hfull : m.capacity ≤ m.size
  · rw [if_pos hfull]
    cases mallocOk with
    | false =>
      refine Or.inl ⟨?_, rfl⟩
      unfold ftVectorResize
      split <;> rfl
    | true =>
      obtain ⟨hpos, hlt⟩ := hgrow rfl hfull
      have hdouble : m.capacity * VECTOR_GROWTH_FACTOR % 2 ^ 64 = 2 * m.capacity := by
        rw [VECTOR_GROWTH_FACTOR, Nat.mul_comm, Nat.mod_eq_of_lt (by omega)]
      rw [hdouble]
      rcases resize_cases true h (n := 2 * m.capacity) (fun _ _ => by omega) with
        ⟨-, hshort | hfail⟩ | ⟨-, m', hres, href, hcap⟩
      · omega
      · cases hfail
      · exact Or.inr ⟨m', hres, href, by omega⟩
  · rw [if_neg hfull]
    exact Or.inr ⟨m, rfl, h, by omega⟩

/-- A vector that is not full has a cell behind its elements. -/
theorem Refines.room (h : Refines m xs) (hlt : xs.length < m.capacity) :
    ∃ c rest, m.heap.At m.data (xs.map some ++ c :: rest) ∧ xs.length + 1 + rest.length = m.capacity := by
  obtain ⟨-, -, rest, hat, hlen⟩ := h
  cases rest with
  | nil => simp only [List.length_nil] at hlen; omega
  | cons c rest => exact ⟨c, rest, hat, by rw [← hlen, List.length_cons]; omega⟩

theorem addBack_done (h : Refines m xs) (element : Ptr) (hgrow : mallocOk = true → CanGrow m) :
    vector.Done Refines (.addBack element) mallocOk m xs := by
  rcases grow_cases h hgrow with ⟨hfail, hok⟩ | ⟨m', hres, href, hlt⟩
  · exact Or.inl ⟨by simp only [vector, Op.run, ftVectorAddBack, hfail]; rfl, Or.inr hok⟩
  · obtain ⟨c, rest, hat, hlen⟩ := href.room hlt
    have hsize := href.size
    refine Or.inr ⟨id, _, by simp only [vector, Op.run, ftVectorAddBack, hres, if_true]; rfl, ?_, ?_, rest, ?_, ?_⟩
    · simp only [vector, Op.apply, List.length_append, List.length_singleton, hsize]
    · simp only
      omega
    · have hstore := hat.store element
      rw [List.length_map, ← hsize] at hstore
      simpa [vector, Op.apply] using hstore
    · simpa [vector, Op.apply] using hlen

theorem insert_done (h : Refines m xs) (index : Nat) (element : Ptr)
    (hgrow : mallocOk = true → index ≤ m.size → element ≠ none → CanGrow m) :
    vector.Done Refines (.insert index element) mallocOk m xs := by
  have hsize := h.size
  by_cases hbad : m.size < index ∨ element = none
  · exact Or.inl ⟨by simp only [vector, Op.run, ftVectorInsert, hbad, if_true], Or.inl (by rwa [hsize] at hbad)⟩
  · have hindex : index ≤ m.size := by
      by_contra hlt
      exact hbad (Or.inl (by omega))
    rcases grow_cases h fun hok => hgrow hok hindex fun hnull => hbad (Or.inr hnull) with
      ⟨hfail, hok⟩ | ⟨m', hres, href, hlt⟩
    · exact Or.inl ⟨by simp only [vector, Op.run, ftVectorInsert, hbad, hfail, if_false]; rfl, Or.inr hok⟩
    · obtain ⟨c, rest, hat, hlen⟩ := href.room hlt
      have hsize' := href.size
      have hparts : (xs.take index).length = index ∧ (xs.drop index).length = xs.length - index := by
        rw [List.length_take, List.length_drop]
        omega
      have hshift : ∃ d, (m'.heap.copyDown m'.data index m'.size).At m'.data
          ((xs.take index).map some ++ d :: ((xs.drop index).map some ++ rest)) := by
        have hat' : m'.heap.At m'.data ((xs.take index).map some ++ (xs.drop index).map some ++ c :: rest) := by
          rwa [← List.map_append, List.take_append_drop]
        obtain ⟨d, hd⟩ := At.copyDown _ _ hat'
        rw [List.length_map, hparts.1, hparts.2, Nat.add_sub_cancel' (by omega), ← hsize'] at hd
        exact ⟨d, by simpa using hd⟩
      obtain ⟨d, hd⟩ := hshift
      have hstore := hd.store element
      rw [List.length_map, hparts.1] at hstore
      refine Or.inr ⟨by rwa [hsize] at hbad, _,
        by simp only [vector, Op.run, ftVectorInsert, hbad, hres, if_true, if_false]; rfl, ?_, ?_, rest, ?_, ?_⟩
      · simp only [vector, Op.apply, List.length_append, List.length_cons, hparts, hsize']
        omega
      · simp only
        omega
      · simpa [vector, Op.apply] using hstore
      · simp only [vector, Op.apply, List.length_append, List.length_cons, hparts]
        omega

/-- The element of an index, and the array around it. -/
theorem Refines.split (h : Refines m xs) (index : Nat) (hlt : index < xs.length) :
    ∃ pre x post rest, xs = pre ++ x :: post ∧ index = pre.length ∧
      m.heap.At m.data (pre.map some ++ some x :: (post.map some ++ rest)) ∧
      m.heap.load m.data index = (m.heap, x) ∧ m.size = pre.length + post.length + 1 ∧
      m.size + rest.length = m.capacity := by
  obtain ⟨pre, x, post, hxs, hpre⟩ : ∃ pre x post, xs = pre ++ x :: post ∧ index = pre.length :=
    ⟨xs.take index, xs[index], xs.drop (index + 1), by rw [← List.drop_eq_getElem_cons hlt, List.take_append_drop],
      by rw [List.length_take]; omega⟩
  obtain ⟨hsize, -, rest, hat, hlen⟩ := h
  subst hxs hpre
  have hat' : m.heap.At m.data (pre.map some ++ some x :: (post.map some ++ rest)) := by simpa using hat
  have hload := hat'.load
  rw [List.length_map] at hload
  refine ⟨pre, x, post, rest, rfl, rfl, hat', hload, ?_, by omega⟩
  rw [hsize, List.length_append, List.length_cons, Nat.add_assoc]

theorem remove_done (h : Refines m xs) (index : Nat) : vector.Done Refines (.remove index) mallocOk m xs := by
  have hsize := h.size
  have hle := h.le
  refine Or.inr ⟨id, ?_⟩
  by_cases hbad : m.size ≤ index
  · have hnone : xs.length ≤ index := hsize ▸ hbad
    refine ⟨m, ?_, ?_⟩
    · simp only [vector, Op.run, ftVectorRemove, hbad, if_true, Op.answer, List.getElem?_eq_none hnone,
        Option.getD_none]
    · simpa only [vector, Op.apply, List.eraseIdx_of_length_le hnone] using h
  · obtain ⟨pre, x, post, rest, rfl, rfl, hat, hload, hparts, hlen⟩ := h.split index (by omega)
    obtain ⟨w, hw⟩ := At.shiftDown _ rest (by simpa using hat)
    have hstore := hw.store none
    rw [List.length_append, List.length_map, List.length_map] at hstore
    have hlast : m.size - 1 = pre.length + post.length := by omega
    have herase : (pre ++ x :: post).eraseIdx pre.length = pre ++ post := by
      rw [List.eraseIdx_append_of_length_le (Nat.le_refl _), Nat.sub_self, List.eraseIdx_cons_zero]
    refine ⟨_, by simp only [vector, Op.run, ftVectorRemove, hbad, if_false, hload, Op.answer,
      List.getElem?_append_right (Nat.le_refl _), Nat.sub_self, List.getElem?_cons_zero, Option.getD_some]; rfl,
      ?_, ?_, some none :: rest, ?_, ?_⟩
    · simp only [vector, Op.apply, herase, List.length_append]
      exact hlast
    · simp only
      omega
    · simp only [hlast, Nat.add_sub_cancel_left, vector, Op.apply, herase, List.map_append]
      exact hstore
    · simp only [vector, Op.apply, herase, List.length_append, List.length_cons]
      omega

theorem popBack_done (h : Refines m xs) : vector.Done Refines .popBack mallocOk m xs := by
  have hsize := h.size
  have hle := h.le
  refine Or.inr ⟨id, ?_⟩
  by_cases hbad : m.size = 0
  · obtain rfl := List.length_eq_zero_iff.mp (hsize.symm.trans hbad)
    exact ⟨m, by simp only [vector, Op.run, ftVectorPopBack, hbad, if_true]; rfl, h⟩
  · obtain ⟨pre, x, post, rest, rfl, hindex, hat, hload, hparts, hlen⟩ := h.split (m.size - 1) (by omega)
    obtain rfl := List.length_eq_zero_iff.mp (show post.length = 0 by omega)
    have hstore := hat.store none
    rw [List.length_map, ← hindex] at hstore
    refine ⟨_, by simp only [vector, Op.run, ftVectorPopBack, hbad, if_false, hload, Op.answer, List.getLast?_append,
      List.getLast?_singleton, Option.some_or, Option.getD_some]; rfl, ?_, ?_, some none :: rest, ?_, ?_⟩
    · simp only [vector, Op.apply, List.dropLast_concat]
      exact hindex
    · simp only
      omega
    · simp only [vector, Op.apply, List.dropLast_concat]
      exact hstore
    · simp only [vector, Op.apply, List.dropLast_concat, List.length_cons]
      simp only [List.length_nil] at hparts
      omega

theorem get_done (h : Refines m xs) (index : Nat) : vector.Done Refines (.get index) mallocOk m xs := by
  have hsize := h.size
  refine Or.inr ⟨id, m, ?_, h⟩
  by_cases hbad : m.size ≤ index
  · have hnone : xs.length ≤ index := hsize ▸ hbad
    simp only [vector, Op.run, ftVectorGet, hbad, if_true, Op.answer, List.getElem?_eq_none hnone, Option.getD_none]
  · obtain ⟨pre, x, post, rest, rfl, rfl, -, hload, -, -⟩ := h.split index (by omega)
    simp only [vector, Op.run, ftVectorGet, hbad, if_false, hload, Op.answer,
      List.getElem?_append_right (Nat.le_refl _), Nat.sub_self, List.getElem?_cons_zero, Option.getD_some]

theorem set_done (h : Refines m xs) (index : Nat) (content : Ptr) :
    vector.Done Refines (.set index content) mallocOk m xs := by
  have hsize := h.size
  have hle := h.le
  by_cases hbad : m.size ≤ index ∨ content = none
  · exact Or.inl ⟨by simp only [vector, Op.run, ftVectorSet, hbad, if_true], Or.inl (by rwa [hsize] at hbad)⟩
  · have hlt : index < xs.length := by
      by_contra hge
      exact hbad (Or.inl (by omega))
    obtain ⟨pre, x, post, rest, rfl, rfl, hat, -, hparts, hlen⟩ := h.split _ hlt
    have hstore := hat.store content
    rw [List.length_map] at hstore
    have hset : (pre ++ x :: post).set pre.length content = pre ++ content :: post := by
      rw [List.set_append_right _ _ (Nat.le_refl _), Nat.sub_self, List.set_cons_zero]
    refine Or.inr ⟨by rwa [hsize] at hbad, _, by simp only [vector, Op.run, ftVectorSet, hbad, if_false]; rfl,
      ?_, ?_, rest, ?_, ?_⟩
    · simp only [vector, Op.apply, List.length_set]
      exact hsize
    · exact hle
    · simpa only [vector, Op.apply, hset, List.map_append, List.map_cons, List.append_assoc,
        List.cons_append] using hstore
    · simp only [vector, Op.apply, List.length_set, ← hsize]
      exact hlen

theorem clear_done (h : Refines m xs) : vector.Done Refines .clear mallocOk m xs := by
  obtain ⟨hsize, hle, rest, hat, hlen⟩ := h
  have hfill := At.fill [] (xs.map some) hat none
  rw [List.length_map, ← hsize] at hfill
  have hcells : (List.replicate m.size (some (none : Ptr)) ++ rest).length = m.capacity := by
    rw [List.length_append, List.length_replicate, hsize]
    exact hlen
  exact Or.inr ⟨id, _, rfl, rfl, Nat.zero_le _, _, hfill, (Nat.zero_add _).trans hcells⟩

theorem resize_done (h : Refines m xs) (n : Nat) (hn : mallocOk = true → m.size ≤ n → n < 2 ^ 61) :
    vector.Done Refines (.resize n) mallocOk m xs := by
  rcases resize_cases _ h hn with ⟨hres, hwhy⟩ | ⟨hle, m', hres, href, -⟩
  · exact Or.inl ⟨by simp only [vector, Op.run, hres], hwhy⟩
  · exact Or.inr ⟨Nat.not_lt.mpr hle, m', by simp only [vector, Op.run, hres, Op.answer], href⟩

theorem reserve_done (h : Refines m xs) (n : Nat) (hn : mallocOk = true → m.capacity < n → n < 2 ^ 61) :
    vector.Done Refines (.reserve n) mallocOk m xs := by
  have hsize := h.size
  have hle := h.le
  by_cases hlt : m.capacity < n
  · rcases resize_cases _ h (n := n) fun hok _ => hn hok hlt with ⟨hres, hwhy⟩ | ⟨-, m', hres, href, -⟩
    · refine Or.inl ⟨by simp only [vector, Op.run, ftVectorReserve, hlt, if_true, hres], Or.inr ?_⟩
      exact hwhy.resolve_left (by omega)
    · exact Or.inr ⟨id, m', by simp only [vector, Op.run, ftVectorReserve, hlt, if_true, hres, Op.answer], href⟩
  · exact Or.inr ⟨id, m, by simp only [vector, Op.run, ftVectorReserve, hlt, if_false, Op.answer], h⟩

theorem op_done (h : Refines m xs) (op : Op) (hfits : Fits (m, xs) (op, mallocOk)) :
    vector.Done Refines op mallocOk m xs := by
  cases op with
  | addBack element => exact addBack_done h element hfits
  | insert index element => exact insert_done h index element hfits
  | remove index => exact remove_done h index
  | popBack => exact popBack_done h
  | set index content => exact set_done h index content
  | get index => exact get_done h index
  | clear => exact clear_done h
  | resize n => exact resize_done h n hfits
  | reserve n => exact reserve_done h n hfits

end Operations

theorem answer_ne_refusal (op : Op) (xs : List Ptr) : op.answer xs ≠ .bool false := by
  cases op <;> simp [Op.answer]

/-- The array of a vector refines a list in every run whose requests fit: the list, the size and the capacity agree,
    no access leaves the array, and every operation is refused without effect or returns what it does on the list. -/
theorem vector_refines (vectorOk dataOk : Bool) (m : Memory) (h : ftVectorCreate vectorOk dataOk = some m)
    (ops : List (Op × Bool)) (hfits : vector.machine.Meets Fits (m, []) ops) :
    Refines (vector.machine.run (m, []) ops).1 (vector.machine.run (m, []) ops).2 ∧
      vector.machine.Meets vector.Answered (m, []) ops :=
  Implementation.refines_run answer_ne_refusal (fun _ _ op _ href hfit => op_done href op hfit) (refines_create h) hfits

/-- Filling a vector, giving it exactly the room it needs, and adding one more element. -/
theorem vector_refines_grown :
    let m : Memory := { heap := (Heap.malloc {} 4).1, data := some 0, size := 0, capacity := 4 }
    let ops := [(Op.addBack (some 7), true), (.resize 1, true), (.insert 0 (some 8), true)]
    ftVectorCreate true true = some m ∧ Refines (vector.machine.run (m, []) ops).1 [some 8, some 7] := by
  intro m ops
  have hcreate : ftVectorCreate true true = some m := rfl
  refine ⟨hcreate, (vector_refines true true m hcreate ops
    ⟨fun _ hfull => ?_, fun _ _ => ?_, fun _ _ _ _ => ?_, trivial⟩).1⟩
  · exact absurd hfull (by decide)
  · decide
  · exact ⟨by decide, by decide⟩

/-- A capacity of 0 doubles to 0: the element goes to the first cell of an array without cells. -/
theorem vector_writes_outside :
    let m : Memory := { heap := (Heap.malloc {} 4).1, data := some 0, size := 0, capacity := 4 }
    let s := vector.machine.run (m, []) [(.resize 0, true), (.addBack (some 7), true)]
    ftVectorCreate true true = some m ∧ s.1.size = 1 ∧ s.1.capacity = 0 ∧ s.1.heap.fault = true ∧
      ¬Refines s.1 s.2 := by
  intro m s
  have hfault : s.1.heap.fault = true := by decide
  refine ⟨rfl, by decide, by decide, hfault, fun href => ?_⟩
  obtain ⟨rest, hat, -⟩ := href.cells
  exact absurd (hat.sound.symm.trans hfault) (by decide)

end Minitalk.Libft.Vector
