import Mathlib.Data.List.Perm.Subperm
import Minitalk.Lib.Cells

/-! # Linked nodes in a C heap

A node is a block of pointers, one of them to its data and others to its neighbours; `cell` says which is where. A
segment of nodes is given by the address and the data of each. -/

namespace Heap

/-- The address of the first node, or else what is behind the segment. -/
def firstOf : List (Nat × Ptr) → Ptr → Ptr
  | [], next => next
  | n :: _, _ => some n.1

/-- The address of the last node, or else what is before the segment. -/
def lastOf (prev : Ptr) : List (Nat × Ptr) → Ptr
  | [] => prev
  | n :: ns => lastOf (some n.1) ns

/-- Each node of the segment is live and points to its neighbours. -/
def Linked (cell : Ptr → Ptr → Ptr → List (Option Ptr)) (h : Heap Ptr) (prev : Ptr) :
    List (Nat × Ptr) → Ptr → Prop
  | [], _ => True
  | n :: ns, next => h.At (some n.1) (cell n.2 (firstOf ns next) prev) ∧ Linked cell h (some n.1) ns next

/-- Writing the field changes the next node, and nothing else. -/
def SetsNext (cell : Ptr → Ptr → Ptr → List (Option Ptr)) (field : Nat) : Prop :=
  ∀ (h : Heap Ptr) (a : Nat) (d n p : Ptr), h.At (some a) (cell d n p) → ∀ q : Ptr,
    (h.store (some a) field q).At (some a) (cell d q p) ∧ KeepsOff [a] h (h.store (some a) field q)

/-- `p = p->field`, `n` times. -/
def walk (h : Heap Ptr) (field : Nat) : Nat → Ptr → Heap Ptr × Ptr
  | 0, p => (h, p)
  | n + 1, p =>
    let (h, p) := h.load p field
    walk h field n p

/-- The nodes that are met on the way from `p`, at most `n` of them, until a null pointer. -/
def track (h : Heap Ptr) (field : Nat) : Nat → Ptr → List Nat
  | 0, _ | _ + 1, none => []
  | n + 1, some a => a :: track h field n (h.load (some a) field).2

section Segments
variable {cell : Ptr → Ptr → Ptr → List (Option Ptr)} {h h' : Heap Ptr} {prev next : Ptr}
  {xs ys ns : List (Nat × Ptr)} {n : Nat × Ptr}

@[simp] theorem firstOf_nil (next : Ptr) : firstOf [] next = next := rfl

@[simp] theorem firstOf_cons (n : Nat × Ptr) (ns : List (Nat × Ptr)) (next : Ptr) :
    firstOf (n :: ns) next = some n.1 := rfl

@[simp] theorem lastOf_nil (prev : Ptr) : lastOf prev [] = prev := rfl

theorem firstOf_append (xs ys : List (Nat × Ptr)) (next : Ptr) :
    firstOf (xs ++ ys) next = firstOf xs (firstOf ys next) := by
  cases xs <;> rfl

theorem lastOf_append (prev : Ptr) (xs ys : List (Nat × Ptr)) :
    lastOf prev (xs ++ ys) = lastOf (lastOf prev xs) ys := by
  induction xs generalizing prev with
  | nil => rfl
  | cons n xs ih => exact ih (some n.1)

@[simp] theorem lastOf_concat (prev : Ptr) (xs : List (Nat × Ptr)) (n : Nat × Ptr) :
    lastOf prev (xs ++ [n]) = some n.1 := by
  rw [lastOf_append]
  rfl

theorem lastOf_reverse (p : Ptr) (ns : List (Nat × Ptr)) : lastOf p ns.reverse = firstOf ns p := by
  cases ns with
  | nil => rfl
  | cons n ns => rw [List.reverse_cons, lastOf_concat, firstOf_cons]

theorem exists_firstOf (hne : ns ≠ []) (next : Ptr) : ∃ a, firstOf ns next = some a := by
  cases ns with
  | nil => exact absurd rfl hne
  | cons n ns => exact ⟨_, rfl⟩

theorem exists_lastOf (hne : ns ≠ []) (prev : Ptr) : ∃ a, lastOf prev ns = some a := by
  rcases List.eq_nil_or_concat' ns with rfl | ⟨ns, n, rfl⟩
  · exact absurd rfl hne
  · exact ⟨_, lastOf_concat _ _ _⟩

/-- What is behind or before a segment that is not empty does not matter. -/
theorem firstOf_of_ne (hne : ns ≠ []) (p q : Ptr) : firstOf ns p = firstOf ns q := by
  cases ns with
  | nil => exact absurd rfl hne
  | cons n ns => rfl

theorem lastOf_of_ne (hne : ns ≠ []) (p q : Ptr) : lastOf p ns = lastOf q ns := by
  cases ns with
  | nil => exact absurd rfl hne
  | cons n ns => rfl

theorem linked_append :
    Linked cell h prev (xs ++ ys) next ↔
      Linked cell h prev xs (firstOf ys next) ∧ Linked cell h (lastOf prev xs) ys next := by
  induction xs generalizing prev with
  | nil => exact (true_and _).symm ▸ Iff.rfl
  | cons n xs ih => simp only [List.cons_append, Linked, ih, firstOf_append, lastOf, and_assoc]

theorem Linked.live (hl : Linked cell h prev ns next) (hn : n ∈ ns) : ∃ cells, h.At (some n.1) cells := by
  obtain ⟨xs, ys, rfl⟩ := List.append_of_mem hn
  exact ⟨_, (linked_append.mp hl).2.1⟩

/-- A field of the first node of a segment. -/
theorem Linked.load_first {field : Nat} (hcell : ∀ d n p, (cell d n p)[field]? = some (some p))
    (hl : Linked cell h prev ns next) (hne : ns ≠ []) : h.load (firstOf ns next) field = (h, prev) := by
  cases ns with
  | nil => exact absurd rfl hne
  | cons n ns => exact hl.1.load_of_getElem? (hcell _ _ _)

/-- A field of the last node. -/
theorem Linked.load_last {field : Nat} (hcell : ∀ d n p, (cell d n p)[field]? = some (some n))
    (hl : Linked cell h prev ns next) (hne : ns ≠ []) : h.load (lastOf prev ns) field = (h, next) := by
  rcases List.eq_nil_or_concat' ns with rfl | ⟨ns, n, rfl⟩
  · exact absurd rfl hne
  · rw [lastOf_concat]
    exact (linked_append.mp hl).2.1.load_of_getElem? (hcell _ _ _)

/-- The data of the nodes. -/
theorem Linked.map_load {field : Nat} (hcell : ∀ d n p, (cell d n p)[field]? = some (some d))
    (hl : Linked cell h prev ns next) :
    (ns.map Prod.fst).map (fun a => (h.load (some a) field).2) = ns.map Prod.snd := by
  induction ns generalizing prev with
  | nil => rfl
  | cons n ns ih =>
    rw [List.map_cons, List.map_cons, List.map_cons, ih hl.2, hl.1.load_of_getElem? (hcell _ _ _)]

theorem Linked.keep (hl : Linked cell h prev ns next) {as : List Nat} (hk : KeepsOff as h h')
    (hd : ∀ n ∈ ns, n.1 ∉ as) : Linked cell h' prev ns next := by
  induction ns generalizing prev with
  | nil => trivial
  | cons n ns ih =>
    exact ⟨hk _ (hd n List.mem_cons_self) _ hl.1, ih hl.2 fun m hm => hd m (List.mem_cons_of_mem n hm)⟩

/-- In nodes that do not know the one before them, what is before a segment does not matter. -/
theorem Linked.of_prev (hcell : ∀ d n p q, cell d n p = cell d n q) (hl : Linked cell h prev ns next) (p : Ptr) :
    Linked cell h p ns next := by
  cases ns with
  | nil => trivial
  | cons n ns => exact ⟨hcell _ _ prev p ▸ hl.1, hl.2⟩

/-- Distinct live nodes are no more than there are blocks. -/
theorem Linked.length_le (hl : Linked cell h prev ns next) (hnd : (ns.map Prod.fst).Nodup) :
    ns.length ≤ h.blocks.length := by
  have hsub : ns.map Prod.fst ⊆ List.range h.blocks.length := by
    intro a ha
    obtain ⟨n, hn, rfl⟩ := List.mem_map.mp ha
    obtain ⟨cells, hat⟩ := hl.live hn
    exact List.mem_range.mpr hat.lt
  simpa using (List.subperm_of_subset hnd hsub).length_le

theorem Linked.walk_next {field : Nat} (hcell : ∀ d n p, (cell d n p)[field]? = some (some n))
    (hl : Linked cell h prev xs next) : h.walk field xs.length (firstOf xs next) = (h, next) := by
  induction xs generalizing prev with
  | nil => rfl
  | cons n xs ih =>
    have hload := hl.1.load_of_getElem? (hcell _ _ _)
    simp only [List.length_cons, firstOf_cons, walk, hload]
    exact ih hl.2

theorem Linked.walk_prev {field : Nat} (hcell : ∀ d n p, (cell d n p)[field]? = some (some p))
    (hl : Linked cell h prev ys next) : h.walk field ys.length (lastOf prev ys) = (h, prev) := by
  induction ys using List.reverseRecOn generalizing next with
  | nil => rfl
  | append_singleton ys n ih =>
    obtain ⟨hys, hn, -⟩ := linked_append.mp hl
    have hload := hn.load_of_getElem? (hcell _ _ _)
    simp only [List.length_append, List.length_singleton, lastOf_concat, walk, hload]
    exact ih hys

theorem Linked.track_next {field : Nat} (hcell : ∀ d n p, (cell d n p)[field]? = some (some n))
    (hl : Linked cell h prev ns next) (k : Nat) :
    h.track field (ns.length + k) (firstOf ns next) = ns.map Prod.fst ++ h.track field k next := by
  induction ns generalizing prev with
  | nil => rw [List.length_nil, Nat.zero_add]; rfl
  | cons n ns ih =>
    have hload := hl.1.load_of_getElem? (hcell _ _ _)
    rw [List.length_cons, Nat.add_right_comm, firstOf_cons, track, hload, ih hl.2]
    rfl

theorem Linked.track_prev {field : Nat} (hcell : ∀ d n p, (cell d n p)[field]? = some (some p))
    (hl : Linked cell h prev ns next) (k : Nat) :
    h.track field (ns.length + k) (lastOf prev ns) = (ns.map Prod.fst).reverse ++ h.track field k prev := by
  induction ns using List.reverseRecOn generalizing next with
  | nil => rw [List.length_nil, Nat.zero_add]; rfl
  | append_singleton ns n ih =>
    obtain ⟨hns, hn, -⟩ := linked_append.mp hl
    have hload := hn.load_of_getElem? (hcell _ _ _)
    rw [List.length_append, List.length_singleton, Nat.add_right_comm, lastOf_concat, track, hload, ih hns]
    simp

/-- What is loaded from `p` and then from node to node, as many times as there are nodes. -/
theorem Linked.walk_last {field : Nat} (hcell : ∀ d n p, (cell d n p)[field]? = some (some n))
    (hl : Linked cell h prev xs next) {p : Ptr} (hp : h.load p field = (h, firstOf xs next)) :
    h.walk field xs.length p = (h, lastOf p xs) := by
  induction xs generalizing prev p with
  | nil => rfl
  | cons n xs ih =>
    simp only [List.length_cons, walk, hp]
    exact ih hl.2 (hl.1.load_of_getElem? (hcell _ _ _))

/-- Writing the field that points to the next node, in the last node. -/
theorem Linked.relink_last {field : Nat} (hset : SetsNext cell field) (hl : Linked cell h prev xs next)
    (hnd : (xs.map Prod.fst).Nodup) (hne : xs ≠ []) (q : Ptr) :
    Linked cell (h.store (lastOf prev xs) field q) prev xs q ∧
      KeepsOff (xs.map Prod.fst) h (h.store (lastOf prev xs) field q) := by
  rcases List.eq_nil_or_concat' xs with rfl | ⟨xs, n, rfl⟩
  · exact absurd rfl hne
  · obtain ⟨hxs, hn, -⟩ := linked_append.mp hl
    obtain ⟨hat, hkeep⟩ := hset _ _ _ _ _ hn q
    rw [lastOf_concat]
    simp only [List.map_append, List.map_cons, List.map_nil, List.nodup_append, List.mem_singleton] at hnd
    refine ⟨linked_append.mpr ⟨hxs.keep hkeep fun m hm hmem => ?_, hat, trivial⟩, hkeep.mono ?_⟩
    · exact hnd.2.2 _ (List.mem_map_of_mem hm) _ rfl (List.mem_singleton.mp hmem)
    · simp

end Segments

/-! ### Parts of a segment -/

section Parts
variable {xs ys ns : List (Nat × Ptr)} {a : Nat}

theorem nodup_parts (xs : List (Nat × Ptr)) (hnd : ((xs ++ ys).map Prod.fst).Nodup) :
    (xs.map Prod.fst).Nodup ∧ (ys.map Prod.fst).Nodup ∧ (∀ n ∈ xs, n.1 ∉ ys.map Prod.fst) ∧
      ∀ n ∈ ys, n.1 ∉ xs.map Prod.fst := by
  rw [List.map_append] at hnd
  obtain ⟨hx, hy, hdisj⟩ := List.nodup_append.mp hnd
  exact ⟨hx, hy, fun n hn hmem => hdisj _ (List.mem_map_of_mem hn) _ hmem rfl,
    fun n hn hmem => hdisj _ hmem _ (List.mem_map_of_mem hn) rfl⟩

theorem not_mem_parts (ha : a ∉ (xs ++ ys).map Prod.fst) : a ∉ xs.map Prod.fst ∧ a ∉ ys.map Prod.fst := by
  rw [List.map_append, List.mem_append, not_or] at ha
  exact ha

/-- A node between two parts. -/
theorem nodup_mid (xs : List (Nat × Ptr)) {n : Nat × Ptr} (hnd : ((xs ++ n :: ys).map Prod.fst).Nodup) :
    ((xs ++ ys).map Prod.fst).Nodup ∧ n.1 ∉ xs.map Prod.fst ∧ n.1 ∉ ys.map Prod.fst := by
  rw [List.map_append, List.map_cons, List.perm_middle.nodup_iff, List.nodup_cons, List.mem_append, not_or] at hnd
  rw [List.map_append]
  exact ⟨hnd.2, hnd.1⟩

theorem nodup_insert (xs : List (Nat × Ptr)) {d : Ptr} (hnd : ((xs ++ ys).map Prod.fst).Nodup)
    (ha : a ∉ (xs ++ ys).map Prod.fst) : ((xs ++ (a, d) :: ys).map Prod.fst).Nodup := by
  rw [List.map_append] at hnd ha
  rw [List.map_append, List.map_cons]
  exact List.perm_middle.nodup_iff.mpr (List.nodup_cons.mpr ⟨ha, hnd⟩)

theorem not_mem_singleton_of (ha : a ∉ ns.map Prod.fst) : ∀ n ∈ ns, n.1 ∉ [a] :=
  fun _ hn hmem => ha (List.mem_singleton.mp hmem ▸ List.mem_map_of_mem hn)

theorem exists_split {index : Nat} (hlt : index < ns.length) :
    ∃ xs n ys, ns = xs ++ n :: ys ∧ index = xs.length :=
  ⟨ns.take index, ns[index], ns.drop (index + 1), by rw [← List.drop_eq_getElem_cons hlt, List.take_append_drop],
    by rw [List.length_take]; omega⟩

/-- An index behind the first item, and inside the list, splits it in two parts that are not empty. -/
theorem exists_parted {index : Nat} (hzero : index ≠ 0) (hlt : index < ns.length) :
    ∃ xs ys, ns = xs ++ ys ∧ index = xs.length ∧ xs ≠ [] ∧ ys ≠ [] := by
  have hlen : (ns.take index).length = index := List.length_take_of_le (Nat.le_of_lt hlt)
  refine ⟨_, _, (List.take_append_drop index ns).symm, hlen.symm, fun hnil => ?_, fun hnil => ?_⟩
  · rw [hnil] at hlen
    exact hzero hlen.symm
  · exact absurd (List.drop_eq_nil_iff.mp hnil) (Nat.not_le.mpr hlt)

end Parts

end Heap
