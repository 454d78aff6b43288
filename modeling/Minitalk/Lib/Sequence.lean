import Minitalk.Lib.CIndex
import Minitalk.Lib.Implementation
import Minitalk.Lib.Linked

/-! # Sequences in linked nodes

A list of nodes is used through its ends, through indices, and through rearrangements of its own (`ε`). When its
functions do with the nodes what they should (`Correct`), it is an implementation of the sequence of the data, as long
as no data is removed at an index beyond `int`. -/

namespace Sequence

inductive Op (ε : Type) where
  | pushFront (data : Ptr)
  | pushBack (data : Ptr)
  | popFront
  | popBack
  | insert (index : Nat) (data : Ptr)
  | remove (index : Nat)
  | removeData (data : Ptr)
  | get (index : Nat)
  | set (index : Nat) (data : Ptr)
  | clear
  | rearrange (e : ε)

inductive Answer where
  | bool (b : Bool)
  | ptr (p : Ptr)
  | unit
deriving DecidableEq

/-- The functions of a list. Those that allocate a node are told whether `malloc` succeeds. -/
structure Functions (σ ε : Type) where
  pushFront : Bool → Ptr → σ → σ × Bool
  pushBack : Bool → Ptr → σ → σ × Bool
  popFront : σ → σ × Ptr
  popBack : σ → σ × Ptr
  insert : Bool → Nat → Ptr → σ → σ × Bool
  remove : Nat → σ → σ × Ptr
  removeData : Ptr → σ → σ × Bool
  get : Nat → σ → σ × Ptr
  set : Nat → Ptr → σ → σ × Bool
  clear : σ → σ
  rearrange : ε → σ → σ

section Operations
variable {σ ε : Type}

def Op.run (f : Functions σ ε) (mallocOk : Bool) (s : σ) : Op ε → σ × Answer
  | .pushFront data => let (s, done) := f.pushFront mallocOk data s; (s, .bool done)
  | .pushBack data => let (s, done) := f.pushBack mallocOk data s; (s, .bool done)
  | .popFront => let (s, data) := f.popFront s; (s, .ptr data)
  | .popBack => let (s, data) := f.popBack s; (s, .ptr data)
  | .insert index data => let (s, done) := f.insert mallocOk index data s; (s, .bool done)
  | .remove index => let (s, data) := f.remove index s; (s, .ptr data)
  | .removeData data => let (s, done) := f.removeData data s; (s, .bool done)
  | .get index => let (s, data) := f.get index s; (s, .ptr data)
  | .set index data => let (s, done) := f.set index data s; (s, .bool done)
  | .clear => (f.clear s, .unit)
  | .rearrange e => (f.rearrange e s, .unit)

/-- The operation on the sequence; `act` is what the rearrangements do. -/
def Op.apply (act : ε → List Ptr → List Ptr) : Op ε → List Ptr → List Ptr
  | .pushFront data, xs => data :: xs
  | .pushBack data, xs => xs ++ [data]
  | .popFront, xs => xs.tail
  | .popBack, xs => xs.dropLast
  | .insert index data, xs => xs.take index ++ data :: xs.drop index
  | .remove index, xs => xs.eraseIdx index
  | .removeData data, xs => xs.erase data
  | .get _, xs => xs
  | .set index data, xs => xs.set index data
  | .clear, _ => []
  | .rearrange e, xs => act e xs

/-- What the operation returns when it is not refused. -/
def Op.answer : Op ε → List Ptr → Answer
  | .popFront, xs => .ptr (xs.head?.getD none)
  | .popBack, xs => .ptr (xs.getLast?.getD none)
  | .remove index, xs | .get index, xs => .ptr (xs[index]?.getD none)
  | .clear, _ | .rearrange _, _ => .unit
  | .pushFront _, _ | .pushBack _, _ | .insert .., _ | .removeData _, _ | .set .., _ => .bool true

/-- The arguments for which an operation is refused, whatever `malloc` does. -/
def Op.Invalid : Op ε → List Ptr → Prop
  | .insert index _, xs => xs.length < index
  | .removeData data, xs => data ∉ xs
  | .set index _, xs => xs.length ≤ index
  | _, _ => False

/-- The functions as an implementation of the sequence: they refuse by returning false. -/
def Functions.implementation (f : Functions σ ε) (act : ε → List Ptr → List Ptr) :
    Implementation σ (List Ptr) (Op ε) Answer where
  run op mallocOk s := op.run f mallocOk s
  apply := Op.apply act
  answer := Op.answer
  Invalid := Op.Invalid
  refusal := .bool false

/-- The data to remove is not found at an index that is no `int`. -/
def Fits (s : σ × List Ptr) (i : Op ε × Bool) : Prop :=
  match i.1 with
  | .removeData data => data ∈ s.2 → s.2.idxOf data < 2 ^ 31
  | _ => True

/-- The nodes of the list hold the sequence. -/
def Refines (H : σ → List (Nat × Ptr) → Prop) (s : σ) (xs : List Ptr) : Prop := ∃ ns, H s ns ∧ ns.map Prod.snd = xs

theorem answer_ne_refusal (op : Op ε) (xs : List Ptr) : op.answer xs ≠ .bool false := by
  cases op <;> simp [Op.answer]

end Operations

/-- What the functions do with a list of these nodes. To insert or remove at an end is to push or to pop. -/
structure Correct {σ ε : Type} (f : Functions σ ε) (act : ε → List Ptr → List Ptr)
    (H : σ → List (Nat × Ptr) → Prop) : Prop where
  pushFront {s ns} (h : H s ns) (data : Ptr) :
    ∃ s' a, f.pushFront true data s = (s', true) ∧ H s' ((a, data) :: ns)
  pushFront_refused (data : Ptr) (s : σ) : f.pushFront false data s = (s, false)
  pushBack {s ns} (h : H s ns) (data : Ptr) :
    ∃ s' a, f.pushBack true data s = (s', true) ∧ H s' (ns ++ [(a, data)])
  pushBack_refused (data : Ptr) (s : σ) : f.pushBack false data s = (s, false)
  popFront {s n ns} (h : H s (n :: ns)) : ∃ s', f.popFront s = (s', n.2) ∧ H s' ns
  popFront_nil {s} (h : H s []) : f.popFront s = (s, none)
  popBack {s n ns} (h : H s (ns ++ [n])) : ∃ s', f.popBack s = (s', n.2) ∧ H s' ns
  popBack_nil {s} (h : H s []) : f.popBack s = (s, none)
  insert_refused {s ns ok index} (h : H s ns) (hbad : ns.length < index ∨ ok = false) (data : Ptr) :
    f.insert ok index data s = (s, false)
  insert_zero (ok : Bool) (data : Ptr) (s : σ) : f.insert ok 0 data s = f.pushFront ok data s
  insert_length {s ns} (h : H s ns) (hne : ns ≠ []) (ok : Bool) (data : Ptr) :
    f.insert ok ns.length data s = f.pushBack ok data s
  insert {s xs ys} (h : H s (xs ++ ys)) (hx : xs ≠ []) (hy : ys ≠ []) (data : Ptr) :
    ∃ s' a, f.insert true xs.length data s = (s', true) ∧ H s' (xs ++ (a, data) :: ys)
  remove_out {s ns index} (h : H s ns) (hle : ns.length ≤ index) : f.remove index s = (s, none)
  remove_zero {s ns} (h : H s ns) (hne : ns ≠ []) : f.remove 0 s = f.popFront s
  remove_last {s n ns} (h : H s (ns ++ [n])) (hne : ns ≠ []) : f.remove ns.length s = f.popBack s
  remove {s xs n ys} (h : H s (xs ++ n :: ys)) (hx : xs ≠ []) (hy : ys ≠ []) :
    ∃ s', f.remove xs.length s = (s', n.2) ∧ H s' (xs ++ ys)
  removeData_absent {s ns data} (h : H s ns) (habsent : data ∉ ns.map Prod.snd) : f.removeData data s = (s, false)
  removeData {s ns data} (h : H s ns) (hmem : data ∈ ns.map Prod.snd)
    (hfound : BitVec.ofNat 32 ((ns.map Prod.snd).idxOf data) ≠ -1) : f.removeData data s =
      ((f.remove (CIndex.toSize (BitVec.ofNat 32 ((ns.map Prod.snd).idxOf data))) s).1, true)
  get {s ns} (h : H s ns) (index : Nat) : f.get index s = (s, (ns.map Prod.snd)[index]?.getD none)
  set {s xs n ys} (h : H s (xs ++ n :: ys)) (data : Ptr) :
    ∃ s', f.set xs.length data s = (s', true) ∧ H s' (xs ++ (n.1, data) :: ys)
  set_refused {s ns index} (h : H s ns) (hle : ns.length ≤ index) (data : Ptr) : f.set index data s = (s, false)
  clear {s ns} (h : H s ns) : H (f.clear s) []
  rearrange {s ns} (h : H s ns) (e : ε) :
    ∃ ns', H (f.rearrange e s) ns' ∧ ns'.map Prod.snd = act e (ns.map Prod.snd)

namespace Correct
variable {σ ε : Type} {f : Functions σ ε} {act : ε → List Ptr → List Ptr} {H : σ → List (Nat × Ptr) → Prop}
  {s : σ} {ns xs ys : List (Nat × Ptr)} {n : Nat × Ptr}

/-! ### Every operation -/

theorem done_of_holds {op : Op ε} {mallocOk : Bool} {s' : σ} {ns' : List (Nat × Ptr)}
    (hvalid : ¬op.Invalid (ns.map Prod.snd)) (hrun : op.run f mallocOk s = (s', op.answer (ns.map Prod.snd)))
    (h : H s' ns') (happly : ns'.map Prod.snd = op.apply act (ns.map Prod.snd)) :
    (f.implementation act).Done (Refines H) op mallocOk s (ns.map Prod.snd) :=
  Or.inr ⟨hvalid, s', hrun, ns', h, happly⟩

theorem pushFront_done (hf : Correct f act H) (h : H s ns) (data : Ptr) (mallocOk : Bool) :
    (f.implementation act).Done (Refines H) (.pushFront data) mallocOk s (ns.map Prod.snd) := by
  cases mallocOk with
  | false => exact Or.inl ⟨by simp only [Functions.implementation, Op.run, hf.pushFront_refused], Or.inr rfl⟩
  | true =>
    obtain ⟨s', a, hrun, hs'⟩ := hf.pushFront h data
    exact done_of_holds id (by simp only [Op.run, hrun, Op.answer]) hs' rfl

theorem pushBack_done (hf : Correct f act H) (h : H s ns) (data : Ptr) (mallocOk : Bool) :
    (f.implementation act).Done (Refines H) (.pushBack data) mallocOk s (ns.map Prod.snd) := by
  cases mallocOk with
  | false => exact Or.inl ⟨by simp only [Functions.implementation, Op.run, hf.pushBack_refused], Or.inr rfl⟩
  | true =>
    obtain ⟨s', a, hrun, hs'⟩ := hf.pushBack h data
    exact done_of_holds id (by simp only [Op.run, hrun, Op.answer]) hs' List.map_append

theorem popFront_done (hf : Correct f act H) (h : H s ns) (mallocOk : Bool) :
    (f.implementation act).Done (Refines H) .popFront mallocOk s (ns.map Prod.snd) := by
  cases ns with
  | nil => exact done_of_holds id (by simp [Op.run, hf.popFront_nil h, Op.answer]) h rfl
  | cons n ns =>
    obtain ⟨s', hrun, hs'⟩ := hf.popFront h
    exact done_of_holds id (by simp [Op.run, hrun, Op.answer]) hs' rfl

theorem popBack_done (hf : Correct f act H) (h : H s ns) (mallocOk : Bool) :
    (f.implementation act).Done (Refines H) .popBack mallocOk s (ns.map Prod.snd) := by
  rcases List.eq_nil_or_concat' ns with rfl | ⟨ns, n, rfl⟩
  · exact done_of_holds id (by simp [Op.run, hf.popBack_nil h, Op.answer]) h rfl
  · obtain ⟨s', hrun, hs'⟩ := hf.popBack h
    exact done_of_holds id (by simp [Op.run, hrun, Op.answer]) hs' (by simp [Op.apply])

theorem insert_done (hf : Correct f act H) (h : H s ns) (index : Nat) (data : Ptr) (mallocOk : Bool) :
    (f.implementation act).Done (Refines H) (.insert index data) mallocOk s (ns.map Prod.snd) := by
  have hlen : (ns.map Prod.snd).length = ns.length := List.length_map _
  by_cases hbad : ns.length < index ∨ mallocOk = false
  · refine Or.inl ⟨by simp only [Functions.implementation, Op.run, hf.insert_refused h hbad], ?_⟩
    exact hbad.imp_left fun hlt => Nat.lt_of_le_of_lt (Nat.le_of_eq hlen) hlt
  obtain ⟨hle, hok⟩ := not_or.mp hbad
  have hvalid : ¬(Op.insert index data : Op ε).Invalid (ns.map Prod.snd) := fun hlt => hle (hlen ▸ hlt)
  obtain rfl := (Bool.not_eq_false mallocOk).mp hok
  by_cases hzero : index = 0
  · subst hzero
    obtain ⟨s', a, hrun, hs'⟩ := hf.pushFront h data
    exact done_of_holds hvalid (by simp only [Op.run, hf.insert_zero, hrun, Op.answer]) hs' rfl
  by_cases hfull : index = ns.length
  · have hne : ns ≠ [] := fun hnil => hzero (by rw [hfull, hnil, List.length_nil])
    subst hfull
    obtain ⟨s', a, hrun, hs'⟩ := hf.pushBack h data
    refine done_of_holds hvalid (by simp only [Op.run, hf.insert_length h hne, hrun, Op.answer]) hs' ?_
    rw [Op.apply, ← hlen, List.take_length, List.drop_length, List.map_append]
    rfl
  · obtain ⟨xs, ys, rfl, rfl, hxs, hys⟩ := Heap.exists_parted hzero (show index < ns.length by omega)
    obtain ⟨s', a, hrun, hs'⟩ := hf.insert h hxs hys data
    refine done_of_holds hvalid (by simp only [Op.run, hrun, Op.answer]) hs' ?_
    rw [Op.apply, List.map_append, List.map_append, List.map_cons,
      List.take_left' (List.length_map Prod.snd), List.drop_left' (List.length_map Prod.snd)]

/-- At the front, at the end or between. -/
theorem remove_holds (hf : Correct f act H) (h : H s (xs ++ n :: ys)) :
    ∃ s', f.remove xs.length s = (s', n.2) ∧ H s' (xs ++ ys) := by
  by_cases hx : xs = []
  · subst hx
    obtain ⟨s', hpop, hs'⟩ := hf.popFront h
    exact ⟨s', (hf.remove_zero h (List.cons_ne_nil n ys)).trans hpop, hs'⟩
  by_cases hy : ys = []
  · subst hy
    obtain ⟨s', hpop, hs'⟩ := hf.popBack h
    exact ⟨s', (hf.remove_last h hx).trans hpop, by rwa [List.append_nil]⟩
  · exact hf.remove h hx hy

theorem remove_done (hf : Correct f act H) (h : H s ns) (index : Nat) (mallocOk : Bool) :
    (f.implementation act).Done (Refines H) (.remove index) mallocOk s (ns.map Prod.snd) := by
  by_cases hlt : index < ns.length
  · obtain ⟨xs, n, ys, rfl, rfl⟩ := Heap.exists_split hlt
    obtain ⟨s', hrun, hs'⟩ := hf.remove_holds h
    refine done_of_holds id (by simp [Op.run, hrun, Op.answer]) hs' ?_
    rw [Op.apply, List.map_append, List.map_append, List.map_cons,
      List.eraseIdx_append_of_length_le (Nat.le_of_eq (List.length_map _)), List.length_map, Nat.sub_self,
      List.eraseIdx_cons_zero]
  · have hle : ns.length ≤ index := Nat.not_lt.mp hlt
    have hnone : (ns.map Prod.snd)[index]? = none := List.getElem?_eq_none (by rwa [List.length_map])
    refine done_of_holds id ?_ h ?_
    · simp only [Op.run, hf.remove_out h hle, Op.answer, hnone, Option.getD_none]
    · rw [Op.apply, List.eraseIdx_of_length_le (by rwa [List.length_map])]

theorem removeData_holds (hf : Correct f act H) (h : H s ns) {data : Ptr} (hmem : data ∈ ns.map Prod.snd)
    (hint : (ns.map Prod.snd).idxOf data < 2 ^ 31) :
    ∃ s' ns', f.removeData data s = (s', true) ∧ H s' ns' ∧ ns'.map Prod.snd = (ns.map Prod.snd).erase data := by
  have hlt := List.idxOf_lt_length_of_mem hmem
  rw [List.length_map] at hlt
  obtain ⟨xs, n, ys, hns, hindex⟩ := Heap.exists_split hlt
  have hfound := CIndex.ofNat_ne_neg_one (show (ns.map Prod.snd).idxOf data < 2 ^ 32 - 1 by omega)
  obtain ⟨s', hremove, hs'⟩ := hf.remove_holds (hns ▸ h)
  refine ⟨s', xs ++ ys, ?_, hs', ?_⟩
  · rw [hf.removeData h hmem hfound, CIndex.toSize_ofNat hint, hindex, hremove]
  · rw [List.erase_eq_eraseIdx_of_idxOf rfl, hindex, hns, List.map_append, List.map_append, List.map_cons]
    rw [List.eraseIdx_append_of_length_le (Nat.le_of_eq (List.length_map _))]
    simp

theorem removeData_done (hf : Correct f act H) (h : H s ns) (data : Ptr) (mallocOk : Bool)
    (hint : data ∈ ns.map Prod.snd → (ns.map Prod.snd).idxOf data < 2 ^ 31) :
    (f.implementation act).Done (Refines H) (.removeData data) mallocOk s (ns.map Prod.snd) := by
  by_cases hmem : data ∈ ns.map Prod.snd
  · obtain ⟨s', ns', hrun, hs', hns'⟩ := hf.removeData_holds h hmem (hint hmem)
    exact done_of_holds (fun hbad => hbad hmem) (by simp only [Op.run, hrun, Op.answer]) hs' hns'
  · exact Or.inl ⟨by simp only [Functions.implementation, Op.run, hf.removeData_absent h hmem], Or.inl hmem⟩

theorem set_done (hf : Correct f act H) (h : H s ns) (index : Nat) (data : Ptr) (mallocOk : Bool) :
    (f.implementation act).Done (Refines H) (.set index data) mallocOk s (ns.map Prod.snd) := by
  by_cases hlt : index < ns.length
  · obtain ⟨xs, n, ys, rfl, rfl⟩ := Heap.exists_split hlt
    obtain ⟨s', hrun, hs'⟩ := hf.set h data
    refine done_of_holds ?_ (by simp only [Op.run, hrun, Op.answer]) hs' ?_
    · rw [Op.Invalid, List.length_map]
      omega
    · simp [Op.apply]
  · have hle : ns.length ≤ index := Nat.not_lt.mp hlt
    refine Or.inl ⟨by simp only [Functions.implementation, Op.run, hf.set_refused h hle], Or.inl ?_⟩
    rwa [← List.length_map Prod.snd] at hle

theorem op_done (hf : Correct f act H) (op : Op ε) {xs : List Ptr} (h : Refines H s xs) (mallocOk : Bool)
    (hfits : Fits (s, xs) (op, mallocOk)) : (f.implementation act).Done (Refines H) op mallocOk s xs := by
  obtain ⟨ns, h, rfl⟩ := h
  cases op with
  | pushFront data => exact hf.pushFront_done h data mallocOk
  | pushBack data => exact hf.pushBack_done h data mallocOk
  | popFront => exact hf.popFront_done h mallocOk
  | popBack => exact hf.popBack_done h mallocOk
  | insert index data => exact hf.insert_done h index data mallocOk
  | remove index => exact hf.remove_done h index mallocOk
  | removeData data => exact hf.removeData_done h data mallocOk hfits
  | get index => exact done_of_holds id (by simp only [Op.run, hf.get h, Op.answer]) h rfl
  | set index data => exact hf.set_done h index data mallocOk
  | clear => exact done_of_holds id rfl (hf.clear h) rfl
  | rearrange e =>
    obtain ⟨ns', hs', happly⟩ := hf.rearrange h e
    exact done_of_holds id rfl hs' happly

/-- In every run that removes no data at an index beyond `int` the nodes hold the sequence, and every operation is
    refused without effect or returns what it does on the sequence. -/
theorem refines_run (hf : Correct f act H) {xs : List Ptr} (h : Refines H s xs) {ops : List (Op ε × Bool)}
    (hfits : (f.implementation act).machine.Meets Fits (s, xs) ops) :
    Refines H ((f.implementation act).machine.run (s, xs) ops).1 ((f.implementation act).machine.run (s, xs) ops).2 ∧
      (f.implementation act).machine.Meets (f.implementation act).Answered (s, xs) ops :=
  Implementation.refines_run answer_ne_refusal (fun _ _ op ok href hfit => hf.op_done op href ok hfit) h hfits

/-! ### Data beyond the indices of an `int` -/

/-- The index of the search is negative, which as a `size_t` is behind the end: nothing is removed, and true is
    returned. -/
theorem removeData_of_far (hf : Correct f act H) {xs : List Ptr} (h : Refines H s xs) {data : Ptr} (hmem : data ∈ xs)
    (hfar : 2 ^ 31 ≤ xs.idxOf data) (hint : xs.idxOf data < 2 ^ 32 - 1) (hlen : xs.length ≤ 2 ^ 63) :
    f.removeData data s = (s, true) := by
  obtain ⟨ns, h, rfl⟩ := h
  rw [List.length_map] at hlen
  have hbig := CIndex.toSize_ofNat_far hfar (by omega)
  rw [hf.removeData h hmem (CIndex.ofNat_ne_neg_one hint), hf.remove_out h (by omega)]

theorem pushBack_run (hf : Correct f act H) {xs : List Ptr} (h : Refines H s xs) (data : Ptr) (k : Nat) :
    ∃ s', (f.implementation act).machine.run (s, xs) (List.replicate k (.pushBack data, true)) =
        (s', xs ++ List.replicate k data) ∧
      Refines H s' (xs ++ List.replicate k data) := by
  have hnext : ∀ k, xs ++ List.replicate k data ++ [data] = xs ++ List.replicate (k + 1) data := by
    intro k
    rw [List.append_assoc, ← List.replicate_succ']
  have hrun := Implementation.run_replicate (I := f.implementation act) (R := Refines H) (.pushBack data) true
    (.bool true) (t := fun k => xs ++ List.replicate k data) (by simp [Functions.implementation]) (fun s k hs => ?_)
    hnext (by simpa using h) k
  · simpa using hrun
  · obtain ⟨ns, hns, hxs⟩ := hs
    obtain ⟨s', a, hpush, hs'⟩ := hf.pushBack hns data
    refine ⟨s', by simp only [Functions.implementation, Op.run, hpush], _, hs', ?_⟩
    rw [List.map_append, hxs]
    exact hnext k

/-- Behind 2^31 null pointers, data that was put there is not removed: the list is longer than the sequence. -/
theorem far_run (hf : Correct f act H) (h : Refines H s []) {k : Nat} (hk : k = 2 ^ 31) {a : Nat} :
    ∃ s' xs ys, (f.implementation act).machine.run (s, []) (List.replicate k (.pushBack none, true) ++
        [(.pushBack (some a), true), (.removeData (some a), true)]) = (s', ys) ∧
      Refines H s' xs ∧ ys.length < xs.length := by
  obtain ⟨s₁, hrun₁, href₁⟩ := hf.pushBack_run h none k
  obtain ⟨s₂, hrun₂, href₂⟩ := hf.pushBack_run href₁ (some a) 1
  have hnot : some a ∉ [] ++ List.replicate k (none : Ptr) := by simp
  have hmem : some a ∈ [] ++ List.replicate k none ++ List.replicate 1 (some a) := by simp
  have hindex : ([] ++ List.replicate k none ++ List.replicate 1 (some a)).idxOf (some a) = k := by
    rw [List.idxOf_append_of_notMem hnot]
    simp
  have hlen : ([] ++ List.replicate k none ++ List.replicate 1 (some a)).length = k + 1 := by simp
  have hremove := hf.removeData_of_far href₂ hmem (by rw [hindex]; omega) (by rw [hindex]; omega) (by rw [hlen]; omega)
  refine ⟨s₂, _, ([] ++ List.replicate k none ++ List.replicate 1 (some a)).erase (some a), ?_, href₂, ?_⟩
  · have hops : [(Op.pushBack (some a), true), (.removeData (some a), true)] =
        List.replicate 1 ((.pushBack (some a), true) : Op ε × Bool) ++ [(.removeData (some a), true)] := rfl
    rw [Machine.run_append, hrun₁, hops, Machine.run_append, hrun₂, Machine.run_cons, Machine.run_nil]
    simp only [Implementation.machine, Functions.implementation, Op.run, hremove, Op.apply]
    rfl
  · rw [List.length_erase_of_mem hmem, hlen]
    omega

end Correct

end Sequence
