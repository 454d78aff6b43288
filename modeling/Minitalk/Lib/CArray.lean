import Mathlib.Data.List.Perm.Basic
import Mathlib.Order.Defs.PartialOrder
import Minitalk.Lib.Program

/-! # Arrays that are indexed by an `int`

An access outside of the array has no result. `get` and `put` are what the accesses inside of it do. -/

namespace CArray
open Program
variable {α : Type}

def load (a : List α) (i : Int) : Option α := if 0 ≤ i then a[i.toNat]? else none

def store (a : List α) (i : Int) (v : α) : Option (List α) :=
  if 0 ≤ i ∧ i < a.length then some (a.set i.toNat v) else none

/-- The two cells may be the same. -/
def swap (a : List α) (i j : Int) : Option (List α) := do
  let x ← load a i
  let y ← load a j
  store (← store a i y) j x

def Inside (a : List α) (i : Int) : Prop := 0 ≤ i ∧ i < a.length

def put (a : List α) (i : Int) (v : α) : List α := a.set i.toNat v

/-- The cells from `lo` on that are before `hi`. -/
def segment (a : List α) (lo hi : Int) : List α := (a.drop lo.toNat).take (hi - lo).toNat

/-- The elements of cells that were all written. -/
def written (a : List (Option α)) : Option (List α) := a.mapM id

/-- The first cells were written with these elements. -/
structure Filled (n : Nat) (vs : List α) (a : List (Option α)) : Prop where
  length : a.length = n
  cells : vs.map some <+: a

section Plain
variable {a : List α} {i j lo hi : Int} {v : α}

theorem written_map (vs : List α) : written (vs.map some) = some vs := by
  rw [written]
  induction vs with
  | nil => rfl
  | cons v vs ih =>
    rw [List.map_cons, List.mapM_cons, ih]
    rfl

theorem written_replicate (n : Nat) (v : α) : written (List.replicate n (some v)) = some (List.replicate n v) := by
  rw [← List.map_replicate, written_map]

theorem mapM_none {β : Type} {f : α → Option β} {a : List α} {x : α} (hx : x ∈ a) (hf : f x = none) :
    a.mapM f = none := by
  induction a with
  | nil => cases hx
  | cons y a ih =>
    rw [List.mapM_cons]
    rcases List.mem_cons.mp hx with rfl | hx
    · rw [hf]
      rfl
    · rw [ih hx]
      cases f y with
      | none => rfl
      | some w => rfl

theorem mapM_some {β : Type} {f : α → Option β} {g : α → β} {a : List α} (hf : ∀ x ∈ a, f x = some (g x)) :
    a.mapM f = some (a.map g) := by
  induction a with
  | nil => rfl
  | cons x a ih =>
    rw [List.mapM_cons, hf x List.mem_cons_self, ih fun y hy => hf y (List.mem_cons_of_mem x hy)]
    rfl

theorem written_of_none {a : List (Option α)} (h : none ∈ a) : written a = none := mapM_none h rfl

theorem load_of_lt (hi : i < 0) : load a i = none := if_neg (Int.not_le.mpr hi)

theorem store_eq (hi : Inside a i) (v : α) : store a i v = some (put a i v) := if_pos hi

@[simp] theorem length_put (a : List α) (i : Int) (v : α) : (put a i v).length = a.length := List.length_set

@[simp] theorem inside_put : Inside (put a i v) j ↔ Inside a j := by rw [Inside, Inside, length_put]

theorem length_segment (h0 : 0 ≤ lo) (hle : lo ≤ hi) (hn : hi ≤ a.length) :
    ((segment a lo hi).length : Int) = hi - lo := by
  rw [segment, List.length_take, List.length_drop]
  omega

theorem segment_of_le (h : hi ≤ lo) : segment a lo hi = [] := by
  rw [segment, Int.toNat_of_nonpos (by omega), List.take_zero]

theorem segment_sublist (a : List α) (lo hi : Int) : (segment a lo hi).Sublist a := by
  rw [segment]
  exact (List.take_sublist _ _).trans (List.drop_sublist _ _)

theorem segment_append (h0 : 0 ≤ lo) (hle : lo ≤ i) (hle' : i ≤ hi) :
    segment a lo hi = segment a lo i ++ segment a i hi := by
  have hcount : (hi - lo).toNat = (i - lo).toNat + (hi - i).toNat := by omega
  have hstart : i.toNat = lo.toNat + (i - lo).toNat := by omega
  rw [segment, segment, segment, hcount, List.take_add, List.drop_drop, ← hstart]

theorem segment_all (a : List α) : segment a 0 a.length = a := by
  rw [segment, Int.toNat_zero, List.drop_zero, Int.sub_zero, Int.toNat_natCast, List.take_length]

/-- An array is what is before a range, the range, and what is behind it. -/
theorem segment_split (h0 : 0 ≤ lo) (hle : lo ≤ hi) (hn : hi ≤ a.length) :
    a = segment a 0 lo ++ (segment a lo hi ++ segment a hi a.length) := by
  rw [← segment_append h0 hle hn, ← segment_append (Int.le_refl 0) h0 (Int.le_trans hle hn), segment_all]

end Plain

variable [Inhabited α]

def get (a : List α) (i : Int) : α := (load a i).getD default

def exchange (a : List α) (i j : Int) : List α := put (put a i (get a j)) j (get a i)

/-- Cells from `lo` on that are before `hi` have changed places. -/
structure Rearranged (lo hi : Int) (a b : List α) : Prop where
  perm : b.Perm a
  kept : ∀ i, i < lo ∨ hi ≤ i → get b i = get a i

/-- The cells from `lo` on that are before `hi` are in order. -/
def SortedOn [LE α] (a : List α) (lo hi : Int) : Prop := ∀ i j, lo ≤ i → i < j → j < hi → get a i ≤ get a j

/-- `b` has the elements of `a` in order. -/
structure Sorts [LE α] (a b : List α) : Prop where
  sorted : b.Pairwise (· ≤ ·)
  perm : b.Perm a

/-! ### Single cells -/

section Cells
variable {a : List α} {i j k : Int} {v : α}

theorem load_eq (hi : Inside a i) : load a i = some (get a i) := by
  have hlt : i.toNat < a.length := by
    have := hi.2
    have := hi.1
    omega
  have hload : load a i = some a[i.toNat] := (if_pos hi.1).trans (List.getElem?_eq_getElem hlt)
  rw [get, hload, Option.getD_some]

theorem get_natCast (a : List α) (n : Nat) : get a n = a.getD n default := by
  rw [get, load, if_pos (Int.natCast_nonneg n), Int.toNat_natCast, List.getD_eq_getElem?_getD]

theorem get_put (hi : Inside a i) : get (put a i v) j = if j = i then v else get a j := by
  obtain ⟨hpos, hlt⟩ := hi
  unfold get load put
  by_cases hj : 0 ≤ j
  · rw [if_pos hj, if_pos hj]
    split
    · rename_i heq
      rw [heq, List.getElem?_set_self (by omega)]
      rfl
    · rw [List.getElem?_set_ne (by omega)]
  · rw [if_neg hj, if_neg hj, if_neg (by omega)]

theorem get_put_self (hi : Inside a i) : get (put a i v) i = v := (get_put hi).trans (if_pos rfl)

theorem get_put_ne (hi : Inside a i) (hne : j ≠ i) : get (put a i v) j = get a j := (get_put hi).trans (if_neg hne)

theorem get_exchange (hi : Inside a i) (hj : Inside a j) :
    get (exchange a i j) k = if k = j then get a i else if k = i then get a j else get a k := by
  rw [exchange, get_put (inside_put.mpr hj), get_put hi]

@[simp] theorem length_exchange (a : List α) (i j : Int) : (exchange a i j).length = a.length := by
  rw [exchange, length_put, length_put]

theorem swap_eq (hi : Inside a i) (hj : Inside a j) : swap a i j = some (exchange a i j) := by
  simp only [swap, load_eq hi, load_eq hj, store_eq hi, store_eq (inside_put.mpr hj), Option.bind_eq_bind,
    Option.bind_some, exchange]

theorem get_eq_getElem (hi : Inside a i) (hlt : i.toNat < a.length) : get a i = a[i.toNat] := by
  have hload : load a i = some a[i.toNat] := (if_pos hi.1).trans (List.getElem?_eq_getElem hlt)
  rw [get, hload, Option.getD_some]

theorem exchange_perm (hi : Inside a i) (hj : Inside a j) : (exchange a i j).Perm a := by
  obtain ⟨hi0, hin⟩ := hi
  obtain ⟨hj0, hjn⟩ := hj
  have hi' : i.toNat < a.length := by omega
  have hj' : j.toNat < a.length := by omega
  rw [exchange, put, put, get_eq_getElem ⟨hj0, hjn⟩ hj', get_eq_getElem ⟨hi0, hin⟩ hi']
  exact List.set_set_perm hi' hj'

theorem put_get (hi : Inside a i) : put a i (get a i) = a := by
  obtain ⟨h0, hlt⟩ := hi
  rw [put, get_eq_getElem ⟨h0, hlt⟩ (by omega)]
  exact List.set_getElem_self _

theorem exchange_self (hi : Inside a i) : exchange a i i = a := by rw [exchange, put_get hi, put_get hi]

/-- A value and that of another cell change places. -/
theorem put_put_perm (hi : Inside a i) (hj : Inside a j) (hne : i ≠ j) (v : α) :
    (put (put a i (get a j)) j v).Perm (put a i v) := by
  have hperm := exchange_perm (a := put a i v) (inside_put.mpr hi) (inside_put.mpr hj)
  rw [exchange, get_put_self hi, get_put_ne hi hne.symm] at hperm
  simpa only [put, List.set_set] using hperm

theorem get_mem (hi : Inside a i) : get a i ∈ a := by
  obtain ⟨h0, hlt⟩ := hi
  rw [get_eq_getElem ⟨h0, hlt⟩ (by omega)]
  exact List.getElem_mem _

theorem exists_get (hv : v ∈ a) : ∃ i, Inside a i ∧ get a i = v := by
  obtain ⟨n, hn, rfl⟩ := List.getElem_of_mem hv
  have hin : Inside a n := ⟨Int.natCast_nonneg n, by omega⟩
  exact ⟨n, hin, get_eq_getElem hin hn⟩

theorem get_rel {R : α → α → Prop} (h : a.Pairwise R) (h0 : 0 ≤ i) (hij : i < j) (hj : j < a.length) :
    R (get a i) (get a j) := by
  rw [get_eq_getElem ⟨h0, by omega⟩ (by omega), get_eq_getElem ⟨by omega, hj⟩ (by omega)]
  exact List.pairwise_iff_getElem.mp h _ _ _ _ (by omega)

/-- An array with the same element in each cell. -/
theorem eq_replicate (h : ∀ i : Int, 0 ≤ i → i < a.length → get a i = v) : a = List.replicate a.length v := by
  refine List.eq_replicate_iff.mpr ⟨rfl, fun x hx => ?_⟩
  obtain ⟨i, hin, rfl⟩ := exists_get hx
  exact h i hin.1 hin.2

end Cells

/-! ### Segments -/

section Segments
variable {a b c : List α} {lo hi i j : Int}

theorem segment_cons (h0 : 0 ≤ lo) (hlt : lo < hi) (hn : hi ≤ a.length) :
    segment a lo hi = get a lo :: segment a (lo + 1) hi := by
  have hlen : lo.toNat < a.length := by omega
  have hcount : (hi - lo).toNat = (hi - (lo + 1)).toNat + 1 := by omega
  have hnext : (lo + 1).toNat = lo.toNat + 1 := by omega
  rw [segment, List.drop_eq_getElem_cons hlen, hcount, List.take_succ_cons, segment, hnext,
    get_eq_getElem ⟨h0, by omega⟩ hlen]

theorem mem_segment (h0 : 0 ≤ lo) (hn : hi ≤ a.length) {v : α} :
    v ∈ segment a lo hi ↔ ∃ i, lo ≤ i ∧ i < hi ∧ get a i = v := by
  rw [segment, List.mem_take_iff_getElem]
  constructor
  · rintro ⟨n, hn', rfl⟩
    rw [List.length_drop] at hn'
    refine ⟨lo + n, by omega, by omega, ?_⟩
    rw [List.getElem_drop, get_eq_getElem ⟨by omega, by omega⟩ (by omega)]
    congr 1
    omega
  · rintro ⟨i, hlo, hhi, rfl⟩
    refine ⟨(i - lo).toNat, by rw [List.length_drop]; omega, ?_⟩
    rw [List.getElem_drop, get_eq_getElem ⟨by omega, by omega⟩ (by omega)]
    congr 1
    omega

theorem segment_congr (hlen : a.length = b.length) (h0 : 0 ≤ lo) (hn : hi ≤ a.length)
    (h : ∀ i, lo ≤ i → i < hi → get a i = get b i) : segment a lo hi = segment b lo hi := by
  rcases Int.le_total hi lo with hle | hle
  · rw [segment_of_le hle, segment_of_le hle]
  · have ha := length_segment h0 hle hn
    have hb := length_segment h0 hle (hlen ▸ hn)
    refine List.ext_getElem (by omega) fun n hn' hn'' => ?_
    have hcell := h (lo + n) (by omega) (by omega)
    have hindex : (lo + n).toNat = lo.toNat + n := by omega
    rw [get_eq_getElem ⟨by omega, by omega⟩ (by omega), get_eq_getElem ⟨by omega, by omega⟩ (by omega)] at hcell
    simp only [segment, List.getElem_take, List.getElem_drop]
    simpa only [hindex] using hcell

theorem segment_concat (h0 : 0 ≤ lo) (hle : lo ≤ hi) (hn : hi < a.length) :
    segment a lo (hi + 1) = segment a lo hi ++ [get a hi] := by
  have hlast : segment a hi (hi + 1) = [get a hi] := by
    rw [segment_cons (by omega) (by omega) (by omega), segment_of_le (Int.le_refl (hi + 1))]
  rw [segment_append h0 hle (by omega), hlast]

/-- The cells outside of a range are those before it and those behind it. -/
theorem segments_outside (hlen : b.length = a.length) (h0 : 0 ≤ lo) (hle : lo ≤ hi) (hn : hi ≤ a.length)
    (hkept : ∀ i, i < lo ∨ hi ≤ i → get b i = get a i) :
    segment b 0 lo = segment a 0 lo ∧ segment b hi b.length = segment a hi a.length := by
  refine ⟨segment_congr hlen (Int.le_refl 0) (by omega) fun i _ hi => hkept i (Or.inl hi), ?_⟩
  rw [hlen]
  exact segment_congr hlen (by omega) (by omega) fun i hi _ => hkept i (Or.inr hi)

/-- A cell is written behind a segment. -/
theorem segment_put_concat {v : α} (h0 : 0 ≤ lo) (hle : lo ≤ i) (hi : Inside a i) :
    segment (put a i v) lo (i + 1) = segment a lo i ++ [v] := by
  have hlt := hi.2
  rw [segment_concat h0 hle (by rwa [length_put]), get_put_self hi,
    segment_congr (length_put a i v) h0 (by rw [length_put]; omega) fun k _ hk => get_put_ne hi (by omega)]

/-- A loop that writes each cell once. -/
theorem forUp_copy {vs : List α} {body : Int → List α → Option (List α)} (hlen : a.length = vs.length)
    (hbody : ∀ (i : Int) a, 0 ≤ i → i < vs.length → body i a = store a i (get vs i)) :
    forUp 0 vs.length body a = some vs := by
  have hloop : Ends (forUp 0 vs.length body a) fun b =>
      b.length = vs.length ∧ ∀ j, 0 ≤ j → j < (vs.length : Int) → get b j = get vs j := by
    refine forUp_rule (fun i (b : List α) => b.length = vs.length ∧ ∀ j, 0 ≤ j → j < i → get b j = get vs j)
      (Int.natCast_nonneg vs.length) ⟨hlen, fun j h0 hj => by omega⟩ ?_
    rintro i b hi hi' ⟨hb, hcells⟩
    have hin : Inside b i := ⟨hi, by omega⟩
    rw [hbody i b hi hi', store_eq hin]
    refine .some ⟨(length_put b i _).trans hb, fun j h0 hj => ?_⟩
    rw [get_put hin]
    split
    · rename_i heq
      rw [heq]
    · exact hcells j h0 (by omega)
  obtain ⟨c, hc, hlen', hcells⟩ := hloop
  have hsame : segment c 0 vs.length = segment vs 0 vs.length := segment_congr hlen' (Int.le_refl 0) (by omega) hcells
  rw [segment_all, ← hlen', segment_all] at hsame
  rw [hc, hsame]

/-- A loop that reads each cell once. -/
theorem forUp_foldl {σ : Type} {f : σ → α → σ} {body : Int → σ → Option σ}
    (hbody : ∀ i s, Inside a i → body i s = some (f s (get a i))) (s : σ) :
    forUp 0 a.length body s = some (a.foldl f s) := by
  have hloop : Ends (forUp 0 a.length body s) fun t => t = (segment a 0 a.length).foldl f s := by
    refine forUp_rule (fun i t => t = (segment a 0 i).foldl f s) (Int.natCast_nonneg a.length) ?_ ?_
    · rw [segment_of_le (Int.le_refl 0)]
      rfl
    · rintro i t hi hi' rfl
      rw [hbody i _ ⟨hi, hi'⟩, segment_concat (Int.le_refl 0) hi hi', List.foldl_append]
      exact .some rfl
  obtain ⟨t, ht, rfl⟩ := hloop
  rw [ht, segment_all]

theorem forUp_fill {v : α} {n : Nat} {body : Int → List α → Option (List α)} (hlen : a.length = n)
    (hbody : ∀ (i : Int) a, 0 ≤ i → i < n → body i a = store a i v) : forUp 0 n body a = some (List.replicate n v) := by
  have hsame : ((List.replicate n v).length : Int) = n := by rw [List.length_replicate]
  rw [← hsame]
  refine forUp_copy (hlen.trans List.length_replicate.symm) fun i b hi hi' => ?_
  rw [hbody i b hi (by omega), List.eq_of_mem_replicate (get_mem ⟨hi, hi'⟩)]

theorem get_append_length (xs ys : List α) (v : α) : get (xs ++ v :: ys) xs.length = v := by
  simp [get_natCast]

omit [Inhabited α] in
theorem put_append_length (xs ys : List α) (v w : α) : put (xs ++ v :: ys) xs.length w = xs ++ w :: ys := by
  rw [put, Int.toNat_natCast, List.set_append_right _ _ (Nat.le_refl _), Nat.sub_self, List.set_cons_zero]

omit [Inhabited α] in
theorem inside_append_length (xs ys : List α) (v : α) : Inside (xs ++ v :: ys) xs.length :=
  ⟨Int.natCast_nonneg _, by rw [List.length_append, List.length_cons]; omega⟩

omit [Inhabited α] in
theorem store_append_length (xs ys : List α) (v w : α) : store (xs ++ v :: ys) xs.length w = some (xs ++ w :: ys) := by
  rw [store_eq (inside_append_length xs ys v), put_append_length]

omit [Inhabited α] in
theorem store_append_append (xs ys zs : List α) (v w : α) :
    store (xs ++ (ys ++ v :: zs)) (xs.length + ys.length) w = some (xs ++ (ys ++ w :: zs)) := by
  have hstore := store_append_length (xs ++ ys) zs v w
  rwa [List.append_assoc, List.append_assoc, List.length_append] at hstore

theorem swap_append (xs ys zs : List α) (v w : α) :
    swap (xs ++ v :: (ys ++ w :: zs)) xs.length (xs.length + ys.length + 1) = some (xs ++ w :: (ys ++ v :: zs)) := by
  have hassoc : ∀ v w, xs ++ v :: (ys ++ w :: zs) = (xs ++ v :: ys) ++ w :: zs := fun v w => by
    rw [List.append_assoc, List.cons_append]
  have hlen : ∀ v, (xs.length : Int) + ys.length + 1 = ((xs ++ v :: ys).length : Nat) := fun v => by
    rw [List.length_append, List.length_cons]
    omega
  have hj : Inside (xs ++ v :: (ys ++ w :: zs)) (xs.length + ys.length + 1) := by
    rw [hassoc v w, hlen v]
    exact inside_append_length _ _ _
  have hlast : get (xs ++ v :: (ys ++ w :: zs)) (xs.length + ys.length + 1) = w := by
    rw [hassoc v w, hlen v, get_append_length]
  rw [swap_eq (inside_append_length _ _ _) hj, exchange, hlast, get_append_length, put_append_length, hassoc w w,
    hlen w, put_append_length, hassoc w v]

theorem turnsUp_mapM {f : α → Option α} {body : Int → List α → Option (List α)}
    (hbody : ∀ (i : Int) b, Inside b i → body i b = (f (get b i)).bind (store b i)) (done rest : List α) :
    turnsUp body rest.length done.length (done ++ rest) = (rest.mapM f).map (done ++ ·) := by
  induction rest generalizing done with
  | nil => rfl
  | cons v rest ih =>
    have hin := inside_append_length done rest v
    rw [List.length_cons, turnsUp, hbody _ _ hin, get_append_length, List.mapM_cons]
    cases f v with
    | none => rfl
    | some w =>
      have hnext := ih (done ++ [w])
      rw [List.append_assoc, List.length_append] at hnext
      rw [Option.bind_some, store_eq hin, put_append_length]
      refine hnext.trans ?_
      cases rest.mapM f with
      | none => rfl
      | some ws => exact congrArg some (List.append_assoc _ _ _)

/-- A loop that replaces each cell by what it is mapped to. -/
theorem forUp_mapM {f : α → Option α} {body : Int → List α → Option (List α)}
    (hbody : ∀ (i : Int) b, Inside b i → body i b = (f (get b i)).bind (store b i)) (a : List α) :
    forUp 0 a.length body a = a.mapM f := by
  have hloop := turnsUp_mapM hbody [] a
  rw [forUp, Int.sub_zero, Int.toNat_natCast]
  refine hloop.trans ?_
  cases a.mapM f with
  | none => rfl
  | some b => rfl

end Segments

/-! ### Arrays that are filled from the first cell on -/

section Filled
variable {a : List (Option α)} {vs : List α} {n : Nat} {i : Int}

omit [Inhabited α] in
theorem filled_nil (a : List (Option α)) : Filled a.length [] a := ⟨rfl, List.nil_prefix⟩

omit [Inhabited α] in
theorem Filled.store (h : Filled n vs a) (hroom : vs.length < n) (v : α) :
    Ends (CArray.store a vs.length (some v)) (Filled n (vs ++ [v])) := by
  obtain ⟨hlen, rest, rfl⟩ := h
  rw [List.length_append, List.length_map] at hlen
  obtain ⟨c, rest, rfl⟩ := List.exists_cons_of_length_pos (show 0 < rest.length by omega)
  rw [List.length_cons] at hlen
  have hin : (vs.length : Int) < (vs.map some ++ c :: rest).length := by
    rw [List.length_append, List.length_map, List.length_cons]
    omega
  rw [CArray.store, if_pos ⟨Int.natCast_nonneg _, hin⟩, Int.toNat_natCast]
  refine .some ⟨?_, rest, ?_⟩
  · rw [List.length_set, List.length_append, List.length_map, List.length_cons]
    omega
  · simp

omit [Inhabited α] in
theorem Filled.full (h : Filled n vs a) (hn : vs.length = n) : a = vs.map some := by
  obtain ⟨hlen, rest, rfl⟩ := h
  rw [List.length_append, List.length_map] at hlen
  rw [List.eq_nil_of_length_eq_zero (show rest.length = 0 by omega), List.append_nil]

theorem load_map (hi : Inside vs i) : load (vs.map some) i = some (some (get vs i)) := by
  have hlt : i.toNat < vs.length := by
    obtain ⟨h0, hlt⟩ := hi
    omega
  rw [load, if_pos hi.1, List.getElem?_map, List.getElem?_eq_getElem hlt, get_eq_getElem hi hlt]
  rfl

/-- Cells that are all written are copied. -/
theorem forUp_written {b : List α} (hlen : b.length = vs.length) :
    forUp 0 vs.length (fun i b => do store b i (← (← load (vs.map some) i))) b = some vs := by
  refine forUp_copy hlen fun i b hi hi' => ?_
  rw [load_map ⟨hi, hi'⟩]
  rfl

end Filled

/-! ### Rearrangements -/

section Rearrangements
variable {a b c : List α} {lo hi lo' hi' i j : Int}

namespace Rearranged

theorem refl (lo hi : Int) (a : List α) : Rearranged lo hi a a := ⟨List.Perm.refl a, fun _ _ => rfl⟩

theorem trans (h : Rearranged lo hi a b) (h' : Rearranged lo hi b c) : Rearranged lo hi a c where
  perm := h'.perm.trans h.perm
  kept i hout := (h'.kept i hout).trans (h.kept i hout)

theorem mono (h : Rearranged lo hi a b) (hlo : lo' ≤ lo) (hhi : hi ≤ hi') : Rearranged lo' hi' a b where
  perm := h.perm
  kept i hout := h.kept i (by omega)

theorem length (h : Rearranged lo hi a b) : b.length = a.length := h.perm.length_eq

theorem exchange (hi₁ : Inside a i) (hj : Inside a j) (hi₂ : lo ≤ i ∧ i < hi) (hj₂ : lo ≤ j ∧ j < hi) :
    Rearranged lo hi a (exchange a i j) where
  perm := exchange_perm hi₁ hj
  kept k hout := by rw [get_exchange hi₁ hj, if_neg (by omega), if_neg (by omega)]

/-- The cells within the range are the same ones as before. -/
theorem segment_perm (h : Rearranged lo hi a b) (h0 : 0 ≤ lo) (hle : lo ≤ hi) (hn : hi ≤ a.length) :
    (segment b lo hi).Perm (segment a lo hi) := by
  have hlen := h.length
  obtain ⟨hfront, hback⟩ := segments_outside hlen h0 hle hn h.kept
  have hperm := h.perm
  rw [segment_split h0 hle hn, segment_split h0 hle (by omega : hi ≤ b.length), hfront, hback,
    List.perm_append_left_iff, List.perm_append_right_iff] at hperm
  exact hperm

theorem of_segment (hlen : b.length = a.length) (h0 : 0 ≤ lo) (hle : lo ≤ hi) (hn : hi ≤ a.length)
    (hkept : ∀ i, i < lo ∨ hi ≤ i → get b i = get a i) (hperm : (segment b lo hi).Perm (segment a lo hi)) :
    Rearranged lo hi a b where
  perm := by
    obtain ⟨hfront, hback⟩ := segments_outside hlen h0 hle hn hkept
    rw [segment_split h0 hle hn, segment_split h0 hle (by omega : hi ≤ b.length), hfront, hback]
    exact (hperm.append_right _).append_left _
  kept := hkept

/-- What holds of every cell of the range still does. -/
theorem forall_range (h : Rearranged lo hi a b) (h0 : 0 ≤ lo) (hn : hi ≤ a.length) {P : α → Prop}
    (hall : ∀ i, lo ≤ i → i < hi → P (get a i)) : ∀ i, lo ≤ i → i < hi → P (get b i) := by
  intro i hlo hhi
  have hle : lo ≤ hi := by omega
  have hmem : get b i ∈ segment b lo hi := (mem_segment h0 (by rw [h.length]; exact hn)).mpr ⟨i, hlo, hhi, rfl⟩
  obtain ⟨j, hlo', hhi', heq⟩ := (mem_segment h0 hn).mp ((h.segment_perm h0 hle hn).subset hmem)
  rw [← heq]
  exact hall j hlo' hhi'

end Rearranged

variable [LE α]

theorem SortedOn.mono (h : SortedOn a lo hi) (hlo : lo ≤ lo') (hhi : hi' ≤ hi) : SortedOn a lo' hi' :=
  fun i j hi hij hj => h i j (by omega) hij (by omega)

theorem sortedOn_of_le (h : hi ≤ lo + 1) : SortedOn a lo hi := fun i j hi hij hj => by omega

theorem SortedOn.congr (h : SortedOn a lo hi) (heq : ∀ i, lo ≤ i → i < hi → get b i = get a i) : SortedOn b lo hi :=
  fun i j hi hij hj => by
    rw [heq i hi (by omega), heq j (by omega) hj]
    exact h i j hi hij hj

/-- An array that is in order throughout is a sorted list. -/
theorem SortedOn.pairwise (h : SortedOn a 0 a.length) : a.Pairwise (· ≤ ·) := by
  refine List.pairwise_iff_getElem.mpr fun i j hi hj hij => ?_
  have hle := h i j (Int.natCast_nonneg i) (by omega) (by omega)
  rwa [get_eq_getElem ⟨Int.natCast_nonneg i, by omega⟩ hi, get_eq_getElem ⟨Int.natCast_nonneg j, by omega⟩ hj] at hle

theorem Rearranged.sorts (h : Rearranged lo hi a b) (hs : SortedOn b 0 b.length) : Sorts a b := ⟨hs.pairwise, h.perm⟩

/-- An array of at most one element is sorted. -/
theorem sorts_of_length_le (h : a.length ≤ 1) : Sorts a a :=
  (Rearranged.refl 0 0 a).sorts (sortedOn_of_le (by omega))

theorem sortedOn_iff_pairwise (h0 : 0 ≤ lo) (hn : hi ≤ a.length) :
    SortedOn a lo hi ↔ (segment a lo hi).Pairwise (· ≤ ·) := by
  rcases Int.lt_or_le hi lo with hlt | hle
  · rw [segment_of_le (Int.le_of_lt hlt)]
    exact iff_of_true (sortedOn_of_le (by omega)) List.Pairwise.nil
  · have hlen := length_segment h0 hle hn
    have hcell : ∀ n (hn' : n < (segment a lo hi).length), (segment a lo hi)[n] = get a (lo + n) := by
      intro n hn'
      rw [get_eq_getElem ⟨by omega, by omega⟩ (by omega)]
      simp only [segment, List.getElem_take, List.getElem_drop]
      congr 1
      omega
    rw [List.pairwise_iff_getElem]
    constructor
    · intro h i j hi hj hij
      rw [hcell, hcell]
      exact h _ _ (by omega) (by omega) (by omega)
    · intro h i j hi hij hj
      have hle := h (i - lo).toNat (j - lo).toNat (by omega) (by omega) (by omega)
      rw [hcell, hcell] at hle
      have hi' : lo + ((i - lo).toNat : Int) = i := by omega
      have hj' : lo + ((j - lo).toNat : Int) = j := by omega
      rwa [hi', hj'] at hle

/-- There is one way to put a range in order. -/
theorem Rearranged.sorted_unique {α : Type} [Inhabited α] [PartialOrder α] {a b c : List α} {lo hi : Int}
    (hb : Rearranged lo hi a b) (hc : Rearranged lo hi a c) (h0 : 0 ≤ lo) (hle : lo ≤ hi) (hn : hi ≤ a.length)
    (hbs : SortedOn b lo hi) (hcs : SortedOn c lo hi) : b = c := by
  have hlenb := hb.length
  have hlenc := hc.length
  have hseg : segment b lo hi = segment c lo hi :=
    List.Perm.eq_of_pairwise (fun x y _ _ hxy hyx => le_antisymm hxy hyx)
      ((sortedOn_iff_pairwise h0 (by omega)).mp hbs) ((sortedOn_iff_pairwise h0 (by omega)).mp hcs)
      ((hb.segment_perm h0 hle hn).trans (hc.segment_perm h0 hle hn).symm)
  obtain ⟨hfront, hback⟩ := segments_outside (hlenb.trans hlenc.symm) h0 hle (by omega : hi ≤ c.length)
    fun i hout => (hb.kept i hout).trans (hc.kept i hout).symm
  rw [segment_split h0 hle (by omega : hi ≤ b.length), segment_split h0 hle (by omega : hi ≤ c.length), hfront, hseg,
    hback]

/-- There is one way to sort an array. -/
theorem Sorts.unique {α : Type} [PartialOrder α] {a b c : List α} (hb : Sorts a b) (hc : Sorts a c) : b = c :=
  List.Perm.eq_of_pairwise (fun _ _ _ _ hxy hyx => le_antisymm hxy hyx) hb.sorted hc.sorted (hb.perm.trans hc.perm.symm)

theorem sorts_mergeSort (l : List Int) : Sorts l (l.mergeSort fun x y => decide (x ≤ y)) where
  sorted := by
    refine (List.pairwise_mergeSort (fun x y z hxy hyz => ?_) (fun x y => ?_) l).imp fun h => of_decide_eq_true h
    · exact decide_eq_true (Int.le_trans (of_decide_eq_true hxy) (of_decide_eq_true hyz))
    · simpa using Int.le_total x y
  perm := List.mergeSort_perm l _

end Rearrangements
end CArray
