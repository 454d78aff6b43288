import Mathlib.Data.Int.Order.Basic
import Minitalk.Lib.Halving

/-! # Replacing elements by their ranks (`mini_pushswap_hybrid`)

`ok` says which of the three calls of `malloc` succeed; no result of them is looked at, and a null pointer is a block
without cells. The elements are pushed onto a second stack and back, which leaves them as they were. -/

namespace Minitalk.Libft.Sort.MiniPushSwap
open CArray CInt Program

def cmpInt (a b : Int) : Int := wrap (a - b)

/-- The loop of `binary_search_tag`, and the 0 behind it. -/
def searchTag (sorted : List Int) (v : Int) : Nat → Int → Int → Option Int
  | 0, _, _ => none
  | fuel + 1, left, right =>
    if left ≤ right then do
      let mid := (wrap (left + right)).tdiv 2
      let x ← load sorted mid
      if x = v then some mid
      else if x < v then searchTag sorted v fuel (mid + 1) right
      else searchTag sorted v fuel left (mid - 1)
    else some 0

def binarySearchTag (fuel : Nat) (sorted arr : List Int) (size i : Int) : Option (List Int) := do
  store arr i (← searchTag sorted (← load arr i) fuel 0 (size - 1))

/-- `malloc(size * sizeof(int))` -/
def room (ok : Bool) (size : Int) : List (Option Int) := if ok then List.replicate size.toNat none else []

/-- `memcpy(dest, src, size * sizeof(int))` -/
def memcpy (dest : List (Option Int)) (src : List Int) (size : Int) : Option (List (Option Int)) :=
  forUp 0 size (fun i dest => do store dest i (some (← load src i))) dest

/-- `qsort` is what the C library sorts with. The result is the array and `tag_to_value`. -/
def tagArray (qsort : (Int → Int → Int) → List Int → List Int) (ok : Bool) (fuel : Nat) (arr : List Int) (size : Int)
    (tagToValue : List Int) : Option (List Int × List Int) := do
  let sorted ← memcpy (room ok size) arr size
  let sorted := qsort cmpInt (← written sorted)
  let tagToValue ← forUp 0 size (fun i tagToValue => do store tagToValue i (← load sorted i)) tagToValue
  let arr ← forUp 0 size (fun i arr => binarySearchTag fuel sorted arr size i) arr
  some (arr, tagToValue)

/-- The two arrays of `push_elements`, and how many elements each of them has. -/
structure Stacks where
  src : List (Option Int)
  srcSize : Int
  dest : List (Option Int)
  destSize : Int

def pushElements (s : Stacks) : Option Stacks :=
  if s.srcSize = 0 then some s
  else do
    let dest ← forDown s.destSize 0 (fun i dest => do store dest i (some (← (← load dest (i - 1))))) s.dest
    let dest ← store dest 0 (some (← (← load s.src 0)))
    let src ← forUp 0 (s.srcSize - 1) (fun i src => do store src i (some (← (← load src (i + 1))))) s.src
    some { src, srcSize := s.srcSize - 1, dest, destSize := s.destSize + 1 }

/-- `while (*src_size > 0) push_elements(src, src_size, dest, dest_size);` -/
def pushAll (fuel : Nat) (s : Stacks) : Option Stacks :=
  whileLoop (fun s => some (decide (0 < s.srcSize))) pushElements fuel s

def miniPushswapHybrid (qsort : (Int → Int → Int) → List Int → List Int) (ok : Nat → Bool) (fuel : Nat) (arr : List Int)
    (size : Int) (tagToValue : List Int) : Option (List Int × List Int) := do
  let (arr, tagToValue) ← tagArray qsort (ok 0) fuel arr size tagToValue
  let a ← memcpy (room (ok 1) size) arr size
  let s ← pushAll fuel { src := a, srcSize := size, dest := room (ok 2) size, destSize := 0 }
  let s ← pushAll fuel { src := s.dest, srcSize := s.destSize, dest := s.src, destSize := s.srcSize }
  let arr ← forUp 0 size (fun i arr => do store arr i (← (← load s.dest i))) arr
  some (arr, tagToValue)

/-! ### The search -/

theorem searchTag_eq (sorted : List Int) (v : Int) (fuel : Nat) (left right : Int) :
    searchTag sorted v fuel left right = (Halving.search sorted v fuel left right).map (Option.getD · 0) := by
  induction fuel generalizing left right with
  | zero => rfl
  | succ fuel ih =>
    rw [searchTag, Halving.search]
    split
    · cases hx : load sorted ((wrap (left + right)).tdiv 2) with
      | none => simp only [hx, Option.bind_eq_bind, Option.bind_none, Option.map_none]
      | some x =>
        simp only [hx, Option.bind_eq_bind, Option.bind_some]
        split
        · rfl
        · split
          · exact ih _ _
          · exact ih _ _
    · rfl

/-! ### The stacks -/

section Push
variable {n fuel : Nat} {x : Int} {xs ys : List Int} {a b : List (Option Int)}

/-- The first elements of an array are those of a stack. -/
structure Holds (n : Nat) (xs : List Int) (a : List (Option Int)) : Prop where
  length : a.length = n
  fits : xs.length ≤ n
  cells : ∀ k, Inside xs k → get a k = some (get xs k)

theorem get_cons_succ {k : Int} (hk : 0 ≤ k) (x : Int) (xs : List Int) : get (x :: xs) (k + 1) = get xs k := by
  obtain ⟨m, rfl⟩ := Int.eq_ofNat_of_zero_le hk
  rw [get_natCast, show (m : Int) + 1 = ((m + 1 : Nat) : Int) by omega, get_natCast, List.getD_cons_succ]

theorem get_cons_zero (x : Int) (xs : List Int) : get (x :: xs) 0 = x := rfl

/-- The elements move up. -/
theorem shiftUp_ends (h : Holds n ys b) (hroom : ys.length < n) :
    Ends (forDown ys.length 0 (fun i dest => do store dest i (some (← (← load dest (i - 1))))) b) fun c =>
      c.length = n ∧ ∀ k, Inside ys k → get c (k + 1) = some (get ys k) := by
  obtain ⟨hlen, -, hcells⟩ := h
  refine (forDown_rule (fun i (c : List (Option Int)) => c.length = n ∧ (∀ k, 0 ≤ k → k ≤ i → get c k = get b k) ∧
    ∀ k, i ≤ k → k < ys.length → get c (k + 1) = some (get ys k)) (Int.natCast_nonneg _)
    ⟨hlen, fun k _ _ => rfl, fun k hk hk' => by omega⟩ ?_).mono fun c ⟨hlenc, _, hmoved⟩ =>
      ⟨hlenc, fun k hk => hmoved k hk.1 hk.2⟩
  rintro i c hi hi' ⟨hlenc, hsame, hmoved⟩
  have hin : Inside c i := ⟨by omega, by omega⟩
  have hread : load c (i - 1) = some (some (get ys (i - 1))) := by
    rw [load_eq ⟨by omega, by omega⟩, hsame (i - 1) (by omega) (by omega), hcells (i - 1) ⟨by omega, by omega⟩]
  simp only [hread, store_eq hin, Option.bind_eq_bind, Option.bind_some]
  refine .some ⟨(length_put c i _).trans hlenc, fun k hk hk' => ?_, fun k hk hk' => ?_⟩
  · rw [get_put_ne hin (by omega)]
    exact hsame k hk (by omega)
  · rw [get_put hin]
    split
    · rename_i heq
      rw [← heq, Int.add_sub_cancel]
    · exact hmoved k (by omega) hk'

/-- The elements behind the first one move down. -/
theorem shiftDown_ends (h : Holds n (x :: xs) a) :
    Ends (forUp 0 xs.length (fun i src => do store src i (some (← (← load src (i + 1))))) a) (Holds n xs) := by
  obtain ⟨hlen, hfits, hcells⟩ := h
  rw [List.length_cons] at hfits
  refine (forUp_rule (fun i (c : List (Option Int)) => c.length = n ∧ (∀ k, i ≤ k → get c k = get a k) ∧
    ∀ k, 0 ≤ k → k < i → get c k = some (get xs k)) (Int.natCast_nonneg _)
    ⟨hlen, fun k _ => rfl, fun k hk hk' => by omega⟩ ?_).mono fun c ⟨hlenc, _, hmoved⟩ =>
      ⟨hlenc, by omega, fun k hk => hmoved k hk.1 hk.2⟩
  rintro i c hi hi' ⟨hlenc, hsame, hmoved⟩
  have hin : Inside c i := ⟨by omega, by omega⟩
  have hread : load c (i + 1) = some (some (get xs i)) := by
    rw [load_eq ⟨by omega, by omega⟩, hsame (i + 1) (by omega),
      hcells (i + 1) ⟨by omega, by rw [List.length_cons]; omega⟩, get_cons_succ hi]
  simp only [hread, store_eq hin, Option.bind_eq_bind, Option.bind_some]
  refine .some ⟨(length_put c i _).trans hlenc, fun k hk => ?_, fun k hk hk' => ?_⟩
  · rw [get_put_ne hin (by omega)]
    exact hsame k (by omega)
  · rw [get_put hin]
    split
    · rename_i heq
      rw [heq]
    · exact hmoved k hk (by omega)

/-- The top of one stack goes onto the other. -/
theorem pushElements_ends (ha : Holds n (x :: xs) a) (hb : Holds n ys b) (hroom : ys.length < n) :
    ∃ a' b', pushElements { src := a, srcSize := (x :: xs).length, dest := b, destSize := ys.length } =
        some { src := a', srcSize := xs.length, dest := b', destSize := (x :: ys).length } ∧
      Holds n xs a' ∧ Holds n (x :: ys) b' := by
  obtain ⟨c, hup, hlenc, hmoved⟩ := shiftUp_ends hb hroom
  obtain ⟨a', hdown, ha'⟩ := shiftDown_ends ha
  have hfits := ha.fits
  rw [List.length_cons] at hfits
  have htop : load a 0 = some (some x) := by
    rw [load_eq ⟨Int.le_refl 0, by rw [ha.length]; omega⟩,
      ha.cells 0 ⟨Int.le_refl 0, by rw [List.length_cons]; omega⟩, get_cons_zero]
  have hin : Inside c 0 := ⟨Int.le_refl 0, by omega⟩
  have hsize : ((x :: xs).length : Int) - 1 = xs.length := by rw [List.length_cons]; omega
  have hsize' : (ys.length : Int) + 1 = (x :: ys).length := by rw [List.length_cons]; omega
  refine ⟨a', put c 0 (some x), ?_, ha', (length_put c 0 _).trans hlenc, by rw [List.length_cons]; omega,
    fun k hk => ?_⟩
  · rw [pushElements, if_neg (by simp only [List.length_cons]; omega)]
    simp only [hup, hsize, hsize', hdown, htop]
    simp only [store_eq hin, Option.bind_eq_bind, Option.bind_some]
  · rw [get_put hin]
    split
    · rename_i heq
      rw [heq, get_cons_zero]
    · obtain ⟨hk, hk'⟩ := hk
      rw [List.length_cons] at hk'
      have hcell := hmoved (k - 1) ⟨by omega, by omega⟩
      rw [Int.sub_add_cancel] at hcell
      rw [hcell, ← get_cons_succ (show 0 ≤ k - 1 by omega) x ys, Int.sub_add_cancel]

theorem pushAll_ends (ha : Holds n xs a) (hb : Holds n ys b) (hroom : xs.length + ys.length ≤ n)
    (hfuel : xs.length < fuel) :
    ∃ a' b', pushAll fuel { src := a, srcSize := xs.length, dest := b, destSize := ys.length } =
        some { src := a', srcSize := ([] : List Int).length, dest := b', destSize := (xs.reverse ++ ys).length } ∧
      Holds n [] a' ∧ Holds n (xs.reverse ++ ys) b' := by
  induction xs generalizing ys a b fuel with
  | nil =>
    obtain ⟨fuel, rfl, -⟩ := exists_fuel hfuel
    refine ⟨a, b, ?_, ha, hb⟩
    refine whileLoop_stop ?_ pushElements fuel
    rfl
  | cons x xs ih =>
    obtain ⟨fuel, rfl, hle⟩ := exists_fuel hfuel
    rw [List.length_cons] at hroom hle
    obtain ⟨a₁, b₁, hpush, ha₁, hb₁⟩ := pushElements_ends ha hb (by omega)
    obtain ⟨a', b', hrest, ha', hb'⟩ := ih ha₁ hb₁ (by rw [List.length_cons]; omega)
      (show xs.length < fuel by omega)
    have hassoc : (x :: xs).reverse ++ ys = xs.reverse ++ x :: ys := by simp
    rw [hassoc]
    refine ⟨a', b', ?_, ha', hb'⟩
    have hmore : 0 < ((x :: xs).length : Int) := by rw [List.length_cons]; omega
    refine (whileLoop_turn ?_ fuel).trans ?_
    · exact congrArg some (decide_eq_true hmore)
    · rw [hpush]
      exact hrest

end Push

/-! ### The whole -/

section Whole
variable {n fuel : Nat} {arr sorted values : List Int} {qsort : (Int → Int → Int) → List Int → List Int}
  {ok : Nat → Bool}

theorem get_map {β : Type} [Inhabited β] {f : Int → β} {i : Int} (hin : Inside arr i) :
    get (arr.map f) i = f (get arr i) := by
  have hlt : i.toNat < arr.length := by
    obtain ⟨h0, hlt⟩ := hin
    omega
  rw [get_eq_getElem ⟨hin.1, by rw [List.length_map]; exact hin.2⟩ (by rw [List.length_map]; exact hlt),
    List.getElem_map, get_eq_getElem hin hlt]

theorem length_room (n : Nat) : (room true n).length = n := by
  rw [room, if_pos rfl, List.length_replicate, Int.toNat_natCast]

theorem memcpy_eq (arr : List Int) : memcpy (room true arr.length) arr arr.length = some (arr.map some) := by
  have hlen : (room true arr.length).length = (arr.map some).length := by rw [length_room, List.length_map]
  have hcopy : forUp 0 (arr.map some).length (fun i dest => do store dest i (some (← load arr i)))
      (room true arr.length) = some (arr.map some) := forUp_copy hlen fun i b hi hi' => by
    rw [List.length_map] at hi'
    rw [get_map ⟨hi, hi'⟩, load_eq ⟨hi, hi'⟩]
    rfl
  rwa [List.length_map] at hcopy

/-- Nothing can be written through a null pointer. -/
theorem memcpy_null {size : Int} (hpos : 0 < size) (src : List Int) : memcpy (room false size) src size = none := by
  obtain ⟨k, hk⟩ : ∃ k, (size - 0).toNat = k + 1 := ⟨size.toNat - 1, by omega⟩
  rw [memcpy, forUp, hk, turnsUp]
  cases load src 0 with
  | none => rfl
  | some v => rfl

theorem pushAll_null {size : Int} (hpos : 0 < size) (a : List (Option Int)) :
    pushAll fuel { src := a, srcSize := size, dest := room false size, destSize := 0 } = none := by
  cases fuel with
  | zero => rfl
  | succ fuel =>
    have hpush : pushElements { src := a, srcSize := size, dest := room false size, destSize := 0 } = none := by
      rw [pushElements, if_neg (Int.ne_of_gt hpos), forDown, Int.sub_self, Int.toNat_zero, turnsDown]
      simp only [Option.bind_eq_bind, Option.bind_some]
      refine Option.bind_eq_none_iff.mpr fun top _ => Option.bind_eq_none_iff.mpr fun v _ => ?_
      rfl
    refine (whileLoop_turn ?_ fuel).trans ?_
    · exact congrArg some (decide_eq_true hpos)
    · rw [hpush]
      rfl

theorem holds_map (xs : List Int) : Holds xs.length xs (xs.map some) where
  length := List.length_map _
  fits := Nat.le_refl _
  cells _ hk := get_map hk

/-- Pushed onto the other stack and back, the elements are as they were. -/
theorem pushed_back (hfuel : arr.length < fuel) :
    ∃ a b s, pushAll fuel
        { src := arr.map some, srcSize := arr.length, dest := List.replicate arr.length none, destSize := 0 } =
        some { src := a, srcSize := 0, dest := b, destSize := arr.length } ∧
      pushAll fuel { src := b, srcSize := arr.length, dest := a, destSize := 0 } = some s ∧
      Holds arr.length arr s.dest := by
  have hempty : Holds arr.length [] (List.replicate arr.length none) :=
    ⟨List.length_replicate, Nat.zero_le _, fun k hk => by
      obtain ⟨hk, hk'⟩ := hk
      rw [List.length_nil] at hk'
      omega⟩
  obtain ⟨a, b, hrun, ha, hb⟩ := pushAll_ends (holds_map arr) hempty (by simp) hfuel
  rw [List.append_nil] at hrun hb
  obtain ⟨a', b', hrun', -, hb'⟩ := pushAll_ends hb ha (by simp) (by simpa using hfuel)
  rw [List.append_nil, List.reverse_reverse] at hb'
  rw [List.length_reverse] at hrun hrun'
  exact ⟨a, b, _, hrun, hrun', hb'⟩

/-- The sorted elements go to `tag_to_value`. -/
theorem values_ends (hlen : sorted.length ≤ values.length) :
    Ends (forUp 0 sorted.length (fun i t => do store t i (← load sorted i)) values) fun t =>
      t.take sorted.length = sorted ∧ t.drop sorted.length = values.drop sorted.length := by
  refine (forUp_rule (fun i (t : List Int) => t.length = values.length ∧
    (∀ k, 0 ≤ k → k < i → get t k = get sorted k) ∧ ∀ k, i ≤ k → get t k = get values k) (Int.natCast_nonneg _)
    ⟨rfl, fun k hk hk' => by omega, fun k _ => rfl⟩ ?_).mono ?_
  · rintro i t hi hi' ⟨hlent, hdone, hrest⟩
    have hin : Inside t i := ⟨hi, by omega⟩
    rw [load_eq ⟨hi, hi'⟩, Option.bind_eq_bind, Option.bind_some, store_eq hin]
    refine .some ⟨(length_put t i _).trans hlent, fun k hk hk' => ?_, fun k hk => ?_⟩
    · rw [get_put hin]
      split
      · rename_i heq
        rw [heq]
      · exact hdone k hk (by omega)
    · rw [get_put_ne hin (by omega)]
      exact hrest k (by omega)
  · rintro t ⟨hlent, hdone, hrest⟩
    refine ⟨List.ext_getElem (by rw [List.length_take]; omega) fun k hk hk' => ?_,
      List.ext_getElem (by rw [List.length_drop, List.length_drop, hlent]) fun k hk hk' => ?_⟩
    · have hcell := hdone k (Int.natCast_nonneg k) (by omega)
      rw [get_eq_getElem ⟨Int.natCast_nonneg k, by omega⟩ (by omega),
        get_eq_getElem ⟨Int.natCast_nonneg k, by omega⟩ (by omega)] at hcell
      rw [List.getElem_take]
      exact hcell
    · rw [List.length_drop] at hk hk'
      have hcell := hrest ((sorted.length + k : Nat) : Int) (by omega)
      rw [get_eq_getElem ⟨by omega, by omega⟩ (by omega), get_eq_getElem ⟨by omega, by omega⟩ (by omega)] at hcell
      rw [List.getElem_drop, List.getElem_drop]
      exact hcell

/-- Each element is replaced by an index of it in the sorted array. -/
structure Tagged (arr sorted tags : List Int) : Prop where
  length : tags.length = arr.length
  range : ∀ i, Inside arr i → Inside sorted (get tags i)
  value : ∀ i, Inside arr i → get sorted (get tags i) = get arr i
  order : ∀ i j, Inside arr i → Inside arr j → (get tags i < get tags j ↔ get arr i < get arr j)

theorem searchTag_finds (hs : Sorts arr sorted) (hsize : arr.length ≤ 2 ^ 30) (hfuel : arr.length < fuel) {v : Int}
    (hv : v ∈ arr) : ∃ m, searchTag sorted v fuel 0 (arr.length - 1) = some m ∧ Inside sorted m ∧ get sorted m = v := by
  have hlen : sorted.length = arr.length := hs.perm.length_eq
  have hsorted : SortedOn sorted 0 sorted.length := fun i j hi hij hj => get_rel hs.sorted hi hij hj
  obtain ⟨k, hk, rfl⟩ := exists_get (hs.perm.mem_iff.mpr hv)
  have hlt := hk.2
  obtain ⟨m, hm, hfound⟩ := Halving.search_found hsorted (by omega) (Int.le_refl 0) hk.1
    (show k ≤ (arr.length : Int) - 1 by omega) (by omega) (show (arr.length : Int) - 1 + 1 - 0 < fuel by omega)
  exact ⟨m, by rw [searchTag_eq, hm]; rfl, hfound⟩

/-- Each element has one place among the sorted ones. -/
theorem tagged_map (hsorted : SortedOn sorted 0 sorted.length) {f : Int → Int}
    (hf : ∀ v ∈ arr, Inside sorted (f v) ∧ get sorted (f v) = v) : Tagged arr sorted (arr.map f) := by
  have hplace := fun (i : Int) (hin : Inside arr i) => hf _ (get_mem hin)
  refine ⟨List.length_map _, fun i hin => ?_, fun i hin => ?_, fun i j hin hin' => ?_⟩
  · rw [get_map hin]
    exact (hplace i hin).1
  · rw [get_map hin]
    exact (hplace i hin).2
  · obtain ⟨⟨h0, hlt⟩, hget⟩ := hplace i hin
    obtain ⟨⟨h0', hlt'⟩, hget'⟩ := hplace j hin'
    rw [get_map hin, get_map hin']
    constructor
    · intro hless
      have hle := hsorted _ _ h0 hless hlt'
      rw [hget, hget'] at hle
      refine lt_of_le_of_ne hle fun heq => ?_
      rw [heq] at hless
      exact Int.lt_irrefl _ hless
    · intro hless
      refine Int.not_le.mp fun hle => ?_
      rcases Int.lt_or_eq_of_le hle with hgt | heq
      · have hback := hsorted _ _ h0' hgt hlt
        omega
      · rw [heq] at hget'
        omega

theorem tags_ends (hs : Sorts arr sorted) (hsize : arr.length ≤ 2 ^ 30) (hfuel : arr.length < fuel) :
    Ends (forUp 0 arr.length (fun i b => binarySearchTag fuel sorted b arr.length i) arr) (Tagged arr sorted) := by
  have hsorted : SortedOn sorted 0 sorted.length := fun i j hi hij hj => get_rel hs.sorted hi hij hj
  have hmap : forUp 0 arr.length (fun i b => binarySearchTag fuel sorted b arr.length i) arr =
      some (arr.map fun v => (searchTag sorted v fuel 0 (arr.length - 1)).getD 0) := by
    rw [forUp_mapM (f := fun v => searchTag sorted v fuel 0 (arr.length - 1))]
    · refine mapM_some fun v hv => ?_
      obtain ⟨m, hm, -⟩ := searchTag_finds hs hsize hfuel hv
      rw [hm, Option.getD_some]
    · intro i b hin
      rw [binarySearchTag, load_eq hin]
      rfl
  rw [hmap]
  refine .some (tagged_map hsorted fun v hv => ?_)
  obtain ⟨m, hm, hin, hget⟩ := searchTag_finds hs hsize hfuel hv
  rw [hm, Option.getD_some]
  exact ⟨hin, hget⟩

theorem tagArray_ends (hs : Sorts arr (qsort cmpInt arr)) (hsize : arr.length ≤ 2 ^ 30)
    (hvalues : arr.length ≤ values.length) (hfuel : arr.length < fuel) :
    Ends (tagArray qsort true fuel arr arr.length values) fun r => Tagged arr (qsort cmpInt arr) r.1 ∧
      r.2.take arr.length = qsort cmpInt arr ∧ r.2.drop arr.length = values.drop arr.length := by
  have hlen : (qsort cmpInt arr).length = arr.length := hs.perm.length_eq
  have hfilled := values_ends (show (qsort cmpInt arr).length ≤ values.length by omega)
  rw [hlen] at hfilled
  rw [tagArray, memcpy_eq, Option.bind_eq_bind, Option.bind_some, written_map, Option.bind_eq_bind, Option.bind_some]
  refine hfilled.bind fun t ht => ?_
  exact (tags_ends hs hsize hfuel).bind fun tags htags => .some ⟨htags, ht⟩

/-- The elements are no further apart than an `int` can tell. -/
def Comparable (arr : List Int) : Prop := ∀ x ∈ arr, ∀ y ∈ arr, Fits (x - y)

theorem miniPushswapHybrid_ends (hsorts : Sorts arr (qsort cmpInt arr)) (hsize : arr.length ≤ 2 ^ 30)
    (hvalues : arr.length ≤ values.length) (hok : ∀ n < 3, ok n = true) (hfuel : arr.length < fuel) :
    Ends (miniPushswapHybrid qsort ok fuel arr arr.length values) fun r => Tagged arr (qsort cmpInt arr) r.1 ∧
      r.2.take arr.length = qsort cmpInt arr ∧ r.2.drop arr.length = values.drop arr.length := by
  rw [miniPushswapHybrid, hok 0 (by decide), hok 1 (by decide), hok 2 (by decide)]
  refine (tagArray_ends hsorts hsize hvalues hfuel).bind ?_
  rintro ⟨tags, t⟩ ⟨htagged, htake, hdrop⟩
  simp only at htagged htake hdrop
  have hlen : tags.length = arr.length := htagged.length
  obtain ⟨a, b, s, hrun, hrun', hholds⟩ := pushed_back (show tags.length < fuel by omega)
  have hcopy : forUp 0 tags.length (fun i arr => do store arr i (← (← load s.dest i))) tags = some tags :=
    forUp_copy rfl fun i c hi hi' => by
      rw [load_eq ⟨hi, by rw [hholds.length]; exact hi'⟩, hholds.cells i ⟨hi, hi'⟩]
      rfl
  have hroom : room true tags.length = List.replicate tags.length none := by rw [room, if_pos rfl, Int.toNat_natCast]
  simp only [← hlen, memcpy_eq] at hcopy ⊢
  simp only [hroom, Option.bind_eq_bind, Option.bind_some, hrun, hrun']
  refine ⟨(tags, t), ?_, htagged, by rwa [hlen], by rwa [hlen]⟩
  simp only [Option.bind_eq_bind] at hcopy
  rw [hcopy]
  rfl

/-- Without memory for one of the three arrays, it is written through the null pointer. -/
theorem miniPushswapHybrid_null (hne : arr ≠ []) {n : Nat} (hn : n < 3) (hfail : ok n = false) :
    miniPushswapHybrid qsort ok fuel arr arr.length values = none := by
  have hpos := List.length_pos_iff.mpr hne
  have hsize : 0 < (arr.length : Int) := by omega
  rw [miniPushswapHybrid]
  obtain rfl | rfl | rfl : n = 0 ∨ n = 1 ∨ n = 2 := by omega
  · rw [tagArray, hfail, memcpy_null hsize]
    rfl
  · refine Option.bind_eq_none_iff.mpr fun ⟨tags, t⟩ _ => ?_
    simp only [hfail, memcpy_null hsize]
    rfl
  · refine Option.bind_eq_none_iff.mpr fun ⟨tags, t⟩ _ => Option.bind_eq_none_iff.mpr fun a _ => ?_
    rw [hfail, pushAll_null hsize]
    rfl

/-- As long as the subtraction of `cmp_int` does not overflow, the elements go to `tag_to_value` in order, and each of
    them is replaced by an index of it there. So the array is not sorted: its elements compare as before. An allocation
    that fails is not noticed, and memory is written through the null pointer. -/
theorem miniPushswapHybrid_tags (hqsort : ∀ l, (∀ x ∈ l, ∀ y ∈ l, cmpInt x y ≤ 0 ↔ x ≤ y) → Sorts l (qsort cmpInt l))
    (harr : Comparable arr) (hsize : arr.length ≤ 2 ^ 30) (hvalues : arr.length ≤ values.length) :
    ((∀ n < 3, ok n = true) → Halts (fun fuel => miniPushswapHybrid qsort ok fuel arr arr.length values) fun r =>
      Sorts arr (r.2.take arr.length) ∧ r.2.drop arr.length = values.drop arr.length ∧
        Tagged arr (r.2.take arr.length) r.1) ∧
    (arr ≠ [] → (∃ n < 3, ok n = false) → ∀ fuel, miniPushswapHybrid qsort ok fuel arr arr.length values = none) := by
  have hsorts : Sorts arr (qsort cmpInt arr) := hqsort arr fun x hx y hy => by
    rw [cmpInt, wrap_of_fits (harr x hx y hy)]
    omega
  constructor
  · intro hok
    refine ⟨arr.length + 1, fun fuel hfuel => ?_⟩
    refine (miniPushswapHybrid_ends hsorts hsize hvalues hok (by omega)).mono ?_
    rintro r ⟨htagged, htake, hdrop⟩
    rw [htake]
    exact ⟨hsorts, hdrop, htagged⟩
  · rintro hne ⟨n, hn, hfail⟩ fuel
    exact miniPushswapHybrid_null hne hn hfail

theorem miniPushswapHybrid_tags_three :
    Halts (fun fuel => miniPushswapHybrid (fun _ l => l.mergeSort fun x y => decide (x ≤ y)) (fun _ => true) fuel
      [30, -5, 7] ([30, -5, 7] : List Int).length [0, 0, 0]) fun r => Sorts [30, -5, 7] (r.2.take 3) ∧
        r.2.drop 3 = [] ∧ Tagged [30, -5, 7] (r.2.take 3) r.1 :=
  (miniPushswapHybrid_tags (fun l _ => sorts_mergeSort l) (show Comparable [30, -5, 7] by unfold Comparable; decide)
    (by decide) (by decide)).1 fun _ _ => rfl

end Whole

end Minitalk.Libft.Sort.MiniPushSwap
