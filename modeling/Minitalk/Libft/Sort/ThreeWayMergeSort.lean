import Mathlib.Data.Fin.VecNotation
import Mathlib.Data.Int.Order.Basic
import Minitalk.Lib.CArray
import Minitalk.Lib.CInt
import Minitalk.Lib.Merging

/-! # Three-way merge sort (`three_way_merge_sort`)

`temp` has cells that are not written yet; such a cell is not read. The loops and the recursion have fuel of their
own. -/

namespace Minitalk.Libft.Sort.ThreeWay
open CArray CInt Merging Program

/-! ### `3-way-merge_sort_helpers.c` -/

/-- `temp` and `indices`: those of the three parts, and the one in `temp`. -/
structure Cursors where
  temp : List (Option Int)
  index : Fin 3 → Int
  next : Int

/-- `temp[indices[3]++] = arr[indices[k]++]` -/
def take (arr : List Int) (k : Fin 3) (s : Cursors) : Option Cursors := do
  let temp ← store s.temp s.next (some (← load arr (s.index k)))
  some { temp, index := Function.update s.index k (s.index k + 1), next := s.next + 1 }

/-- `arr[indices[k]] <= arr[indices[m]]` -/
def notGreater (arr : List Int) (s : Cursors) (k m : Fin 3) : Option Bool := do
  some (decide ((← load arr (s.index k)) ≤ (← load arr (s.index m))))

def mergeThreeParts (turns : Nat) (arr : List Int) (last : Fin 3 → Int) (s : Cursors) : Option Cursors :=
  whileLoop
    (fun s => some (decide (s.index 0 ≤ last 0 ∧ s.index 1 ≤ last 1 ∧ s.index 2 ≤ last 2)))
    (fun s => do
      if (← notGreater arr s 0 1) && (← notGreater arr s 0 2) then take arr 0 s
      else if (← notGreater arr s 1 0) && (← notGreater arr s 1 2) then take arr 1 s
      else take arr 2 s) turns s

/-- One of the loops of `merge_remaining_elements`. -/
def mergeParts (turns : Nat) (arr : List Int) (last : Fin 3 → Int) (p q : Fin 3) (s : Cursors) : Option Cursors :=
  whileLoop (fun s => some (decide (s.index p ≤ last p ∧ s.index q ≤ last q)))
    (fun s => do if ← notGreater arr s p q then take arr p s else take arr q s) turns s

def mergeRemainingElements (turns : Nat) (arr : List Int) (last : Fin 3 → Int) (s : Cursors) : Option Cursors := do
  let s ← mergeParts turns arr last 0 1 s
  let s ← mergeParts turns arr last 1 2 s
  mergeParts turns arr last 0 2 s

/-- One of the loops that copy what is left of a part. -/
def copyPart (turns : Nat) (arr : List Int) (last : Fin 3 → Int) (p : Fin 3) (s : Cursors) : Option Cursors :=
  whileLoop (fun s => some (decide (s.index p ≤ last p))) (take arr p) turns s

def mergeAndCopyRemaining (turns : Nat) (arr : List Int) (last : Fin 3 → Int) (s : Cursors) : Option Cursors := do
  let s ← mergeRemainingElements turns arr last s
  let s ← copyPart turns arr last 0 s
  let s ← copyPart turns arr last 1 s
  copyPart turns arr last 2 s

/-- `bounds[0]` is `first`, and the other three bounds are the last indices of the parts. -/
def mergeThreeWay (turns : Nat) (arr : List Int) (temp : List (Option Int)) (first : Int) (last : Fin 3 → Int) :
    Option (List Int × List (Option Int)) := do
  let s ← mergeThreeParts turns arr last { temp, index := ![first, last 0 + 1, last 1 + 1], next := first }
  let s ← mergeAndCopyRemaining turns arr last s
  let arr ← forUp first (last 2 + 1) (fun i arr => do store arr i (← ← load s.temp i)) arr
  some (arr, s.temp)

/-- Both cells of `bounds` are written before each call, and what the call leaves in them is not read. -/
def threeWayMergeSortRec (turns : Nat) :
    Nat → List Int → Int × Int → List (Option Int) → Option (List Int × (Int × Int) × List (Option Int))
  | 0, _, _, _ => none
  | depth + 1, arr, bounds, temp =>
    if bounds.2 - bounds.1 < 1 then some (arr, bounds, temp)
    else do
      let first := bounds.1
      let last := ![bounds.1 + (bounds.2 - bounds.1) / 3, bounds.1 + wrap (2 * (bounds.2 - bounds.1)) / 3, bounds.2]
      let (arr, _, temp) ← threeWayMergeSortRec turns depth arr (first, last 0) temp
      let (arr, _, temp) ← threeWayMergeSortRec turns depth arr (last 0 + 1, last 1) temp
      let (arr, bounds, temp) ← threeWayMergeSortRec turns depth arr (last 1 + 1, last 2) temp
      let (arr, temp) ← mergeThreeWay turns arr temp first last
      some (arr, bounds, temp)

/-! ### `3-way-merge_sort.c` -/

/-- The `malloc` succeeds. -/
def threeWayMergeSort (fuel : Nat) (arr : List Int) (size : Int) : Option (List Int) :=
  if size ≤ 1 then some arr
  else do
    let (arr, _, _) ← threeWayMergeSortRec fuel fuel arr (0, size - 1) (List.replicate size.toNat none)
    some arr

/-! ### The merge -/

section Merge
variable {arr : List Int} {first : Int} {last : Fin 3 → Int} {s : Cursors} {k p q : Fin 3}

/-- What is left of a part. -/
def part (arr : List Int) (last : Fin 3 → Int) (s : Cursors) (k : Fin 3) : List Int :=
  segment arr (s.index k) (last k + 1)

def parts (arr : List Int) (last : Fin 3 → Int) (s : Cursors) : List (List Int) :=
  [part arr last s 0, part arr last s 1, part arr last s 2]

/-- Nothing is left of a part. -/
def Empty (last : Fin 3 → Int) (s : Cursors) (k : Fin 3) : Prop := last k < s.index k

/-- `temp` has the elements that went out, from `first` on. -/
structure State (arr : List Int) (first : Int) (last : Fin 3 → Int) (s : Cursors) (out : List Int) : Prop where
  length : s.temp.length = arr.length
  inside : ∀ k, 0 ≤ s.index k ∧ s.index k ≤ last k + 1 ∧ last k < arr.length
  start : 0 ≤ first ∧ first ≤ last 2 + 1
  cursor : s.next = first + out.length
  written : segment s.temp first s.next = out.map some
  merges : Merges out (parts arr last s) (segment arr first (last 2 + 1))

theorem part_cons (hk : s.index k ≤ last k) (h0 : 0 ≤ s.index k) (hlen : last k < arr.length) :
    part arr last s k = get arr (s.index k) :: segment arr (s.index k + 1) (last k + 1) :=
  segment_cons h0 (by omega) (by omega)

theorem part_eq_nil : Empty last s k → part arr last s k = [] := fun h => segment_of_le (Int.add_one_le_of_lt h)

/-- A part among the three. -/
theorem parts_split (arr : List Int) (last : Fin 3 → Int) (s : Cursors) (k : Fin 3) :
    ∃ pre post, parts arr last s = pre ++ part arr last s k :: post ∧
      ∀ s' v, s'.index = Function.update s.index k v → parts arr last s' = pre ++ part arr last s' k :: post := by
  match k with
  | 0 => exact ⟨[], [part arr last s 1, part arr last s 2], rfl, fun s' v h => by simp [parts, part, h]⟩
  | 1 => exact ⟨[part arr last s 0], [part arr last s 2], rfl, fun s' v h => by simp [parts, part, h]⟩
  | 2 => exact ⟨[part arr last s 0, part arr last s 1], [], rfl, fun s' v h => by simp [parts, part, h]⟩

/-- The first element of a part that is left is the one at its index. -/
theorem State.head {out q : List Int} {y : Int} (h : State arr first last s out) (hq : q ∈ parts arr last s)
    (hy : q.head? = some y) : ∃ m, s.index m ≤ last m ∧ y = get arr (s.index m) := by
  obtain ⟨m, rfl⟩ : ∃ m, q = part arr last s m := by
    simp only [parts, List.mem_cons, List.not_mem_nil, or_false] at hq
    rcases hq with rfl | rfl | rfl
    · exact ⟨0, rfl⟩
    · exact ⟨1, rfl⟩
    · exact ⟨2, rfl⟩
  obtain ⟨h0, -, hlen⟩ := h.inside m
  rcases Int.lt_or_le (last m) (s.index m) with hlt | hle
  · rw [part_eq_nil hlt] at hy
    cases hy
  · rw [part_cons hle h0 hlen] at hy
    exact ⟨m, hle, (Option.some.inj hy).symm⟩

/-- There is room in `temp` for what is left. -/
theorem State.room {out : List Int} (h : State arr first last s out) (hk : s.index k ≤ last k) : s.next ≤ last 2 := by
  obtain ⟨h0, -, hlen⟩ := h.inside k
  obtain ⟨pre, post, hparts, -⟩ := parts_split arr last s k
  have htotal := length_segment h.start.1 h.start.2 (Int.add_one_le_of_lt (h.inside 2).2.2)
  have hperm := h.merges.perm.length_eq
  rw [hparts, part_cons hk h0 hlen] at hperm
  simp only [List.length_append, List.flatten_append, List.flatten_cons, List.cons_append, List.length_cons] at hperm
  rw [h.cursor]
  omega

/-- What a turn of any of the loops does. -/
structure Taken (last : Fin 3 → Int) (s s' : Cursors) : Prop where
  empty : ∀ k, Empty last s k → Empty last s' k
  less : (last 2 + 1 - s'.next).toNat < (last 2 + 1 - s.next).toNat

/-- The smallest head goes out. -/
theorem State.take {out : List Int} (h : State arr first last s out) (hk : s.index k ≤ last k)
    (hmin : ∀ m, s.index m ≤ last m → get arr (s.index k) ≤ get arr (s.index m)) :
    Ends (take arr k s) fun s' => State arr first last s' (out ++ [get arr (s.index k)]) ∧ Taken last s s' := by
  have hroom := h.room hk
  obtain ⟨hlength, hinside, hstart, hcursor, hwritten, hmerges⟩ := id h
  obtain ⟨h0, -, hlen⟩ := hinside k
  have hlen₂ := (hinside 2).2.2
  have hin : Inside arr (s.index k) := ⟨h0, by omega⟩
  have hin' : Inside s.temp s.next := ⟨by omega, by omega⟩
  obtain ⟨pre, post, hparts, hparts'⟩ := parts_split arr last s k
  simp only [ThreeWay.take, load_eq hin, store_eq hin', Option.bind_eq_bind, Option.bind_some]
  refine .some ⟨⟨(length_put _ _ _).trans hlength, fun m => ?_, hstart, ?_, ?_, ?_⟩, fun m hm => ?_, ?_⟩
  · by_cases hmk : m = k
    · simp only [hmk, Function.update_self]
      omega
    · simp only [Function.update_of_ne hmk]
      exact hinside m
  · simp only [List.length_append, List.length_singleton, hcursor]
    omega
  · rw [segment_put_concat hstart.1 (by omega) hin', hwritten, List.map_append]
    rfl
  · rw [hparts' _ _ rfl]
    simp only [part, Function.update_self]
    rw [hparts, part_cons hk h0 hlen] at hmerges
    refine hmerges.take fun q hq y hy => ?_
    rw [← part_cons hk h0 hlen, ← hparts] at hq
    obtain ⟨m, hm, rfl⟩ := h.head hq hy
    exact hmin m hm
  · unfold Empty at hm ⊢
    by_cases hmk : m = k
    · rw [hmk] at hm
      omega
    · simpa only [Function.update_of_ne hmk] using hm
  · simp only
    omega

/-! ### The loops -/

/-- What a run of a loop from `s` to `s'` keeps. -/
structure Continues (arr : List Int) (first : Int) (last : Fin 3 → Int) (s s' : Cursors) : Prop where
  state : ∃ out, State arr first last s' out
  empty : ∀ k, Empty last s k → Empty last s' k
  next : s.next ≤ s'.next

theorem Continues.trans {s' s'' : Cursors} (h : Continues arr first last s s') (h' : Continues arr first last s' s'') :
    Continues arr first last s s'' :=
  ⟨h'.state, fun k hk => h'.empty k (h.empty k hk), Int.le_trans h.next h'.next⟩

/-- A turn reads the heads of two parts. -/
theorem State.notGreater_eq {out : List Int} (h : State arr first last s out) (hp : s.index p ≤ last p)
    (hq : s.index q ≤ last q) :
    notGreater arr s p q = some (decide (get arr (s.index p) ≤ get arr (s.index q))) := by
  have hinp := h.inside p
  have hinq := h.inside q
  rw [notGreater, load_eq ⟨hinp.1, by omega⟩, load_eq ⟨hinq.1, by omega⟩]
  rfl

/-- The rule of the loops: each turn takes a smallest head. -/
theorem loop_ends {cond : Cursors → Bool} {body : Cursors → Option Cursors} {turns : Nat}
    (hturns : (last 2 + 1 - s.next).toNat < turns) (h : ∃ out, State arr first last s out)
    (hbody : ∀ s' out, State arr first last s' out → Continues arr first last s s' → cond s' = true →
      ∃ k, body s' = take arr k s' ∧ s'.index k ≤ last k ∧
        ∀ m, s'.index m ≤ last m → get arr (s'.index k) ≤ get arr (s'.index m)) :
    Ends (whileLoop (fun s => some (cond s)) body turns s) fun s' =>
      Continues arr first last s s' ∧ cond s' = false := by
  refine whileLoop_rule (Continues arr first last s) (fun s => (last 2 + 1 - s.next).toNat) hturns
    ⟨h, fun k hk => hk, Int.le_refl _⟩ fun s' hcont => .some ?_
  cases hcond : cond s' with
  | false => exact ⟨hcont, rfl⟩
  | true =>
    obtain ⟨out, hstate⟩ := hcont.state
    obtain ⟨k, hk, hle, hmin⟩ := hbody s' out hstate hcont hcond
    rw [if_pos rfl, hk]
    refine (hstate.take hle hmin).mono fun s'' ⟨hstate', htaken⟩ => ?_
    have hless := htaken.less
    exact ⟨hcont.trans ⟨⟨_, hstate'⟩, htaken.empty, by omega⟩, hless⟩

section Loops
variable {turns : Nat}

/-- The first loop ends with an empty part. -/
theorem mergeThreeParts_ends (hturns : (last 2 + 1 - s.next).toNat < turns)
    (h : ∃ out, State arr first last s out) :
    Ends (mergeThreeParts turns arr last s) fun s' => Continues arr first last s s' ∧ ∃ k, Empty last s' k := by
  refine (loop_ends hturns h ?_).mono fun s' ⟨hcont, hcond⟩ => ⟨hcont, ?_⟩
  · intro s' out hstate _ hcond
    obtain ⟨h0, h1, h2⟩ := of_decide_eq_true hcond
    simp only [hstate.notGreater_eq h0 h1, hstate.notGreater_eq h0 h2, hstate.notGreater_eq h1 h0,
      hstate.notGreater_eq h1 h2, Option.bind_eq_bind, Option.bind_some, Bool.and_eq_true, decide_eq_true_eq]
    split
    · rename_i hle
      refine ⟨0, rfl, h0, fun m _ => ?_⟩
      match m with
      | 0 => exact Int.le_refl _
      | 1 => exact hle.1
      | 2 => exact hle.2
    · rename_i hle
      split
      · rename_i hle'
        refine ⟨1, rfl, h1, fun m _ => ?_⟩
        match m with
        | 0 => exact hle'.1
        | 1 => exact Int.le_refl _
        | 2 => exact hle'.2
      · refine ⟨2, rfl, h2, fun m _ => ?_⟩
        match m with
        | 0 => omega
        | 1 => omega
        | 2 => exact Int.le_refl _
  · have hnot := of_decide_eq_false hcond
    by_contra hnone
    refine hnot ⟨?_, ?_, ?_⟩ <;> exact Int.not_lt.mp fun hlt => hnone ⟨_, hlt⟩

/-- Two parts are merged, where one of the three is empty. -/
theorem mergeParts_ends (p q : Fin 3) (hne : p ≠ q) (hturns : (last 2 + 1 - s.next).toNat < turns)
    (h : ∃ out, State arr first last s out) (hempty : ∃ k, Empty last s k) :
    Ends (mergeParts turns arr last p q s) fun s' =>
      Continues arr first last s s' ∧ (Empty last s' p ∨ Empty last s' q) := by
  refine (loop_ends hturns h ?_).mono fun s' ⟨hcont, hcond⟩ => ⟨hcont, ?_⟩
  · intro s' out hstate hcont hcond
    obtain ⟨hp, hq⟩ := of_decide_eq_true hcond
    -- the third part is the empty one
    obtain ⟨k, hk⟩ := hempty
    have hk' := hcont.empty k hk
    have hothers : ∀ m, s'.index m ≤ last m → m = p ∨ m = q := fun m hm => by
      have hmk : m ≠ k := fun heq => by
        rw [heq] at hm
        exact absurd hk' (Int.not_lt.mpr hm)
      have hpk : p ≠ k := fun heq => absurd (heq ▸ hk') (Int.not_lt.mpr hp)
      have hqk : q ≠ k := fun heq => absurd (heq ▸ hk') (Int.not_lt.mpr hq)
      omega
    simp only [hstate.notGreater_eq hp hq, Option.bind_eq_bind, Option.bind_some, decide_eq_true_eq]
    split
    · rename_i hle
      refine ⟨p, rfl, hp, fun m hm => ?_⟩
      rcases hothers m hm with rfl | rfl
      · exact Int.le_refl _
      · exact hle
    · rename_i hle
      refine ⟨q, rfl, hq, fun m hm => ?_⟩
      rcases hothers m hm with rfl | rfl
      · exact Int.le_of_lt (Int.not_le.mp hle)
      · exact Int.le_refl _
  · have hnot := of_decide_eq_false hcond
    unfold Empty
    omega

/-- What is left of a part is copied, where no two are left. -/
theorem copyPart_ends (p : Fin 3) (hturns : (last 2 + 1 - s.next).toNat < turns)
    (h : ∃ out, State arr first last s out) (hempty : ∀ k, k ≠ p → Empty last s p ∨ Empty last s k) :
    Ends (copyPart turns arr last p s) fun s' => Continues arr first last s s' ∧ Empty last s' p := by
  refine (loop_ends hturns h ?_).mono fun s' ⟨hcont, hcond⟩ => ⟨hcont, Int.not_le.mp (of_decide_eq_false hcond)⟩
  intro s' out hstate hcont hcond
  have hp := of_decide_eq_true hcond
  refine ⟨p, rfl, hp, fun m hm => ?_⟩
  by_cases hmp : m = p
  · rw [hmp]
  · rcases hempty m hmp with hnone | hnone
    · exact absurd (hcont.empty p hnone) (Int.not_lt.mpr hp)
    · exact absurd (hcont.empty m hnone) (Int.not_lt.mpr hm)

/-- After the loops over two parts, no two parts are left. -/
theorem mergeRemainingElements_ends (hturns : (last 2 + 1 - s.next).toNat < turns)
    (h : ∃ out, State arr first last s out) (hempty : ∃ k, Empty last s k) :
    Ends (mergeRemainingElements turns arr last s) fun s' =>
      Continues arr first last s s' ∧ ∀ p q, p ≠ q → Empty last s' p ∨ Empty last s' q := by
  refine (mergeParts_ends 0 1 (by decide) hturns h hempty).bind fun s₁ ⟨h₁, hempty₁⟩ => ?_
  have hturns₁ := h₁.next
  have hsome₁ := hempty.imp h₁.empty
  refine (mergeParts_ends 1 2 (by decide) (by omega) h₁.state hsome₁).bind fun s₂ ⟨h₂, hempty₂⟩ => ?_
  have hturns₂ := h₂.next
  refine (mergeParts_ends 0 2 (by decide) (by omega) h₂.state (hsome₁.imp h₂.empty)).mono fun s₃ ⟨h₃, hempty₃⟩ => ?_
  have h01 := (hempty₁.imp (h₂.empty 0) (h₂.empty 1)).imp (h₃.empty 0) (h₃.empty 1)
  have h12 := hempty₂.imp (h₃.empty 1) (h₃.empty 2)
  refine ⟨(h₁.trans h₂).trans h₃, fun p q hne => ?_⟩
  match p, q with
  | 0, 0 | 1, 1 | 2, 2 => exact absurd rfl hne
  | 0, 1 => exact h01
  | 1, 0 => exact h01.symm
  | 1, 2 => exact h12
  | 2, 1 => exact h12.symm
  | 0, 2 => exact hempty₃
  | 2, 0 => exact hempty₃.symm

/-- All three parts go out. -/
theorem mergeAndCopyRemaining_ends (hturns : (last 2 + 1 - s.next).toNat < turns)
    (h : ∃ out, State arr first last s out) (hempty : ∃ k, Empty last s k) :
    Ends (mergeAndCopyRemaining turns arr last s) fun s' =>
      Continues arr first last s s' ∧ ∀ k, Empty last s' k := by
  refine (mergeRemainingElements_ends hturns h hempty).bind fun s₁ ⟨h₁, hpair⟩ => ?_
  have hturns₁ := h₁.next
  refine (copyPart_ends 0 (by omega) h₁.state fun k hk => hpair 0 k hk.symm).bind fun s₂ ⟨h₂, hempty₂⟩ => ?_
  have hturns₂ := h₂.next
  refine (copyPart_ends 1 (by omega) h₂.state fun k hk => (hpair 1 k hk.symm).imp (h₂.empty 1) (h₂.empty k)).bind
    fun s₃ ⟨h₃, hempty₃⟩ => ?_
  have hturns₃ := h₃.next
  refine (copyPart_ends 2 (by omega) h₃.state fun k hk => ((hpair 2 k hk.symm).imp (h₂.empty 2) (h₂.empty k)).imp
    (h₃.empty 2) (h₃.empty k)).mono fun s₄ ⟨h₄, hempty₄⟩ => ?_
  refine ⟨((h₁.trans h₂).trans h₃).trans h₄, fun k => ?_⟩
  match k with
  | 0 => exact h₄.empty 0 (h₃.empty 0 hempty₂)
  | 1 => exact h₄.empty 1 hempty₃
  | 2 => exact hempty₄

end Loops

/-- Before the merge nothing went out. -/
theorem state_start {temp : List (Option Int)} (h0 : 0 ≤ first) (hle₀ : first ≤ last 0 + 1) (hle₁ : last 0 ≤ last 1)
    (hle₂ : last 1 ≤ last 2) (hlen : last 2 < arr.length) (htemp : temp.length = arr.length)
    (hs₀ : SortedOn arr first (last 0 + 1)) (hs₁ : SortedOn arr (last 0 + 1) (last 1 + 1))
    (hs₂ : SortedOn arr (last 1 + 1) (last 2 + 1)) :
    State arr first last { temp, index := ![first, last 0 + 1, last 1 + 1], next := first } [] where
  length := htemp
  inside k := by
    match k with
    | 0 => exact ⟨h0, hle₀, by omega⟩
    | 1 => exact ⟨show 0 ≤ last 0 + 1 by omega, show last 0 + 1 ≤ last 1 + 1 by omega, by omega⟩
    | 2 => exact ⟨show 0 ≤ last 1 + 1 by omega, show last 1 + 1 ≤ last 2 + 1 by omega, hlen⟩
  start := ⟨h0, by omega⟩
  cursor := (Int.add_zero first).symm
  written := segment_of_le (Int.le_refl first)
  merges :=
    { sorted := List.Pairwise.nil
      ordered := fun q hq => by
        simp only [parts, List.mem_cons, List.not_mem_nil, or_false] at hq
        rcases hq with rfl | rfl | rfl
        · exact (sortedOn_iff_pairwise h0 (by omega)).mp hs₀
        · exact (sortedOn_iff_pairwise (show 0 ≤ last 0 + 1 by omega) (by omega)).mp hs₁
        · exact (sortedOn_iff_pairwise (show 0 ≤ last 1 + 1 by omega) (by omega)).mp hs₂
      before := fun x hx => by cases hx
      perm := by
        rw [segment_append h0 hle₀ (by omega : last 0 + 1 ≤ last 2 + 1),
          segment_append (by omega : 0 ≤ last 0 + 1) (by omega : last 0 + 1 ≤ last 1 + 1) (by omega)]
        simp only [parts, List.flatten_cons, List.flatten_nil, List.append_nil, List.nil_append]
        exact List.Perm.refl _ }

/-- `arr[i] = temp[i]` for the cells from `first` on that are before `stop`. -/
theorem copyBack_ends {temp : List (Option Int)} {out : List Int} {stop : Int} (h0 : 0 ≤ first) (hle : first ≤ stop)
    (hlen : stop ≤ arr.length) (htemp : temp.length = arr.length) (hout : segment temp first stop = out.map some) :
    Ends (forUp first stop (fun i arr => do store arr i (← ← load temp i)) arr) fun b =>
      b.length = arr.length ∧ (∀ k, k < first ∨ stop ≤ k → get b k = get arr k) ∧ segment b first stop = out := by
  refine (forUp_rule (fun i b => b.length = arr.length ∧ (∀ k, k < first ∨ stop ≤ k → get b k = get arr k) ∧
    (segment b first i).map some = segment temp first i) hle ⟨rfl, fun _ _ => rfl, ?_⟩ ?_).mono ?_
  · rw [segment_of_le (Int.le_refl first), segment_of_le (Int.le_refl first)]
    rfl
  · rintro i b hi hstop ⟨hb, hkept, hseg⟩
    have hin : Inside temp i := ⟨by omega, by omega⟩
    have hin' : Inside b i := ⟨by omega, by omega⟩
    obtain ⟨v, hv⟩ : ∃ v, get temp i = some v := by
      have hmem : get temp i ∈ segment temp first stop := (mem_segment h0 (by omega)).mpr ⟨i, hi, hstop, rfl⟩
      rw [hout] at hmem
      obtain ⟨v, -, hv⟩ := List.mem_map.mp hmem
      exact ⟨v, hv.symm⟩
    simp only [load_eq hin, hv, store_eq hin', Option.bind_eq_bind, Option.bind_some]
    refine .some ⟨(length_put b i v).trans hb, fun k hk => ?_, ?_⟩
    · rw [get_put_ne hin' (by omega)]
      exact hkept k hk
    · rw [segment_put_concat h0 hi hin', List.map_append, hseg, segment_concat h0 hi hin.2, hv]
      rfl
  · rintro b ⟨hb, hkept, hseg⟩
    refine ⟨hb, hkept, ?_⟩
    rw [hout] at hseg
    exact (List.map_injective_iff.mpr (Option.some_injective _)) hseg

/-- The merged part is in order, and has the elements of the three parts. -/
theorem mergeThreeWay_sorts {temp : List (Option Int)} {turns : Nat} (h0 : 0 ≤ first) (hle₀ : first ≤ last 0 + 1)
    (hle₁ : last 0 ≤ last 1) (hle₂ : last 1 ≤ last 2) (hlen : last 2 < arr.length) (htemp : temp.length = arr.length)
    (hs₀ : SortedOn arr first (last 0 + 1)) (hs₁ : SortedOn arr (last 0 + 1) (last 1 + 1))
    (hs₂ : SortedOn arr (last 1 + 1) (last 2 + 1)) (hturns : (last 2 + 1 - first).toNat < turns) :
    Ends (mergeThreeWay turns arr temp first last) fun r =>
      Rearranged first (last 2 + 1) arr r.1 ∧ SortedOn r.1 first (last 2 + 1) ∧ r.2.length = temp.length := by
  have hstart := state_start h0 hle₀ hle₁ hle₂ hlen htemp hs₀ hs₁ hs₂
  refine (mergeThreeParts_ends hturns ⟨[], hstart⟩).bind fun s₁ ⟨h₁, hempty⟩ => ?_
  have hnext : first ≤ s₁.next := h₁.next
  refine (mergeAndCopyRemaining_ends (by omega) h₁.state hempty).bind fun s₂ ⟨h₂, hall⟩ => ?_
  obtain ⟨out, hstate⟩ := h₂.state
  have hout : out.Perm (segment arr first (last 2 + 1)) := hstate.merges.done fun q hq => by
    simp only [parts, List.mem_cons, List.not_mem_nil, or_false] at hq
    rcases hq with rfl | rfl | rfl <;> exact part_eq_nil (hall _)
  have hend : s₂.next = last 2 + 1 := by
    have htotal := length_segment h0 (by omega : first ≤ last 2 + 1) (Int.add_one_le_of_lt hlen)
    rw [hstate.cursor, hout.length_eq, htotal]
    omega
  have hwritten := hstate.written
  rw [hend] at hwritten
  refine (copyBack_ends h0 (by omega) (by omega) hstate.length hwritten).bind fun b ⟨hb, hkept, hseg⟩ => ?_
  refine .some ⟨.of_segment hb h0 (by omega) (by omega) hkept (hseg ▸ hout), ?_, hstate.length.trans htemp.symm⟩
  rw [sortedOn_iff_pairwise h0 (by rw [hb]; omega), hseg]
  exact hstate.merges.sorted

end Merge

/-! ### The recursion -/

section Recursion
variable {arr : List Int} {temp : List (Option Int)} {first final : Int} {turns depth : Nat}

theorem threeWayMergeSortRec_sorts (hdepth : (final - first).toNat < depth) (h0 : 0 ≤ first) (hlen : final < arr.length)
    (hint : arr.length < 2 ^ 30) (htemp : temp.length = arr.length) (hturns : arr.length < turns) :
    Ends (threeWayMergeSortRec turns depth arr (first, final) temp) fun r =>
      Rearranged first (final + 1) arr r.1 ∧ SortedOn r.1 first (final + 1) ∧ r.2.2.length = temp.length := by
  induction depth generalizing arr temp first final with
  | zero => omega
  | succ depth ih =>
    rw [threeWayMergeSortRec]
    by_cases hsmall : final - first < 1
    · rw [if_pos hsmall]
      exact .some ⟨.refl _ _ arr, sortedOn_of_le (by omega), rfl⟩
    · rw [if_neg hsmall, wrap_of_fits ⟨by omega, by omega⟩]
      obtain ⟨m₀, hm₀⟩ : ∃ m, first + (final - first) / 3 = m := ⟨_, rfl⟩
      obtain ⟨m₁, hm₁⟩ : ∃ m, first + 2 * (final - first) / 3 = m := ⟨_, rfl⟩
      simp only [hm₀, hm₁]
      refine (ih (show (m₀ - first).toNat < depth by omega) h0 (by omega) hint htemp hturns).bind ?_
      rintro ⟨b, _, temp₁⟩ ⟨hb, hbs, ht₁⟩
      have hlenb : b.length = arr.length := hb.length
      have ht₁' : temp₁.length = b.length := ht₁.trans (htemp.trans hlenb.symm)
      refine (ih (show (m₁ - (m₀ + 1)).toNat < depth by omega) (by omega) (by omega) (by omega) ht₁' (by omega)).bind ?_
      rintro ⟨c, _, temp₂⟩ ⟨hc, hcs, ht₂⟩
      have hlenc : c.length = b.length := hc.length
      have ht₂' : temp₂.length = c.length := ht₂.trans (ht₁'.trans hlenc.symm)
      refine (ih (show (final - (m₁ + 1)).toNat < depth by omega) (by omega) (by omega) (by omega) ht₂'
        (by omega)).bind ?_
      rintro ⟨d, _, temp₃⟩ ⟨hd, hds, ht₃⟩
      have hlend : d.length = c.length := hd.length
      have ht₃' : temp₃.length = d.length := ht₃.trans (ht₂'.trans hlend.symm)
      -- the later calls leave the parts before theirs as they are
      have hs₀ : SortedOn d first (m₀ + 1) := hbs.congr fun i _ hi =>
        (hd.kept i (by omega)).trans (hc.kept i (by omega))
      have hs₁ : SortedOn d (m₀ + 1) (m₁ + 1) := hcs.congr fun i _ hi => hd.kept i (by omega)
      have hall : Rearranged first (final + 1) arr d := ((hb.mono (Int.le_refl _) (by omega)).trans
        (hc.mono (by omega) (by omega))).trans (hd.mono (by omega) (Int.le_refl _))
      refine (@mergeThreeWay_sorts d first ![m₀, m₁, final] temp₃ turns h0 (show first ≤ m₀ + 1 by omega)
        (show m₀ ≤ m₁ by omega) (show m₁ ≤ final by omega) (show final < d.length by omega) ht₃' hs₀ hs₁ hds
        (show (final + 1 - first).toNat < turns by omega)).bind ?_
      rintro ⟨e, temp₄⟩ ⟨he, hes, ht₄⟩
      exact .some ⟨hall.trans he, hes, ht₄.trans (ht₃'.trans (by omega))⟩

/-- Arrays of less than 2^30 elements are sorted, and no access is outside of the array or of `temp`. -/
theorem three_way_merge_sort_sorts (hint : arr.length < 2 ^ 30) :
    Halts (fun fuel => threeWayMergeSort fuel arr arr.length) (Sorts arr) := by
  refine ⟨arr.length + 1, fun fuel hfuel => ?_⟩
  simp only [threeWayMergeSort]
  split
  · exact .some (sorts_of_length_le (by omega))
  · refine (threeWayMergeSortRec_sorts (show ((arr.length : Int) - 1 - 0).toNat < fuel by omega) (Int.le_refl 0)
      (by omega) hint (by rw [List.length_replicate]; omega) hfuel).bind ?_
    rintro ⟨b, _, _⟩ ⟨hb, hs, -⟩
    refine .some (hb.sorts ?_)
    rwa [hb.length, ← Int.sub_add_cancel (arr.length : Int) 1]

end Recursion

theorem three_way_merge_sort_sorts_four :
    Halts (fun fuel => threeWayMergeSort fuel [3, 1, 2, 1] ([3, 1, 2, 1] : List Int).length) (Sorts [3, 1, 2, 1]) :=
  three_way_merge_sort_sorts (by decide)

end Minitalk.Libft.Sort.ThreeWay
