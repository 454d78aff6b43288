import Mathlib.Data.Int.Order.Basic
import Minitalk.Lib.CInt
import Minitalk.Lib.FinalPlaces
import Minitalk.Lib.Ranks

/-! # Cycle sort (`ft_cycle_sort`)

A cycle starts with a copy of the element at `start_pos`. That element stays where it is until the cycle comes back to
it. -/

namespace Minitalk.Libft.Sort
open CArray CInt Program Ranks

/-- `arr` points to the index `base`. -/
def findCorrectPosition (arr : List Int) (base size value : Int) : Option Int :=
  forUp 0 size (fun i pos => do if (← load arr (base + i)) < value then some (pos + 1) else some pos) (0 : Int)

def handleDuplicateValues (arr : List Int) (pos value size : Int) : Option Int :=
  if pos < size then do
    let x ← load arr pos
    if x = value then handleDuplicateValues arr (pos + 1) value size else some pos
  else some pos
termination_by (size - pos).toNat

/-- The array and the variables of `process_cycle_item`. -/
structure Cycle where
  arr : List Int
  item : Int
  pos : Int
  writes : Int

namespace Cycle

/-- The duplicates are skipped, and the item changes places with what it finds then. -/
def settle (size pos : Int) (s : Cycle) : Option Cycle := do
  let pos ← handleDuplicateValues s.arr pos s.item size
  if pos < size then
    let x ← load s.arr pos
    if s.item ≠ x then some { arr := ← store s.arr pos s.item, item := x, pos, writes := wrap (s.writes + 1) }
    else some { s with pos }
  else some { s with pos }

/-- What comes before the loop. Where the source returns 0, the loop has no turn. -/
def begin (arr : List Int) (size item startPos : Int) : Option Cycle := do
  let pos := (← findCorrectPosition arr (startPos + 1) (size - startPos - 1) item) + startPos
  let s : Cycle := { arr, item, pos, writes := 0 }
  if pos = startPos then some s else settle size pos s

def goesOn (startPos size : Int) (s : Cycle) : Option Bool := some (decide (s.pos ≠ startPos ∧ s.pos < size))

def turn (size : Int) (s : Cycle) : Option Cycle := do
  let pos ← findCorrectPosition s.arr 0 size s.item
  settle size pos s

end Cycle

def processCycleItem (turns : Nat) (arr : List Int) (size item startPos : Int) : Option (List Int × Int) := do
  let s ← Cycle.begin arr size item startPos
  let s ← whileLoop (Cycle.goesOn startPos size) (Cycle.turn size) turns s
  some (s.arr, s.writes)

/-- One turn of the loop of `ft_cycle_sort`. -/
def cycleFrom (turns : Nat) (size cycleStart : Int) (s : List Int × Int) : Option (List Int × Int) := do
  let (arr, writes) := s
  let item ← load arr cycleStart
  let (arr, more) ← processCycleItem turns arr size item cycleStart
  some (arr, wrap (writes + more))

def ftCycleSort (turns : Nat) (arr : List Int) (size : Int) : Option (List Int × Int) :=
  if size ≤ 1 then some (arr, 0) else forUp 0 (size - 1) (cycleFrom turns size) (arr, 0)

namespace Cycle

/-- Each cell from the index on has the item. -/
def Past (pos : Int) (s : Cycle) : Prop := ∀ i, pos ≤ i → i < s.arr.length → get s.arr i = s.item

/-- The item went to a cell behind its duplicates, and what was there is held now. -/
structure Placed (pos : Int) (s s' : Cycle) : Prop where
  inside : Inside s.arr s'.pos
  low : pos ≤ s'.pos
  skipped : ∀ i, pos ≤ i → i < s'.pos → get s.arr i = s.item
  other : get s.arr s'.pos ≠ s.item
  arr : s'.arr = put s.arr s'.pos s.item
  item : s'.item = get s.arr s'.pos

section Steps
variable {arr a : List Int} {size base pos value : Int} {s s' : Cycle}

theorem findCorrectPosition_ends (h0 : 0 ≤ base) (hsize : 0 ≤ size) (hlen : base + size ≤ arr.length) :
    Ends (findCorrectPosition arr base size value) (· = below (segment arr base (base + size)) value) := by
  refine forUp_rule (fun i (pos : Int) => pos = below (segment arr base (base + i)) value) hsize ?_ ?_
  · rw [Int.add_zero, segment_of_le (Int.le_refl base)]
    rfl
  · rintro i _ hi hlt rfl
    rw [load_eq ⟨by omega, by omega⟩, Option.bind_eq_bind, Option.bind_some, ← Int.add_assoc,
      segment_concat h0 (by omega) (by omega), below_append, below_cons]
    split
    · exact .some rfl
    · exact .some rfl

theorem handleDuplicateValues_ends (h0 : 0 ≤ pos) (hle : pos ≤ arr.length) :
    Ends (handleDuplicateValues arr pos value arr.length) fun p => pos ≤ p ∧ p ≤ arr.length ∧
      (∀ i, pos ≤ i → i < p → get arr i = value) ∧ (p < arr.length → get arr p ≠ value) := by
  induction hn : (arr.length - pos).toNat generalizing pos with
  | zero =>
    rw [handleDuplicateValues, if_neg (by omega)]
    exact .some ⟨Int.le_refl pos, hle, fun i hi hi' => by omega, fun hlt => by omega⟩
  | succ n ih =>
    rw [handleDuplicateValues, if_pos (by omega), load_eq ⟨h0, by omega⟩, Option.bind_eq_bind, Option.bind_some]
    split
    · rename_i heq
      refine (ih (by omega) (by omega) (by omega)).mono ?_
      rintro p ⟨hlow, hhigh, hskip, hother⟩
      refine ⟨by omega, hhigh, fun i hi hi' => ?_, hother⟩
      rcases Int.lt_or_eq_of_le hi with hlt | rfl
      · exact hskip i (by omega) hi'
      · exact heq
    · rename_i hne
      exact .some ⟨Int.le_refl pos, hle, fun i hi hi' => by omega, fun _ => hne⟩

theorem settle_ends (h0 : 0 ≤ pos) (hle : pos ≤ s.arr.length) :
    Ends (settle s.arr.length pos s) fun s' =>
      (Past pos s ∧ s' = { s with pos := s.arr.length }) ∨ Placed pos s s' := by
  refine (handleDuplicateValues_ends h0 hle).bind ?_
  rintro p ⟨hlow, hhigh, hskip, hother⟩
  split
  · rename_i hlt
    have hin : Inside s.arr p := ⟨by omega, hlt⟩
    rw [load_eq hin, Option.bind_eq_bind, Option.bind_some, if_pos (hother hlt).symm, store_eq hin]
    exact .some (Or.inr ⟨hin, hlow, hskip, hother hlt, rfl, rfl⟩)
  · obtain rfl : p = s.arr.length := by omega
    exact .some (Or.inl ⟨hskip, rfl⟩)

/-- One turn places the item, or finds no cell for it. -/
theorem turn_ends (s : Cycle) : Ends (turn s.arr.length s) fun s' =>
    (Past (below s.arr s.item) s ∧ s' = { s with pos := s.arr.length }) ∨ Placed (below s.arr s.item) s s' := by
  refine (findCorrectPosition_ends (Int.le_refl 0) (Int.natCast_nonneg _) (by omega)).bind ?_
  rintro _ rfl
  rw [Int.zero_add, segment_all]
  exact settle_ends (Int.natCast_nonneg _) (Int.ofNat_le.mpr (below_le_length _ _))

end Steps

/-! ### The cycle -/

/-- In a cycle, the element of the start is there twice, and the item is not in the array. -/
structure Held (a : List Int) (start : Int) (s : Cycle) : Prop where
  perm : (s.item :: s.arr).Perm (get a start :: a)
  stale : s.pos ≠ start → get s.arr start = get a start
  back : s.pos = start → s.item = get a start
  past : s.arr.length ≤ s.pos → get a start ≤ s.item

section Runs
variable {a : List Int} {start pos : Int} {s s' : Cycle}

theorem Held.length (h : Held a start s) : s.arr.length = a.length := by
  have hlen := h.perm.length_eq
  simp only [List.length_cons] at hlen
  omega

theorem get_cons_put_perm {p v : Int} (hp : Inside a p) : (get a p :: put a p v).Perm (v :: a) := by
  have hlt : p.toNat < a.length := by
    obtain ⟨h0, hlt⟩ := hp
    omega
  have hperm := List.getD_set_perm_cons a p.toNat v
  rwa [List.getElem?_eq_getElem hlt, Option.getD_some, ← get_eq_getElem hp hlt] at hperm

theorem Placed.perm (h : Placed pos s s') : (s'.item :: s'.arr).Perm (s.item :: s.arr) := by
  rw [h.item, h.arr]
  exact get_cons_put_perm h.inside

/-- The item goes to one of its indices in the order of the array and the item. -/
theorem Placed.home (h : Placed (below s.arr s.item) s s') (hheld : Held a start s) :
    Home (get a start :: a) s'.pos s.item :=
  home_of_skipped hheld.perm h.low (Int.le_of_lt h.inside.2) h.skipped

/-- Only the greatest element has no cell. -/
theorem Held.greatest (h : Held a start s) (hpast : Past (below s.arr s.item) s) :
    ∀ x ∈ get a start :: a, x ≤ s.item := by
  intro x hx
  have hhome := home_of_skipped h.perm (Int.ofNat_le.mpr (below_le_length s.arr s.item)) (Int.le_refl _) hpast
  refine hhome.greatest ?_ hx
  rw [List.length_cons, h.length]
  rfl

theorem Held.step (h : Held a start s) (hstart : start < a.length) (hne : s.pos ≠ start)
    (hs : (Past (below s.arr s.item) s ∧ s' = { s with pos := s.arr.length }) ∨ Placed (below s.arr s.item) s s') :
    Held a start s' := by
  have hlen := h.length
  rcases hs with ⟨hpast, rfl⟩ | hplaced
  · refine ⟨h.perm, fun _ => h.stale hne, fun heq => ?_, fun _ => h.greatest hpast _ List.mem_cons_self⟩
    simp only at heq
    omega
  · have hlen' : s'.arr.length = s.arr.length := by rw [hplaced.arr, length_put]
    refine ⟨hplaced.perm.trans h.perm, fun hne' => ?_, fun heq => ?_, fun hle => ?_⟩
    · rw [hplaced.arr, get_put_ne hplaced.inside hne'.symm]
      exact h.stale hne
    · rw [hplaced.item, heq]
      exact h.stale hne
    · have := hplaced.inside.2
      omega

/-- The turns that are left: each one but the last places an element that was misplaced. -/
def left (m : List Int) (s : Cycle) : Nat := misplaced m s.arr + if s.pos < s.arr.length then 1 else 0

theorem left_lt (h : Held a start s) (hlt : s.pos < s.arr.length)
    (hs : (Past (below s.arr s.item) s ∧ s' = { s with pos := s.arr.length }) ∨ Placed (below s.arr s.item) s s') :
    left (get a start :: a) s' < left (get a start :: a) s := by
  rw [left, left, if_pos hlt]
  rcases hs with ⟨-, rfl⟩ | hplaced
  · rw [if_neg (Int.lt_irrefl _)]
    exact Nat.lt_succ_self _
  · have hmis := misplaced_put hplaced.inside (hplaced.home h) hplaced.other
    rw [← hplaced.arr] at hmis
    split <;> omega

/-- The rule of the loop: what a turn keeps, besides what it always keeps. -/
theorem cycle_rule (J : Cycle → Prop) {turns : Nat} (hturns : a.length + 1 < turns) (hstart : start < a.length)
    (h : Held a start s) (h0 : J s)
    (hstep : ∀ s s', Held a start s → goesOn start a.length s = some true → J s → turn a.length s = some s' →
      (Past (below s.arr s.item) s ∧ s' = { s with pos := s.arr.length }) ∨ Placed (below s.arr s.item) s s' → J s') :
    Ends (whileLoop (goesOn start a.length) (turn a.length) turns s) fun s =>
      Held a start s ∧ J s ∧ goesOn start a.length s = some false := by
  have hfuel : left (get a start :: a) s < turns := by
    have := misplaced_le (get a start :: a) s.arr
    rw [h.length] at this
    rw [left]
    split <;> omega
  refine whileLoop_rule (fun s => Held a start s ∧ J s) (left (get a start :: a)) hfuel ⟨h, h0⟩ ?_
  rintro s ⟨hheld, hJ⟩
  by_cases hgo : s.pos ≠ start ∧ s.pos < a.length
  · have hgoes : goesOn start a.length s = some true := congrArg some (decide_eq_true hgo)
    refine ⟨true, hgoes, ?_⟩
    obtain ⟨s', hturn, hs'⟩ := turn_ends s
    rw [hheld.length] at hturn hs'
    refine ⟨s', hturn, ⟨hheld.step hstart hgo.1 ?_, hstep s s' hheld hgoes hJ hturn ?_⟩, left_lt hheld ?_ ?_⟩
    all_goals rw [hheld.length]
    · exact hs'
    · exact hs'
    · exact hgo.2
    · exact hs'
  · have hstops : goesOn start a.length s = some false := congrArg some (decide_eq_false hgo)
    exact ⟨false, hstops, hheld, hJ, hstops⟩

/-- Behind the start there are too few elements for the first item to find no cell. -/
theorem not_past_begin {rest : Nat} (h0 : 0 ≤ start) (hlt : start < a.length)
    (hrest : below (segment a (start + 1) a.length) (get a start) = rest) (hpos : 0 < rest)
    (hpast : ∀ i, rest + start ≤ i → i < a.length → get a i = get a start) : False := by
  have hlen := length_segment (by omega : 0 ≤ start + 1) (by omega : start + 1 ≤ a.length) (Int.le_refl _)
  have hupTo := upTo_le_length (segment a (start + 1) a.length) (get a start)
  rw [upTo_eq, hrest] at hupTo
  have hcount := count_range (by omega : 0 ≤ (rest : Int) + start) (by omega) (Int.le_refl _) hpast
  have hsplit := segment_append (a := a) (by omega : 0 ≤ start + 1) (by omega : start + 1 ≤ rest + start)
    (by omega : rest + start ≤ a.length)
  have hmore : (a.length - (rest + start)).toNat ≤ (segment a (start + 1) a.length).count (get a start) := by
    rw [hsplit, List.count_append, hcount]
    exact Nat.le_add_left _ _
  omega

/-- The cycle begins with a cell for the first item, or it has no turn since no element behind the start is smaller. -/
theorem begin_ends {rest : Nat} (h0 : 0 ≤ start) (hlt : start < a.length)
    (hrest : below (segment a (start + 1) a.length) (get a start) = rest) :
    Ends (begin a a.length (get a start) start) fun s => Held a start s ∧
      ((s.arr = a ∧ s.pos = start ∧ rest = 0) ∨
        (0 < rest ∧ Placed (rest + start) ⟨a, get a start, rest + start, 0⟩ s)) := by
  refine (findCorrectPosition_ends (by omega) (by omega) (by omega)).bind ?_
  rintro _ rfl
  rw [show start + 1 + ((a.length : Int) - start - 1) = a.length by omega, hrest]
  by_cases hzero : rest = 0
  · rw [hzero]
    simp only [Int.natCast_zero, Int.zero_add, if_true]
    exact .some ⟨⟨.refl _, fun hne => absurd rfl hne, fun _ => rfl, fun _ => Int.le_refl _⟩, Or.inl ⟨rfl, rfl, trivial⟩⟩
  · have hle := below_le_length (segment a (start + 1) a.length) (get a start)
    have hlen := length_segment (by omega : 0 ≤ start + 1) (by omega : start + 1 ≤ a.length) (Int.le_refl _)
    simp only
    rw [if_neg (by omega)]
    refine Ends.mono (settle_ends (s := ⟨a, get a start, rest + start, 0⟩) (by omega) (by simp only; omega)) ?_
    rintro s (⟨hpast, rfl⟩ | hplaced)
    · exact (not_past_begin h0 hlt hrest (by omega) hpast).elim
    · have hlow := hplaced.low
      have hin : Inside a s.pos := hplaced.inside
      have harr : s.arr = put a s.pos (get a start) := hplaced.arr
      have hlen' : s.arr.length = a.length := by rw [harr, length_put]
      refine ⟨⟨hplaced.perm, fun hne => ?_, fun heq => ?_, fun hge => ?_⟩, Or.inr ⟨by omega, hplaced⟩⟩
      · rw [harr, get_put_ne hin hne.symm]
      · omega
      · have := hin.2
        omega

/-- The elements only become smaller: the item that the array does not get is not smaller than the one at the start. -/
theorem Held.below_le (h : Held a start s) (hstops : goesOn start a.length s = some false) (v : Int) :
    below a v ≤ below s.arr v := by
  have hlen := h.length
  have hsame := below_perm h.perm v
  rw [below_cons, below_cons] at hsame
  have hge : get a start ≤ s.item := by
    by_cases hpos : s.pos = start
    · rw [h.back hpos]
    · have hnot := of_decide_eq_false (Option.some.inj hstops)
      exact h.past (by omega)
  split at hsame <;> split at hsame <;> omega

theorem processCycleItem_ends {turns : Nat} (hturns : a.length + 1 < turns) (h0 : 0 ≤ start) (hlt : start < a.length) :
    Ends (processCycleItem turns a a.length (get a start) start) fun r =>
      r.1.length = a.length ∧ ∀ v, below a v ≤ below r.1 v := by
  refine (begin_ends h0 hlt rfl).bind ?_
  rintro s ⟨hheld, -⟩
  refine (cycle_rule (fun _ => True) hturns hlt hheld trivial fun _ _ _ _ _ _ _ => trivial).bind ?_
  rintro s ⟨hheld, -, hstops⟩
  exact .some ⟨hheld.length, hheld.below_le hstops⟩

end Runs

/-! ### Cycles that lose nothing -/

/-- What holds of a cycle as long as every item has found a cell. -/
structure Lossless (a : List Int) (start : Int) (s : Cycle) : Prop where
  inside : start ≤ s.pos ∧ s.pos < a.length
  smaller : s.pos ≠ start → start < below a (get a start)
  final : FinalBefore start s.arr
  above : ∀ i, 0 ≤ i → i < start → get s.arr i ≤ s.item
  done : s.pos = start → FinalBefore (start + 1) s.arr

section Losses
variable {a : List Int} {start : Int} {s s' : Cycle}

theorem goesOn_true {size : Int} (h : goesOn start size s = some true) : s.pos ≠ start ∧ s.pos < size :=
  of_decide_eq_true (Option.some.inj h)

/-- Where the first elements are in their final place, one behind a cell that is smaller than `v` makes all before that
    cell smaller. -/
theorem rank_gt {k j v : Int} (h : FinalBefore start a) (h0 : 0 ≤ k) (hk : k ≤ start) (hkj : k ≤ j) (hj : j < a.length)
    (hless : get a j < v) : k < below a v :=
  lt_below h0 hkj hj (fun i hi hi' => Int.lt_of_le_of_lt (h i j hi (by omega) (by omega) hj) hless) hless

/-- The rank of an item that equals the element of the start. -/
theorem Held.below_eq (h : Held a start s) (heq : s.item = get a start) :
    below s.arr s.item = below a (get a start) := by
  have hsame := below_perm h.perm s.item
  rw [below_cons, below_cons, if_neg (Int.lt_irrefl _), if_neg (by omega)] at hsame
  exact hsame.trans (congrArg (below a) heq)

/-- An item that is not greater than the element of the start has a cell: it would be that element, whose index is
    smaller than its rank. -/
theorem Lossless.not_past (h : Lossless a start s) (hheld : Held a start s) (h0 : 0 ≤ start)
    (hgo : goesOn start a.length s = some true) (hle : s.item ≤ get a start) : ¬Past (below s.arr s.item) s := by
  intro hpast
  obtain ⟨hne, -⟩ := goesOn_true hgo
  have hstale := hheld.stale hne
  have heq : s.item = get a start := Int.le_antisymm hle (hheld.greatest hpast _ List.mem_cons_self)
  have hsmaller := h.smaller hne
  refine absurd (hstale.trans heq.symm) (ne_of_lt_below hpast h0 ?_)
  rw [hheld.below_eq heq]
  exact hsmaller

/-- The item finds its cell from the start on. -/
theorem Lossless.step (h : Lossless a start s) (hheld : Held a start s) (h0 : 0 ≤ start)
    (hgo : goesOn start a.length s = some true) (hplaced : Placed (below s.arr s.item) s s') : Lossless a start s' := by
  obtain ⟨hne, hpos⟩ := goesOn_true hgo
  have hlen := hheld.length
  have hin := hplaced.inside
  have hlow := hplaced.low
  have hafter : start ≤ s'.pos := by
    refine Int.not_lt.mp fun hlt => ?_
    have hless := Int.lt_iff_le_and_ne.mpr ⟨h.above s'.pos hin.1 hlt, hplaced.other⟩
    have hrank := rank_gt h.final hin.1 (Int.le_of_lt hlt) (Int.le_refl _) hin.2 hless
    omega
  have hfinal : FinalBefore start s'.arr := by
    rw [hplaced.arr]
    exact h.final.put hin hafter h.above
  have hinside : s'.pos < a.length := by
    have := hin.2
    omega
  refine ⟨⟨hafter, hinside⟩, fun _ => h.smaller hne, hfinal, fun i hi hi' => ?_, fun heq => ?_⟩
  · rw [hplaced.arr, hplaced.item, get_put_ne hin (by omega)]
    exact h.final i s'.pos hi hi' (by omega) hin.2
  · -- no more elements than there are before the start are smaller than the item
    intro i j hi hi' hij hj
    rcases Int.lt_or_eq_of_le (show i ≤ start by omega) with hlt | rfl
    · exact hfinal i j hi hlt hij hj
    · rw [hplaced.arr, length_put] at hj
      rw [hplaced.arr, ← heq, get_put_self hin, get_put_ne hin (by omega)]
      refine Int.not_lt.mp fun hless => ?_
      have hrank := rank_gt h.final h0 (Int.le_refl _) (Int.le_of_lt hij) hj hless
      omega

/-- The elements before the start and those that are smaller behind it are all that are smaller. -/
theorem below_start {rest : Nat} (h0 : 0 ≤ start) (hlt : start < a.length) (hfinal : FinalBefore start a)
    (hrest : below (segment a (start + 1) a.length) (get a start) = rest) (hpos : 0 < rest) :
    below a (get a start) = rest + start := by
  obtain ⟨j, hj, hj', hless⟩ := exists_lt_of_below (by omega) (Int.le_refl _) (hrest ▸ hpos)
  have hfront : below (segment a 0 start) (get a start) = (segment a 0 start).length := by
    refine List.countP_eq_length.mpr fun x hx => ?_
    obtain ⟨i, hi, hi', rfl⟩ := (mem_segment (Int.le_refl 0) (by omega)).mp hx
    exact decide_eq_true (Int.lt_of_le_of_lt (hfinal i j hi hi' (by omega) hj') hless)
  have hlen := length_segment (Int.le_refl 0) h0 (Int.le_of_lt hlt)
  have hsplit := below_append (segment a 0 start) (segment a start a.length) (get a start)
  rw [← segment_append (Int.le_refl 0) h0 (Int.le_of_lt hlt), segment_all, hfront,
    segment_cons h0 hlt (Int.le_refl _), below_cons, if_neg (Int.lt_irrefl _), hrest] at hsplit
  omega

/-- The first item is not smaller than what is in its final place. -/
theorem lossless_begin {rest : Nat} (h0 : 0 ≤ start) (hlt : start < a.length) (hfinal : FinalBefore start a)
    (hrest : below (segment a (start + 1) a.length) (get a start) = rest)
    (hs : (s.arr = a ∧ s.pos = start ∧ rest = 0) ∨
      (0 < rest ∧ Placed (rest + start) ⟨a, get a start, rest + start, 0⟩ s)) (hheld : Held a start s) :
    Lossless a start s := by
  rcases hs with ⟨harr, hpos, hzero⟩ | ⟨hpos, hplaced⟩
  · have hback := hheld.back hpos
    have hfinal' : FinalBefore start s.arr := harr.symm ▸ hfinal
    refine ⟨by omega, fun hne => absurd hpos hne, hfinal', fun i hi hi' => ?_, fun _ i j hi hi' hij hj => ?_⟩
    · rw [hback, harr]
      exact hfinal i start hi hi' hi' hlt
    · rcases Int.lt_or_eq_of_le (show i ≤ start by omega) with hlt' | rfl
      · exact hfinal' i j hi hlt' hij hj
      · rw [harr] at hj ⊢
        exact le_of_below_eq_zero (by omega) (Int.le_refl _) (hrest.trans hzero) j (by omega) hj
  · have hin : Inside a s.pos := hplaced.inside
    have harr : s.arr = put a s.pos (get a start) := hplaced.arr
    have hitem : s.item = get a s.pos := hplaced.item
    have hlow := hplaced.low
    have hrank := below_start h0 hlt hfinal hrest hpos
    refine ⟨⟨by omega, hin.2⟩, fun _ => by omega, ?_, fun i hi hi' => ?_, fun heq => by omega⟩
    · rw [harr]
      exact hfinal.put hin (by omega) fun i hi hi' => hfinal i start hi hi' hi' hlt
    · rw [harr, hitem, get_put_ne hin (by omega)]
      exact hfinal i s.pos hi hi' (by omega) hin.2

/-- The item goes to a cell that it has in the sorted array, when it is not greater than the element of the start: of
    the cells from its rank on, none has the copy at the start. -/
theorem home_of_held {b : List Int} {v p : Int} (hperm : (v :: b).Perm (get b start :: a)) (hin : Inside b start)
    (hge : v ≤ get b start) (hstart : get b start = v → start < below b v) (hlow : below b v ≤ p) (hle : p ≤ b.length)
    (hskip : ∀ i : Int, below b v ≤ i → i < p → get b i = v) : Home a p v := by
  have hput : (get b start :: put b start (v + 1)).Perm ((v + 1) :: b) := get_cons_put_perm hin
  have hmore : (v :: put b start (v + 1)).Perm ((v + 1) :: a) := by
    refine (List.perm_cons (get b start)).mp ?_
    calc (get b start :: v :: put b start (v + 1)).Perm (v :: get b start :: put b start (v + 1)) := .swap ..
      List.Perm _ (v :: (v + 1) :: b) := hput.cons v
      List.Perm _ ((v + 1) :: v :: b) := .swap ..
      List.Perm _ ((v + 1) :: get b start :: a) := hperm.cons (v + 1)
      List.Perm _ (get b start :: (v + 1) :: a) := .swap ..
  have hrank := below_perm hput v
  rw [below_cons, below_cons, if_neg (by omega), if_neg (by omega), Nat.add_zero, Nat.add_zero] at hrank
  have hhome : Home ((v + 1) :: a) p v := by
    refine home_of_skipped hmore (by omega) (by rwa [length_put]) fun i hi hi' => ?_
    have hne : i ≠ start := by
      rintro rfl
      have := hstart (hskip i (by omega) hi')
      omega
    rw [get_put_ne hin hne]
    exact hskip i (by omega) hi'
  rwa [Home, below_cons, upTo_cons, if_neg (by omega), if_neg (by omega)] at hhome

end Losses
end Cycle

/-! ### Arrays that are sorted -/

/-- The element of `k` belongs to the cell `l`, which has another one. -/
def Leads (a : List Int) (k l : Int) : Prop := Home a l (get a k) ∧ get a l ≠ get a k

/-- From the index `i` to another one, from each cell to one that it leads to and that is behind `i`. -/
inductive OnCycle (a : List Int) (i : Int) : Int → Prop
  | first {l : Int} : Leads a i l → i < l → OnCycle a i l
  | next {k l : Int} : OnCycle a i k → Leads a k l → i < l → OnCycle a i l

theorem OnCycle.behind {a : List Int} {i l : Int} (h : OnCycle a i l) : i < l ∧ l < a.length := by
  have hinside : ∀ {k : Int}, Leads a k l → l < a.length := fun hleads =>
    Int.lt_of_lt_of_le hleads.1.2 (Int.ofNat_le.mpr (upTo_le_length a _))
  cases h with
  | first hleads hlt => exact ⟨hlt, hinside hleads⟩
  | next _ hleads hlt => exact ⟨hlt, hinside hleads⟩

/-- From a cell with an element that belongs elsewhere no greater element is reached. -/
def Orderly (a : List Int) : Prop :=
  ∀ i l, Inside a i → ¬Home a i (get a i) → OnCycle a i l → get a l ≤ get a i

/-- Between two cycles, each element that was moved is where it belongs. -/
structure Tidy (arr a : List Int) : Prop where
  perm : a.Perm arr
  same : ∀ k, Inside a k → get a k = get arr k ∨ Home arr k (get a k)

/-- A cell behind which a smaller element is was not touched yet. -/
theorem Tidy.untouched {arr a : List Int} {start : Int} (h : Tidy arr a) (h0 : 0 ≤ start) (hlt : start < a.length)
    (hrank : start < below a (get a start)) : get a start = get arr start ∧ ¬Home arr start (get arr start) := by
  have hnot : ¬Home arr start (get a start) := by
    rw [← home_perm h.perm]
    exact fun hhome => absurd hhome.1 (by omega)
  have heq := (h.same start ⟨h0, hlt⟩).resolve_right hnot
  exact ⟨heq, heq ▸ hnot⟩

namespace Cycle

/-- In a cycle, so are they, and the item is one that is reached from the start. -/
structure Guided (arr : List Int) (start : Int) (s : Cycle) : Prop where
  same : ∀ k, Inside s.arr k → (k = start → s.pos = start) → get s.arr k = get arr k ∨ Home arr k (get s.arr k)
  reached : s.pos ≠ start → ∃ k, OnCycle arr start k ∧ s.item = get arr k

section Orderly
variable {arr a : List Int} {start : Int} {s s' : Cycle} {turns rest : Nat}

theorem Guided.le (hord : Orderly arr) (htidy : Tidy arr a) (h0 : 0 ≤ start) (hlt : start < a.length)
    (hlossless : Lossless a start s) (h : Guided arr start s) (hne : s.pos ≠ start) : s.item ≤ get a start := by
  obtain ⟨k, hk, hitem⟩ := h.reached hne
  obtain ⟨heq, hnot⟩ := htidy.untouched h0 hlt (hlossless.smaller hne)
  rw [hitem, heq]
  exact hord start k ⟨h0, htidy.perm.length_eq ▸ hlt⟩ hnot hk

theorem Guided.step (h : Guided arr start s) (htidy : Tidy arr a) (hheld : Held a start s) (h0 : 0 ≤ start)
    (hlt : start < a.length) (hle : s.item ≤ get a start) (hne : s.pos ≠ start) (hlossless : Lossless a start s)
    (hlossless' : Lossless a start s') (hplaced : Placed (below s.arr s.item) s s') : Guided arr start s' := by
  have hin := hplaced.inside
  have hstale := hheld.stale hne
  have hhome : Home arr s'.pos s.item := by
    rw [← home_perm htidy.perm]
    refine home_of_held (hstale ▸ hheld.perm) ⟨h0, by rwa [hheld.length]⟩ (hstale ▸ hle) (fun heq => ?_) hplaced.low
      (Int.le_of_lt hin.2) hplaced.skipped
    rw [hheld.below_eq (heq.symm.trans hstale)]
    exact hlossless.smaller hne
  refine ⟨fun k hk hstart => ?_, fun hne' => ?_⟩
  · rw [hplaced.arr] at hk ⊢
    by_cases hkp : k = s'.pos
    · rw [hkp, get_put_self hin]
      exact Or.inr hhome
    · rw [get_put_ne hin hkp]
      refine h.same k ⟨hk.1, length_put .. ▸ hk.2⟩ fun heq => ?_
      exact absurd (heq.trans (hstart heq).symm) hkp
  · obtain ⟨k, hk, hitem⟩ := h.reached hne
    -- what the item finds in its cell does not belong there, so it was not moved yet
    have hfound : get s.arr s'.pos = get arr s'.pos :=
      (h.same s'.pos hin fun heq => absurd heq hne').resolve_right fun hthere =>
        hplaced.other (hthere.unique hhome)
    have hleads : Leads arr k s'.pos := ⟨hitem ▸ hhome, hitem ▸ hfound ▸ hplaced.other⟩
    have hafter := hlossless'.inside.1
    exact ⟨s'.pos, hk.next hleads (by omega), hplaced.item.trans hfound⟩

theorem guided_begin (htidy : Tidy arr a) (h0 : 0 ≤ start) (hlt : start < a.length) (hfinal : FinalBefore start a)
    (hrest : below (segment a (start + 1) a.length) (get a start) = rest)
    (hs : (s.arr = a ∧ s.pos = start ∧ rest = 0) ∨
      (0 < rest ∧ Placed (rest + start) ⟨a, get a start, rest + start, 0⟩ s)) : Guided arr start s := by
  rcases hs with ⟨harr, hpos, -⟩ | ⟨hpos, hplaced⟩
  · exact ⟨fun k hk _ => harr ▸ htidy.same k (harr ▸ hk), fun hne => absurd hpos hne⟩
  have hin : Inside a s.pos := hplaced.inside
  have harr : s.arr = put a s.pos (get a start) := hplaced.arr
  have hother : get a s.pos ≠ get a start := hplaced.other
  have hlow := hplaced.low
  have hrank := below_start h0 hlt hfinal hrest hpos
  obtain ⟨hsame, -⟩ := htidy.untouched h0 hlt (by omega)
  have hhome : Home arr s.pos (get a start) := by
    rw [← home_perm htidy.perm]
    refine home_of_held (.refl _) ⟨h0, hlt⟩ (Int.le_refl _) (fun _ => by omega) (by omega) (Int.le_of_lt hin.2)
      fun i hi hi' => hplaced.skipped i (by omega) hi'
  refine ⟨fun k hk hstart => ?_, fun _ => ?_⟩
  · rw [harr] at hk ⊢
    by_cases hkp : k = s.pos
    · rw [hkp, get_put_self hin]
      exact Or.inr hhome
    · rw [get_put_ne hin hkp]
      exact htidy.same k ⟨hk.1, length_put .. ▸ hk.2⟩
  · have hfound : get a s.pos = get arr s.pos :=
      (htidy.same s.pos hin).resolve_right fun hthere => hother (hthere.unique hhome)
    exact ⟨s.pos, .first ⟨hsame ▸ hhome, hsame ▸ hfound ▸ hother⟩ (by omega), hplaced.item.trans hfound⟩

/-- A cycle of an orderly array puts one more element in its final place. -/
theorem processCycleItem_final (hord : Orderly arr) (hturns : a.length + 1 < turns) (h0 : 0 ≤ start)
    (hlt : start < a.length) (hfinal : FinalBefore start a) (htidy : Tidy arr a) :
    Ends (processCycleItem turns a a.length (get a start) start) fun r =>
      Tidy arr r.1 ∧ FinalBefore (start + 1) r.1 := by
  refine (begin_ends h0 hlt rfl).bind ?_
  rintro s ⟨hheld, hs⟩
  refine (cycle_rule (fun s => Lossless a start s ∧ Guided arr start s) hturns hlt hheld
    ⟨lossless_begin h0 hlt hfinal rfl hs hheld, guided_begin htidy h0 hlt hfinal rfl hs⟩ ?_).bind ?_
  · rintro s s' hheld hgo ⟨hlossless, hguided⟩ - hs'
    obtain ⟨hne, -⟩ := goesOn_true hgo
    have hle := hguided.le hord htidy h0 hlt hlossless hne
    have hplaced := hs'.resolve_left fun hpast => hlossless.not_past hheld h0 hgo hle hpast.1
    have hlossless' := hlossless.step hheld h0 hgo hplaced
    exact ⟨hlossless', hguided.step htidy hheld h0 hlt hle hne hlossless hlossless' hplaced⟩
  · rintro s ⟨hheld, ⟨hlossless, hguided⟩, hstops⟩
    have hback : s.pos = start := by
      have hnot := of_decide_eq_false (Option.some.inj hstops)
      have hinside := hlossless.inside
      omega
    have hperm := hheld.perm
    rw [hheld.back hback] at hperm
    exact .some ⟨⟨((List.perm_cons _).mp hperm).trans htidy.perm, fun k hk => hguided.same k hk fun _ => hback⟩,
      hlossless.done hback⟩

end Orderly
end Cycle

/-! ### The sort -/

section Outer
variable {arr : List Int} {turns n : Nat} {i : Int} {s : List Int × Int}

theorem cycleFrom_of {P : List Int → Prop} (hlen : s.1.length = n) (h0 : 0 ≤ i) (hlt : i < n)
    (h : Ends (processCycleItem turns s.1 s.1.length (get s.1 i) i) fun r => P r.1) :
    Ends (cycleFrom turns n i s) fun s' => P s'.1 := by
  subst hlen
  rw [cycleFrom, load_eq ⟨h0, hlt⟩, Option.bind_eq_bind, Option.bind_some]
  exact h.bind fun r hr => .some hr

/-- The sort ends, and the elements only become smaller. -/
theorem ftCycleSort_ends (hturns : arr.length + 1 < turns) :
    Ends (ftCycleSort turns arr arr.length) fun r => r.1.length = arr.length ∧ ∀ v, below arr v ≤ below r.1 v := by
  rw [ftCycleSort]
  split
  · exact .some ⟨rfl, fun v => Nat.le_refl _⟩
  · refine forUp_rule (fun _ (r : List Int × Int) => r.1.length = arr.length ∧ ∀ v, below arr v ≤ below r.1 v)
      (by omega) ⟨rfl, fun v => Nat.le_refl _⟩ ?_
    rintro i s hi hlt ⟨hlen, hle⟩
    refine cycleFrom_of (P := fun a => a.length = arr.length ∧ ∀ v, below arr v ≤ below a v) hlen hi (by omega)
      ((Cycle.processCycleItem_ends (show s.1.length + 1 < turns by omega) hi (by omega)).mono ?_)
    rintro r ⟨hlen', hle'⟩
    exact ⟨hlen'.trans hlen, fun v => Nat.le_trans (hle v) (hle' v)⟩

theorem ftCycleSort_sorts (hord : Orderly arr) (hturns : arr.length + 1 < turns) :
    Ends (ftCycleSort turns arr arr.length) fun r => Sorts arr r.1 := by
  rw [ftCycleSort]
  split
  · have hs : SortedOn arr 0 arr.length := sortedOn_of_le (by omega)
    exact .some ⟨hs.pairwise, .refl _⟩
  · refine (forUp_rule (fun i s => Tidy arr s.1 ∧ FinalBefore i s.1) (by omega)
      ⟨⟨.refl arr, fun k _ => Or.inl rfl⟩, finalBefore_zero arr⟩ ?_).mono ?_
    · rintro i s hi hlt ⟨htidy, hfinal⟩
      have hlen := htidy.perm.length_eq
      exact cycleFrom_of (P := fun a => Tidy arr a ∧ FinalBefore (i + 1) a) hlen hi (by omega)
        (Cycle.processCycleItem_final hord (show s.1.length + 1 < turns by omega) hi (by omega) hfinal htidy)
    · rintro r ⟨htidy, hfinal⟩
      have hlen := htidy.perm.length_eq
      have hs : SortedOn r.1 0 r.1.length := fun i j hi hij hj => hfinal i j hi (by omega) hij hj
      exact ⟨hs.pairwise, htidy.perm⟩

end Outer

end Minitalk.Libft.Sort
