import Mathlib.Data.List.Perm.Lattice
import Mathlib.Order.BooleanAlgebra.Basic

/-! # Stable sorting by a key

`StablySorted key l m` says that `m` has the elements of `l` in the order of their keys, and those with equal keys in
the order that they have in `l`. A split by one more digit, above all the others, keeps that for the longer key. -/

namespace StableSort
variable {α β : Type} [LinearOrder β] {key key' : α → β} {digit p : α → Bool} {l m : List α} {x y : α}

structure StablySorted (key : α → β) (l m : List α) : Prop where
  perm : m.Perm l
  sorted : m.Pairwise fun x y => key x ≤ key y
  stable : ∀ a, m.filter (key · = key a) = l.filter (key · = key a)

/-- The elements without the digit come first. -/
def splitBy (digit : α → Bool) (l : List α) : List α := l.filter (!digit ·) ++ l.filter digit

/-- The digit is above the key. -/
def Above (digit : α → Bool) (key key' : α → β) : Prop :=
  ∀ x y, key' x ≤ key' y ↔ digit x < digit y ∨ digit x = digit y ∧ key x ≤ key y

theorem stablySorted_start (h : ∀ x y, key x = key y) (l : List α) : StablySorted key l l where
  perm := .refl l
  sorted := List.pairwise_of_forall fun x y => (h x y).le
  stable _ := rfl

theorem splitBy_perm (digit : α → Bool) (l : List α) : (splitBy digit l).Perm l :=
  List.perm_append_comm.trans (List.filter_append_perm digit l)

/-- Elements that all go to one part stay as they are. -/
theorem filter_splitBy {b : Bool} (h : ∀ x, p x = true → digit x = b) : (splitBy digit l).filter p = l.filter p := by
  have hzeros : ∀ x, (p x && !digit x) = (p x && !b) := fun x => by
    cases hx : p x with
    | false => rfl
    | true => rw [h x hx]
  have hones : ∀ x, (p x && digit x) = (p x && b) := fun x => by
    cases hx : p x with
    | false => rfl
    | true => rw [h x hx]
  rw [splitBy, List.filter_append, List.filter_filter, List.filter_filter, List.filter_congr fun x _ => hzeros x,
    List.filter_congr fun x _ => hones x]
  cases b with
  | false => simp only [Bool.not_false, Bool.and_true, Bool.and_false, List.filter_false, List.append_nil]
  | true => simp only [Bool.not_true, Bool.and_true, Bool.and_false, List.filter_false, List.nil_append]

theorem Above.eq_iff (h : Above digit key key') : key' x = key' y ↔ digit x = digit y ∧ key x = key y := by
  constructor
  · intro heq
    rcases (h x y).mp heq.le with hlt | ⟨hdigit, hle⟩
    · rcases (h y x).mp heq.ge with hgt | ⟨hdigit, -⟩
      · exact absurd hgt (lt_asymm hlt)
      · exact absurd hdigit hlt.ne'
    · rcases (h y x).mp heq.ge with hgt | ⟨-, hge⟩
      · exact absurd hdigit hgt.ne'
      · exact ⟨hdigit, le_antisymm hle hge⟩
  · rintro ⟨hdigit, hkey⟩
    exact le_antisymm ((h x y).mpr (Or.inr ⟨hdigit, hkey.le⟩)) ((h y x).mpr (Or.inr ⟨hdigit.symm, hkey.ge⟩))

theorem StablySorted.splitBy (h : StablySorted key l m) (habove : Above digit key key') :
    StablySorted key' l (splitBy digit m) where
  perm := (splitBy_perm digit m).trans h.perm
  sorted := by
    refine List.pairwise_append.mpr ⟨?_, ?_, fun x hx y hy => ?_⟩
    · refine (h.sorted.filter _).imp_of_mem fun {x y} hx hy hle => (habove x y).mpr (Or.inr ⟨?_, hle⟩)
      exact Bool.not_inj ((List.mem_filter.mp hx).2.trans (List.mem_filter.mp hy).2.symm)
    · refine (h.sorted.filter _).imp_of_mem fun {x y} hx hy hle => (habove x y).mpr (Or.inr ⟨?_, hle⟩)
      exact (List.mem_filter.mp hx).2.trans (List.mem_filter.mp hy).2.symm
    · have hzero := (List.mem_filter.mp hx).2
      have hone := (List.mem_filter.mp hy).2
      rw [Bool.not_eq_true'] at hzero
      exact (habove x y).mpr (Or.inl (by rw [hzero, hone]; exact Bool.false_lt_true))
  stable a := by
    have hdigit : ∀ x, decide (key' x = key' a) = true → digit x = digit a := fun x hx =>
      (habove.eq_iff.mp (of_decide_eq_true hx)).1
    have hshort : ∀ l : List α, l.filter (key' · = key' a) = (l.filter (key · = key a)).filter (key' · = key' a) := by
      intro l
      rw [List.filter_filter]
      refine List.filter_congr fun x _ => ?_
      rw [← Bool.decide_and, decide_eq_decide, iff_self_and]
      exact fun heq => (habove.eq_iff.mp heq).2
    rw [filter_splitBy hdigit, hshort m, h.stable a, ← hshort l]

/-! ### What the order of the keys says about another order -/

theorem pair_sublist_or (hx : x ∈ l) (hy : y ∈ l) (hne : x ≠ y) : [x, y].Sublist l ∨ [y, x].Sublist l := by
  obtain ⟨s, t, rfl⟩ := List.append_of_mem hx
  rcases List.mem_append.mp hy with hs | ht
  · have hfirst : [x].Sublist (x :: t) := List.singleton_sublist.mpr List.mem_cons_self
    exact Or.inr ((List.singleton_sublist.mpr hs).append hfirst)
  · have hrest : [y].Sublist t := List.singleton_sublist.mpr ((List.mem_cons.mp ht).resolve_left hne.symm)
    exact Or.inl ((hrest.cons_cons x).trans (List.sublist_append_right s _))

theorem StablySorted.pair (h : StablySorted key l m) (hkey : key x = key y) :
    [x, y].Sublist m ↔ [x, y].Sublist l := by
  have hpair : [x, y].filter (key · = key y) = [x, y] := by simp [hkey]
  have hfilter := h.stable y
  constructor
  · intro hsub
    have hsub := hsub.filter (key · = key y)
    rw [hpair, hfilter] at hsub
    exact hsub.trans List.filter_sublist
  · intro hsub
    have hsub := hsub.filter (key · = key y)
    rw [hpair, ← hfilter] at hsub
    exact hsub.trans List.filter_sublist

/-- The result is in some order when that order agrees with the one of the keys, and where keys are equal with the one
    that the elements had. -/
theorem StablySorted.pairwise_iff {r : α → α → Prop} (h : StablySorted key l m) :
    m.Pairwise r ↔ l.Pairwise fun x y => if key y < key x then r y x else r x y := by
  rw [List.pairwise_iff_forall_sublist, List.pairwise_iff_forall_sublist]
  have hsorted : ∀ {x y}, [x, y].Sublist m → key x ≤ key y := fun hsub =>
    List.pairwise_iff_forall_sublist.mp h.sorted hsub
  constructor
  · intro hr x y hsub
    have hx : x ∈ m := h.perm.mem_iff.mpr (hsub.subset (by simp))
    have hy : y ∈ m := h.perm.mem_iff.mpr (hsub.subset (by simp))
    split
    · rename_i hlt
      rcases pair_sublist_or hx hy fun heq => hlt.ne (congrArg key heq).symm with hxy | hyx
      · exact absurd hlt (hsorted hxy).not_gt
      · exact hr hyx
    · rename_i hnot
      rcases (not_lt.mp hnot).lt_or_eq with hlt | heq
      · rcases pair_sublist_or hx hy fun heq => hlt.ne (congrArg key heq) with hxy | hyx
        · exact hr hxy
        · exact absurd hlt (hsorted hyx).not_gt
      · exact hr ((h.pair heq).mpr hsub)
  · intro hr x y hsub
    have hle := hsorted hsub
    have hx : x ∈ l := h.perm.subset (hsub.subset (by simp))
    have hy : y ∈ l := h.perm.subset (hsub.subset (by simp))
    rcases hle.lt_or_eq with hlt | heq
    · rcases pair_sublist_or hx hy fun heq => hlt.ne (congrArg key heq) with hxy | hyx
      · have hxy := hr hxy
        rwa [if_neg hlt.not_gt] at hxy
      · have hyx := hr hyx
        rwa [if_pos hlt] at hyx
    · have hxy := hr ((h.pair heq).mp hsub)
      rwa [if_neg heq.not_gt] at hxy

end StableSort
