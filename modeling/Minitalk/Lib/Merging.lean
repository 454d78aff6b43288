import Mathlib.Data.List.Destutter
import Mathlib.Order.Lattice

/-! # Merging sorted lists by a key

`mergeBy key xs ys` takes the smaller of the two first elements, and that of `xs` when their keys are equal.
`distinctBy key` keeps the first element of each stretch of equal keys. `Merges` is the state of a merge of any number
of queues into one. -/

namespace Merging
variable {α β : Type} [LinearOrder β] {key : α → β} {xs ys : List α} {x y : α}

def SortedBy (key : α → β) (xs : List α) : Prop := xs.Pairwise fun x y => key x ≤ key y

def mergeBy (key : α → β) (xs ys : List α) : List α := xs.merge ys fun x y => decide (key x ≤ key y)

/-- What went out is in order, and what is left in the queues is in order and not smaller. -/
structure Merges (out : List β) (queues : List (List β)) (all : List β) : Prop where
  sorted : out.Pairwise (· ≤ ·)
  ordered : ∀ q ∈ queues, q.Pairwise (· ≤ ·)
  before : ∀ x ∈ out, ∀ q ∈ queues, ∀ y ∈ q, x ≤ y
  perm : (out ++ queues.flatten).Perm all

def distinctBy (key : α → β) (xs : List α) : List α := xs.destutter fun x y => key x ≠ key y

/-! ### The merge -/

@[simp] theorem mergeBy_nil_left (key : α → β) (ys : List α) : mergeBy key [] ys = ys := List.nil_merge ys

@[simp] theorem mergeBy_nil_right (key : α → β) (xs : List α) : mergeBy key xs [] = xs := List.merge_right xs

theorem mergeBy_left (h : key x ≤ key y) : mergeBy key (x :: xs) (y :: ys) = x :: mergeBy key xs (y :: ys) :=
  List.cons_merge_cons_pos _ _ _ (decide_eq_true h)

theorem mergeBy_right (h : ¬key x ≤ key y) : mergeBy key (x :: xs) (y :: ys) = y :: mergeBy key (x :: xs) ys :=
  List.cons_merge_cons_neg _ _ _ (by rwa [decide_eq_true_iff])

theorem mergeBy_perm (key : α → β) (xs ys : List α) : (mergeBy key xs ys).Perm (xs ++ ys) := List.merge_perm_append _

theorem mergeBy_sorted (hx : SortedBy key xs) (hy : SortedBy key ys) : SortedBy key (mergeBy key xs ys) := by
  have htrans : ∀ x y z : α, decide (key x ≤ key y) = true → decide (key y ≤ key z) = true →
      decide (key x ≤ key z) = true := fun x y z hxy hyz => by
    simp only [decide_eq_true_eq] at hxy hyz ⊢
    exact le_trans hxy hyz
  have htotal : ∀ x y : α, (decide (key x ≤ key y) || decide (key y ≤ key x)) = true := fun x y => by
    simp only [Bool.or_eq_true, decide_eq_true_eq]
    exact le_total (key x) (key y)
  have hmerge := List.pairwise_merge htrans htotal xs ys (hx.imp decide_eq_true) (hy.imp decide_eq_true)
  exact hmerge.imp of_decide_eq_true

/-- Among equal keys, the elements of the first list come first. -/
theorem mergeBy_stable (hx : SortedBy key xs) (hy : SortedBy key ys) (k : β) :
    (mergeBy key xs ys).filter (key · = k) = xs.filter (key · = k) ++ ys.filter (key · = k) := by
  induction xs generalizing ys with
  | nil => rw [mergeBy_nil_left, List.filter_nil, List.nil_append]
  | cons x xs ihx =>
    induction ys with
    | nil => rw [mergeBy_nil_right, List.filter_nil, List.append_nil]
    | cons y ys ihy =>
      by_cases hle : key x ≤ key y
      · rw [mergeBy_left hle, List.filter_cons, ihx hx.tail hy, List.filter_cons (x := x)]
        split <;> rfl
      · rw [mergeBy_right hle, List.filter_cons, ihy hy.tail, List.filter_cons (x := y)]
        split
        · rename_i hk
          -- the keys of the first list are all greater
          have hnone : (x :: xs).filter (key · = k) = [] := by
            refine List.filter_eq_nil_iff.mpr fun z hz hzk => ?_
            rw [decide_eq_true_eq] at hk hzk
            have hxz : key x ≤ key z :=
              (List.mem_cons.mp hz).elim (fun h => h ▸ le_refl _) (List.rel_of_pairwise_cons hx)
            exact hle (hxz.trans (hzk.trans hk.symm).le)
          rw [hnone, List.nil_append, List.nil_append]
        · rfl

/-! ### Queues -/

section Queues
variable {out all q : List β} {pre post queues : List (List β)} {v : β}

/-- The next element is the head of a queue that is not greater than the other heads. -/
theorem Merges.take (h : Merges out (pre ++ (v :: q) :: post) all)
    (hmin : ∀ q' ∈ pre ++ (v :: q) :: post, ∀ y, q'.head? = some y → v ≤ y) :
    Merges (out ++ [v]) (pre ++ q :: post) all := by
  have hleast : ∀ q' ∈ pre ++ (v :: q) :: post, ∀ y ∈ q', v ≤ y := by
    intro q' hq' y hy
    cases q' with
    | nil => cases hy
    | cons z q' =>
      have hvz := hmin _ hq' z rfl
      rcases List.mem_cons.mp hy with rfl | hy
      · exact hvz
      · exact le_trans hvz (List.rel_of_pairwise_cons (h.ordered _ hq') hy)
  have hqueue : ∀ q' ∈ pre ++ q :: post, ∃ q'' ∈ pre ++ (v :: q) :: post, q'.Sublist q'' := by
    intro q' hq'
    rcases List.mem_append.mp hq' with hq' | hq'
    · exact ⟨q', List.mem_append_left _ hq', List.Sublist.refl q'⟩
    · rcases List.mem_cons.mp hq' with rfl | hq'
      · exact ⟨v :: q', by simp, List.sublist_cons_self v q'⟩
      · exact ⟨q', by simp [hq'], List.Sublist.refl q'⟩
  refine ⟨?_, fun q' hq' => ?_, fun x hx q' hq' y hy => ?_, ?_⟩
  · refine List.pairwise_append.mpr ⟨h.sorted, List.pairwise_singleton _ v, fun x hx y hy => ?_⟩
    rw [List.mem_singleton.mp hy]
    exact h.before x hx (v :: q) (by simp) v List.mem_cons_self
  · obtain ⟨q'', hq'', hsub⟩ := hqueue q' hq'
    exact (h.ordered q'' hq'').sublist hsub
  · obtain ⟨q'', hq'', hsub⟩ := hqueue q' hq'
    rcases List.mem_append.mp hx with hx | hx
    · exact h.before x hx q'' hq'' y (hsub.subset hy)
    · rw [List.mem_singleton.mp hx]
      exact hleast q'' hq'' y (hsub.subset hy)
  · have hperm := h.perm
    simp only [List.flatten_append, List.flatten_cons, List.append_assoc, List.cons_append, List.nil_append] at hperm ⊢
    exact (List.Perm.append_left out List.perm_middle.symm).trans hperm

/-- When the queues are empty, everything went out. -/
theorem Merges.done (h : Merges out queues all) (hempty : ∀ q ∈ queues, q = []) : out.Perm all := by
  have hnil : queues.flatten = [] := List.flatten_eq_nil_iff.mpr hempty
  have hperm := h.perm
  rwa [hnil, List.append_nil] at hperm

end Queues

/-! ### One element for each key -/

theorem distinctBy_same (h : key x = key y) : distinctBy key (x :: y :: xs) = distinctBy key (x :: xs) :=
  List.destutter'_cons_neg (R := fun x y => key x ≠ key y) xs (not_not.mpr h)

theorem distinctBy_other (h : key x ≠ key y) : distinctBy key (x :: y :: xs) = x :: distinctBy key (y :: xs) :=
  List.destutter'_cons_pos (R := fun x y => key x ≠ key y) xs h

theorem distinctBy_sublist (key : α → β) (xs : List α) : (distinctBy key xs).Sublist xs := List.destutter_sublist _ xs

theorem distinctBy_increasing (h : SortedBy key xs) : (distinctBy key xs).Pairwise fun x y => key x < key y := by
  cases xs with
  | nil => exact List.Pairwise.nil
  | cons x xs =>
    induction xs generalizing x with
    | nil => exact List.pairwise_singleton _ x
    | cons y xs ih =>
      have hxy : key x ≤ key y := List.rel_of_pairwise_cons h List.mem_cons_self
      by_cases heq : key x = key y
      · rw [distinctBy_same heq]
        exact ih x (h.sublist ((List.sublist_cons_self y xs).cons_cons x))
      · rw [distinctBy_other heq, List.pairwise_cons]
        refine ⟨fun z hz => ?_, ih y h.tail⟩
        have hyz : key y ≤ key z :=
          (List.mem_cons.mp ((distinctBy_sublist key _).subset hz)).elim (fun h => h ▸ le_refl _)
            (List.rel_of_pairwise_cons h.tail)
        exact lt_of_lt_of_le (lt_of_le_of_ne hxy heq) hyz

theorem mem_distinctBy (key : α → β) (xs : List α) (k : β) : k ∈ (distinctBy key xs).map key ↔ k ∈ xs.map key := by
  refine ⟨fun h => ((distinctBy_sublist key xs).map key).subset h, fun h => ?_⟩
  cases xs with
  | nil => exact h
  | cons x xs =>
    induction xs generalizing x with
    | nil => exact h
    | cons y xs ih =>
      by_cases heq : key x = key y
      · rw [distinctBy_same heq]
        refine ih x ?_
        rw [List.map_cons, List.map_cons, ← heq] at h
        exact (List.mem_cons.mp h).elim (fun h => h ▸ List.mem_cons_self) id
      · rw [distinctBy_other heq, List.map_cons]
        exact (List.mem_cons.mp h).elim (fun h => h ▸ List.mem_cons_self) fun h => List.mem_cons_of_mem _ (ih y h)

end Merging
