/-! # Maximal runs

A list falls into the runs between the elements that satisfy a predicate; the empty ones do not count. -/

namespace Runs
variable {α : Type} {p : α → Bool} {x : α} {l : List α}

def runs (p : α → Bool) (l : List α) : List (List α) := (l.splitOnP p).filter (!·.isEmpty)

@[simp] theorem runs_nil (p : α → Bool) : runs p [] = [] := rfl

/-- A separator in front belongs to no run. -/
theorem runs_cons_of_pos (hx : p x = true) (l : List α) : runs p (x :: l) = runs p l := by
  rw [runs, List.splitOnP_cons_eq_if_modifyHead, if_pos hx]
  rfl

theorem splitOnP_eq (p : α → Bool) (l : List α) :
    l.splitOnP p = l.takeWhile (!p ·) :: (match l.dropWhile (!p ·) with | [] => [] | _ :: rest => rest.splitOnP p) := by
  induction l with
  | nil => rfl
  | cons x l ih =>
    rw [List.splitOnP_cons_eq_if_modifyHead]
    cases hx : p x with
    | true => simp [hx]
    | false =>
      rw [ih]
      simp [hx]

/-- Any other element begins a run. -/
theorem runs_cons_of_neg (hx : p x = false) (l : List α) :
    runs p (x :: l) = (x :: l.takeWhile (!p ·)) :: runs p (l.dropWhile (!p ·)) := by
  have hdrop : runs p (l.dropWhile (!p ·)) =
      (match l.dropWhile (!p ·) with | [] => [] | _ :: rest => rest.splitOnP p).filter (!·.isEmpty) := by
    cases hrest : l.dropWhile (!p ·) with
    | nil => rfl
    | cons d rest =>
      have hd := List.head?_dropWhile_not (!p ·) l
      rw [hrest] at hd
      have hd' : p d = true := by simpa using hd
      exact runs_cons_of_pos hd' rest
  rw [runs, splitOnP_eq, hdrop]
  simp [hx]

/-- Separators in front can be skipped. -/
theorem runs_dropWhile (p : α → Bool) (l : List α) : runs p (l.dropWhile p) = runs p l := by
  induction l with
  | nil => rfl
  | cons x l ih =>
    cases hx : p x with
    | true => rw [List.dropWhile_cons_of_pos hx, runs_cons_of_pos hx, ih]
    | false => rw [List.dropWhile_cons_of_neg (by rw [hx]; decide)]

theorem head_dropWhile {rest : List α} (h : l.dropWhile p = x :: rest) : p x = false := by
  have hx := List.head?_dropWhile_not p l
  rw [h] at hx
  simpa using hx

theorem runs_of_nil (h : l.dropWhile p = []) : runs p l = [] := by
  rw [← runs_dropWhile, h, runs_nil]

/-- The first run, and those behind it. -/
theorem runs_of_cons {rest : List α} (h : l.dropWhile p = x :: rest) :
    runs p l = (x :: rest).takeWhile (!p ·) :: runs p ((x :: rest).dropWhile (!p ·)) := by
  have hx := head_dropWhile h
  rw [← runs_dropWhile, h, runs_cons_of_neg hx, List.takeWhile_cons_of_pos (by rw [hx]; rfl),
    List.dropWhile_cons_of_pos (by rw [hx]; rfl)]

/-- One run for each element that a separator follows. -/
theorem length_runs_flatten {y : α} (hx : p x = false) (hy : p y = true) (n : Nat) :
    (runs p (List.replicate n [x, y]).flatten).length = n := by
  induction n with
  | zero => rfl
  | succ n ih =>
    rw [List.replicate_succ, List.flatten_cons, List.cons_append, runs_cons_of_neg hx, List.length_cons]
    simp only [List.cons_append, List.nil_append]
    rw [List.dropWhile_cons_of_neg (by rw [hy]; decide), runs_cons_of_pos hy, ih]

end Runs
