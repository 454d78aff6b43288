import Mathlib.Data.List.Basic
import Minitalk.Lib.Machine

/-! # Lines

A line ends with the separator `nl`, or at the end of the text. `reading` is a reader of several texts: each of its
inputs asks for the next line of one of them. -/

namespace Lines
variable {α : Type} [DecidableEq α] (nl : α)

/-- The text up to the first separator, and what is behind it. -/
def firstLine (s : List α) : List α := s.take (s.idxOf nl + 1)

def behind (s : List α) : List α := s.drop (s.idxOf nl + 1)

def lines : List α → List (List α)
  | [] => []
  | c :: s =>
    if c = nl then [c] :: lines s
    else
      match lines s with
      | [] => [[c]]
      | l :: ls => (c :: l) :: ls

/-- The consecutive lines of a text: they make up the text, each of them but the last ends with the separator, and
    there is no other separator. -/
structure AreLines (s : List α) (ls : List (List α)) : Prop where
  flatten : ls.flatten = s
  ne_nil : ∀ l ∈ ls, l ≠ []
  body : ∀ l ∈ ls, nl ∉ l.dropLast
  ended : ∀ l ∈ ls.dropLast, l.getLast? = some nl

variable {nl} {s : List α}

/-- A text that has its first separator already, and more text behind it. -/
theorem firstLine_append (hs : nl ∈ s) (u : List α) : firstLine nl (s ++ u) = firstLine nl s := by
  rw [firstLine, firstLine, List.idxOf_append_of_mem hs, List.take_append_of_le_length (List.idxOf_lt_length_of_mem hs)]

theorem behind_append (hs : nl ∈ s) (u : List α) : behind nl (s ++ u) = behind nl s ++ u := by
  rw [behind, behind, List.idxOf_append_of_mem hs, List.drop_append_of_le_length (List.idxOf_lt_length_of_mem hs)]

theorem lines_of_ne_nil (hs : s ≠ []) : lines nl s = firstLine nl s :: lines nl (behind nl s) := by
  induction s with
  | nil => exact absurd rfl hs
  | cons c s ih =>
    by_cases hc : c = nl
    · simp [lines, firstLine, behind, hc]
    · have hfirst : firstLine nl (c :: s) = c :: firstLine nl s := by
        simp [firstLine, List.idxOf_cons_ne s hc]
      have hbehind : behind nl (c :: s) = behind nl s := by
        simp [behind, List.idxOf_cons_ne s hc]
      rw [hfirst, hbehind, lines, if_neg hc]
      cases s with
      | nil => rfl
      | cons d s => rw [ih (List.cons_ne_nil d s)]

theorem lines_ne_nil (hs : s ≠ []) : lines nl s ≠ [] := by
  rw [lines_of_ne_nil hs]
  exact List.cons_ne_nil _ _

theorem areLines_lines (s : List α) : AreLines nl s (lines nl s) := by
  induction s with
  | nil => exact ⟨rfl, by simp [lines], by simp [lines], by simp [lines]⟩
  | cons c s ih =>
    by_cases hc : c = nl
    · rw [lines, if_pos hc]
      refine ⟨by simp [ih.flatten], ?_, ?_, ?_⟩
      · simpa using ih.ne_nil
      · simpa using ih.body
      · intro l hl
        cases hls : lines nl s with
        | nil => simp [hls] at hl
        | cons l' ls =>
          rw [hls, List.dropLast_cons_cons, List.mem_cons] at hl
          rcases hl with rfl | hl
          · simp [hc]
          · exact ih.ended l (by rwa [hls])
    · rw [lines, if_neg hc]
      cases hls : lines nl s with
      | nil =>
        have hs : s = [] := by
          by_contra hne
          exact lines_ne_nil hne hls
        subst hs
        exact ⟨rfl, by simp, by simp, by simp⟩
      | cons l ls =>
        rw [hls] at ih
        have hl := ih.ne_nil l List.mem_cons_self
        refine ⟨by simpa using ih.flatten, ?_, ?_, ?_⟩
        · rintro l' (_ | ⟨_, hmem⟩)
          · exact List.cons_ne_nil _ _
          · exact ih.ne_nil l' (List.mem_cons_of_mem _ hmem)
        · rintro l' (_ | ⟨_, hmem⟩)
          · rw [List.dropLast_cons_of_ne_nil hl, List.mem_cons, not_or]
            exact ⟨Ne.symm hc, ih.body l List.mem_cons_self⟩
          · exact ih.body l' (List.mem_cons_of_mem _ hmem)
        · intro l' hl'
          cases ls with
          | nil => simp at hl'
          | cons m ls =>
            rw [List.dropLast_cons_cons, List.mem_cons] at hl'
            rcases hl' with rfl | hl'
            · rw [List.getLast?_cons_of_ne_nil hl]
              exact ih.ended l (by simp)
            · exact ih.ended l' (by simp [hl'])

section Reading
variable {κ : Type} [DecidableEq κ]

/-- The next line of the text at `k`, if there is one. -/
def reading (nl : α) : Machine (κ → List α) κ (Option (List α)) where
  step texts k :=
    (Function.update texts k (behind nl (texts k)), [if texts k = [] then none else some (firstLine nl (texts k))])

/-- Whatever else is read in between, the lines of a text are read one after the other, and then nothing. -/
theorem answers_reading (texts : κ → List α) (ks : List κ) (k : κ) :
    (Machine.keptOutputs (· = k) ks ((reading nl).outputs texts ks)).flatten =
      (List.range (ks.count k)).map ((lines nl (texts k))[·]?) := by
  induction ks generalizing texts with
  | nil => rfl
  | cons i ks ih =>
    rw [Machine.outputs_cons, Machine.keptOutputs_cons]
    by_cases hi : i = k
    · subst hi
      have hshift : (fun j => (lines nl (behind nl (texts i)))[j]?) = fun j => (lines nl (texts i))[j + 1]? := by
        funext j
        by_cases hs : texts i = []
        · rw [hs]
          rfl
        · rw [lines_of_ne_nil hs, List.getElem?_cons_succ]
      have hhead : (lines nl (texts i))[0]? =
          if texts i = [] then none else some (firstLine nl (texts i)) := by
        by_cases hs : texts i = []
        · rw [hs]
          rfl
        · rw [lines_of_ne_nil hs, if_neg hs, List.getElem?_cons_zero]
      rw [if_pos (decide_eq_true rfl), List.flatten_cons, ih, List.count_cons_self, List.range_succ_eq_map,
        List.map_cons, List.map_map, hhead]
      simp only [reading, Function.update_self, hshift]
      rfl
    · rw [if_neg (by simpa using hi), ih, List.count_cons_of_ne hi]
      simp only [reading, Function.update_of_ne (Ne.symm hi)]

end Reading

end Lines
